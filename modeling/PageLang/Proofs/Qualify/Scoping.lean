import PageLang.Proofs.Qualify.Layout

/-!
# Block scoping

A reference in a body is qualified if its name resolves, is no parameter, and is not declared in the
blocks around it before it. Everything else is copied.

* `qualify_text`: this holds of every body in which nothing that is called reads as a head.
-/

namespace PageLang.Script

open Cell Qualify

/-- What holds a member: the receiver, or the namespace of the protected members. -/
def owner (names : ResolvableNames) (context : BodyContext) (n : Text) : Text :=
  if n ∈ names.prot then
    match context with
    | .instanced => "__nazcaThis.__nazcaProtected"
    | .freeStanding => "window"
  else "__nazcaThis"

/-- How a reference is spelled where the names `hidden` are declared. -/
def scopedName (names : ResolvableNames) (parameters : List Text) (context : BodyContext)
    (hidden : List Text) (n : Text) : Text :=
  if (n ∈ names.pub ∨ n ∈ names.prot) ∧ n ∉ parameters ∧ n ∉ hidden then
    owner names context n ++ [Byte.dot] ++ n
  else n

theorem spelled_id (s : ScopeStack) (last : Option UInt8) (ps : List Piece) :
    spelled (fun _ t => t) s last ps = bytes (cells ps) := by
  induction ps generalizing s last with
  | nil => rfl
  | cons p ps ih =>
    rw [spelled_cons, ih, cells_cons, bytes_append]
    congr 1
    cases p with
    | marked o m =>
      cases o <;> simp [Piece.spelled, Operand.spelled, Piece.cells, Operand.cells]
    | keyword word space names => simp [Piece.spelled, Piece.cells]

theorem Body.text_eq (b : Body) : b.text = b.lead.text ++ bytes (cells b.statements.pieces) := by
  have := b.statements.spelled_pieces (f := fun _ t => t) (g := fun _ n => n) (fun _ _ _ => rfl)
    (fun _ _ _ => rfl) (fun _ _ _ => rfl) ScopeStack.models_start
    (show none ≠ some Byte.dot by decide) []
  rw [spelled_id] at this
  simpa [Body.text, Body.written, spelled] using this.symm

theorem spelling_of_models {names : ResolvableNames} {parameters : List Text}
    (hnames : ∀ n ∈ names.pub ++ names.prot, IsName n)
    (hparameters : ∀ p ∈ parameters, p.isIdentifier = true) (context : BodyContext)
    {s : ScopeStack} {hidden : List Text} (hs : s.Models hidden) :
    spelling (candidates names parameters) names.prot context s =
      scopedName names parameters context hidden := by
  funext n
  have hdeclared : s.isDeclared n 0 = false ↔ n ∉ hidden := by
    rw [← hs.isDeclared n 0, Bool.not_eq_true]
  have hiff : n ∈ candidates names parameters ∧ s.isDeclared n 0 = false ↔
      (n ∈ names.pub ∨ n ∈ names.prot) ∧ n ∉ parameters ∧ n ∉ hidden := by
    rw [mem_candidates hnames hparameters, hdeclared, and_assoc]
  unfold spelling scopedName
  by_cases h : (n ∈ names.pub ∨ n ∈ names.prot) ∧ n ∉ parameters ∧ n ∉ hidden
  · rw [if_pos (hiff.2 h), if_pos h]
    have hname : n.isIdentifier = true := (hnames n (List.mem_append.2 h.1)).1
    unfold qualified owner
    by_cases hprot : n ∈ names.prot
    · cases context <;> simp [hprot, hname] <;> rfl
    · simp [hprot, hname]
      rfl
  · rw [if_neg fun h' => h (hiff.1 h'), if_neg h]

/-- A body in which nothing that is called reads as a head is spelled by the rules of scoping. -/
theorem qualify_text (b : Body) (hcalled : ∀ n ∈ b.statements.called, readsAsHead n = false)
    {names : ResolvableNames} {parameters : List Text}
    (hnames : ∀ n ∈ names.pub ++ names.prot, IsName n)
    (hparameters : ∀ p ∈ parameters, p.isIdentifier = true) (context : BodyContext) :
    qualify b.text names parameters context =
      b.written (scopedName names parameters context) := by
  have htidy : Tidy none (b.statements.pieces ++ []) :=
    b.statements.tidy_pieces (by decide) trivial
  rw [List.append_nil] at htidy
  rw [b.text_eq, qualify_pieces b.lead.blank htidy (Statements.headless_pieces hcalled) hnames]
  have hspelled := b.statements.spelled_pieces
    (f := spelling (candidates names parameters) names.prot context)
    (g := scopedName names parameters context) (fun s t ht => ?_)
    (fun s hidden hs => spelling_of_models hnames hparameters context hs) (fun hidden n hn => ?_)
    ScopeStack.models_start (show none ≠ some Byte.dot by decide) []
  · simpa [Body.written, spelled] using hspelled
  · refine if_neg fun h => ht ?_
    exact hnames t (List.mem_append.2 ((mem_candidates hnames hparameters).1 h.1).1)
  · exact if_neg fun h => h.2.2 hn

end PageLang.Script
