import PageLang.Proofs.Qualify.Reading
import PageLang.Proofs.Script.Pattern
import PageLang.Proofs.Script.Scope

/-!
# The text that is made

The events of pieces are folded from left to right. A piece leaves the scopes that its braces and
declarations make, and it is spelled as it stands, but for a reference in it (`spelled`).

* `Turns`: what replacements make of a text, and of what follows it.
* `foldl_events`: the replacements made for pieces spell their references.
* `qualify_pieces`: a body of pieces with its references qualified.
-/

namespace PageLang.Script

open Cell Qualify

/-! ## Replacements -/

/-- The replacements `rs` lie in the text `t`, which starts at offset `i`, and make `u` of it. -/
structure Turns (i : Nat) (t : Text) (rs : List Replacement) (u : Text) : Prop where
  start_le : ∀ r ∈ rs, i ≤ r.start
  replaceFrom : ∀ v rs', (∀ r ∈ rs', i + t.length ≤ r.start) →
    Text.replaceFrom i (t ++ v) (rs ++ rs') = u ++ Text.replaceFrom (i + t.length) v rs'

theorem Turns.append {i : Nat} {t t' u u' : Text} {rs rs' : List Replacement}
    (h : Turns i t rs u) (h' : Turns (i + t.length) t' rs' u') :
    Turns i (t ++ t') (rs ++ rs') (u ++ u') where
  start_le r hr := by
    rcases List.mem_append.1 hr with hr | hr
    · exact h.start_le r hr
    · have := h'.start_le r hr
      omega
  replaceFrom v rs'' hle := by
    rw [List.length_append, ← Nat.add_assoc] at hle ⊢
    rw [List.append_assoc, List.append_assoc, h.replaceFrom, h'.replaceFrom v rs'' hle,
      List.append_assoc]
    intro r hr
    rcases List.mem_append.1 hr with hr | hr
    · exact h'.start_le r hr
    · have := hle r hr
      omega

/-- What no replacement touches is copied. -/
theorem turns_nil (i : Nat) (t : Text) : Turns i t [] t where
  start_le := by simp
  replaceFrom v rs hle := by
    cases rs with
    | nil => rfl
    | cons r rs =>
      have hr := hle r (.head _)
      rw [List.nil_append, Text.replaceFrom, Text.replaceFrom, List.take_append,
        List.drop_append, List.take_of_length_le (by omega), List.drop_of_length_le (by omega),
        List.nil_append, Nat.sub_sub, Nat.sub_sub, List.append_assoc, List.append_assoc,
        List.append_assoc]

theorem turns_replacement (i : Nat) (t u : Text) : Turns i t [⟨i, t.length, u⟩] u where
  start_le := by simp
  replaceFrom v rs _ := by simp [Text.replaceFrom]

theorem Turns.replaceAll {t u : Text} {rs : List Replacement} (h : Turns 0 t rs u) :
    t.replaceAll rs = u := by
  have := h.replaceFrom [] [] (by simp)
  simpa [Text.replaceAll, Text.replaceFrom] using this

/-! ## Spellings -/

/-- An operand behind the mark `last`, with a reference spelled by `f`. -/
def Operand.spelled (f : Text → Text) (last : Option UInt8) : Operand → Text
  | word t => if last = some Byte.dot then t else f t
  | o => bytes o.cells

/-- A piece behind the mark `last`, with a reference spelled by `f`. -/
def Piece.spelled (f : Text → Text) (last : Option UInt8) : Piece → Text
  | marked o m => o.spelled f last ++ m.text
  | keyword word space _ => word ++ space

/-- The scopes after a mark. -/
def Mark.scopes (s : ScopeStack) (m : Mark) : ScopeStack :=
  if m.byte = Byte.lbrace then s.push else if m.byte = Byte.rbrace then s.pop else s

/-- The scopes after a piece. -/
def Piece.scopes (s : ScopeStack) : Piece → ScopeStack
  | marked _ m => m.scopes s
  | keyword _ _ names => s.declareAll names

/-- The scopes after pieces. -/
def scopes (s : ScopeStack) (ps : List Piece) : ScopeStack := ps.foldl Piece.scopes s

/-- Pieces with their references spelled by `f`, which is told the scopes. -/
def spelled (f : ScopeStack → Text → Text) :
    (s : ScopeStack) → (last : Option UInt8) → List Piece → Text
  | _, _, [] => []
  | s, last, p :: ps => p.spelled (f s) last ++ spelled f (p.scopes s) (some p.mark) ps

theorem isPlain_scopes {s : ScopeStack} (h : s.IsPlain) (p : Piece) : (p.scopes s).IsPlain := by
  cases p with
  | marked o m =>
    rw [Piece.scopes, Mark.scopes]
    split
    · exact h.push
    · split
      · exact h.pop
      · exact h
  | keyword word space names => exact h.declareAll names

/-! ## What is done about events -/

section
variable (body : MaskedText) (names prot : List Text) (context : BodyContext)

/-- How a word is spelled that is no property. -/
def spelling (s : ScopeStack) (t : Text) : Text :=
  if t ∈ names ∧ s.isDeclared t 0 = false then
    qualified context (prot.contains t) ⟨0, t.length, t, .bare⟩ t
  else t

/-- What `foldl` over events does for a text at offset `i`: the scopes that it leaves, and the
replacements that are made. -/
def Makes (i : Nat) (t : Text) (es : List (Nat × Event)) (p : Progress) (s : ScopeStack)
    (u : Text) : Prop :=
  ∃ rs covered, es.foldl (Progress.step body prot context) p = ⟨s, covered, rs.reverse ++ p.made⟩ ∧
    covered ≤ i + t.length ∧ Turns i t rs u

variable {body names prot context}

theorem Makes.append {i : Nat} {t t' u u' : Text} {es es' : List (Nat × Event)} {p : Progress}
    {s s' : ScopeStack} (h : Makes body prot context i t es p s u)
    (h' : ∀ p' : Progress, p'.scopes = s → p'.covered ≤ i + t.length →
      Makes body prot context (i + t.length) t' es' p' s' u') :
    Makes body prot context i (t ++ t') (es ++ es') p s' (u ++ u') := by
  obtain ⟨rs, covered, hfold, hle, hturns⟩ := h
  obtain ⟨rs', covered', hfold', hle', hturns'⟩ := h' ⟨s, covered, rs.reverse ++ p.made⟩ rfl hle
  refine ⟨rs ++ rs', covered', ?_, by rw [List.length_append]; omega, hturns.append hturns'⟩
  rw [List.foldl_append, hfold, hfold']
  simp

/-- The event of a brace changes the scopes. -/
theorem makes_mark {i : Nat} (m : Mark) {p : Progress} (hle : p.covered ≤ i) (j : Nat) :
    Makes body prot context i m.text (braceEvents j m.byte) p (m.scopes p.scopes) m.text := by
  refine ⟨[], p.covered, ?_, Nat.le_add_right_of_le hle, turns_nil i _⟩
  unfold braceEvents Mark.scopes
  split
  · rfl
  · split <;> rfl

/-- The event of a word replaces it, unless it is no name or hidden. -/
theorem makes_operand {i : Nat} {o : Operand} {p : Progress} (hle : p.covered ≤ i)
    (hplain : p.scopes.IsPlain) (last : Option UInt8) :
    Makes body prot context i (bytes o.cells) (o.events names last i) p p.scopes
      (o.spelled (spelling names prot context p.scopes) last) := by
  have hcopied : Makes body prot context i (bytes o.cells) [] p p.scopes (bytes o.cells) :=
    ⟨[], p.covered, rfl, Nat.le_add_right_of_le hle, turns_nil i _⟩
  cases o with
  | none => exact hcopied
  | string t => exact hcopied
  | word t =>
    have hcells : bytes (Operand.word t).cells = t := by simp [Operand.cells]
    rw [hcells] at hcopied ⊢
    have hdeclared (j : Nat) : p.scopes.isDeclared t j = p.scopes.isDeclared t 0 := by
      simp [ScopeStack.isDeclared, hplain.transient]
    rw [Operand.events, Operand.spelled, spelling]
    by_cases hlast : last = some Byte.dot
    · simpa [hlast] using hcopied
    by_cases hname : t ∈ names
    · rw [if_pos ⟨hlast, hname⟩, if_neg hlast]
      cases hhidden : p.scopes.isDeclared t 0 with
      | true =>
        rw [if_neg (by simp)]
        refine ⟨[], p.covered, ?_, Nat.le_add_right_of_le hle, turns_nil i _⟩
        simp [Progress.step, hdeclared, hhidden]
      | false =>
        rw [if_pos ⟨hname, rfl⟩]
        refine ⟨[⟨i, t.length, _⟩], i + t.length, ?_, Nat.le_refl _, turns_replacement ..⟩
        have : ¬ i < p.covered := by omega
        simp [Progress.step, hdeclared, hhidden, this]
        rfl
    · simpa [hname, hlast] using hcopied

theorem makes_piece {i : Nat} (q : Piece) {p : Progress} (hle : p.covered ≤ i)
    (hplain : p.scopes.IsPlain) (last : Option UInt8) :
    Makes body prot context i (bytes q.cells) (q.events names last i) p (q.scopes p.scopes)
      (q.spelled (spelling names prot context p.scopes) last) := by
  cases q with
  | marked o m =>
    have hcells : bytes (Piece.marked o m).cells = bytes o.cells ++ m.text := by simp [Piece.cells]
    rw [hcells]
    refine (makes_operand hle hplain last).append fun p' hp' hle' => ?_
    rw [Piece.scopes, ← hp']
    exact makes_mark m hle' _
  | keyword word space declared =>
    refine ⟨[], p.covered, rfl, Nat.le_add_right_of_le hle, ?_⟩
    simpa [Piece.cells, Piece.spelled] using turns_nil i (word ++ space)

/-- The replacements made for pieces spell their references. -/
theorem foldl_events {i : Nat} (ps : List Piece) {p : Progress} (hle : p.covered ≤ i)
    (hplain : p.scopes.IsPlain) (last : Option UInt8) :
    Makes body prot context i (bytes (cells ps)) (events names last i ps) p (scopes p.scopes ps)
      (spelled (spelling names prot context) p.scopes last ps) := by
  induction ps generalizing i p last with
  | nil => exact ⟨[], p.covered, rfl, Nat.le_add_right_of_le hle, turns_nil i _⟩
  | cons q ps ih =>
    rw [cells_cons, bytes_append]
    refine (makes_piece q hle hplain last).append fun p' hp' hle' => ?_
    have := ih (i := i + (bytes q.cells).length) (p := p') hle' (hp' ▸ isPlain_scopes hplain q)
      (some q.mark)
    rw [hp', length_bytes] at this
    rwa [length_bytes]

end

/-! ## Bodies -/

/-- The names that references may mean, where the parameters are identifiers. -/
theorem mem_candidates {names : ResolvableNames} {parameters : List Text}
    (hnames : ∀ n ∈ names.pub ++ names.prot, IsName n)
    (hparameters : ∀ p ∈ parameters, p.isIdentifier = true) {n : Text} :
    n ∈ candidates names parameters ↔ (n ∈ names.pub ∨ n ∈ names.prot) ∧ n ∉ parameters := by
  have hbound : parameters.flatMap Pattern.names = parameters := by
    induction parameters with
    | nil => rfl
    | cons p parameters ih =>
      rw [List.forall_mem_cons] at hparameters
      rw [List.flatMap_cons, Pattern.names_of_isIdentifier hparameters.1, ih hparameters.2]
      rfl
  rw [candidates, hbound, Text.mem_sorted, List.mem_filter, List.mem_append]
  refine and_congr_right fun hn => ?_
  obtain ⟨b, rest, rfl, -⟩ := (hnames n (List.mem_append.2 hn)).exists_cons
  simp

/-- A body of pieces holds their cells. -/
theorem rest_pieces {lead : Text} {ps : List Piece} (hlead : Space lead) (hps : ∀ p ∈ ps, p.Fits) :
    (MaskedText.ofText .code (lead ++ bytes (cells ps))).Rest 0 (live lead ++ cells ps) := by
  obtain ⟨depth, hread⟩ := reads_pieces hps 0 lead.reverse []
  have hreads : Mask.State.Reads (.start .code) [] (live lead ++ cells ps) []
      ⟨.live, .code, depth, []⟩ :=
    .append (reads_space hlead [] _) (by simpa using hread)
  have hrest := MaskedText.rest_ofText hreads
  rwa [bytes_append, bytes_live] at hrest

/-- A body of pieces with its references qualified. -/
theorem qualify_pieces {lead : Text} {ps : List Piece} (hlead : Space lead) (hps : Tidy none ps)
    (hheads : Headless ps) {names : ResolvableNames}
    (hnames : ∀ n ∈ names.pub ++ names.prot, IsName n) (parameters : List Text)
    (context : BodyContext) :
    qualify (lead ++ bytes (cells ps)) names parameters context =
      lead ++ spelled (spelling (candidates names parameters) names.prot context) .start none ps := by
  have hrest := rest_pieces hlead hps.fits
  have hcandidates : ∀ n ∈ candidates names parameters, IsName n := by
    intro n hn
    exact hnames n (List.mem_filter.1 (Text.mem_sorted.1 hn)).1
  have hevents := events_eq hlead hps hrest hheads hcandidates (Text.nodup_sorted _)
  have hmakes : Makes (.ofText .code (lead ++ bytes (cells ps))) names.prot context lead.length
      (bytes (cells ps)) (events (candidates names parameters) none lead.length ps) ⟨.start, 0, []⟩
      _ _ :=
    foldl_events ps (Nat.zero_le _) ScopeStack.models_start.toIsPlain none
  obtain ⟨rs, covered, hfold, -, hturns⟩ := hmakes
  have hreplacements : replacements (.ofText .code (lead ++ bytes (cells ps))) names parameters
      context = [] ++ rs := by
    rw [replacements, hevents, hfold]
    simp
  rw [qualify, hreplacements]
  refine ((turns_nil 0 lead).append ?_).replaceAll
  rwa [Nat.zero_add]

end PageLang.Script
