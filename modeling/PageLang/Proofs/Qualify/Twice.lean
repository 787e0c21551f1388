import Mathlib.Data.List.Perm.Basic
import PageLang.Proofs.Qualify.Hidden
import PageLang.Proofs.Qualify.Left

/-!
# Qualifying twice

The references of a qualified body are those that a local declaration hides in the body. So
qualifying it once more changes it if and only if one of them is not hidden any more
(`qualify_qualify`). That happens where the local declarations are read otherwise in the qualified
body; where it declares what the body declares, each declaration at its place, qualifying again
changes nothing.

* `qualify_eq_self_iff`: the bodies that qualifying leaves as they are.
* `ScopeStack.moved`: the scopes of a text in which offsets move.
* `qualify_qualify`: qualifying a qualified body.
-/

namespace PageLang

/-! ## Scopes that move -/

/-- A scope of a text in which offsets move. -/
def BindingScope.moved (f : Nat → Nat) : BindingScope → BindingScope
  | .expression stop => .expression (f stop)
  | .block => .block
  | .function => .function
  | .parameters ofFunction => .parameters ofFunction

/-- A declaration of a text in which offsets move. -/
def LocalDeclaration.moved (f : Nat → Nat) (d : LocalDeclaration) : LocalDeclaration :=
  { d with offset := f d.offset, scope := d.scope.moved f }

namespace ScopeStack

/-- The scopes of a text in which offsets move. -/
def moved (f : Nat → Nat) (s : ScopeStack) : ScopeStack :=
  { s with transient := s.transient.map (fun x => (x.1, f x.2)) }

variable (f : Nat → Nat) (s : ScopeStack)

theorem push_moved : (s.moved f).push = s.push.moved f := by
  unfold push moved
  dsimp only
  split <;> rfl

theorem declareIn_moved (scope : BindingScope) (name : Text) :
    (s.moved f).declareIn (scope.moved f) name = (s.declareIn scope name).moved f := by
  cases scope with
  | block =>
    unfold declareIn BindingScope.moved declare moved
    dsimp only
    split <;> rfl
  | function =>
    unfold declareIn BindingScope.moved declareFunctionScoped moved
    dsimp only
    split <;> rfl
  | parameters ofFunction => rfl
  | expression stop => rfl

theorem apply_moved (d : LocalDeclaration) :
    (s.moved f).apply (d.moved f) = (s.apply d).moved f := by
  unfold apply LocalDeclaration.moved
  dsimp only
  induction d.names generalizing s with
  | nil => rfl
  | cons n names ih => rw [List.foldl_cons, List.foldl_cons, declareIn_moved, ih]

variable {f}

theorem isDeclared_moved (hf : StrictMono f) (name : Text) (i : Nat) :
    (s.moved f).isDeclared name (f i) = s.isDeclared name i := by
  unfold isDeclared moved frames
  simp [List.any_map, Function.comp_def, hf.lt_iff_lt]

end ScopeStack

namespace Qualify

/-- An event of a text in which offsets move. -/
def Event.moved (f : Nat → Nat) : Event → Event
  | .declares d => .declares (d.moved f)
  | .opens => .opens
  | .closes => .closes
  | .refers r => .refers r

theorem scopesOf_map (f : Nat → Nat) (events : List (Nat × Event)) :
    scopesOf (events.map (fun x => (f x.1, x.2.moved f))) = (scopesOf events).moved f := by
  have hstep (s : ScopeStack) (e : Event) :
      (e.moved f).scopes (s.moved f) = (e.scopes s).moved f := by
    cases e with
    | opens => exact s.push_moved f
    | closes => rfl
    | declares d => exact s.apply_moved f d
    | refers r => rfl
  have hfold (s : ScopeStack) : (events.map (fun x => (f x.1, x.2.moved f))).foldl
      (fun scopes x => x.2.scopes scopes) (s.moved f) =
        (events.foldl (fun scopes x => x.2.scopes scopes) s).moved f := by
    induction events generalizing s with
    | nil => rfl
    | cons x events ih => rw [List.map_cons, List.foldl_cons, List.foldl_cons, hstep, ih]
  exact hfold .start

end Qualify

namespace MaskedText

open Qualify

theorem mem_braces_size {s : MaskedText} {j : Nat} {e : Event} : (j, e) ∈ s.braces 0 s.size ↔
    s.liveByte? j = some Byte.lbrace ∧ e = .opens ∨
      s.liveByte? j = some Byte.rbrace ∧ e = .closes := by
  rw [mem_braces, Nat.zero_add]
  refine ⟨fun h => h.2.2, fun h => ⟨Nat.zero_le _, ?_, h⟩⟩
  rcases h with ⟨h, -⟩ | ⟨h, -⟩ <;> exact byte?_eq_some_lt (liveByte?_eq_some h).2

/-- The local declarations that begin in a statement, by kind. -/
def localsByKind (s : MaskedText) (start stop : Nat) : List LocalDeclaration :=
  (s.keywordLocals start stop ++ s.functionLocals start stop ++ s.catchLocals start stop ++
    s.classLocals start stop ++ s.arrowLocals start stop).filter
      (fun d => s.isLive d.offset && !d.names.isEmpty)

/-- The braces and declarations of a body, from what is found in its statements. -/
theorem scopeEvents_eq_of_perm {s : MaskedText} (ds : List LocalDeclaration)
    {es : List (Nat × Event)}
    (hlocals : s.statementRanges.flatMap (fun r => s.localsByKind r.1 r.2) = ds)
    (hperm : (s.braces 0 s.size ++
      ds.map (fun d : LocalDeclaration => (d.offset, Event.declares d))).Perm es)
    (hsorted : (es.map Prod.fst).Pairwise (· < ·)) : s.scopeEvents = es := by
  have hdeclarations : s.declarations.Perm ds :=
    hlocals ▸ List.Perm.flatMap_left _ fun r _ => List.mergeSort_perm _ _
  refine Script.eq_of_perm_of_pairwise_fst (pairwise_sortedBy _ _) (List.pairwise_map.1 hsorted) ?_
  exact (List.mergeSort_perm _ _).trans (.trans (.append_left _ (hdeclarations.map _)) hperm)

/-- The braces and the declaration of a body that has only one. -/
theorem scopeEvents_of_declaration {s : MaskedText} {x : Nat × Event} {rest : List (Nat × Event)}
    (d : LocalDeclaration) (hbraces : s.braces 0 s.size = x :: rest)
    (hlocals : s.statementRanges.flatMap (fun r => s.localsByKind r.1 r.2) = [d])
    (hsorted : ((x :: (d.offset, .declares d) :: rest).map Prod.fst).Pairwise (· < ·)) :
    s.scopeEvents = x :: (d.offset, .declares d) :: rest := by
  refine scopeEvents_eq_of_perm [d] hlocals ?_ hsorted
  rw [hbraces]
  exact .cons x (List.perm_append_singleton _ rest)

end MaskedText

namespace Qualify

open MaskedText

namespace Qualified

variable {t : Text} {ins : Nat → Text} (h : Qualified t ins)
include h

/-- The braces of a qualified body are those of the body. -/
theorem braces_weave :
    (MaskedText.ofText .code (weave ins 0 t)).braces 0 (MaskedText.ofText .code (weave ins 0 t)).size =
      ((MaskedText.ofText .code t).braces 0 (MaskedText.ofText .code t).size).map
        (fun x => (shift ins x.1, x.2.moved (shift ins))) := by
  have hmoved : (((MaskedText.ofText .code t).braces 0 (MaskedText.ofText .code t).size).map
      (fun x => (shift ins x.1, x.2.moved (shift ins)))).Pairwise (·.1 < ·.1) :=
    List.pairwise_map.2 ((pairwise_braces _ 0 _).imp fun hlt => shift_strictMono ins hlt)
  have hbraces := pairwise_braces (.ofText .code (weave ins 0 t)) 0
    (MaskedText.ofText .code (weave ins 0 t)).size
  refine Script.eq_of_perm_of_pairwise_fst (hbraces.imp Nat.le_of_lt) hmoved
    ((List.perm_ext_iff_of_nodup (Script.nodup_of_pairwise_fst hbraces)
      (Script.nodup_of_pairwise_fst hmoved)).2 ?_)
  rintro ⟨p, e⟩
  have hlbrace := h.liveByte?_weave (b := Byte.lbrace) (by decide) (by decide) (by decide) (p := p)
  have hrbrace := h.liveByte?_weave (b := Byte.rbrace) (by decide) (by decide) (by decide) (p := p)
  rw [mem_braces_size, hlbrace, hrbrace, List.mem_map]
  constructor
  · rintro (⟨⟨i, rfl, hi⟩, rfl⟩ | ⟨⟨i, rfl, hi⟩, rfl⟩)
    · exact ⟨(i, .opens), mem_braces_size.2 (.inl ⟨hi, rfl⟩), rfl⟩
    · exact ⟨(i, .closes), mem_braces_size.2 (.inr ⟨hi, rfl⟩), rfl⟩
  · rintro ⟨⟨i, e'⟩, hx, heq⟩
    obtain ⟨rfl, rfl⟩ := Prod.mk.inj heq
    rcases mem_braces_size.1 hx with ⟨hi, rfl⟩ | ⟨hi, rfl⟩
    · exact .inl ⟨⟨i, rfl, hi⟩, rfl⟩
    · exact .inr ⟨⟨i, rfl, hi⟩, rfl⟩

section
variable (hdeclarations : (MaskedText.ofText .code (weave ins 0 t)).declarations =
  (MaskedText.ofText .code t).declarations.map (·.moved (shift ins)))
include hdeclarations

/-- Where a qualified body declares what the body declares, it is read like the body. -/
theorem scopeEvents_weave : (MaskedText.ofText .code (weave ins 0 t)).scopeEvents =
    (MaskedText.ofText .code t).scopeEvents.map
      (fun x => (shift ins x.1, x.2.moved (shift ins))) := by
  rw [scopeEvents, scopeEvents, scopeMarks, scopeMarks, hdeclarations, h.braces_weave,
    map_sortedBy Prod.fst (f := fun x : Nat × Event => (shift ins x.1, x.2.moved (shift ins)))
      fun _ _ => (shift_strictMono ins).le_iff_le]
  simp only [List.map_append, List.map_map]
  rfl

/-- Where a qualified body declares what the body declares, its scopes are those of the body. -/
theorem scopesAt_weave (i : Nat) : (MaskedText.ofText .code (weave ins 0 t)).scopesAt (shift ins i) =
    ((MaskedText.ofText .code t).scopesAt i).moved (shift ins) := by
  rw [scopesAt, scopesAt, h.scopeEvents_weave hdeclarations, List.filter_map, ← scopesOf_map]
  congr 2
  refine List.filter_congr fun x _ => ?_
  simp only [Function.comp_apply, (shift_strictMono ins).le_iff_le]

/-- Where a qualified body declares what the body declares, it hides what the body hides. -/
theorem hides_moved (r : Reference) : (MaskedText.ofText .code (weave ins 0 t)).hides (r.moved ins) =
    (MaskedText.ofText .code t).hides r := by
  rw [hides, hides]
  exact (congrArg (ScopeStack.isDeclared · r.name (shift ins r.offset))
    (h.scopesAt_weave hdeclarations r.offset)).trans
      (ScopeStack.isDeclared_moved _ (shift_strictMono ins) r.name r.offset)

end

end Qualified

/-- Qualifying leaves a body as it is if and only if all its references are hidden. -/
theorem qualify_eq_self_iff (t : Text) {names : ResolvableNames} {parameters : List Text}
    (hnames : ∀ n, n ∈ names.pub ∨ n ∈ names.prot → n.isIdentifier = true) (context : BodyContext) :
    qualify t names parameters context = t ↔
      ∀ r ∈ (candidates names parameters).flatMap (MaskedText.ofText .code t).references,
        (MaskedText.ofText .code t).hides r = true := by
  obtain ⟨rs, hrs, hmem⟩ := exists_replaced_iff t parameters
    (fun n hn => hnames n (mem_candidates_iff.1 hn).1) context
  rw [hrs.qualify_eq hnames]
  constructor
  · intro heq r hr
    by_contra hvisible
    have hr' := (hmem r).2 ⟨hr, by simpa using hvisible⟩
    have hle := (hrs.stands hr').1.le
    have hpos := (hrs.stands hr').1.pos
    have hlt := lt_shift (insertion names.prot context rs) (i := r.offset) (n := t.length)
      (by rw [size_ofText] at hle; omega) (by rw [hrs.insertion_eq hr']; exact qualifier_ne_nil _ _ _)
    have := congrArg List.length heq
    rw [length_weave] at this
    omega
  · intro hall
    refine weave_eq_self fun j _ _ => ?_
    by_contra hj
    obtain ⟨r, hr, -⟩ := exists_of_insertion hj
    obtain ⟨hr, hvisible⟩ := (hmem r).1 hr
    rw [hall r hr] at hvisible
    cases hvisible

/-- Where a text is qualified, qualifiers are inserted in front of exactly the references that are
not hidden. -/
theorem insertion_ne_nil_iff {t : Text} {names : ResolvableNames} {parameters : List Text}
    {context : BodyContext} {rs : List Reference}
    (h : Replaced (.ofText .code t) names parameters context rs)
    (hmem : ∀ r, r ∈ rs ↔ r ∈ (candidates names parameters).flatMap
      (MaskedText.ofText .code t).references ∧ (MaskedText.ofText .code t).hides r = false) (i : Nat) :
    insertion names.prot context rs i ≠ [] ↔
      ∃ r ∈ (candidates names parameters).flatMap (MaskedText.ofText .code t).references,
        r.offset = i ∧ (MaskedText.ofText .code t).hides r = false := by
  constructor
  · intro hi
    obtain ⟨r, hr, hoffset, -⟩ := exists_of_insertion hi
    exact ⟨r, ((hmem r).1 hr).1, hoffset, ((hmem r).1 hr).2⟩
  · rintro ⟨r, hr, rfl, hvisible⟩
    rw [h.insertion_eq ((hmem r).2 ⟨hr, hvisible⟩)]
    exact qualifier_ne_nil _ _ _

/-- Qualifying a qualified body. What is left in it to qualify are references of the body that are
hidden there, and they are qualified the second time where they are not hidden any more. Where the
qualified body declares what the body declares, at the same places, none is. -/
theorem qualify_qualify (body : Text) {names : ResolvableNames}
    (hnames : ∀ n, n ∈ names.pub ∨ n ∈ names.prot →
      n.isIdentifier = true ∧ n ≠ receiver ∧ n ≠ globalNamespace)
    (parameters : List Text) (context : BodyContext) :
    let once := qualify body names parameters context
    let s := MaskedText.ofText .code body
    let s' := MaskedText.ofText .code once
    let found := fun s : MaskedText => (candidates names parameters).flatMap s.references
    ∃ ins : Nat → Text, once = weave ins 0 body ∧
      (∀ i, ins i ≠ [] ↔ ∃ r ∈ found s, r.offset = i ∧ s.hides r = false) ∧
      (∀ r', r' ∈ found s' ↔ ∃ r ∈ found s,
        s.hides r = true ∧ ins (r.offset + r.width) = [] ∧ r' = r.moved ins) ∧
      (qualify once names parameters context = once ↔ ∀ r ∈ found s,
        s.hides r = true → ins (r.offset + r.width) = [] → s'.hides (r.moved ins) = true) ∧
      (s'.declarations = s.declarations.map (·.moved (shift ins)) →
        qualify once names parameters context = once) := by
  intro once s s' found
  have hidentifiers (n : Text) (hn : n ∈ names.pub ∨ n ∈ names.prot) : n.isIdentifier = true :=
    (hnames n hn).1
  have hcandidates (n : Text) (hn : n ∈ candidates names parameters) :=
    hnames n (mem_candidates_iff.1 hn).1
  obtain ⟨rs, hrs, hmem⟩ :=
    exists_replaced_iff body parameters (fun n hn => (hcandidates n hn).1) context
  have hqualified := hrs.qualified hidentifiers
  have honce : once = weave (insertion names.prot context rs) 0 body := hrs.qualify_eq hidentifiers
  have hinsertion := insertion_ne_nil_iff hrs hmem
  generalize insertion names.prot context rs = ins at hqualified honce hinsertion
  have hs' : s' = .ofText .code (weave ins 0 body) := congrArg (ofText .code) honce
  -- references at one offset are one reference, so one is not qualified if and only if it is hidden
  have hhidden (r : Reference) (hr : r ∈ found s) : ins r.offset = [] ↔ s.hides r = true := by
    rw [← not_iff_not, ← ne_eq, hinsertion, Bool.not_eq_true]
    refine ⟨?_, fun hvisible => ⟨r, hr, rfl, hvisible⟩⟩
    rintro ⟨r₁, hr₁, hoffset, hvisible⟩
    obtain ⟨n, -, hn⟩ := List.mem_flatMap.1 hr₁
    have hpos := (stands_of_mem_references hn).1.pos
    obtain rfl := (eq_or_le_of_references (fun n hn => (hcandidates n hn).1) hr₁ hr
      (Nat.le_of_eq hoffset)).resolve_right (by omega)
    exact hvisible
  have hleft (r' : Reference) : r' ∈ found s' ↔ ∃ r ∈ found s,
      s.hides r = true ∧ ins (r.offset + r.width) = [] ∧ r' = r.moved ins := by
    rw [hs']
    refine (hqualified.mem_references_iff hcandidates).trans (exists_congr fun r => ?_)
    exact and_congr_right fun hr => and_congr_left' (hhidden r hr)
  have htwice : qualify once names parameters context = once ↔ ∀ r ∈ found s,
      s.hides r = true → ins (r.offset + r.width) = [] → s'.hides (r.moved ins) = true := by
    rw [qualify_eq_self_iff once hidentifiers context]
    constructor
    · exact fun hall r hr hhides hins => hall _ ((hleft _).2 ⟨r, hr, hhides, hins, rfl⟩)
    · intro hall r' hr'
      obtain ⟨r, hr, hhides, hins, rfl⟩ := (hleft r').1 hr'
      exact hall r hr hhides hins
  refine ⟨ins, honce, hinsertion, hleft, htwice, fun hdeclarations => ?_⟩
  refine htwice.2 fun r hr hhides _ => ?_
  rw [hs'] at hdeclarations ⊢
  rw [hqualified.hides_moved hdeclarations r]
  exact hhides

/-! ## A default that names a later parameter -/

/-- A function whose first parameter has a default that names the second one. -/
def sampleDefault : Text := "\x7b return function(\x7b a = c \x7d, c) \x7b return a; \x7d; \x7d"

/-- The same function, qualified where only `c` can be. -/
def sampleDefaultOnce : Text :=
  "\x7b return function(\x7b a = c \x7d, __nazcaThis.c) \x7b return a; \x7d; \x7d"

def sampleDefaultNames : ResolvableNames := ⟨["c"], []⟩

theorem isIdentifier_sampleDefault (n : Text)
    (hn : n ∈ sampleDefaultNames.pub ∨ n ∈ sampleDefaultNames.prot) :
    n.isIdentifier = true ∧ n ≠ receiver ∧ n ≠ globalNamespace := by
  obtain rfl : n = Text.ofString "c" := by simpa [sampleDefaultNames] using hn
  decide

theorem stands_sampleDefault : ∀ i ∈ [24, 29],
    Reference.Stands (.ofText .code sampleDefault) ⟨i, 1, "c", .bare⟩ := by
  intro i hi
  obtain rfl | rfl : i = 24 ∨ i = 29 := by simpa using hi
  all_goals exact ⟨by decide, by decide, by decide, by decide, by decide, by decide⟩

/-- The function pattern binds both parameters. -/
theorem scopeEvents_sampleDefault : (MaskedText.ofText .code sampleDefault).scopeEvents =
    [(0, .opens), (9, .declares ⟨9, ["a", "c"], .parameters true⟩), (18, .opens), (26, .closes),
      (32, .opens), (44, .closes), (47, .closes)] :=
  scopeEvents_of_declaration ⟨9, ["a", "c"], .parameters true⟩ rfl (by decide +kernel) (by decide)

/-- A parameter that is a property is bound by no pattern. -/
theorem scopeEvents_sampleDefaultOnce : (MaskedText.ofText .code sampleDefaultOnce).scopeEvents =
    [(0, .opens), (9, .declares ⟨9, ["a"], .parameters true⟩), (18, .opens), (26, .closes),
      (44, .opens), (56, .closes), (59, .closes)] :=
  scopeEvents_of_declaration ⟨9, ["a"], .parameters true⟩ rfl (by decide +kernel) (by decide)

/-- The references are the default and the second parameter. -/
theorem mem_references_sampleDefault {r : Reference} :
    r ∈ (candidates sampleDefaultNames []).flatMap (MaskedText.ofText .code sampleDefault).references ↔
      r = ⟨24, 1, "c", .bare⟩ ∨ r = ⟨29, 1, "c", .bare⟩ := by
  have hname : (Text.ofString "c").isIdentifier = true := by decide
  have hcandidate (n : Text) : n ∈ candidates sampleDefaultNames [] ↔ n = Text.ofString "c" := by
    rw [mem_candidates_iff]
    refine ⟨fun h => by simpa [sampleDefaultNames] using h.1, ?_⟩
    rintro rfl
    exact ⟨.inl (by decide), by simp, by decide⟩
  have hfound : r ∈ (candidates sampleDefaultNames []).flatMap
      (MaskedText.ofText .code sampleDefault).references ↔
        r.Stands (.ofText .code sampleDefault) ∧ r.name = Text.ofString "c" := by
    rw [List.mem_flatMap]
    simp only [hcandidate, exists_eq_left, mem_references_iff hname]
  rw [hfound]
  constructor
  · rintro ⟨hr, hrname⟩
    rw [← hrname] at hname
    -- there is no bracket, so the name is the word at the offset
    obtain ⟨b, hb, ⟨hform, -⟩ | ⟨-, rfl⟩⟩ := hr.first hname
    · have hword := (hr.takeWhile hname).1
      rw [show r.nameStart = r.offset by rw [Reference.nameStart, hform], hrname] at hword
      have hlt : r.offset < 48 := byte?_eq_some_lt hb
      have hoffset : ∀ i < 48, (sampleDefault.drop i).takeWhile Byte.isWord = Text.ofString "c" →
          i = 24 ∨ i = 29 := by decide
      exact (hoffset _ hlt hword).imp
        (hr.eq_of_offset hname (stands_sampleDefault 24 (by decide)) (by decide))
        (hr.eq_of_offset hname (stands_sampleDefault 29 (by decide)) (by decide))
    · rw [byte?_ofText] at hb
      exact absurd (List.mem_of_getElem? hb) (by decide)
  · rintro (rfl | rfl)
    · exact ⟨stands_sampleDefault 24 (by decide), rfl⟩
    · exact ⟨stands_sampleDefault 29 (by decide), rfl⟩

/-- The brace of the first pattern takes the parameters, and the second one is read behind it. -/
theorem hides_sampleDefault :
    (MaskedText.ofText .code sampleDefault).hides ⟨24, 1, "c", .bare⟩ = true ∧
      (MaskedText.ofText .code sampleDefault).hides ⟨29, 1, "c", .bare⟩ = false ∧
        (MaskedText.ofText .code sampleDefaultOnce).hides ⟨24, 1, "c", .bare⟩ = false := by
  unfold hides scopesAt
  rw [scopeEvents_sampleDefault, scopeEvents_sampleDefaultOnce]
  decide

theorem qualify_sampleDefault :
    qualify sampleDefault sampleDefaultNames [] .instanced = sampleDefaultOnce := by
  have hnames (n : Text) (hn : n ∈ sampleDefaultNames.pub ∨ n ∈ sampleDefaultNames.prot) :=
    (isIdentifier_sampleDefault n hn).1
  obtain ⟨hhidden, hvisible, -⟩ := hides_sampleDefault
  obtain ⟨rs, hrs, hmem⟩ := exists_replaced_iff sampleDefault []
    (fun n hn => hnames n (mem_candidates_iff.1 hn).1) .instanced
  have hinsertion : insertion sampleDefaultNames.prot .instanced rs =
      fun i => if i = 29 then qualifier .instanced false .bare else [] := by
    funext i
    split
    · next hi =>
      subst hi
      exact hrs.insertion_eq ((hmem ⟨29, 1, "c", .bare⟩).2
        ⟨mem_references_sampleDefault.2 (.inr rfl), hvisible⟩)
    · next hi =>
      by_contra hne
      obtain ⟨r, hr, rfl, hr'⟩ := (insertion_ne_nil_iff hrs hmem i).1 hne
      rcases mem_references_sampleDefault.1 hr with rfl | rfl
      · rw [hhidden] at hr'
        cases hr'
      · exact hi rfl
  rw [hrs.qualify_eq hnames, hinsertion]
  decide

/-- The function pattern of the qualified body does not bind the second parameter, so the default is
qualified the second time. -/
theorem qualify_qualify_sampleDefault :
    (∀ n, n ∈ sampleDefaultNames.pub ∨ n ∈ sampleDefaultNames.prot →
      n.isIdentifier = true ∧ n ≠ receiver ∧ n ≠ globalNamespace) ∧
    qualify sampleDefault sampleDefaultNames [] .instanced = sampleDefaultOnce ∧
    qualify sampleDefaultOnce sampleDefaultNames [] .instanced ≠ sampleDefaultOnce := by
  refine ⟨isIdentifier_sampleDefault, qualify_sampleDefault, fun heq => ?_⟩
  obtain ⟨hhidden, -, hvisible⟩ := hides_sampleDefault
  have hresult := qualify_qualify sampleDefault isIdentifier_sampleDefault [] .instanced
  rw [qualify_sampleDefault] at hresult
  obtain ⟨ins, -, hins, -, htwice, -⟩ := hresult
  -- only the second parameter is qualified
  have hnone (i : Nat) (hi : i ≠ 29) : ins i = [] := by
    by_contra hne
    obtain ⟨r, hr, rfl, hr'⟩ := (hins i).1 hne
    rcases mem_references_sampleDefault.1 hr with rfl | rfl
    · rw [hhidden] at hr'
      cases hr'
    · exact hi rfl
  have hshift : shift ins 24 = 24 := by
    have := shift_add ins (i := 0) (w := 24) fun j _ hj => hnone j (by omega)
    simpa [shift] using this
  have htwo := htwice.1 heq ⟨24, 1, "c", .bare⟩ (mem_references_sampleDefault.2 (.inl rfl)) hhidden
    (hnone 25 (by decide))
  rw [Reference.moved, hshift, hvisible] at htwo
  cases htwo

end Qualify

end PageLang
