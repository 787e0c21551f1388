import PageLang.Proofs.Qualify.Apart

/-!
# Hidden references

The events of a body are sorted by their offsets, and the sort keeps the order of the events at one
offset, so a reference is read when exactly the braces and declarations up to its offset have been
read. References change no scopes and do not overlap. So a reference is replaced if and only if no
local declaration hides it (`exists_replaced_iff`), whatever other names are looked for.

* `pairwise_sortedBy_append`, `filter_sortedBy_append`: sorting two lists one behind the other.
* `MaskedText.scopesAt`: the scopes at an offset of a body.
* `Qualify.exists_replaced_iff`: which references are replaced.
-/

namespace PageLang

/-! ## Stable sorting -/

section
variable {α : Type}

theorem map_sortedBy (key : α → Nat) {f : α → α}
    (hf : ∀ x y, key (f x) ≤ key (f y) ↔ key x ≤ key y) (l : List α) :
    (sortedBy key l).map f = sortedBy key (l.map f) :=
  List.map_mergeSort fun x _ y _ => decide_eq_decide.2 (hf x y).symm

theorem zipIdxLE_key {key : α → Nat} {x y : α × Nat} :
    List.zipIdxLE (fun a b => decide (key a ≤ key b)) x y = true ↔
      key x.1 ≤ key y.1 ∧ (key x.1 = key y.1 → x.2 ≤ y.2) := by
  simp only [List.zipIdxLE, decide_eq_true_eq]
  split
  · split
    · simp only [decide_eq_true_eq]
      omega
    · simp
      omega
  · simp
    omega

/-- In a sorted list with the positions that its elements had, elements of one key stand in the
order of the positions. -/
theorem pairwise_sortedBy_zipIdx (key : α → Nat) (l : List α) :
    (l.zipIdx.mergeSort (List.zipIdxLE fun a b => decide (key a ≤ key b))).Pairwise
      (fun x y => key x.1 ≤ key y.1 ∧ (key x.1 = key y.1 → x.2 ≤ y.2)) := by
  refine (List.pairwise_mergeSort (List.zipIdxLE_trans ?_) (List.zipIdxLE_total ?_) _).imp
    zipIdxLE_key.1
  · intro a b c hab hbc
    simp only [decide_eq_true_eq] at hab hbc ⊢
    omega
  · intro a b
    simp only [Bool.or_eq_true, decide_eq_true_eq]
    omega

variable (key : α → Nat) {p : α → Bool} {l m : List α}

/-- Of elements of one key, those of the second list come behind those of the first. -/
theorem pairwise_sortedBy_append (hl : ∀ x ∈ l, p x = false) (hm : ∀ x ∈ m, p x = true) :
    (sortedBy key (l ++ m)).Pairwise
      (fun x y => key x ≤ key y ∧ (key x = key y → p x = true → p y = true)) := by
  rw [sortedBy, ← List.mergeSort_zipIdx, List.pairwise_map]
  refine (pairwise_sortedBy_zipIdx key (l ++ m)).imp_of_mem
    fun {x y} hx hy h => ⟨h.1, fun heq hp => ?_⟩
  have hx := List.mem_zipIdx_iff_getElem?.1 (List.mem_mergeSort.1 hx)
  have hy := List.mem_zipIdx_iff_getElem?.1 (List.mem_mergeSort.1 hy)
  have hle : l.length ≤ x.2 := by
    by_contra hlt
    rw [List.getElem?_append_left (by omega)] at hx
    rw [hl _ (List.mem_of_getElem? hx)] at hp
    cases hp
  have := h.2 heq
  rw [List.getElem?_append_right (by omega)] at hy
  exact hm _ (List.mem_of_getElem? hy)

/-- The elements of the first list are sorted as they would be alone. -/
theorem filter_sortedBy_append (hl : ∀ x ∈ l, p x = false) (hm : ∀ x ∈ m, p x = true) :
    (sortedBy key (l ++ m)).filter (fun x => !p x) = sortedBy key l := by
  rw [sortedBy, sortedBy, ← List.mergeSort_zipIdx, ← List.mergeSort_zipIdx (l := l), List.filter_map]
  congr 1
  refine List.Perm.eq_of_pairwise (fun x y hx hy hxy hyx => ?_)
    ((pairwise_sortedBy_zipIdx key (l ++ m)).filter _) (pairwise_sortedBy_zipIdx key l) ?_
  · -- elements at one position are one element
    have hx := List.mem_zipIdx_iff_getElem?.1 (List.mem_mergeSort.1 (List.mem_filter.1 hx).1)
    have hy := List.mem_zipIdx_iff_getElem?.1 (List.mem_mergeSort.1 hy)
    have hkey := Nat.le_antisymm hxy.1 hyx.1
    have hposition := Nat.le_antisymm (hxy.2 hkey) (hyx.2 hkey.symm)
    have hlt := (List.getElem?_eq_some_iff.1 hy).1
    rw [hposition, List.getElem?_append_left hlt, hy] at hx
    exact Prod.ext (Option.some.inj hx).symm hposition
  · refine ((List.mergeSort_perm _ _).filter _).trans (.trans ?_ (List.mergeSort_perm _ _).symm)
    have hall : l.zipIdx.filter ((fun x => !p x) ∘ fun x => x.1) = l.zipIdx :=
      List.filter_eq_self.2 fun x hx => by
        simp [hl _ (List.mem_of_getElem? (List.mem_zipIdx_iff_getElem?.1 hx))]
    have hnone : (m.zipIdx (0 + l.length)).filter ((fun x => !p x) ∘ fun x => x.1) = [] :=
      List.filter_eq_nil_iff.2 fun x hx => by
        simp [hm _ (List.fst_mem_of_mem_zipIdx hx)]
    rw [List.zipIdx_append, List.filter_append, hall, hnone, List.append_nil]

end

namespace Qualify

/-- What an event makes of the scopes. -/
def Event.scopes (s : ScopeStack) : Event → ScopeStack
  | .opens => s.push
  | .closes => s.pop
  | .declares d => s.apply d
  | .refers _ => s

/-- Whether an event is a reference. -/
def Event.isReference : Event → Bool
  | .refers _ => true
  | _ => false

/-- The scopes behind events. -/
def scopesOf (events : List (Nat × Event)) : ScopeStack :=
  events.foldl (fun scopes x => x.2.scopes scopes) .start

end Qualify

namespace MaskedText

open Qualify

/-- The local declarations of a body. -/
def declarations (s : MaskedText) : List LocalDeclaration :=
  s.statementRanges.flatMap (fun r => s.locals r.1 r.2)

/-- The braces of a body, and then its declarations. -/
def scopeMarks (s : MaskedText) : List (Nat × Event) :=
  s.braces 0 s.size ++ s.declarations.map (fun d => (d.offset, .declares d))

/-- The braces and declarations of a body, by their offsets. -/
def scopeEvents (s : MaskedText) : List (Nat × Event) := sortedBy Prod.fst s.scopeMarks

/-- The scopes at an offset. -/
def scopesAt (s : MaskedText) (i : Nat) : ScopeStack :=
  scopesOf (s.scopeEvents.filter (fun x => x.1 ≤ i))

/-- Whether a local declaration hides a reference. -/
def hides (s : MaskedText) (r : Reference) : Bool := (s.scopesAt r.offset).isDeclared r.name r.offset

theorem events_eq_sortedBy (s : MaskedText) (names : List Text) :
    s.events names = sortedBy Prod.fst
      (s.scopeMarks ++ (names.flatMap s.references).map (fun r => (r.offset, .refers r))) := rfl

theorem isReference_scopeMarks {s : MaskedText} {x : Nat × Event} (hx : x ∈ s.scopeMarks) :
    x.2.isReference = false := by
  rcases List.mem_append.1 hx with hx | hx
  · obtain ⟨-, -, ⟨-, he⟩ | ⟨-, he⟩⟩ := mem_braces.1 hx <;> rw [he] <;> rfl
  · obtain ⟨d, -, rfl⟩ := List.mem_map.1 hx
    rfl

theorem isReference_references {s : MaskedText} {names : List Text} {x : Nat × Event}
    (hx : x ∈ (names.flatMap s.references).map (fun r => (r.offset, Event.refers r))) :
    x.2.isReference = true := by
  obtain ⟨r, -, rfl⟩ := List.mem_map.1 hx
  rfl

/-- At one offset the references come last. -/
theorem pairwise_events_isReference (s : MaskedText) (names : List Text) :
    (s.events names).Pairwise (fun x y =>
      x.1 ≤ y.1 ∧ (x.1 = y.1 → x.2.isReference = true → y.2.isReference = true)) :=
  s.events_eq_sortedBy names ▸ pairwise_sortedBy_append Prod.fst
    (p := fun x : Nat × Event => x.2.isReference) (fun _ => isReference_scopeMarks)
    (fun _ => isReference_references)

/-- The braces and declarations are read in the same order, whatever names are looked for. -/
theorem filter_events (s : MaskedText) (names : List Text) :
    (s.events names).filter (fun x => !x.2.isReference) = s.scopeEvents :=
  s.events_eq_sortedBy names ▸ filter_sortedBy_append Prod.fst
    (p := fun x : Nat × Event => x.2.isReference) (fun _ => isReference_scopeMarks)
    (fun _ => isReference_references)

end MaskedText

namespace Qualify

open MaskedText

theorem scopesOf_append (events : List (Nat × Event)) (x : Nat × Event) :
    scopesOf (events ++ [x]) = x.2.scopes (scopesOf events) := by
  rw [scopesOf, scopesOf, List.foldl_append]
  rfl

theorem scopesOf_filter (events : List (Nat × Event)) :
    scopesOf (events.filter (fun x => !x.2.isReference)) = scopesOf events := by
  unfold scopesOf
  generalize ScopeStack.start = s
  induction events generalizing s with
  | nil => rfl
  | cons x events ih =>
    obtain ⟨i, e⟩ := x
    cases e <;> exact ih _

/-- A reference is read when the events up to its offset have been read. -/
theorem scopesOf_eq_scopesAt {s : MaskedText} {names : List Text} {pre post : List (Nat × Event)}
    {i : Nat} {r : Reference} (h : s.events names = pre ++ (i, .refers r) :: post) :
    scopesOf pre = s.scopesAt i := by
  have hsorted := s.pairwise_events_isReference names
  rw [h, List.pairwise_append, List.pairwise_cons] at hsorted
  obtain ⟨-, ⟨hpost, -⟩, hpre⟩ := hsorted
  have hkept : (pre.filter (fun x => !x.2.isReference)).filter (fun x => x.1 ≤ i) =
      pre.filter (fun x => !x.2.isReference) := by
    refine List.filter_eq_self.2 fun x hx => ?_
    simpa using (hpre x (List.mem_filter.1 hx).1 _ (.head _)).1
  have hnone : (post.filter (fun x => !x.2.isReference)).filter (fun x => x.1 ≤ i) = [] := by
    refine List.filter_eq_nil_iff.2 fun x hx hle => ?_
    obtain ⟨hx, href⟩ := List.mem_filter.1 hx
    obtain ⟨hge, hsame⟩ := hpost x hx
    simp only [decide_eq_true_eq] at hle
    simp [hsame (Nat.le_antisymm hge hle) rfl] at href
  rw [scopesAt, ← s.filter_events names, h, List.filter_append, List.filter_append, hkept,
    List.filter_cons_of_neg (by simp [Event.isReference]), hnone, List.append_nil, scopesOf_filter]

section
variable {body : MaskedText} {prot : List Text} {context : BodyContext} {names : List Text}

/-- Behind the events `pre`, the references `rs` have been replaced, those that are not hidden. -/
structure Progress.Found (body : MaskedText) (prot : List Text) (context : BodyContext)
    (names : List Text) (p : Progress) (rs : List Reference) (pre : List (Nat × Event)) : Prop
    extends p.Made body prot context names rs where
  scopes : p.scopes = scopesOf pre
  last : p.covered = 0 ∨ ∃ r ∈ rs, p.covered = r.offset + r.width
  mem : ∀ r, r ∈ rs ↔ (r.offset, .refers r) ∈ pre ∧ body.hides r = false

/-- A brace or a declaration changes the scopes alone. -/
theorem Progress.Found.skip {p : Progress} {rs : List Reference} {pre : List (Nat × Event)}
    {x : Nat × Event} (h : p.Found body prot context names rs pre) (hx : x.2.isReference = false) :
    (p.step body prot context x).Found body prot context names rs (pre ++ [x]) := by
  have hstep : p.step body prot context x = { p with scopes := x.2.scopes p.scopes } := by
    obtain ⟨i, e⟩ := x
    cases e <;> first | rfl | cases hx
  have hmem (r : Reference) : (r.offset, .refers r) ∈ pre ++ [x] ↔ (r.offset, .refers r) ∈ pre := by
    rw [List.mem_append, List.mem_singleton, or_iff_left]
    rintro rfl
    cases hx
  rw [hstep]
  refine ⟨⟨h.made, h.apart, h.covered, h.found⟩, ?_, h.last, fun r => by rw [h.mem, hmem]⟩
  rw [h.scopes, scopesOf_append]

section
variable (hapart : ∀ r r', r ∈ names.flatMap body.references → r' ∈ names.flatMap body.references →
  r.offset ≤ r'.offset → r = r' ∨ r.offset + r.width ≤ r'.offset)
include hapart

/-- Where references do not overlap, what is covered of one that is read are references that have
been read before, so it is one of them. -/
theorem Progress.Found.mem_of_lt_covered {p : Progress} {rs : List Reference}
    {pre post : List (Nat × Event)} {r : Reference} (h : p.Found body prot context names rs pre)
    (hevents : body.events names = pre ++ (r.offset, .refers r) :: post)
    (hr : r ∈ names.flatMap body.references) (hcovered : r.offset < p.covered) : r ∈ rs := by
  obtain hzero | ⟨r₁, hr₁, hlast⟩ := h.last
  · omega
  have hle : r₁.offset ≤ r.offset := by
    have hsorted := body.pairwise_events names
    rw [hevents, List.pairwise_append] at hsorted
    exact hsorted.2.2 _ ((h.mem r₁).1 hr₁).1 _ (.head _)
  obtain rfl := (hapart r₁ r (h.found r₁ hr₁) hr hle).resolve_right (by omega)
  exact hr₁

/-- A reference is replaced unless it is hidden, or has been. -/
theorem Progress.Found.refer {p : Progress} {rs : List Reference} {pre post : List (Nat × Event)}
    {r : Reference} (h : p.Found body prot context names rs pre)
    (hevents : body.events names = pre ++ (r.offset, .refers r) :: post)
    (hr : r ∈ names.flatMap body.references) :
    ∃ rs', (p.step body prot context (r.offset, .refers r)).Found body prot context names rs'
      (pre ++ [(r.offset, .refers r)]) := by
  have hhides : body.hides r = p.scopes.isDeclared r.name r.offset := by
    rw [hides, ← scopesOf_eq_scopesAt hevents, h.scopes]
  have hmem (r' : Reference) : (r'.offset, Event.refers r') ∈ pre ++ [(r.offset, .refers r)] ↔
      (r'.offset, .refers r') ∈ pre ∨ r' = r := by
    rw [List.mem_append, List.mem_singleton, Prod.mk.injEq, Event.refers.injEq]
    exact or_congr_right ⟨fun h => h.2, fun h => ⟨by rw [h], h⟩⟩
  have hscopes : p.scopes = scopesOf (pre ++ [(r.offset, .refers r)]) := by
    rw [h.scopes, scopesOf_append]
    rfl
  unfold Progress.step
  dsimp only
  split
  · next hskip =>
    refine ⟨rs, h.toMade, hscopes, h.last, fun r' => ?_⟩
    rw [h.mem, hmem]
    refine ⟨fun h' => ⟨.inl h'.1, h'.2⟩, ?_⟩
    rintro ⟨hr' | rfl, hvisible⟩
    · exact ⟨hr', hvisible⟩
    · have hcovered : r'.offset < p.covered := by
        simpa [← hhides, hvisible] using hskip
      exact (h.mem r').1 (h.mem_of_lt_covered hapart hevents hr hcovered)
  · next hmade =>
    simp only [Bool.or_eq_true, decide_eq_true_eq, not_or] at hmade
    have hvisible : body.hides r = false := by
      rw [hhides]
      simpa using hmade.2
    refine ⟨rs ++ [r], h.toMade.replace (by omega) hr, hscopes, .inr ⟨r, by simp, rfl⟩,
      fun r' => ?_⟩
    rw [List.mem_append, List.mem_singleton, h.mem, hmem, or_and_right]
    exact or_congr_right ⟨fun h => ⟨h, by rw [h]; exact hvisible⟩, fun h => h.1⟩

theorem Progress.Found.foldl (post : List (Nat × Event)) :
    ∀ {p : Progress} {rs : List Reference} {pre : List (Nat × Event)},
    p.Found body prot context names rs pre → body.events names = pre ++ post →
    (∀ i r, (i, .refers r) ∈ post → i = r.offset ∧ r ∈ names.flatMap body.references) →
    ∃ rs', (post.foldl (Progress.step body prot context) p).Found body prot context names rs'
      (pre ++ post) := by
  induction post with
  | nil =>
    intro p rs pre h _ _
    exact ⟨rs, by rwa [List.append_nil]⟩
  | cons x post ih =>
    intro p rs pre h hevents hfound
    have hstep : ∃ rs', (p.step body prot context x).Found body prot context names rs'
        (pre ++ [x]) := by
      obtain ⟨i, e⟩ := x
      cases e with
      | opens => exact ⟨rs, h.skip rfl⟩
      | closes => exact ⟨rs, h.skip rfl⟩
      | declares d => exact ⟨rs, h.skip rfl⟩
      | refers r =>
        obtain ⟨rfl, hr⟩ := hfound i r (.head _)
        exact h.refer hapart hevents hr
    obtain ⟨rs', h'⟩ := hstep
    have := ih h' (by rw [hevents]; simp) fun i r hr => hfound i r (.tail _ hr)
    rwa [List.append_assoc, List.singleton_append] at this

end

end

/-- The references to names that are identifiers do not overlap. -/
theorem eq_or_le_of_references {t : Text} {names : List Text}
    (hnames : ∀ n ∈ names, n.isIdentifier = true) {r r' : Reference}
    (hr : r ∈ names.flatMap (MaskedText.ofText .code t).references)
    (hr' : r' ∈ names.flatMap (MaskedText.ofText .code t).references)
    (hle : r.offset ≤ r'.offset) : r = r' ∨ r.offset + r.width ≤ r'.offset := by
  obtain ⟨n, hn, hr⟩ := List.mem_flatMap.1 hr
  obtain ⟨n', hn', hr'⟩ := List.mem_flatMap.1 hr'
  obtain ⟨hstands, rfl⟩ := stands_of_mem_references hr
  obtain ⟨hstands', rfl⟩ := stands_of_mem_references hr'
  rcases Nat.eq_or_lt_of_le hle with heq | hlt
  · exact .inl (hstands.eq_of_offset (hnames _ hn) hstands' (hnames _ hn') heq)
  · exact .inr (hstands.le_of_lt (hnames _ hn) hstands' (hnames _ hn') hlt)

/-- Where all names are identifiers, the references that are replaced are those that no local
declaration hides. -/
theorem exists_replaced_iff (t : Text) {names : ResolvableNames} (parameters : List Text)
    (hnames : ∀ n ∈ candidates names parameters, n.isIdentifier = true) (context : BodyContext) :
    ∃ rs, Replaced (.ofText .code t) names parameters context rs ∧
      ∀ r, r ∈ rs ↔ r ∈ (candidates names parameters).flatMap (MaskedText.ofText .code t).references ∧
        (MaskedText.ofText .code t).hides r = false := by
  have hstart : Progress.Found (.ofText .code t) names.prot context (candidates names parameters)
      ⟨.start, 0, []⟩ [] [] :=
    ⟨⟨rfl, .nil, by simp, by simp⟩, rfl, .inl rfl, by simp⟩
  obtain ⟨rs, h⟩ := hstart.foldl (fun r r' => eq_or_le_of_references hnames)
    ((MaskedText.ofText .code t).events (candidates names parameters)) rfl
    fun i r => mem_events_reference.1
  refine ⟨rs, ⟨?_, h.apart, h.found⟩, fun r => ?_⟩
  · rw [replacements, h.made, List.reverse_reverse]
  · rw [h.mem, List.nil_append, mem_events_reference]
    simp

end Qualify

end PageLang
