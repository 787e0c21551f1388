import Mathlib.Data.List.Nodup
import Mathlib.Data.Prod.Basic
import PageLang.Element.Basic

/-!
# Ways to elements

An element below another is known by the way down to it, which names a position among the children
at each level. The elements of a forest in preorder are those that all ways lead to, each once.

* `Enumerates`: a list of all that can be looked up, every key once.
* `Element.descendant?`, `Element.at?`: the element that a way leads to.
* `Element.enumerates_placedAll`: the ways into a forest, each to an element of its own.
* `Element.map_placedAll`: they lead through the forest in preorder.
-/

namespace PageLang

/-! ## Enumerations -/

section
variable {κ κ' α : Type}

theorem map_fst_mapKey (f : κ → κ') (l : List (κ × α)) :
    (l.map fun e => (f e.1, e.2)).map Prod.fst = (l.map Prod.fst).map f := by
  rw [List.map_map, List.map_map]
  rfl

theorem mem_mapKey {f : κ → κ'} (hf : Function.Injective f) {l : List (κ × α)} {k : κ} {a : α} :
    (f k, a) ∈ l.map (fun e => (f e.1, e.2)) ↔ (k, a) ∈ l := by
  rw [List.mem_map]
  constructor
  · rintro ⟨⟨k₀, b⟩, hmem, heq⟩
    obtain ⟨hk, hb⟩ := Prod.mk.inj heq
    cases hf hk
    cases hb
    exact hmem
  · exact fun hmem => ⟨(k, a), hmem, rfl⟩

end

/-- A list holds what can be looked up, every key once. -/
structure Enumerates {κ α : Type} (l : List (κ × α)) (get : κ → Option α) : Prop where
  nodup : (l.map Prod.fst).Nodup
  mem : ∀ k a, (k, a) ∈ l ↔ get k = some a

namespace Enumerates

variable {κ κ' κ'' α β : Type} {l : List (κ × α)} {get : κ → Option α}

/-- The values of an enumeration, changed. -/
theorem mapValue (h : Enumerates l get) (f : α → β) :
    Enumerates (l.map fun e => (e.1, f e.2)) (fun k => (get k).map f) := by
  constructor
  · rw [List.map_map]
    exact h.nodup
  · intro k b
    rw [List.mem_map, Option.map_eq_some_iff]
    constructor
    · rintro ⟨⟨k, a⟩, hmem, heq⟩
      cases heq
      exact ⟨a, (h.mem k a).1 hmem, rfl⟩
    · rintro ⟨a, ha, rfl⟩
      exact ⟨(k, a), (h.mem k a).2 ha, rfl⟩

/-- Two enumerations one after the other, each with keys of its own kind. -/
theorem join {l' : List (κ' × α)} {get' : κ' → Option α} (h : Enumerates l get)
    (h' : Enumerates l' get') {f : κ → κ''} {g : κ' → κ''} (hf : Function.Injective f)
    (hg : Function.Injective g) (hapart : ∀ k k', f k ≠ g k')
    (hall : ∀ x, (∃ k, x = f k) ∨ ∃ k', x = g k') {both : κ'' → Option α}
    (hget : ∀ k, both (f k) = get k) (hget' : ∀ k', both (g k') = get' k') :
    Enumerates (l.map (fun e => (f e.1, e.2)) ++ l'.map (fun e => (g e.1, e.2))) both := by
  constructor
  · rw [List.map_append, map_fst_mapKey, map_fst_mapKey, List.nodup_append]
    refine ⟨h.nodup.map hf, h'.nodup.map hg, ?_⟩
    intro x hx y hy
    obtain ⟨k, -, rfl⟩ := List.mem_map.1 hx
    obtain ⟨k', -, rfl⟩ := List.mem_map.1 hy
    exact hapart k k'
  · intro x a
    rw [List.mem_append]
    rcases hall x with ⟨k, rfl⟩ | ⟨k', rfl⟩
    · have hother : (f k, a) ∉ l'.map fun e => (g e.1, e.2) := by
        intro hmem
        obtain ⟨e, -, heq⟩ := List.mem_map.1 hmem
        exact hapart k e.1 (Prod.mk.inj heq).1.symm
      rw [mem_mapKey hf, hget, h.mem, or_iff_left hother]
    · have hother : (g k', a) ∉ l.map fun e => (f e.1, e.2) := by
        intro hmem
        obtain ⟨e, -, heq⟩ := List.mem_map.1 hmem
        exact hapart e.1 k' (Prod.mk.inj heq).1
      rw [mem_mapKey hg, hget', h'.mem, or_iff_right hother]

/-- Enumerations of all that an enumeration holds. -/
theorem flatMap (h : Enumerates l get) {f : α → List (κ' × β)} {get' : α → κ' → Option β}
    (hf : ∀ a, Enumerates (f a) (get' a)) :
    Enumerates (l.flatMap fun e => (f e.2).map fun e' => ((e.1, e'.1), e'.2))
      (fun k => (get k.1).bind (fun a => get' a k.2)) := by
  constructor
  · rw [List.map_flatMap, List.nodup_flatMap]
    constructor
    · rintro ⟨k, a⟩ -
      rw [map_fst_mapKey (Prod.mk k)]
      exact (hf a).nodup.map (Prod.mk_right_injective k)
    · have hdistinct : l.Pairwise (fun e e' => e.1 ≠ e'.1) := List.pairwise_map.1 h.nodup
      refine hdistinct.imp fun hne => ?_
      rintro x hx hx'
      obtain ⟨y, hy, rfl⟩ := List.mem_map.1 hx
      obtain ⟨z, hz, rfl⟩ := List.mem_map.1 hy
      obtain ⟨y', hy', heq⟩ := List.mem_map.1 hx'
      obtain ⟨z', hz', rfl⟩ := List.mem_map.1 hy'
      exact hne (congrArg (fun p => p.1) heq).symm
  · rintro ⟨k, k'⟩ b
    rw [List.mem_flatMap, Option.bind_eq_some_iff]
    constructor
    · rintro ⟨⟨k, a⟩, hmem, hx⟩
      obtain ⟨⟨k', b⟩, hb, heq⟩ := List.mem_map.1 hx
      cases heq
      exact ⟨a, (h.mem k a).1 hmem, ((hf a).mem k' b).1 hb⟩
    · rintro ⟨a, ha, hb⟩
      exact ⟨(k, a), (h.mem k a).2 ha, List.mem_map.2 ⟨(k', b), ((hf a).mem k' b).2 hb, rfl⟩⟩

end Enumerates

/-! ## Ways -/

namespace Element

/-- The element at the end of a way down from an element. -/
def descendant? : List Nat → Element → Option Element
  | [], e => some e
  | i :: way, e => e.children[i]?.bind (descendant? way)

/-- The element at the end of a way into a forest. -/
def at? (es : List Element) : List Nat → Option Element
  | [] => none
  | i :: way => es[i]?.bind (descendant? way)

mutual

/-- An element and its descendants in preorder, under the ways to them. -/
def placed : Element → List (List Nat × Element)
  | ⟨name, classRefs, overrides, children, span⟩ =>
    ([], ⟨name, classRefs, overrides, children, span⟩) :: placedFrom 0 children

/-- The elements of a forest in preorder under the ways to them, where the first root has a position
of its own. -/
def placedFrom (first : Nat) : List Element → List (List Nat × Element)
  | [] => []
  | e :: rest => e.placed.map (fun p => (first :: p.1, p.2)) ++ placedFrom (first + 1) rest

end

/-- The elements of a forest in preorder, under the ways to them. -/
def placedAll (es : List Element) : List (List Nat × Element) := placedFrom 0 es

mutual

theorem map_placed : (e : Element) → e.placed.map Prod.snd = e.preorder
  | ⟨_, _, _, children, _⟩ => by
    rw [placed, preorder, List.map_cons, map_placedFrom 0 children]

theorem map_placedFrom (first : Nat) : (es : List Element) →
    (placedFrom first es).map Prod.snd = preorderAll es
  | [] => by
    rw [placedFrom, preorderAll, List.map_nil]
  | e :: rest => by
    rw [placedFrom, preorderAll, List.map_append, List.map_map, map_placedFrom (first + 1) rest,
      ← map_placed e]
    rfl

end

/-- The ways lead through a forest in preorder. -/
theorem map_placedAll (es : List Element) : (placedAll es).map Prod.snd = preorderAll es :=
  map_placedFrom 0 es

theorem mem_placedFrom {first : Nat} {es : List Element} {way : List Nat} {x : Element} :
    (way, x) ∈ placedFrom first es ↔
      ∃ i rest e, way = (first + i) :: rest ∧ es[i]? = some e ∧ (rest, x) ∈ e.placed := by
  induction es generalizing first with
  | nil => simp [placedFrom]
  | cons e others ih =>
    rw [placedFrom, List.mem_append, ih, List.mem_map]
    constructor
    · rintro (⟨⟨rest, y⟩, hmem, heq⟩ | ⟨i, rest, e', rfl, he', hmem⟩)
      · cases heq
        exact ⟨0, rest, e, rfl, rfl, hmem⟩
      · exact ⟨i + 1, rest, e', by rw [Nat.add_assoc, Nat.add_comm 1], he', hmem⟩
    · rintro ⟨i, rest, e', rfl, he', hmem⟩
      cases i with
      | zero =>
        cases he'
        exact .inl ⟨(rest, x), hmem, rfl⟩
      | succ i => exact .inr ⟨i, rest, e', by rw [Nat.add_assoc, Nat.add_comm 1], he', hmem⟩

theorem mem_placed {way : List Nat} {e x : Element} :
    (way, x) ∈ e.placed ↔ descendant? way e = some x := by
  induction way generalizing e with
  | nil =>
    obtain ⟨name, classRefs, overrides, children, span⟩ := e
    rw [placed, List.mem_cons, descendant?, mem_placedFrom]
    simp [eq_comm]
  | cons i way ih =>
    obtain ⟨name, classRefs, overrides, children, span⟩ := e
    rw [placed, List.mem_cons, descendant?, mem_placedFrom, Option.bind_eq_some_iff]
    constructor
    · rintro (heq | ⟨j, rest, e, heq, he, hmem⟩)
      · cases heq
      · rw [Nat.zero_add] at heq
        cases heq
        exact ⟨e, he, ih.1 hmem⟩
    · rintro ⟨e, he, hway⟩
      exact .inr ⟨i, way, e, by rw [Nat.zero_add], he, ih.2 hway⟩

mutual

theorem nodup_placed : (e : Element) → (e.placed.map Prod.fst).Nodup
  | ⟨name, classRefs, overrides, children, span⟩ => by
    rw [placed, List.map_cons, List.nodup_cons]
    refine ⟨fun hmem => ?_, nodup_placedFrom 0 children⟩
    obtain ⟨⟨way, x⟩, hx, rfl⟩ := List.mem_map.1 hmem
    obtain ⟨i, rest, e, heq, _⟩ := mem_placedFrom.1 hx
    cases heq

theorem nodup_placedFrom (first : Nat) : (es : List Element) →
    ((placedFrom first es).map Prod.fst).Nodup
  | [] => by
    rw [placedFrom]
    exact List.nodup_nil
  | e :: others => by
    have hhere : ((e.placed.map fun p => (first :: p.1, p.2)).map Prod.fst).Nodup := by
      rw [map_fst_mapKey (List.cons first)]
      exact (nodup_placed e).map List.cons_injective
    rw [placedFrom, List.map_append, List.nodup_append]
    refine ⟨hhere, nodup_placedFrom (first + 1) others, ?_⟩
    -- the ways of the others start behind the position of the first
    rintro way hway _ hway' rfl
    obtain ⟨_, hx, rfl⟩ := List.mem_map.1 hway
    obtain ⟨p, _, rfl⟩ := List.mem_map.1 hx
    obtain ⟨⟨way', x'⟩, hx', heq⟩ := List.mem_map.1 hway'
    obtain ⟨i, rest, e', rfl, _⟩ := mem_placedFrom.1 hx'
    have hpos : first + 1 + i = first := (List.cons.inj heq).1
    omega

end

/-- The elements of a forest are those at the ends of ways into it, each at the end of its own. -/
theorem enumerates_placedAll (es : List Element) : Enumerates (placedAll es) (at? es) := by
  refine ⟨nodup_placedFrom 0 es, fun way x => ?_⟩
  rw [placedAll, mem_placedFrom]
  cases way with
  | nil => simp [at?]
  | cons i way =>
    rw [at?, Option.bind_eq_some_iff]
    constructor
    · rintro ⟨j, rest, e, heq, he, hmem⟩
      rw [Nat.zero_add] at heq
      cases heq
      exact ⟨e, he, mem_placed.1 hmem⟩
    · rintro ⟨e, he, hway⟩
      exact ⟨i, way, e, by rw [Nat.zero_add], he, mem_placed.2 hway⟩

end Element

end PageLang
