import Mathlib.Data.List.Induction
import PageLang.Hierarchy.GlobalNames
import PageLang.Proofs.Element.Ways

/-!
# Global names

The elements of a forest are met in preorder, which is the order of the ways to them. The first one
with a name keeps the name, and every other one with it is a namesake and has a fault of its own, be
the first one above it, below a sibling or under another root.

* `Element.pairwise_placedAll`: the ways to the elements in preorder increase.
* `GlobalNames.table_foldl_add`: the names that are kept.
* `GlobalNames.faults_foldl_add`: the faults are those of the namesakes.
* `GlobalNames.ofRoots_namesakes`: the global names of a forest.
-/

namespace PageLang

/-! ## The order of ways -/

namespace Element

mutual

theorem pairwise_placed : (e : Element) → e.placed.Pairwise (fun p q => p.1 < q.1)
  | ⟨name, classRefs, overrides, children, span⟩ => by
    rw [placed, List.pairwise_cons]
    refine ⟨fun p hp => ?_, pairwise_placedFrom 0 children⟩
    obtain ⟨way, x⟩ := p
    obtain ⟨i, rest, e, rfl, -⟩ := mem_placedFrom.1 hp
    exact List.nil_lt_cons _ _

theorem pairwise_placedFrom (first : Nat) : (es : List Element) →
    (placedFrom first es).Pairwise (fun p q => p.1 < q.1)
  | [] => by
    rw [placedFrom]
    exact .nil
  | e :: others => by
    rw [placedFrom, List.pairwise_append, List.pairwise_map]
    refine ⟨(pairwise_placed e).imp fun hlt => List.cons_lt_cons_iff.2 (.inr ⟨rfl, hlt⟩),
      pairwise_placedFrom (first + 1) others, ?_⟩
    -- the ways of the others start behind the position of the first
    rintro p hp ⟨way, x⟩ hq
    obtain ⟨p, -, rfl⟩ := List.mem_map.1 hp
    obtain ⟨i, rest, e', rfl, -⟩ := mem_placedFrom.1 hq
    exact List.cons_lt_cons_iff.2 (.inl (by omega))

end

/-- In preorder the ways increase: an element stands behind those above it and in front of those
below it, and all that is below one element stands in front of its later siblings. -/
theorem pairwise_placedAll (es : List Element) : (placedAll es).Pairwise (fun p q => p.1 < q.1) :=
  pairwise_placedFrom 0 es

/-- An element has a name that another one on an earlier way has too. -/
def IsNamesake (placed : List (List Nat × Element)) (p : List Nat × Element) : Prop :=
  p.2.name.isSome ∧ ∃ q ∈ placed, q.1 < p.1 ∧ q.2.name = p.2.name

instance (placed : List (List Nat × Element)) (p : List Nat × Element) :
    Decidable (IsNamesake placed p) :=
  inferInstanceAs (Decidable (_ ∧ _))

/-- The namesakes among some elements, in their order. -/
def namesakes (placed : List (List Nat × Element)) : List Element :=
  (placed.filter (fun p => IsNamesake placed p)).map Prod.snd

/-- An element behind another one does not make that one a namesake. -/
theorem isNamesake_concat {placed : List (List Nat × Element)} {p q : List Nat × Element}
    (hlt : ¬ p.1 < q.1) : IsNamesake (placed ++ [p]) q ↔ IsNamesake placed q := by
  refine and_congr_right fun _ => ⟨?_, fun ⟨r, hr, h⟩ => ⟨r, List.mem_append_left _ hr, h⟩⟩
  rintro ⟨r, hr, hbefore, hname⟩
  rcases List.mem_append.1 hr with hr | hr
  · exact ⟨r, hr, hbefore, hname⟩
  · rw [List.mem_singleton.1 hr] at hbefore
    exact absurd hbefore hlt

/-- One more element, on the last way: it is a namesake if its name is there, and it makes no other
element one. -/
theorem namesakes_concat {placed : List (List Nat × Element)} {p : List Nat × Element}
    (hlast : ∀ q ∈ placed, q.1 < p.1) : namesakes (placed ++ [p]) =
      namesakes placed ++ if IsNamesake placed p then [p.2] else [] := by
  have hothers : placed.filter (fun q => IsNamesake (placed ++ [p]) q) =
      placed.filter (fun q => IsNamesake placed q) :=
    List.filter_congr fun q hq =>
      decide_eq_decide.2 (isNamesake_concat (List.lt_asymm (hlast q hq)))
  have hself : IsNamesake (placed ++ [p]) p ↔ IsNamesake placed p :=
    isNamesake_concat (List.lt_irrefl p.1)
  unfold namesakes
  rw [List.filter_append, List.map_append, hothers]
  by_cases h : IsNamesake placed p <;> simp [hself, h]

end Element

/-! ## Collecting -/

namespace GlobalNames

open Element (placedAll preorderAll namesakes IsNamesake)

/-- The named elements of a list, under their names. -/
def entries (es : List Element) : List (Text × Element) :=
  es.filterMap (fun e => e.name.map (fun name => (name, e)))

theorem map_fst_entries (es : List Element) :
    (entries es).map Prod.fst = es.filterMap (fun e => e.name) := by
  simp [entries, List.map_filterMap, Function.comp_def]

theorem lookup_entries (es : List Element) (name : Text) :
    (entries es).lookup name = es.find? (fun e => e.name == some name) := by
  induction es with
  | nil => rfl
  | cons e es ih =>
    cases hname : e.name with
    | none =>
      have hentries : entries (e :: es) = entries es := by simp [entries, hname]
      rw [hentries, ih, List.find?_cons_of_neg (by simp [hname])]
    | some own =>
      have hentries : entries (e :: es) = (own, e) :: entries es := by simp [entries, hname]
      rw [hentries, List.lookup_cons, List.find?_cons, hname, ih]
      by_cases h : name = own
      · simp [h]
      · simp [beq_false_of_ne h, beq_false_of_ne (Ne.symm h)]

/-- An element is filed under its name, unless another one is. -/
theorem table_foldl_add (es : List Element) (names : GlobalNames) :
    (es.foldl add names).table = names.table.fill (entries es) := by
  induction es generalizing names with
  | nil => rfl
  | cons e es ih =>
    rw [List.foldl_cons, ih]
    cases hname : e.name with
    | none => simp [add, entries, hname]
    | some name =>
      have hentries : entries (e :: es) = (name, e) :: entries es := by simp [entries, hname]
      have htable : (names.add e).table = names.table.insertNew name e := by
        unfold add OrderedMap.insertNew
        rw [hname]
        dsimp only
        split <;> rfl
      rw [hentries, OrderedMap.fill_cons, htable]

theorem faults_add (names : GlobalNames) (e : Element) : (names.add e).faults =
    names.faults ++ if e.name.any names.table.contains then [⟨.duplicateGlobal, e.span⟩] else [] := by
  unfold add
  cases e.name with
  | none => simp
  | some name => cases h : names.table.contains name <;> simp [h]

/-- What has been met holds a name exactly if the table does. -/
theorem contains_foldl_add (es : List Element) (name : Text) :
    (es.foldl add ⟨∅, []⟩).table.contains name = true ↔ ∃ e ∈ es, e.name = some name := by
  rw [table_foldl_add, ← OrderedMap.mem_keys_iff, OrderedMap.keys_fill, List.mem_eraseDups,
    map_fst_entries]
  simp [OrderedMap.keys, EmptyCollection.emptyCollection, OrderedMap.empty]

/-- Elements that are met in the order of their ways: each namesake has a fault, and nothing else. -/
theorem faults_foldl_add (placed : List (List Nat × Element))
    (hsorted : placed.Pairwise (fun p q => p.1 < q.1)) :
    ((placed.map Prod.snd).foldl add ⟨∅, []⟩).faults =
      (namesakes placed).map (fun e => ⟨.duplicateGlobal, e.span⟩) := by
  induction placed using List.reverseRecOn with
  | nil => rfl
  | append_singleton placed p ih =>
    obtain ⟨hsorted, -, hlast⟩ := List.pairwise_append.1 hsorted
    have hlast : ∀ q ∈ placed, q.1 < p.1 := fun q hq => hlast q hq p (List.mem_singleton_self p)
    have htaken : p.2.name.any ((placed.map Prod.snd).foldl add ⟨∅, []⟩).table.contains = true ↔
        IsNamesake placed p := by
      unfold IsNamesake
      cases hname : p.2.name with
      | none => simp
      | some name =>
        rw [Option.any_some, contains_foldl_add]
        simp only [List.mem_map, Option.isSome_some, true_and]
        constructor
        · rintro ⟨e, ⟨q, hq, rfl⟩, hown⟩
          exact ⟨q, hq, hlast q hq, hown⟩
        · rintro ⟨q, hq, -, hown⟩
          exact ⟨q.2, ⟨q, hq, rfl⟩, hown⟩
    rw [List.map_append, List.foldl_append, List.map_singleton, List.foldl_cons, List.foldl_nil,
      faults_add, ih hsorted, Element.namesakes_concat hlast, List.map_append, if_congr htaken rfl rfl]
    split <;> rfl

/-- A named element is filed or has a fault. -/
theorem length_add (names : GlobalNames) (e : Element) :
    (names.add e).faults.length + (names.add e).table.size =
      names.faults.length + names.table.size + (entries [e]).length := by
  unfold add
  cases hname : e.name with
  | none => simp [entries, hname]
  | some name =>
    have hentries : entries [e] = [(name, e)] := by simp [entries, hname]
    rw [hentries]
    dsimp only
    split
    · simp only [List.length_append, List.length_singleton]
      omega
    · next hnew =>
      have hkeys := OrderedMap.keys_insert names.table name e
      rw [if_neg (mt OrderedMap.mem_keys_iff.1 hnew)] at hkeys
      have hlength := congrArg List.length hkeys
      simp only [OrderedMap.keys, List.length_append, List.length_map, List.length_singleton] at hlength
      simp only [OrderedMap.size, hlength, List.length_singleton]
      omega

theorem length_foldl_add (es : List Element) (names : GlobalNames) :
    (es.foldl add names).faults.length + (es.foldl add names).table.size =
      names.faults.length + names.table.size + (entries es).length := by
  induction es generalizing names with
  | nil => rfl
  | cons e es ih =>
    have happend : entries (e :: es) = entries [e] ++ entries es :=
      List.filterMap_append (l := [e])
    rw [List.foldl_cons, ih, length_add, happend, List.length_append, Nat.add_assoc]

/-- The global names of a forest are the names of its elements in the order in which preorder meets
them first, each with the first element that has it. Every other named element has a fault at its
span, in preorder again, and nothing else has one, so there are as many names and faults as there
are named elements. -/
theorem ofRoots_namesakes (roots : List Element) :
    let names := ofRoots roots
    names.table.keys = ((preorderAll roots).filterMap (fun e => e.name)).eraseDups ∧
      (∀ name, names.table.get? name =
        (preorderAll roots).find? (fun e => e.name == some name)) ∧
      names.faults = (namesakes (placedAll roots)).map (fun e => ⟨.duplicateGlobal, e.span⟩) ∧
      names.faults.length + names.table.size =
        ((preorderAll roots).filter (fun e => e.name.isSome)).length := by
  have htable : (ofRoots roots).table = (∅ : OrderedMap Element).fill (entries (preorderAll roots)) :=
    table_foldl_add _ _
  refine ⟨?_, fun name => ?_, ?_, ?_⟩
  · rw [htable, OrderedMap.keys_fill, map_fst_entries]
    rfl
  · rw [htable, OrderedMap.get?_fill, lookup_entries]
    rfl
  · rw [ofRoots, ← Element.map_placedAll]
    exact faults_foldl_add _ (Element.pairwise_placedAll roots)
  · have hlength : (entries (preorderAll roots)).length =
        ((preorderAll roots).filter (fun e => e.name.isSome)).length := by
      rw [entries, List.length_filterMap_eq_countP, List.countP_eq_length_filter]
      simp
    rw [← hlength]
    exact (length_foldl_add _ _).trans (Nat.zero_add _)

end GlobalNames

end PageLang
