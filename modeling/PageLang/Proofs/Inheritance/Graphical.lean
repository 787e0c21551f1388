import PageLang.Proofs.Inheritance.Ascent
import PageLang.Proofs.Text.Distinct
import PageLang.Inheritance.Tag

/-!
# Graphical ancestors

An ancestor is graphical if it is a raw tag or a class from which one can be reached. The graphical
ancestors of a class are marked while the walk over its ancestors goes on. A class is known to be
graphical only when the walk is back from its own ancestors, and goes into the slot that was free
when the walk came to it. So all stand in the order in which the walk first comes to them. Another
walk, which stops at the first raw tag, tells whether there are any.

* `ClassTable.ReachesTag`: what makes an ancestor graphical.
* `ClassTable.Ascends.markAllGraphical`: what is marked behind a walk.
* `ClassTable.Ascends.anyGraphicalFrom`: the walk that stops at the first raw tag.
* `ClassTable.graphicalAncestors_preorder`: the graphical ancestors of a class that resolves.
-/

namespace PageLang

open Ancestor (preorderAll)
open Relation

namespace Ancestor

theorem insertIdx_length (before after : List Text) (name : Text) :
    (before ++ after).insertIdx before.length name = before ++ name :: after := by
  induction before with
  | nil => rfl
  | cons first before ih => simp [ih]

/-- Marking behind what comes later: a name goes to its slot, in front of the names that have come
in since, where it is not one of them. -/
theorem mark_eraseDups {marked later : List Text} {name : Text} (hmarked : marked.Nodup)
    (hlater : name ∉ later) :
    mark (marked ++ later).eraseDups marked.length name =
      (marked ++ name :: later).eraseDups := by
  by_cases hmem : name ∈ marked
  · have hthere : name ∈ (marked ++ later).eraseDups :=
      List.mem_eraseDups.2 (List.mem_append_left _ hmem)
    rw [mark, if_pos hthere, OrderedMap.eraseDups_append_cons_of_mem hmem]
  · have hnew : name ∉ (marked ++ later).eraseDups := by
      simp [List.mem_eraseDups, hmem, hlater]
    have hcons : (name :: later).removeAll marked = name :: later.removeAll marked := by
      simp [List.removeAll, hmem]
    have hfilter : (later.removeAll marked).filter (fun k => !k == name) =
        later.removeAll marked := by
      apply List.filter_eq_self.2
      intro k hk
      have hne : k ≠ name := by
        rintro rfl
        exact hlater (List.mem_filter.1 hk).1
      simpa using hne
    rw [mark, if_neg hnew, List.eraseDups_append, List.eraseDups_append,
      OrderedMap.eraseDups_of_nodup hmarked, hcons, List.eraseDups_cons, hfilter]
    exact insertIdx_length marked _ name

end Ancestor

namespace ClassTable

/-- A raw tag can be reached from the name, which may be one itself. -/
def ReachesTag (table : ClassTable) (name : Text) : Prop :=
  ∃ tag, ReflTransGen table.HasParent name tag ∧ table.IsRawTag tag

section
variable {table : ClassTable} {path parents : List Text} {trees : List Ancestor} {name : Text}
  {d : ClassDefinition}

theorem IsRawTag.reachesTag (h : table.IsRawTag name) : table.ReachesTag name := ⟨name, .refl, h⟩

/-- A class reaches a raw tag through one of its parents. -/
theorem reachesTag_cls_iff (hget : table.get? name = some d) :
    table.ReachesTag name ↔ ∃ p ∈ d.parents, table.ReachesTag p := by
  have hself : ¬ table.IsRawTag name := fun h => by simp [h.1] at hget
  constructor
  · rintro ⟨tag, hreach, htag⟩
    rcases (reaches_cls_iff hget).1 hreach with rfl | ⟨p, hp, hrest⟩
    · exact absurd htag hself
    · exact ⟨p, hp, tag, hrest, htag⟩
  · rintro ⟨p, hp, tag, hreach, htag⟩
    exact ⟨tag, (reaches_cls_iff hget).2 (.inr ⟨p, hp, hreach⟩), htag⟩

/-- If no parent reaches a raw tag, none of the ancestors does. -/
theorem Ascends.not_reachesTag (h : table.Ascends path parents trees)
    (hno : ¬ ∃ p ∈ parents, table.ReachesTag p) (hmem : name ∈ preorderAll trees) :
    ¬ table.ReachesTag name := by
  rintro ⟨tag, hreach, htag⟩
  obtain ⟨p, hp, hfirst⟩ := h.mem_preorder_iff.1 hmem
  exact hno ⟨p, hp, tag, hfirst.trans hreach, htag⟩

/-! ## Marking -/

open Classical in
/-- Behind a walk, what was marked before is followed by those ancestors that reach a raw tag, in
the order in which the walk first came to them. -/
theorem Ascends.markAllGraphical (h : table.Ascends path parents trees) {marked : List Text}
    (hmarked : marked.Nodup) :
    Ancestor.markAllGraphical marked trees =
      ((marked ++ (preorderAll trees).filter (fun n => table.ReachesTag n)).eraseDups,
        decide (∃ p ∈ parents, table.ReachesTag p)) := by
  induction h generalizing marked with
  | nil => simp [Ancestor.markAllGraphical, OrderedMap.eraseDups_of_nodup hmarked]
  | @tag _ rest parent others hget htag _ ih =>
    have hreaches : table.ReachesTag parent := IsRawTag.reachesTag ⟨hget, htag⟩
    have hmark : Ancestor.mark marked marked.length parent = (marked ++ [parent]).eraseDups := by
      have h := Ancestor.mark_eraseDups hmarked (List.not_mem_nil (a := parent))
      rwa [List.append_nil, OrderedMap.eraseDups_of_nodup hmarked] at h
    simp only [Ancestor.markAllGraphical, Ancestor.markGraphical, hmark, ih (nodup_eraseDups _),
      eraseDups_eraseDups_append]
    simp [hreaches]
  | @cls path rest parent d above others hget hpath habove _ ihAbove ih =>
    simp only [Ancestor.markAllGraphical, Ancestor.markGraphical, ihAbove hmarked]
    by_cases hreaches : table.ReachesTag parent
    · -- the class goes in front of what its own ancestors have added
      have hlater : parent ∉ (preorderAll above).filter (fun n => table.ReachesTag n) :=
        fun hmem => habove.name_notMem hget (List.mem_filter.1 hmem).1
      have hparents := (reachesTag_cls_iff hget).1 hreaches
      simp only [hparents, decide_true, if_true, Ancestor.mark_eraseDups hmarked hlater,
        ih (nodup_eraseDups _), eraseDups_eraseDups_append]
      simp [hreaches]
    · have hparents := mt (reachesTag_cls_iff hget).2 hreaches
      have hnone : (preorderAll above).filter (fun n => table.ReachesTag n) = [] := by
        apply List.filter_eq_nil_iff.2
        intro n hn
        simpa using habove.not_reachesTag hparents hn
      simp only [hparents, decide_false, Bool.false_eq_true, if_false, hnone, List.append_nil,
        OrderedMap.eraseDups_of_nodup hmarked, ih hmarked]
      simp [hreaches, hnone]

open Classical in
theorem Ascends.graphical_eq (h : table.Ascends path parents trees) :
    Ancestor.graphical trees =
      ((preorderAll trees).filter (fun n => table.ReachesTag n)).eraseDups := by
  rw [Ancestor.graphical, h.markAllGraphical List.nodup_nil, List.nil_append]

/-- There are graphical ancestors exactly if a parent reaches a raw tag. -/
theorem Ascends.graphical_eq_nil_iff (h : table.Ascends path parents trees) :
    Ancestor.graphical trees = [] ↔ ¬ ∃ p ∈ parents, table.ReachesTag p := by
  rw [h.graphical_eq, List.eq_nil_iff_forall_not_mem]
  simp only [List.mem_eraseDups, List.mem_filter, decide_eq_true_eq, not_and]
  constructor
  · rintro hno ⟨p, hp, hreaches⟩
    exact hno p (h.mem_preorder_iff.2 ⟨p, hp, .refl⟩) hreaches
  · intro hno n hn
    exact h.not_reachesTag hno hn

/-! ## The walk that stops at the first raw tag -/

theorem isGraphicalFrom_tag (htag : table.IsRawTag name) :
    table.isGraphicalFrom path name = .ok true := by
  rw [isGraphicalFrom]
  split
  · rw [if_pos htag.2]
  · next hsome => simp [htag.1] at hsome

theorem isGraphicalFrom_cls (hget : table.get? name = some d) (hpath : name ∉ path) :
    table.isGraphicalFrom path name = table.anyGraphicalFrom (name :: path) d.parents := by
  rw [isGraphicalFrom]
  split
  · next hnone => simp [hnone] at hget
  · next hsome =>
    obtain rfl := Option.some.inj (hget.symm.trans hsome)
    rw [dif_neg hpath]

theorem anyGraphicalFrom_cons {rest : List Text} {found : Bool}
    (h : table.isGraphicalFrom path name = .ok found) :
    table.anyGraphicalFrom path (name :: rest) =
      if found then .ok true else table.anyGraphicalFrom path rest := by
  rw [anyGraphicalFrom, h]
  cases found <;> rfl

open Classical in
/-- Where the long walk meets no fault, neither does the one that stops at the first raw tag, and it
never comes back to a class. -/
theorem Ascends.anyGraphicalFrom (h : table.Ascends path parents trees) {passed : List Text}
    (hpassed : table.Misses passed (preorderAll trees)) :
    table.anyGraphicalFrom passed parents = .ok (decide (∃ p ∈ parents, table.ReachesTag p)) := by
  induction h generalizing passed with
  | nil =>
    rw [ClassTable.anyGraphicalFrom]
    simp
  | tag hget htag _ _ =>
    have hraw : table.IsRawTag _ := ⟨hget, htag⟩
    rw [anyGraphicalFrom_cons (isGraphicalFrom_tag hraw)]
    simp [hraw.reachesTag]
  | @cls _ _ parent _ _ _ hget _ habove _ ihAbove ih =>
    obtain ⟨hparent, hmissesAbove, hmissesRest⟩ := habove.misses_cls hget hpassed
    have hfound : table.isGraphicalFrom passed parent = .ok (decide (table.ReachesTag parent)) := by
      rw [isGraphicalFrom_cls hget hparent, ihAbove hmissesAbove,
        decide_eq_decide.2 (reachesTag_cls_iff hget)]
    rw [anyGraphicalFrom_cons hfound, ih hmissesRest]
    by_cases hreaches : table.ReachesTag parent <;> simp [hreaches]

open Classical in
theorem Ascends.isGraphical (h : table.Ascends path d.parents trees)
    (hget : table.get? name = some d) :
    table.isGraphical name = .ok (decide (table.ReachesTag name)) := by
  have hpassed : table.Misses [name] (preorderAll trees) := by
    intro x hx _
    rw [List.mem_singleton.1 hx]
    exact h.name_notMem hget
  rw [ClassTable.isGraphical, isGraphicalFrom_cls hget List.not_mem_nil,
    h.anyGraphicalFrom hpassed, decide_eq_decide.2 (reachesTag_cls_iff hget)]

end

/-! ## Resolving -/

open Classical in
/-- The graphical ancestors of a class that resolves are distinct. They are those names of the
listing of its ancestors that reach a raw tag, each where it stands first, and there are any of them
exactly if the class is graphical. -/
theorem graphicalAncestors_preorder {table : ClassTable} {name : Text} {r : ResolvedClass}
    (h : table.resolve name = .ok r) :
    ∃ own line, table.get? name = some own ∧ table.Preorder own.parents line ∧
      (∀ l, table.Preorder own.parents l → l = line) ∧
      r.graphicalAncestors.Nodup ∧
      r.graphicalAncestors = (line.filter (fun n => table.ReachesTag n)).eraseDups ∧
      table.graphicalAncestors name = .ok r.graphicalAncestors ∧
      table.isGraphical name = .ok (decide (r.graphicalAncestors ≠ [])) := by
  obtain ⟨own, trees, hget, htrees, hr⟩ := resolve_eq_ok_iff.1 h
  have hgraphical : r.graphicalAncestors = Ancestor.graphical trees := by
    rw [hr, ResolvedClass.graphicalAncestors_merged]
  have hany : table.ReachesTag name ↔ r.graphicalAncestors ≠ [] := by
    rw [hgraphical, Ne, htrees.graphical_eq_nil_iff, not_not]
    exact reachesTag_cls_iff hget
  refine ⟨own, preorderAll trees, hget, htrees.preorder, fun l hl => hl.unique htrees.preorder,
    ?_, ?_, ?_, ?_⟩
  · rw [hgraphical, htrees.graphical_eq]
    exact nodup_eraseDups _
  · rw [hgraphical, htrees.graphical_eq]
  · rw [graphicalAncestors, h]
    rfl
  · rw [htrees.isGraphical hget, decide_eq_decide.2 hany]

/-- Two parents share a class above them, and each has a parent besides. -/
def sampleShared : ClassTable :=
  .ofList
    [sampleEntry "Plain" [], sampleEntry "Top" ["div"], sampleEntry "Left" ["Plain", "Top"],
      sampleEntry "Right" ["Top", "span"], sampleEntry "Low" ["Left", "Right"]]

theorem graphicalAncestors_preorder_sampleShared : ∃ r, sampleShared.resolve "Low" = .ok r ∧
    r.graphicalAncestors = (["Left", "Top", "div", "Right", "span"] : List Text) ∧
    sampleShared.isGraphical "Low" = .ok true ∧
    ∃ own line, sampleShared.get? "Low" = some own ∧ sampleShared.Preorder own.parents line := by
  have htag {path : List Text} : sampleShared.Ascends path ["div"] _ := .tag rfl rfl .nil
  have hleft : sampleShared.Ascends ["Left", "Low"] ["Plain", "Top"] _ :=
    .cls rfl (by decide) .nil (.cls rfl (by decide) htag .nil)
  have hright : sampleShared.Ascends ["Right", "Low"] ["Top", "span"] _ :=
    .cls rfl (by decide) htag (.tag rfl rfl .nil)
  have hlow : sampleShared.Ascends ["Low"] ["Left", "Right"] _ :=
    .cls rfl (by decide) hleft (.cls rfl (by decide) hright .nil)
  have hget : sampleShared.get? "Low" = some (sampleEntry "Low" ["Left", "Right"]).2 := rfl
  have hr := resolve_eq_ok_iff.2 ⟨_, _, hget, hlow, rfl⟩
  obtain ⟨own, line, hown, hline, -, -, -, -, hany⟩ := graphicalAncestors_preorder hr
  refine ⟨_, hr, ?_, hany, own, line, hown, hline⟩
  rw [ResolvedClass.graphicalAncestors_merged]
  decide

end ClassTable

end PageLang
