import PageLang.Proofs.Inheritance.Graphical

/-!
# The tag of an element and its ancestors

The tag of an element is found by a walk of its own: the last class reference that gives a tag
decides, and a class gives the first raw tag among its ancestors. Where the references resolve, and
no class is named like a tag, this is a tag that resolving counts among the graphical ancestors.

* `ClassTable.isTag_elementTag`: every table gives every element a tag.
* `ClassTable.Ascends.inheritedTag?_eq`: a class inherits the first raw tag that the walk over its
  ancestors comes to.
* `ClassTable.Ascends.find?_graphical`: that is the first one among the graphical ancestors.
* `ClassTable.elementTag_agrees`: the tag of an element whose references resolve.
-/

namespace PageLang.ClassTable

open Ancestor (preorderAll)
open Relation

section
variable {table : ClassTable} {path parents rest refs : List Text} {trees : List Ancestor}
  {name parent ref tag : Text} {d : ClassDefinition}

/-! ## The first raw tag -/

theorem inheritedTag?_nil : table.inheritedTag? path [] = none := by
  rw [inheritedTag?]

/-- The first parent that gives a tag decides. -/
theorem inheritedTag?_cons : table.inheritedTag? path (parent :: rest) =
    ((table.get? parent).elim (if Vocabulary.isTag parent then some parent else none) fun d =>
      if d.name ∈ path then none else table.inheritedTag? (d.name :: path) d.parents).or
    (table.inheritedTag? path rest) := by
  rw [inheritedTag?]
  split
  · next tag hfound =>
    split at hfound
    · next d hget =>
      rw [hget, Option.elim_some, show (if d.name ∈ path then none else
        table.inheritedTag? (d.name :: path) d.parents) = some tag from hfound]
      rfl
    · next hget =>
      rw [hget, Option.elim_none, hfound]
      rfl
  · next hfound =>
    split at hfound
    · next d hget =>
      rw [hget, Option.elim_some, show (if d.name ∈ path then none else
        table.inheritedTag? (d.name :: path) d.parents) = none from hfound]
      rfl
    · next hget =>
      rw [hget, Option.elim_none, hfound]
      rfl

/-- What is inherited is a raw tag, also where classes inherit from themselves. -/
theorem isTag_of_inheritedTag? (h : table.inheritedTag? path parents = some tag) :
    Vocabulary.isTag tag = true := by
  fun_induction table.inheritedTag? path parents with
  | case1 path => cases h
  | case2 path parent rest found _ hfound ih =>
    have hgiven : found = some tag := hfound.trans h
    simp only [found] at hgiven
    split at hgiven
    · next d hget =>
      split at hgiven
      · cases hgiven
      · next hpath => exact ih d hget hpath hgiven
    · split at hgiven
      · next htag =>
        cases hgiven
        exact htag
      · cases hgiven
  | case3 path parent rest found hfound _ ih => exact ih h

theorem referenceTag?_eq : table.referenceTag? ref =
    ((table.get? ref).bind fun d => table.inheritedTag? [d.name] d.parents).or
      (if Vocabulary.isTag ref then some ref else none) := by
  unfold referenceTag?
  generalize (table.get? ref).bind _ = inherited
  cases inherited <;> rfl

theorem isTag_of_referenceTag? (h : table.referenceTag? ref = some tag) :
    Vocabulary.isTag tag = true := by
  rw [referenceTag?_eq, Option.or_eq_some_iff] at h
  rcases h with hinherited | ⟨-, hself⟩
  · obtain ⟨d, -, hd⟩ := Option.bind_eq_some_iff.1 hinherited
    exact isTag_of_inheritedTag? hd
  · split at hself
    · next htag =>
      cases hself
      exact htag
    · cases hself

/-- Every element has a tag, whatever the table. -/
theorem isTag_elementTag (table : ClassTable) (refs : List Text) :
    Vocabulary.isTag (table.elementTag refs) = true := by
  unfold elementTag
  cases hfind : refs.reverse.findSome? table.referenceTag? with
  | none => decide
  | some tag =>
    obtain ⟨ref, -, href⟩ := List.exists_of_findSome?_eq_some hfind
    exact isTag_of_referenceTag? href

/-! ## References -/

/-- A class reference that stands for a raw tag, or for a class that resolves. -/
def IsReference (table : ClassTable) (ref : Text) : Prop :=
  table.IsRawTag ref ∨ ∃ r, table.resolve ref = .ok r

open Classical in
/-- A reference is graphical if a raw tag can be reached from it. -/
theorem IsReference.isGraphical (h : table.IsReference ref) :
    table.isGraphical ref = .ok (decide (table.ReachesTag ref)) := by
  rcases h with htag | ⟨r, hr⟩
  · rw [ClassTable.isGraphical, isGraphicalFrom_tag htag]
    simp [htag.reachesTag]
  · obtain ⟨d, trees, hget, htrees, -⟩ := resolve_eq_ok_iff.1 hr
    exact htrees.isGraphical hget

theorem referenceTag?_of_isRawTag (htag : table.IsRawTag ref) :
    table.referenceTag? ref = some ref := by
  simp [referenceTag?_eq, htag.1, htag.2]

/-- Where each reference resolves on its own, the walk over all of them meets no fault, behind names
that no class has. -/
theorem exists_ascends (hrefs : ∀ ref ∈ refs, table.IsReference ref)
    (hpath : ∀ x ∈ path, x ∉ table.keys) : ∃ trees, table.Ascends path refs trees := by
  induction refs with
  | nil => exact ⟨[], .nil⟩
  | cons ref rest ih =>
    obtain ⟨others, hothers⟩ := ih fun r hr => hrefs r (List.mem_cons_of_mem _ hr)
    rcases hrefs ref List.mem_cons_self with htag | ⟨r, hr⟩
    · exact ⟨_, .tag htag.1 htag.2 hothers⟩
    · obtain ⟨d, trees, hget, htrees, -⟩ := resolve_eq_ok_iff.1 hr
      have hkey : ref ∈ table.keys := OrderedMap.mem_keys_of_get? hget
      have hmisses : table.Misses (ref :: path) (preorderAll trees) := by
        intro x hx hx'
        rcases List.mem_cons.1 hx with rfl | hx
        · exact htrees.name_notMem hget
        · exact absurd hx' (hpath x hx)
      have hout : ref ∉ path := fun hmem => hpath ref hmem hkey
      exact ⟨_, .cls hget hout (htrees.of_misses hmisses) hothers⟩

/-! ## Tables without a class named like a tag -/

variable (hclasses : ∀ name ∈ table.keys, ¬ Vocabulary.isTag name = true)
include hclasses

/-- The first raw tag that the walk comes to is the first one among the graphical ancestors. -/
theorem Ascends.find?_graphical (h : table.Ascends path parents trees) :
    (Ancestor.graphical trees).find? Vocabulary.isTag =
      (preorderAll trees).find? Vocabulary.isTag := by
  have hreaches (n : Text) (htag : Vocabulary.isTag n = true) : table.ReachesTag n :=
    IsRawTag.reachesTag ⟨OrderedMap.get?_eq_none.2 fun hkey => hclasses n hkey htag, htag⟩
  rw [h.graphical_eq, find?_eraseDups, List.find?_filter]
  congr 1
  funext n
  simpa using hreaches n

/-- It is found exactly if a parent reaches a raw tag. -/
theorem Ascends.find?_preorder_eq_none_iff (h : table.Ascends path parents trees) :
    (preorderAll trees).find? Vocabulary.isTag = none ↔ ¬ ∃ p ∈ parents, table.ReachesTag p := by
  rw [List.find?_eq_none]
  constructor
  · rintro hno ⟨p, hp, tag, hreach, htag⟩
    exact hno tag (h.mem_preorder_iff.2 ⟨p, hp, hreach⟩) htag.2
  · intro hno n hn htag
    have hraw : table.IsRawTag n :=
      ⟨OrderedMap.get?_eq_none.2 fun hkey => hclasses n hkey htag, htag⟩
    exact h.not_reachesTag hno hn hraw.reachesTag

-- the walk for a tag knows a class again by its own name, resolving by the name it stands under
variable (hnames : ∀ entry ∈ table.entries, entry.2.name = entry.1)
include hnames

/-- A class inherits the first raw tag that the walk over its ancestors comes to. -/
theorem Ascends.inheritedTag?_eq (h : table.Ascends path parents trees) {passed : List Text}
    (hpassed : table.Misses passed (preorderAll trees)) :
    table.inheritedTag? passed parents = (preorderAll trees).find? Vocabulary.isTag := by
  induction h generalizing passed with
  | nil => exact inheritedTag?_nil
  | tag hget htag _ _ => simp [inheritedTag?_cons, hget, htag]
  | @cls _ _ parent d _ _ hget _ habove _ ihAbove ih =>
    obtain ⟨hparent, hmissesAbove, hmissesRest⟩ := habove.misses_cls hget hpassed
    have hname : d.name = parent := hnames _ (OrderedMap.mem_entries_of_get? hget)
    have hclass := hclasses _ (OrderedMap.mem_keys_of_get? hget)
    simp [inheritedTag?_cons, hget, hname, hparent, ihAbove hmissesAbove, ih hmissesRest, hclass]

theorem referenceTag?_of_resolve {r : ResolvedClass} (hr : table.resolve ref = .ok r) :
    table.referenceTag? ref = r.graphicalAncestors.find? Vocabulary.isTag ∧
      (table.referenceTag? ref = none ↔ ¬ table.ReachesTag ref) := by
  obtain ⟨d, trees, hget, htrees, rfl⟩ := resolve_eq_ok_iff.1 hr
  have hclass := hclasses ref (OrderedMap.mem_keys_of_get? hget)
  have htag : table.referenceTag? ref = (preorderAll trees).find? Vocabulary.isTag := by
    simp [referenceTag?_eq, hget, htrees.inheritedTag?_eq hclasses hnames htrees.misses, hclass]
  refine ⟨?_, ?_⟩
  · rw [htag, ResolvedClass.graphicalAncestors_merged, htrees.find?_graphical hclasses]
  · rw [htag, htrees.find?_preorder_eq_none_iff hclasses, reachesTag_cls_iff hget]

theorem IsReference.referenceTag?_eq_none_iff (h : table.IsReference ref) :
    table.referenceTag? ref = none ↔ ¬ table.ReachesTag ref := by
  rcases h with htag | ⟨r, hr⟩
  · simp [referenceTag?_of_isRawTag htag, htag.reachesTag]
  · exact (referenceTag?_of_resolve hclasses hnames hr).2

/-- The last reference from which a raw tag can be reached gives the tag. -/
theorem exists_last (hrefs : ∀ ref ∈ refs, table.IsReference ref)
    (h : ∃ ref ∈ refs, table.ReachesTag ref) :
    ∃ before last after, refs = before ++ last :: after ∧ table.ReachesTag last ∧
      (∀ ref ∈ after, ¬ table.ReachesTag ref) ∧
      table.referenceTag? last = some (table.elementTag refs) := by
  have hgives (ref : Text) (href : ref ∈ refs) :=
    (hrefs ref href).referenceTag?_eq_none_iff hclasses hnames
  cases hfind : refs.reverse.findSome? table.referenceTag? with
  | none =>
    obtain ⟨ref, href, hreaches⟩ := h
    have hnone := List.findSome?_eq_none_iff.1 hfind ref (List.mem_reverse.2 href)
    exact absurd hreaches ((hgives ref href).1 hnone)
  | some tag =>
    obtain ⟨behind, last, front, hsplit, hlast, hbehind⟩ := List.findSome?_eq_some_iff.1 hfind
    have hrefs' : refs = front.reverse ++ last :: behind.reverse := by
      rw [← List.reverse_reverse refs, hsplit]
      simp
    have hmem : last ∈ refs := by simp [hrefs']
    have htag : table.elementTag refs = tag := by rw [elementTag, hfind, Option.getD_some]
    refine ⟨front.reverse, last, behind.reverse, hrefs', ?_, fun ref href => ?_, ?_⟩
    · refine Classical.byContradiction fun hno => ?_
      rw [(hgives last hmem).2 hno] at hlast
      cases hlast
    · exact (hgives ref (by simp [hrefs', List.mem_reverse.1 href])).1
        (hbehind ref (List.mem_reverse.1 href))
    · rw [htag, hlast]

end

/-! ## Elements -/

/-- Every table gives every element a tag. Let each class stand under its own name and none be named
like a tag, and let the references of an element without a name stand for raw tags and for classes
that resolve. Then the element resolves unless there is a class without a name. The default tag is
that of elements without graphical ancestors. Otherwise the last graphical reference decides: it is
the tag itself, or its tag is the first raw tag among its graphical ancestors. -/
theorem elementTag_agrees (table : ClassTable) :
    (∀ refs, Vocabulary.isTag (table.elementTag refs) = true) ∧
    ((∀ entry ∈ table.entries, entry.2.name = entry.1) →
      (∀ name ∈ table.keys, ¬ Vocabulary.isTag name = true) →
      ∀ e : Element, e.name = none → (∀ ref ∈ e.classRefs, table.IsReference ref) →
      ∀ file,
        ([] ∉ table.keys → ∃ r, table.resolveElement file e = .ok r) ∧
        ∀ r, table.resolveElement file e = .ok r →
          (r.graphicalAncestors = [] →
            table.elementTag e.classRefs = Vocabulary.defaultTag) ∧
          (r.graphicalAncestors ≠ [] → ∃ before last after,
            e.classRefs = before ++ last :: after ∧ table.isGraphical last = .ok true ∧
            (∀ ref ∈ after, table.isGraphical ref = .ok false) ∧
            (Vocabulary.isTag last = true → table.elementTag e.classRefs = last) ∧
            (¬ Vocabulary.isTag last = true → ∃ ancestors,
              table.graphicalAncestors last = .ok ancestors ∧
              ancestors.find? Vocabulary.isTag = some (table.elementTag e.classRefs)))) := by
  refine ⟨isTag_elementTag table, fun hnames hclasses e hname hrefs file => ⟨fun hempty => ?_, ?_⟩⟩
  · have hpath : ∀ x ∈ [e.name.getD []], x ∉ table.keys := by simpa [hname] using hempty
    obtain ⟨trees, htrees⟩ := exists_ascends hrefs hpath
    exact ⟨_, merge_eq_ok_iff.2 ⟨trees, htrees, rfl⟩⟩
  · intro r hr
    obtain ⟨trees, htrees, rfl⟩ := merge_eq_ok_iff.1 hr
    rw [ResolvedClass.graphicalAncestors_merged, Ne, htrees.graphical_eq_nil_iff, not_not]
    refine ⟨fun hno => ?_, fun hany => ?_⟩
    · have hnone : e.classRefs.reverse.findSome? table.referenceTag? = none := by
        apply List.findSome?_eq_none_iff.2
        intro ref href
        have hmem := List.mem_reverse.1 href
        exact ((hrefs ref hmem).referenceTag?_eq_none_iff hclasses hnames).2
          fun hreaches => hno ⟨ref, hmem, hreaches⟩
      rw [elementTag, hnone, Option.getD_none]
    · obtain ⟨before, last, after, hsplit, hreaches, hafter, htag⟩ :=
        exists_last hclasses hnames hrefs hany
      have hlast : table.IsReference last := hrefs last (by simp [hsplit])
      refine ⟨before, last, after, hsplit, ?_, fun ref href => ?_, fun hraw => ?_, fun hclass => ?_⟩
      · simp [hlast.isGraphical, hreaches]
      · have hmem : ref ∈ e.classRefs := by simp [hsplit, href]
        simp [(hrefs ref hmem).isGraphical, hafter ref href]
      · have hnone : table.get? last = none :=
          OrderedMap.get?_eq_none.2 fun hkey => hclasses last hkey hraw
        rw [referenceTag?_of_isRawTag ⟨hnone, hraw⟩] at htag
        exact (Option.some.inj htag).symm
      · rcases hlast with hraw | ⟨r, hr⟩
        · exact absurd hraw.2 hclass
        · refine ⟨r.graphicalAncestors, ?_, ?_⟩
          · rw [graphicalAncestors, hr]
            rfl
          · rw [← (referenceTag?_of_resolve hclasses hnames hr).1, htag]

/-- A class with a raw tag among its parents, behind a class that has none. -/
def sampleFields : ClassTable :=
  .ofList [sampleEntry "Plain" [], sampleEntry "Field" ["Plain", "input"]]

/-- An element of a tag and of that class. -/
def sampleFieldElement : Element := ⟨none, ["span", "Field"], ∅, [], ⟨0, 0⟩⟩

theorem elementTag_agrees_sampleFields :
    (∀ entry ∈ sampleFields.entries, entry.2.name = entry.1) ∧
    (∀ name ∈ sampleFields.keys, ¬ Vocabulary.isTag name = true) ∧
    (∀ ref ∈ sampleFieldElement.classRefs, sampleFields.IsReference ref) ∧
    (∃ r, sampleFields.resolveElement "main" sampleFieldElement = .ok r ∧
      r.graphicalAncestors ≠ []) ∧
    sampleFields.elementTag sampleFieldElement.classRefs = "input" := by
  have hnames : ∀ entry ∈ sampleFields.entries, entry.2.name = entry.1 := by decide
  have hclasses : ∀ name ∈ sampleFields.keys, ¬ Vocabulary.isTag name = true := by decide
  have hfield : sampleFields.get? "Field" = some (sampleEntry "Field" ["Plain", "input"]).2 := rfl
  have htrees : sampleFields.Ascends ["Field"] ["Plain", "input"] _ :=
    .cls rfl (by decide) .nil (.tag rfl (by decide) .nil)
  have hresolve := resolve_eq_ok_iff.2 ⟨_, _, hfield, htrees, rfl⟩
  have hrefs : ∀ ref ∈ sampleFieldElement.classRefs, sampleFields.IsReference ref := by
    intro ref href
    rcases List.mem_cons.1 href with rfl | href
    · exact .inl ⟨rfl, by decide⟩
    · rw [List.mem_singleton.1 href]
      exact .inr ⟨_, hresolve⟩
  have hreaches : sampleFields.ReachesTag "Field" :=
    ⟨"input", .single ⟨_, hfield, by decide⟩, rfl, by decide⟩
  have hgraphical : sampleFields.isGraphical "Field" = .ok true := by
    simpa [hreaches] using htrees.isGraphical hfield
  obtain ⟨hok, hresult⟩ :=
    (elementTag_agrees sampleFields).2 hnames hclasses sampleFieldElement rfl hrefs "main"
  obtain ⟨r, hr⟩ := hok (by decide)
  have hany : r.graphicalAncestors ≠ [] := by
    obtain ⟨trees, hall, rfl⟩ := merge_eq_ok_iff.1 hr
    rw [ResolvedClass.graphicalAncestors_merged, Ne, hall.graphical_eq_nil_iff, not_not]
    exact ⟨"Field", by decide, hreaches⟩
  obtain ⟨before, last, after, hsplit, -, hafter, -, hclass⟩ := (hresult r hr).2 hany
  have hlast : last = Text.ofString "Field" := by
    cases before with
    | nil =>
      -- the class stands behind the tag, and is graphical
      obtain ⟨-, rfl⟩ := List.cons.inj hsplit
      have hno := hafter "Field" (List.mem_singleton_self _)
      rw [hgraphical] at hno
      cases hno
    | cons first before =>
      obtain ⟨-, hrest⟩ := List.cons.inj hsplit
      cases before with
      | nil => exact (List.cons.inj hrest).1.symm
      | cons second before => simp at hrest
  subst hlast
  obtain ⟨ancestors, hancestors, hfirst⟩ := hclass (by decide)
  rw [graphicalAncestors, hresolve] at hancestors
  cases hancestors
  simp only [ResolvedClass.graphicalAncestors_merged] at hfirst
  exact ⟨hnames, hclasses, hrefs, ⟨r, hr, hany⟩, (Option.some.inj hfirst).symm⟩

end PageLang.ClassTable
