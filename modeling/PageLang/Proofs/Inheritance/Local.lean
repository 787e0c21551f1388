import PageLang.Proofs.Inheritance.Ascent

/-!
# What a class depends on

Resolving a class reads of a table what can be reached from the class, and nothing else. Other
classes, and the order in which classes stand, make no difference.

* `ClassTable.AgreeAbove`: two tables that define alike what can be reached from some names.
* `ClassTable.AgreeAbove.ancestry_eq`: such names have the same ancestry, or none for one reason.
* `ClassTable.resolve_eq_of_agree`: a class resolves to the same, or fails with one diagnostic.
-/

namespace PageLang.ClassTable

open Relation

/-- What can be reached from the names has the same definition in both tables, or none in both. -/
def AgreeAbove (table other : ClassTable) (names : List Text) : Prop :=
  ∀ name ∈ names, ∀ b, ReflTransGen table.HasParent name b → table.get? b = other.get? b

section
variable {table other : ClassTable} {name : Text} {rest : List Text} {d : ClassDefinition}

theorem AgreeAbove.head (h : table.AgreeAbove other (name :: rest)) :
    table.get? name = other.get? name :=
  h name List.mem_cons_self name .refl

theorem AgreeAbove.tail (h : table.AgreeAbove other (name :: rest)) :
    table.AgreeAbove other rest :=
  fun n hn => h n (List.mem_cons_of_mem _ hn)

theorem AgreeAbove.parents (h : table.AgreeAbove other (name :: rest))
    (hget : table.get? name = some d) : table.AgreeAbove other d.parents := by
  intro p hp b hreach
  have hfirst : table.HasParent name p := (hasParent_iff hget).2 hp
  exact h name List.mem_cons_self b (.head hfirst hreach)

end

/-- The walk over the ancestors takes the same steps in both tables. -/
theorem AgreeAbove.ancestry_eq {table other : ClassTable} (path : List Text) (heir : Heir)
    (parents : List Text) (h : table.AgreeAbove other parents) :
    table.ancestry path heir parents = other.ancestry path heir parents := by
  induction path, heir, parents using ClassTable.ancestry.induct table with
  | case1 path heir => rw [ancestry_nil, ancestry_nil]
  | case2 path heir parent rest hget htag ih =>
    have hget' : other.get? parent = none := h.head ▸ hget
    rw [ancestry_tag hget htag, ancestry_tag hget' htag, ih h.tail]
  | case3 path heir parent rest hget htag =>
    have hget' : other.get? parent = none := h.head ▸ hget
    rw [ancestry_unknown hget htag, ancestry_unknown hget' htag]
  | case4 path heir parent rest d hget hpath =>
    have hget' : other.get? parent = some d := h.head ▸ hget
    rw [ancestry_cycle hget hpath, ancestry_cycle hget' hpath]
  | case5 path heir parent rest d hget hpath e habove ih =>
    have hget' : other.get? parent = some d := h.head ▸ hget
    rw [ancestry_cls hget hpath, ancestry_cls hget' hpath, ← ih (h.parents hget), habove]
    rfl
  | case6 path heir parent rest d hget hpath above habove ihAbove ih =>
    have hget' : other.get? parent = some d := h.head ▸ hget
    rw [ancestry_cls hget hpath, ancestry_cls hget' hpath, ← ihAbove (h.parents hget),
      ih h.tail]

theorem AgreeAbove.merge_eq {table other : ClassTable} {heir : Heir} {parents : List Text}
    (h : table.AgreeAbove other parents) (own : Members) (children : List Element) :
    table.merge heir parents own children = other.merge heir parents own children := by
  rw [merge, merge, h.ancestry_eq]

/-- Tables that define a name, and all that can be reached from it, alike resolve it to the same
class, or fail with the same diagnostic. -/
theorem resolve_eq_of_agree {table other : ClassTable} {name : Text}
    (h : ∀ b, ReflTransGen table.HasParent name b → table.get? b = other.get? b) :
    table.resolve name = other.resolve name := by
  have hagree : table.AgreeAbove other [name] := fun n hn => List.mem_singleton.1 hn ▸ h
  unfold resolve
  rw [← hagree.head]
  cases hget : table.get? name with
  | none => rfl
  | some d => exact (hagree.parents hget).merge_eq d.members d.children

/-- Some classes, one above the other. -/
def sampleAlone : ClassTable :=
  .ofList [sampleEntry "Top" ["div"], sampleEntry "Left" ["Top"], sampleEntry "Low" ["Left"]]

/-- The same classes in another order, among others that do not resolve. -/
def sampleAmong : ClassTable :=
  .ofList
    [sampleEntry "Loop" ["Low", "Loop"], sampleEntry "Low" ["Left"], sampleEntry "Top" ["div"],
      sampleEntry "Lost" ["Top", "Ghost"], sampleEntry "Left" ["Top"]]

theorem resolve_eq_of_agree_sampleAlone :
    (∀ b, ReflTransGen sampleAlone.HasParent "Low" b → sampleAlone.get? b = sampleAmong.get? b) ∧
      sampleAlone.resolve "Low" = sampleAmong.resolve "Low" ∧
      ∃ r, sampleAmong.resolve "Low" = .ok r := by
  have hget : sampleAlone.get? "Low" = some (sampleEntry "Low" ["Left"]).2 := rfl
  have habove : sampleAlone.Ascends ["Low"] ["Left"] _ :=
    .cls rfl (by decide) (.cls rfl (by decide) (.tag rfl rfl .nil) .nil) .nil
  have hlow : sampleAlone.Ascends [] ["Low"] _ := .cls hget (by decide) habove .nil
  have hagree : ∀ b, ReflTransGen sampleAlone.HasParent "Low" b →
      sampleAlone.get? b = sampleAmong.get? b := by
    intro b hb
    have hmem := hlow.mem_preorder_iff.2 ⟨_, List.mem_singleton_self _, hb⟩
    simp only [Ancestor.preorderAll_cls, Ancestor.preorderAll_tag, Ancestor.preorderAll_nil,
      List.append_nil, List.mem_cons, List.not_mem_nil, or_false] at hmem
    rcases hmem with rfl | rfl | rfl | rfl <;> rfl
  have heq := resolve_eq_of_agree hagree
  exact ⟨hagree, heq, _, heq ▸ resolve_eq_ok_iff.2 ⟨_, _, hget, habove, rfl⟩⟩

end PageLang.ClassTable
