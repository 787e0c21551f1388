import PageLang.Proofs.Inheritance.Precedence
import PageLang.Proofs.Inheritance.Walk

/-!
# What a walk comes to

A walk that meets no fault comes to everything that can be reached from the parents it starts at,
and never to a class twice on one way. So the trees it finds depend on the parents alone, and the
classes it has come through before do not matter, as long as it does not come to one of them.

* `Ancestor.preorderAll`: the names of all ancestors, each before those of its own ancestors.
* `ClassTable.Preorder`: the same listing, read off the table.
* `ClassTable.Ascends.mem_preorder_iff`: the names met are those that can be reached.
* `ClassTable.Ascends.of_misses`: the same walk behind other classes.
* `ClassTable.Ascends.name_notMem`: no class is among its own ancestors.
-/

namespace PageLang

namespace Ancestor

mutual

/-- The names in a tree, each before those of its own ancestors. -/
def preorder : Ancestor → List Text
  | .tag name => [name]
  | .cls name _ parents => name :: preorderAll parents

/-- The names in all trees. -/
def preorderAll : List Ancestor → List Text
  | [] => []
  | a :: rest => a.preorder ++ preorderAll rest

end

@[simp] theorem preorderAll_nil : preorderAll [] = [] := rfl

@[simp] theorem preorderAll_tag (name : Text) (rest : List Ancestor) :
    preorderAll (.tag name :: rest) = name :: preorderAll rest := rfl

@[simp] theorem preorderAll_cls (name : Text) (d : ClassDefinition)
    (above rest : List Ancestor) :
    preorderAll (.cls name d above :: rest) = name :: (preorderAll above ++ preorderAll rest) := rfl

end Ancestor

open Ancestor (preorderAll)
open Relation

namespace ClassTable

/-- A name that stands for a raw tag: no class has it. -/
def IsRawTag (table : ClassTable) (name : Text) : Prop :=
  table.get? name = none ∧ Vocabulary.isTag name = true

/-- The depth-first listing of names and all their ancestors, the parents of each class in declared
order and behind the class. Repetitions are kept. -/
inductive Preorder (table : ClassTable) : List Text → List Text → Prop
  | nil : Preorder table [] []
  | tag {name : Text} {rest after : List Text} :
    table.IsRawTag name → Preorder table rest after →
    Preorder table (name :: rest) (name :: after)
  | cls {name : Text} {rest above after : List Text} {d : ClassDefinition} :
    table.get? name = some d → Preorder table d.parents above → Preorder table rest after →
    Preorder table (name :: rest) (name :: above ++ after)

theorem Preorder.unique {table : ClassTable} {names l l' : List Text}
    (h : table.Preorder names l) (h' : table.Preorder names l') : l = l' := by
  induction h generalizing l' with
  | nil =>
    cases h'
    rfl
  | tag htag _ ih =>
    cases h' with
    | tag _ hrest => rw [ih hrest]
    | cls hget _ _ => simp [htag.1] at hget
  | cls hget _ _ ihAbove ihAfter =>
    cases h' with
    | tag htag _ => simp [htag.1] at hget
    | cls hget' habove hafter =>
      obtain rfl := Option.some.inj (hget.symm.trans hget')
      rw [ihAbove habove, ihAfter hafter]

section
variable {table : ClassTable} {path path' parents : List Text} {trees trees' : List Ancestor}
  {name b : Text} {d : ClassDefinition}

theorem Ascends.preorder (h : table.Ascends path parents trees) :
    table.Preorder parents (preorderAll trees) := by
  induction h with
  | nil => exact .nil
  | tag hget htag _ ih => exact .tag ⟨hget, htag⟩ ih
  | cls hget _ _ _ ihAbove ih => exact .cls hget ihAbove ih

/-- A raw tag has no parents, and the parents of a class are those it declares. -/
theorem not_hasParent_of_none (hget : table.get? name = none) : ¬ table.HasParent name b := by
  rintro ⟨d, hsome, -⟩
  simp [hget] at hsome

theorem hasParent_iff (hget : table.get? name = some d) :
    table.HasParent name b ↔ b ∈ d.parents := by
  simp [HasParent, hget]

/-- What can be reached from a class is the class itself, or can be reached from a parent. -/
theorem reaches_cls_iff (hget : table.get? name = some d) :
    ReflTransGen table.HasParent name b ↔
      b = name ∨ ∃ p ∈ d.parents, ReflTransGen table.HasParent p b := by
  rw [ReflTransGen.cases_head_iff, eq_comm]
  simp only [hasParent_iff hget]

theorem reaches_of_none (hget : table.get? name = none) :
    ReflTransGen table.HasParent name b ↔ b = name := by
  rw [ReflTransGen.cases_head_iff, eq_comm]
  simp [not_hasParent_of_none hget]

/-- A walk without a fault comes to what can be reached from one of the parents. -/
theorem Ascends.mem_preorder_iff (h : table.Ascends path parents trees) :
    b ∈ preorderAll trees ↔ ∃ p ∈ parents, ReflTransGen table.HasParent p b := by
  induction h with
  | nil => simp
  | tag hget _ _ ih => simp [ih, reaches_of_none hget]
  | cls hget _ _ _ ihAbove ih =>
    simp [ihAbove, ih, reaches_cls_iff hget, or_assoc]

/-- No class of `path` is among the names. -/
def Misses (table : ClassTable) (path names : List Text) : Prop :=
  ∀ x ∈ path, x ∈ table.keys → x ∉ names

theorem Misses.mono {names names' : List Text} (h : table.Misses path names)
    (hsub : names' ⊆ names) : table.Misses path names' :=
  fun x hx hkey hmem => h x hx hkey (hsub hmem)

/-- A walk never comes to a class that it has come through. -/
theorem Ascends.misses (h : table.Ascends path parents trees) :
    table.Misses path (preorderAll trees) := by
  induction h with
  | nil => exact fun _ _ _ => List.not_mem_nil
  | @tag _ _ parent _ hnone _ _ ih =>
    intro x hx hkey
    have hne : x ≠ parent := by
      rintro rfl
      exact OrderedMap.get?_eq_none.1 hnone hkey
    simpa [hne] using ih x hx hkey
  | @cls _ _ parent _ _ _ _ hpath _ _ ihAbove ih =>
    intro x hx hkey
    have hne : x ≠ parent := by
      rintro rfl
      exact hpath hx
    simpa [hne] using ⟨ihAbove x (List.mem_cons_of_mem _ hx) hkey, ih x hx hkey⟩

/-- A class of the table stands before its own ancestors and is none of them. So what misses the
class and them can pass through the class and misses the rest of them. -/
theorem Ascends.misses_cls {others : List Ancestor}
    (habove : table.Ascends (name :: path) d.parents trees) (hget : table.get? name = some d)
    (h : table.Misses path' (preorderAll (.cls name d trees :: others))) :
    name ∉ path' ∧ table.Misses (name :: path') (preorderAll trees) ∧
      table.Misses path' (preorderAll others) := by
  have hkey : name ∈ table.keys := OrderedMap.mem_keys_of_get? hget
  refine ⟨fun hmem => h name hmem hkey (by simp), fun x hx hx' hmem => ?_,
    h.mono fun x hx => by simp [hx]⟩
  rcases List.mem_cons.1 hx with rfl | hx
  · exact habove.misses x List.mem_cons_self hkey hmem
  · exact h x hx hx' (by simp [hmem])

/-- The trees depend on the parents alone. -/
theorem Ascends.unique (h : table.Ascends path parents trees)
    (h' : table.Ascends path' parents trees') : trees = trees' := by
  induction h generalizing path' trees' with
  | nil =>
    cases h'
    rfl
  | tag hget _ _ ih =>
    cases h' with
    | tag _ _ hrest => rw [ih hrest]
    | cls hsome _ _ _ => simp [hget] at hsome
  | cls hget _ _ _ ihAbove ih =>
    cases h' with
    | tag hnone _ _ => simp [hget] at hnone
    | cls hget' _ habove hrest =>
      obtain rfl := Option.some.inj (hget.symm.trans hget')
      rw [ihAbove habove, ih hrest]

/-- Behind other classes the walk is the same, if it does not come to one of them. -/
theorem Ascends.of_misses (h : table.Ascends path parents trees)
    (hmisses : table.Misses path' (preorderAll trees)) : table.Ascends path' parents trees := by
  induction h generalizing path' with
  | nil => exact .nil
  | tag hget htag _ ih => exact .tag hget htag (ih (hmisses.mono (List.subset_cons_self _ _)))
  | cls hget _ habove _ ihAbove ih =>
    obtain ⟨hparent, hmissesAbove, hmissesRest⟩ := habove.misses_cls hget hmisses
    exact .cls hget hparent (ihAbove hmissesAbove) (ih hmissesRest)

/-- A walk that comes to a class goes on from it. -/
theorem Ascends.exists_above (h : table.Ascends path parents trees)
    (hget : table.get? name = some d) (hmem : name ∈ preorderAll trees) :
    ∃ path' above, table.Ascends (name :: path') d.parents above := by
  induction h with
  | nil => simp at hmem
  | tag hnone _ _ ih =>
    rcases List.mem_append.1 hmem with hhere | hrest
    · obtain rfl := List.mem_singleton.1 hhere
      simp [hnone] at hget
    · exact ih hrest
  | cls hget' _ habove _ ihAbove ih =>
    rcases List.mem_append.1 hmem with hhere | hrest
    · rcases List.mem_cons.1 hhere with rfl | habove'
      · obtain rfl := Option.some.inj (hget.symm.trans hget')
        exact ⟨_, _, habove⟩
      · exact ihAbove habove'
    · exact ih hrest

/-- No class is among its own ancestors. -/
theorem Ascends.name_notMem (h : table.Ascends path d.parents trees)
    (hget : table.get? name = some d) : name ∉ preorderAll trees := by
  intro hmem
  obtain ⟨path', above, habove⟩ := h.exists_above hget hmem
  rw [h.unique habove] at hmem
  exact habove.misses name List.mem_cons_self (OrderedMap.mem_keys_of_get? hget) hmem

end

end ClassTable

end PageLang
