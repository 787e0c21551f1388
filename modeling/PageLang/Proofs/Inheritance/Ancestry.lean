import PageLang.Inheritance.Ancestry

/-!
# The fate of a parent

What a parent adds to an ancestry, one lemma for each thing it can be: a raw tag, an unknown name,
a class met again on the way to its own ancestors, or a class whose own ancestors come first.

* `ClassTable.ancestry_cls`: a class and its ancestors, then the other parents.
* `ClassTable.ancestry_eq_ok_iff`: an ancestry is found where the walk `Ascends` without a fault.
* `ClassTable.fault_of_ancestry`: why there is no ancestry, and in which file the reason stands.
-/

namespace PageLang.ClassTable

section
variable {ε α β : Type} {x : Except ε α} {f : α → β}

theorem exists_ok_of_map {b : β} (h : x.map f = .ok b) : ∃ a, x = .ok a ∧ f a = b := by
  cases x with
  | error e => cases h
  | ok a => exact ⟨a, rfl, Except.ok.inj h⟩

theorem eq_error_of_map {e : ε} (h : x.map f = .error e) : x = .error e := by
  cases x with
  | error e => exact congrArg _ (Except.error.inj h)
  | ok a => cases h

end

section
variable {table : ClassTable} {path : List Text} {heir : Heir} {parent : Text} {rest : List Text}
  {d : ClassDefinition}

theorem ancestry_nil : table.ancestry path heir [] = .ok [] := by
  rw [ancestry]

theorem ancestry_tag (hget : table.get? parent = none) (htag : Vocabulary.isTag parent = true) :
    table.ancestry path heir (parent :: rest) =
      (table.ancestry path heir rest).map (.tag parent :: ·) := by
  rw [ancestry]
  split
  · rw [if_pos htag]
  · next other hsome =>
    rw [hget] at hsome
    cases hsome

theorem ancestry_unknown (hget : table.get? parent = none)
    (htag : ¬ Vocabulary.isTag parent = true) :
    table.ancestry path heir (parent :: rest) = .error (unknownClass parent heir) := by
  rw [ancestry]
  split
  · rw [if_neg htag]
  · next other hsome =>
    rw [hget] at hsome
    cases hsome

theorem ancestry_cycle (hget : table.get? parent = some d) (hpath : parent ∈ path) :
    table.ancestry path heir (parent :: rest) =
      .error (Fault.unlocated ⟨.inheritanceCycle parent heir.name, heir.span⟩ heir.file) := by
  rw [ancestry]
  split
  · next hnone =>
    rw [hget] at hnone
    cases hnone
  · rw [dif_pos hpath]

theorem ancestry_cls (hget : table.get? parent = some d) (hpath : parent ∉ path) :
    table.ancestry path heir (parent :: rest) =
      (table.ancestry (parent :: path) ⟨d.name, d.span, d.sourceFile⟩ d.parents).bind
        (fun above => (table.ancestry path heir rest).map (.cls parent d above :: ·)) := by
  rw [ancestry]
  split
  · next hnone =>
    rw [hget] at hnone
    cases hnone
  · next other hsome =>
    rw [hget] at hsome
    cases hsome
    rw [dif_neg hpath]
    cases table.ancestry (parent :: path) ⟨d.name, d.span, d.sourceFile⟩ d.parents <;> rfl

theorem ancestry_tag_ok {others : List Ancestor} (hget : table.get? parent = none)
    (htag : Vocabulary.isTag parent = true) (hrest : table.ancestry path heir rest = .ok others) :
    table.ancestry path heir (parent :: rest) = .ok (.tag parent :: others) := by
  rw [ancestry_tag hget htag, hrest]
  rfl

theorem ancestry_cls_ok {above others : List Ancestor} (hget : table.get? parent = some d)
    (hpath : parent ∉ path)
    (habove : table.ancestry (parent :: path) ⟨d.name, d.span, d.sourceFile⟩ d.parents = .ok above)
    (hrest : table.ancestry path heir rest = .ok others) :
    table.ancestry path heir (parent :: rest) = .ok (.cls parent d above :: others) := by
  rw [ancestry_cls hget hpath, habove, hrest]
  rfl

end

/-! ## Walks without a fault -/

/-- The trees that a walk over some parents finds if it meets no fault. It has come through the
classes of `path`. -/
inductive Ascends (table : ClassTable) : (path parents : List Text) → List Ancestor → Prop
  | nil {path : List Text} : Ascends table path [] []
  | tag {path rest : List Text} {parent : Text} {others : List Ancestor} :
    table.get? parent = none → Vocabulary.isTag parent = true → Ascends table path rest others →
    Ascends table path (parent :: rest) (.tag parent :: others)
  | cls {path rest : List Text} {parent : Text} {d : ClassDefinition}
      {above others : List Ancestor} :
    table.get? parent = some d → parent ∉ path → Ascends table (parent :: path) d.parents above →
    Ascends table path rest others →
    Ascends table path (parent :: rest) (.cls parent d above :: others)

theorem ancestry_of_ascends {table : ClassTable} {path parents : List Text} {heir : Heir}
    {trees : List Ancestor} (h : table.Ascends path parents trees) :
    table.ancestry path heir parents = .ok trees := by
  induction h generalizing heir with
  | nil => exact ancestry_nil
  | tag hget htag _ ih => exact ancestry_tag_ok hget htag ih
  | cls hget hpath _ _ ihAbove ih => exact ancestry_cls_ok hget hpath ihAbove ih

theorem ascends_of_ancestry {table : ClassTable} (path : List Text) (heir : Heir)
    (parents : List Text) {trees : List Ancestor}
    (h : table.ancestry path heir parents = .ok trees) : table.Ascends path parents trees := by
  induction path, heir, parents using ClassTable.ancestry.induct table generalizing trees with
  | case1 path heir =>
    rw [ancestry_nil] at h
    cases h
    exact .nil
  | case2 path heir parent rest hget htag ih =>
    rw [ancestry_tag hget htag] at h
    obtain ⟨others, hrest, rfl⟩ := exists_ok_of_map h
    exact .tag hget htag (ih hrest)
  | case3 path heir parent rest hget htag =>
    rw [ancestry_unknown hget htag] at h
    cases h
  | case4 path heir parent rest d hget hpath =>
    rw [ancestry_cycle hget hpath] at h
    cases h
  | case5 path heir parent rest d hget hpath e habove _ =>
    rw [ancestry_cls hget hpath, habove] at h
    cases h
  | case6 path heir parent rest d hget hpath above habove ihAbove ih =>
    rw [ancestry_cls hget hpath, habove] at h
    obtain ⟨others, hrest, rfl⟩ := exists_ok_of_map h
    exact .cls hget hpath (ihAbove habove) (ih hrest)

/-- Whether there is an ancestry, and which, does not depend on who asks for it. -/
theorem ancestry_eq_ok_iff {table : ClassTable} {path parents : List Text} {heir : Heir}
    {trees : List Ancestor} :
    table.ancestry path heir parents = .ok trees ↔ table.Ascends path parents trees :=
  ⟨ascends_of_ancestry path heir parents, ancestry_of_ascends⟩

/-! ## Faults -/

/-- A reason why there is no ancestry: a parent that is unknown, or a class that inherits from
itself. -/
def IsAncestryFault (f : Fault) : Prop :=
  (∃ name, f.problem = .unknownClass name) ∨
    ∃ name through, f.problem = .inheritanceCycle name through

/-- Without an ancestry there is a fault, in the file of the heir or in that of a class. -/
theorem fault_of_ancestry {table : ClassTable} (path : List Text) (heir : Heir)
    (parents : List Text) {g : Diagnostic} (h : table.ancestry path heir parents = .error g) :
    ∃ f file, g = Fault.unlocated f file ∧ IsAncestryFault f ∧
      (file = heir.file ∨ ∃ d ∈ table.values, file = d.sourceFile) := by
  induction path, heir, parents using ClassTable.ancestry.induct table generalizing g with
  | case1 path heir =>
    rw [ancestry_nil] at h
    cases h
  | case2 path heir parent rest hget htag ih =>
    rw [ancestry_tag hget htag] at h
    exact ih (eq_error_of_map h)
  | case3 path heir parent rest hget htag =>
    rw [ancestry_unknown hget htag] at h
    cases h
    exact ⟨_, _, rfl, .inl ⟨_, rfl⟩, .inl rfl⟩
  | case4 path heir parent rest d hget hpath =>
    rw [ancestry_cycle hget hpath] at h
    cases h
    exact ⟨_, _, rfl, .inr ⟨_, _, rfl⟩, .inl rfl⟩
  | case5 path heir parent rest d hget hpath e habove ih =>
    rw [ancestry_cls hget hpath, habove] at h
    cases h
    obtain ⟨f, file, hg, hf, hfile⟩ := ih habove
    refine ⟨f, file, hg, hf, .inr ?_⟩
    rcases hfile with hfile | hfile
    · exact ⟨d, OrderedMap.mem_values_of_get? hget, hfile⟩
    · exact hfile
  | case6 path heir parent rest d hget hpath above habove _ ih =>
    rw [ancestry_cls hget hpath, habove] at h
    exact ih (eq_error_of_map h)

end PageLang.ClassTable
