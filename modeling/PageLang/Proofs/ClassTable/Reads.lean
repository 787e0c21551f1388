import PageLang.ClassTable.Parser

/-!
# What a class was read from

Every class of a table was read at a class keyword, whatever faults were met on the way. It stands
in the file the table was read for, and its span starts at the keyword.

* `MaskedText.ReadFrom`: a class as it is read at a keyword.
* `MaskedText.readFrom_of_mem_classesRecovering`: every class of a table.
-/

namespace PageLang

namespace MaskedText

/-- What holds at a class keyword. -/
theorem classKeywordFrom?_spec {s : MaskedText} {depth i count j : Nat}
    (h : s.classKeywordFrom? depth i count = some j) :
    s.isClassKeyword j = true ∧ ∃ b, s.liveByte? j = some b := by
  induction count generalizing depth i with
  | zero => simp [classKeywordFrom?] at h
  | succ count ih =>
    unfold classKeywordFrom? at h
    split at h
    · exact ih h
    · exact ih h
    · next b _ _ hb =>
      split at h
      · next hkey =>
        cases h
        exact ⟨hkey.2, b, hb⟩
      · exact ih h
    · exact ih h

theorem classKeyword?_spec {s : MaskedText} {start j : Nat} (h : s.classKeyword? start = some j) :
    s.isClassKeyword j = true ∧ ∃ b, s.liveByte? j = some b :=
  classKeywordFrom?_spec h

/-- The class `d` as it is read at a keyword of a text, for `file`. -/
structure ReadFrom (s : MaskedText) (file : Text) (d : ClassDefinition) : Prop where
  file_eq : d.sourceFile = file
  keyword : ∃ pos, s.classKeyword? pos = some d.span.start
  read : (s.classAt file d.span.start).definition = some d

theorem definition_classWithin {s : MaskedText} {file : Text} {start opening close : Nat}
    {d : ClassDefinition} (h : (s.classWithin file start opening close).definition = some d) :
    d.sourceFile = file ∧ d.span = ⟨start, close + 1⟩ := by
  unfold classWithin at h
  split at h
  · cases h
  · cases h
    exact ⟨rfl, rfl⟩

/-- A class that is read at `start` has its block read, and ends where the block does. -/
theorem definition_classAt {s : MaskedText} {file : Text} {start : Nat} {d : ClassDefinition}
    (h : (s.classAt file start).definition = some d) :
    d.sourceFile = file ∧ d.span = ⟨start, (s.classAt file start).next⟩ := by
  unfold classAt at h ⊢
  split at h
  · cases h
  · split at h
    · next opening b _ hb =>
      rw [if_pos hb]
      split at h
      · cases h
      · rw [next_classWithin]
        exact definition_classWithin h
    · cases h

/-- A class whose header and whose body are read without a fault. -/
theorem classAt_of_body {s : MaskedText} {file : Text} {start opening close stop : Nat}
    {name : Text} {parents : List Text} {declarations : List Declaration}
    {children : List Element}
    (hopening : s.findAny? [Byte.lbrace, Byte.semicolon, Byte.rbrace] start =
      some (opening, Byte.lbrace))
    (hclose : s.closingBrace? opening = some close)
    (hheader : ClassHeader.parse? (s.slice start opening).trim = some (name, parents))
    (hbody : s.body .classStatement close (opening + 1) = ⟨declarations, children, none, stop⟩)
    (hunique : UniqueMembers.fault? name declarations children = none) :
    s.classAt file start = ⟨some ⟨name, parents, .ofDeclarations declarations, children, file,
      ⟨start, close + 1⟩⟩, none, close + 1⟩ := by
  rw [classAt, hopening]
  simp only [if_true, hclose]
  rw [classWithin, hheader]
  simp only [hbody, hunique]

theorem readFrom_of_classAt {s : MaskedText} {file : Text} {pos start : Nat} {d : ClassDefinition}
    (hat : s.classKeyword? pos = some start) (h : (s.classAt file start).definition = some d) :
    s.ReadFrom file d := by
  obtain ⟨hfile, hspan⟩ := definition_classAt h
  have hstart : d.span.start = start := by rw [hspan]
  exact ⟨hfile, ⟨pos, hstart ▸ hat⟩, hstart ▸ h⟩

/-! ## Tables -/

/-- The table with a class that was read, if there is one. -/
def addRead (table : ClassTable) (read : ClassRead) : ClassTable :=
  match read.definition with
  | some d => table.insert d.name d
  | none => table

section
variable {s : MaskedText} {file : Text} {table : ClassTable} {pos start : Nat}

theorem classesFrom_end (hat : s.classKeyword? pos = none) :
    s.classesFrom file table pos = .ok table := by
  rw [classesFrom]
  split
  · rfl
  · next other hother =>
    rw [hat] at hother
    cases hother

theorem classesFrom_fault {fault : Fault} (hat : s.classKeyword? pos = some start)
    (hfault : (s.classAt file start).fault = some fault) :
    s.classesFrom file table pos =
      .error ⟨fault, addRead table (s.classAt file start), (s.classAt file start).next⟩ := by
  rw [classesFrom]
  split
  · next hnone =>
    rw [hat] at hnone
    cases hnone
  · next other hother =>
    rw [hat] at hother
    cases hother
    simp only [hfault]
    rfl

theorem classesFrom_next (hat : s.classKeyword? pos = some start)
    (hfault : (s.classAt file start).fault = none) :
    s.classesFrom file table pos =
      s.classesFrom file (addRead table (s.classAt file start)) (s.classAt file start).next := by
  conv => lhs; rw [classesFrom]
  split
  · next hnone =>
    rw [hat] at hnone
    cases hnone
  · next other hother =>
    rw [hat] at hother
    cases hother
    simp only [hfault]
    rfl

theorem classesFrom_class {d : ClassDefinition} {next : Nat}
    (hat : s.classKeyword? pos = some start)
    (hread : s.classAt file start = ⟨some d, none, next⟩) :
    s.classesFrom file table pos = s.classesFrom file (table.insert d.name d) next := by
  rw [classesFrom_next hat (by rw [hread]), hread]
  rfl

/-- The table of a text that holds one class. -/
theorem classes_single {d : ClassDefinition} {next : Nat}
    (hat : s.classKeyword? pos = some start)
    (hread : s.classAt file start = ⟨some d, none, next⟩)
    (hend : s.classKeyword? next = none) :
    s.classes file pos = .ok ((∅ : ClassTable).insert d.name d) := by
  rw [classes, classesFrom_class hat hread, classesFrom_end hend]

end

/-- The table that reading ended with. -/
def classesRead : Except (ParseFailure ClassTable) ClassTable → ClassTable
  | .ok table => table
  | .error failure => failure.partialResult

section
variable {s : MaskedText} {file : Text}

theorem readFrom_of_mem_addRead {table : ClassTable} {pos start : Nat}
    (hat : s.classKeyword? pos = some start) (htable : ∀ d ∈ table.values, s.ReadFrom file d) :
    ∀ d ∈ (addRead table (s.classAt file start)).values, s.ReadFrom file d := by
  intro d hd
  unfold addRead at hd
  split at hd
  · next e he =>
    rcases OrderedMap.mem_values_insert hd with rfl | hd
    · exact readFrom_of_classAt hat he
    · exact htable d hd
  · exact htable d hd

theorem readFrom_of_mem_classesFrom (table : ClassTable) (pos : Nat)
    (htable : ∀ d ∈ table.values, s.ReadFrom file d) :
    ∀ d ∈ (classesRead (s.classesFrom file table pos)).values, s.ReadFrom file d := by
  induction table, pos using classesFrom.induct s file with
  | case1 table pos hat =>
    rw [classesFrom_end hat]
    exact htable
  | case2 table pos start hat read fault hfault =>
    rw [classesFrom_fault hat hfault]
    exact readFrom_of_mem_addRead hat htable
  | case3 table pos start hat read table' hfault ih =>
    rw [classesFrom_next hat hfault]
    exact ih (readFrom_of_mem_addRead hat htable)

theorem readFrom_of_mem_recoverClasses (table : ClassTable) (faults : List Fault) (pos : Nat)
    (htable : ∀ d ∈ table.values, s.ReadFrom file d) :
    ∀ d ∈ (s.recoverClasses file table faults pos).1.values, s.ReadFrom file d := by
  have hempty : ∀ d ∈ (∅ : ClassTable).values, s.ReadFrom file d := by
    intro d hd
    cases hd
  -- one pass adds its own table to the one before
  have hpass : ∀ (table : ClassTable) (pos : Nat), (∀ d ∈ table.values, s.ReadFrom file d) →
      ∀ d ∈ (table.insertAll (classesRead (s.classes file pos))).values, s.ReadFrom file d := by
    intro table pos htable d hd
    rcases OrderedMap.mem_values_insertAll hd with hd | hd
    · exact htable d hd
    · exact readFrom_of_mem_classesFrom ∅ pos hempty d hd
  induction table, faults, pos using recoverClasses.induct s file with
  | case1 table faults pos found hfound =>
    have h := hpass table pos htable
    rw [recoverClasses]
    rw [hfound] at h ⊢
    exact h
  | case2 table faults pos failure hfailure table' faults' hgo ih =>
    have h := hpass table pos htable
    rw [recoverClasses]
    rw [hfailure] at h ⊢
    simp only [if_pos hgo]
    exact ih h
  | case3 table faults pos failure hfailure hgo =>
    have h := hpass table pos htable
    rw [recoverClasses]
    rw [hfailure] at h ⊢
    simp only [if_neg hgo]
    exact h

/-- Every class of a text was read at a class keyword. -/
theorem readFrom_of_mem_classesRecovering {d : ClassDefinition}
    (h : d ∈ (s.classesRecovering file).1.values) : s.ReadFrom file d := by
  refine readFrom_of_mem_recoverClasses ∅ [] 0 ?_ d h
  intro e he
  cases he

end

end MaskedText

end PageLang
