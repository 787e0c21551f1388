import PageLang.Proofs.ClassTable.Keywords

/-!
# The block of a class

A class that is read has a block: the first brace behind its keyword opens it, and the brace that
matches closes it. Its members and children are those of the body between the two.

* `MaskedText.Owns`: the block of a class.
* `MaskedText.exists_owns_of_mem_classes`: every class of a table without faults.
-/

namespace PageLang.MaskedText

variable {s : MaskedText} {file : Text}

/-- The body of a class between two braces. -/
def classBody (s : MaskedText) (opening close : Nat) : Body :=
  s.body .classStatement close (opening + 1)

/-- The class `d` stands in the block from `opening` to `close`. -/
structure Owns (s : MaskedText) (d : ClassDefinition) (opening close : Nat) : Prop where
  opens : s.findAny? [Byte.lbrace, Byte.semicolon, Byte.rbrace] d.span.start =
    some (opening, Byte.lbrace)
  closes : s.closingBrace? opening = some close
  stop : d.span.stop = close + 1
  members : d.members = .ofDeclarations (s.classBody opening close).declarations
  children : d.children = (s.classBody opening close).children

theorem Owns.lt {d : ClassDefinition} {opening close : Nat} (h : s.Owns d opening close) :
    d.span.start ≤ opening ∧ opening < close ∧ close < s.size := by
  have hopen := (findAny?_eq_some h.opens).1
  have hclose := closingBrace?_eq_some h.closes
  exact ⟨hopen, hclose⟩

/-- A class that is read has a block. -/
theorem exists_owns {start : Nat} {d : ClassDefinition}
    (h : (s.classAt file start).definition = some d) : ∃ opening close, s.Owns d opening close ∧
      ((s.classAt file start).fault = none → (s.classBody opening close).fault = none ∧
        UniqueMembers.fault? d.name (s.classBody opening close).declarations d.children = none) := by
  unfold classAt at h ⊢
  split at h
  · cases h
  next opening b hfind =>
  split at h
  · next hb =>
    subst hb
    split at h
    · cases h
    next close hclose =>
    rw [if_pos rfl]
    unfold classWithin at h ⊢
    split at h
    · cases h
    next name parents hheader =>
    cases h
    refine ⟨opening, close, ⟨hfind, hclose, rfl, rfl, rfl⟩, fun hfault => ?_⟩
    dsimp only at hfault
    split at hfault
    · cases hfault
    next hbody => exact ⟨hbody, hfault⟩
  · cases h

theorem mem_values_addRead {table : ClassTable} {read : ClassRead} {d : ClassDefinition}
    (h : d ∈ (addRead table read).values) : d ∈ table.values ∨ read.definition = some d := by
  unfold addRead at h
  split at h
  · next e he =>
    rcases OrderedMap.mem_values_insert h with rfl | h
    · exact .inr he
    · exact .inl h
  · exact .inl h

theorem mem_values_foldl_addRead {starts : List Nat} {table : ClassTable} {d : ClassDefinition}
    (h : d ∈ (starts.foldl (fun m i => addRead m (s.classAt file i)) table).values) :
    d ∈ table.values ∨ ∃ i ∈ starts, (s.classAt file i).definition = some d := by
  induction starts generalizing table with
  | nil => exact .inl h
  | cons i rest ih =>
    rcases ih h with h | ⟨j, hj, hd⟩
    · exact (mem_values_addRead h).imp_right fun hd => ⟨i, .head _, hd⟩
    · exact .inr ⟨j, .tail _ hj, hd⟩

/-- A class of a table without faults has a block, and its body has no fault and no name twice. -/
theorem exists_owns_of_mem_classes {table : ClassTable} {start : Nat} {d : ClassDefinition}
    (h : s.classes file start = .ok table) (hd : d ∈ table.values) :
    ∃ opening close, s.Owns d opening close ∧ (s.classBody opening close).fault = none ∧
      UniqueMembers.fault? d.name (s.classBody opening close).declarations d.children = none := by
  obtain ⟨hclean, rfl⟩ := classesFrom_eq_ok h
  rcases mem_values_foldl_addRead hd with hempty | ⟨i, hi, hread⟩
  · cases hempty
  · obtain ⟨opening, close, howns, hfault⟩ := exists_owns hread
    exact ⟨opening, close, howns, hfault (hclean i hi)⟩

end PageLang.MaskedText
