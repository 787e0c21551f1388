import PageLang.Proofs.ClassTable.Reads

/-!
# Looking for class keywords

The search for class keywords goes over a text byte by byte and counts the blocks that are open.
It passes over a stretch without keywords and blocks, and over a whole block, as if they were not
there.

* `MaskedText.classKeyword?_quiet`, `MaskedText.classKeyword?_block`: what the search passes over.
* `MaskedText.classStarts`: the offsets at which classes are read.
* `MaskedText.classesRecovering_eq`: a text without faults has the classes that are read there.
-/

namespace PageLang.MaskedText

variable {s : MaskedText}

/-- Nothing live from `start` up to `stop` opens a block or is a class keyword. -/
def Quiet (s : MaskedText) (start stop : Nat) : Prop :=
  ∀ k, start ≤ k → k < stop → ∀ b, s.liveByte? k = some b →
    b ≠ Byte.lbrace ∧ s.isClassKeyword k = false

theorem Quiet.append {a b c : Nat} (h : s.Quiet a b) (h' : s.Quiet b c) : s.Quiet a c := by
  intro k hk hkc
  rcases Nat.lt_or_ge k b with hlt | hge
  · exact h k hk hlt
  · exact h' k hge hkc

theorem quiet_self (s : MaskedText) (a : Nat) : s.Quiet a a := by
  intro k h1 h2
  omega

/-- A class keyword starts with the letter it is spelled with. -/
theorem byte?_of_isClassKeyword {i : Nat} (h : s.isClassKeyword i = true) :
    s.byte? i = some 0x63 := by
  unfold isClassKeyword at h
  have hstarts := (Bool.and_eq_true_iff.1 (Bool.and_eq_true_iff.1 h).1).1
  exact byte?_add_of_startsAt hstarts (show 0 < (Text.ofString "class").length by decide)

/-! ## Steps of the search -/

theorem classKeywordFrom?_step {i count : Nat}
    (h : ∀ b, s.liveByte? i = some b → b ≠ Byte.lbrace ∧ s.isClassKeyword i = false) :
    s.classKeywordFrom? 0 i (count + 1) = s.classKeywordFrom? 0 (i + 1) count := by
  rw [classKeywordFrom?]
  split
  · next hb => exact absurd rfl (h _ hb).1
  · rfl
  · next b _ _ hb =>
    rw [(h b hb).2, if_neg (by simp)]
  · rfl

/-- The search passes over a byte that is no brace and starts no keyword, whatever is open. -/
theorem classKeywordFrom?_pass {depth i count : Nat}
    (hbrace : ∀ b, s.liveByte? i = some b → b ≠ Byte.lbrace ∧ b ≠ Byte.rbrace)
    (hkey : s.isClassKeyword i = false) :
    s.classKeywordFrom? depth i (count + 1) = s.classKeywordFrom? depth (i + 1) count := by
  rw [classKeywordFrom?]
  split
  · next hb => exact absurd rfl (hbrace _ hb).1
  · next hb => exact absurd rfl (hbrace _ hb).2
  · rw [hkey, if_neg (by simp)]
  · rfl

theorem classKeywordFrom?_quiet {i : Nat} (n m : Nat) (h : s.Quiet i (i + n)) :
    s.classKeywordFrom? 0 i (n + m) = s.classKeywordFrom? 0 (i + n) m := by
  induction n generalizing i with
  | zero => rw [Nat.zero_add, Nat.add_zero]
  | succ n ih =>
    rw [show n + 1 + m = n + m + 1 by omega,
      classKeywordFrom?_step (h i (Nat.le_refl i) (by omega)),
      ih (fun k h1 h2 => h k (by omega) (by omega))]
    congr 1
    omega

/-- The search passes over a stretch without keywords and blocks. -/
theorem classKeyword?_quiet {a b : Nat} (hab : a ≤ b) (hb : b ≤ s.size) (h : s.Quiet a b) :
    s.classKeyword? a = s.classKeyword? b := by
  obtain ⟨n, rfl⟩ := Nat.exists_eq_add_of_le hab
  unfold classKeyword?
  rw [show s.size - a = n + (s.size - (a + n)) by omega]
  exact classKeywordFrom?_quiet n _ h

theorem classKeywordFrom?_closing {depth i count close : Nat} (hdepth : 0 < depth)
    (h : s.closing? (· == Byte.lbrace) (· == Byte.rbrace) depth i count = some close) :
    s.classKeywordFrom? depth i count =
      s.classKeywordFrom? 0 (close + 1) (i + count - (close + 1)) := by
  induction count generalizing depth i with
  | zero => simp [closing?] at h
  | succ count ih =>
    have hrest : ∀ {depth' : Nat}, 0 < depth' →
        s.closing? (· == Byte.lbrace) (· == Byte.rbrace) depth' (i + 1) count = some close →
        s.classKeywordFrom? depth' (i + 1) count =
          s.classKeywordFrom? 0 (close + 1) (i + (count + 1) - (close + 1)) := by
      intro depth' hdepth' h'
      rw [ih hdepth' h']
      congr 1
      omega
    rw [closing?] at h
    rw [classKeywordFrom?]
    cases hb : s.liveByte? i with
    | none =>
      rw [hb] at h
      exact hrest hdepth h
    | some b =>
      rw [hb] at h
      dsimp only at h
      by_cases hopen : b = Byte.lbrace
      · subst hopen
        exact hrest (Nat.succ_pos depth) h
      by_cases hclose : b = Byte.rbrace
      · subst hclose
        rw [if_neg (by decide), if_pos (by decide)] at h
        by_cases hlast : depth ≤ 1
        · rw [if_pos hlast] at h
          cases h
          obtain rfl : depth = 1 := by omega
          rw [show close + (count + 1) - (close + 1) = count by omega]
          rfl
        · rw [if_neg hlast] at h
          exact hrest (by omega) h
      · rw [if_neg (by simpa using hopen), if_neg (by simpa using hclose)] at h
        split
        · next heq => exact absurd (Option.some.inj heq) hopen
        · next heq => exact absurd (Option.some.inj heq) hclose
        · rw [if_neg (by omega)]
          exact hrest hdepth h
        · next heq => cases heq

/-- The search passes over a block. -/
theorem classKeyword?_block {opening close : Nat} (hopen : s.liveByte? opening = some Byte.lbrace)
    (hclose : s.closingBrace? opening = some close) :
    s.classKeyword? opening = s.classKeyword? (close + 1) := by
  have hlt := byte?_eq_some_lt (liveByte?_eq_some hopen).2
  unfold classKeyword?
  rw [show s.size - opening = s.size - (opening + 1) + 1 by omega, classKeywordFrom?, hopen,
    classKeywordFrom?_closing Nat.one_pos hclose]
  rw [show opening + 1 + (s.size - (opening + 1)) = s.size by omega]
  rfl

theorem classKeywordFrom?_here {i : Nat} {b : UInt8} (hlive : s.liveByte? i = some b)
    (hkey : s.isClassKeyword i = true) : s.classKeywordFrom? 0 i (s.size - i) = some i := by
  have hbyte := (liveByte?_eq_some hlive).2
  have hlt := byte?_eq_some_lt hbyte
  rw [byte?_of_isClassKeyword hkey] at hbyte
  obtain rfl : 0x63 = b := Option.some.inj hbyte
  rw [show s.size - i = s.size - (i + 1) + 1 by omega, classKeywordFrom?, hlive]
  exact if_pos ⟨rfl, hkey⟩

/-- The search finds a keyword, unless it finds one before it. -/
theorem classKeyword?_le {a j : Nat} {b : UInt8} (haj : a ≤ j)
    (hbefore : ∀ k, a ≤ k → k < j → s.liveByte? k ≠ some Byte.lbrace)
    (hlive : s.liveByte? j = some b) (hkey : s.isClassKeyword j = true) :
    ∃ i, s.classKeyword? a = some i ∧ a ≤ i ∧ i ≤ j := by
  have hj := byte?_eq_some_lt (liveByte?_eq_some hlive).2
  obtain ⟨n, rfl⟩ := Nat.exists_eq_add_of_le haj
  unfold classKeyword?
  -- the search meets the keyword last
  induction n generalizing a with
  | zero => exact ⟨a, classKeywordFrom?_here hlive hkey, Nat.le_refl a, Nat.le_refl a⟩
  | succ n ih =>
    rw [show a + (n + 1) = a + 1 + n by omega] at hbefore hlive hkey hj ⊢
    by_cases hhere : ∃ c, s.liveByte? a = some c ∧ s.isClassKeyword a = true
    · obtain ⟨c, hc, hkey'⟩ := hhere
      exact ⟨a, classKeywordFrom?_here hc hkey', Nat.le_refl a, by omega⟩
    · obtain ⟨k, hk, h1, h2⟩ := ih (by omega) (fun k hk => hbefore k (by omega)) hlive hkey hj
      refine ⟨k, ?_, by omega, h2⟩
      rw [show s.size - a = s.size - (a + 1) + 1 by omega, ← hk]
      apply classKeywordFrom?_step
      intro c hc
      refine ⟨fun e => hbefore a (Nat.le_refl a) (by omega) (e ▸ hc), ?_⟩
      exact Bool.eq_false_iff.2 (fun h => hhere ⟨c, hc, h⟩)

theorem classKeyword?_here {i : Nat} {b : UInt8} (hlive : s.liveByte? i = some b)
    (hkey : s.isClassKeyword i = true) : s.classKeyword? i = some i :=
  classKeywordFrom?_here hlive hkey

/-! ## Where classes are read -/

/-- The offsets at which classes are read from `pos` on, in order. -/
def classStarts (s : MaskedText) (file : Text) (pos : Nat) : List Nat :=
  match _hat : s.classKeyword? pos with
  | none => []
  | some start => start :: s.classStarts file (s.classAt file start).next
termination_by s.size - pos
decreasing_by
  have h1 := classKeyword?_eq_some _hat
  have h2 : start < (s.classAt file start).next := lt_next_classAt h1.2
  omega

section
variable {file : Text} {pos start : Nat}

theorem classStarts_end (h : s.classKeyword? pos = none) : s.classStarts file pos = [] := by
  rw [classStarts]
  split
  · rfl
  · next other hother =>
    rw [h] at hother
    cases hother

theorem classStarts_cons (h : s.classKeyword? pos = some start) :
    s.classStarts file pos = start :: s.classStarts file (s.classAt file start).next := by
  rw [classStarts]
  split
  · next hnone =>
    rw [h] at hnone
    cases hnone
  · next other hother =>
    rw [h] at hother
    cases hother
    rfl

theorem classStarts_congr (file : Text) {a b : Nat}
    (h : s.classKeyword? a = s.classKeyword? b) :
    s.classStarts file a = s.classStarts file b := by
  cases hat : s.classKeyword? a with
  | none => exact (classStarts_end hat).trans (classStarts_end (h ▸ hat)).symm
  | some start => exact (classStarts_cons hat).trans (classStarts_cons (h ▸ hat)).symm

theorem isClassKeyword_of_mem_classStarts {i : Nat} (h : i ∈ s.classStarts file pos) :
    s.isClassKeyword i = true := by
  induction pos using classStarts.induct s file with
  | case1 pos hat =>
    rw [classStarts_end hat] at h
    cases h
  | case2 pos start hat ih =>
    rw [classStarts_cons hat] at h
    rcases List.mem_cons.1 h with rfl | h
    · exact (classKeyword?_spec hat).1
    · exact ih h

/-- Without a fault, the classes are those read at the keywords, in order. -/
theorem classesFrom_eq_ok {table found : ClassTable}
    (h : s.classesFrom file table pos = .ok found) :
    (∀ i ∈ s.classStarts file pos, (s.classAt file i).fault = none) ∧
      found = (s.classStarts file pos).foldl (fun m i => addRead m (s.classAt file i)) table := by
  induction table, pos using classesFrom.induct s file with
  | case1 table pos hat =>
    rw [classesFrom_end hat] at h
    cases h
    rw [classStarts_end hat]
    exact ⟨fun i hi => (List.not_mem_nil hi).elim, rfl⟩
  | case2 table pos start hat read fault hfault =>
    rw [classesFrom_fault hat hfault] at h
    cases h
  | case3 table pos start hat read table' hfault ih =>
    rw [classesFrom_next hat hfault] at h
    obtain ⟨hclean, hfound⟩ := ih h
    rw [classStarts_cons hat]
    refine ⟨fun i hi => ?_, hfound⟩
    rcases List.mem_cons.1 hi with rfl | hi
    · exact hfault
    · exact hclean i hi

theorem faults_recoverClasses (table : ClassTable) (faults : List Fault) (pos : Nat) :
    faults <+: (s.recoverClasses file table faults pos).2 := by
  induction table, faults, pos using recoverClasses.induct s file with
  | case1 table faults pos found hfound =>
    have hstep : (s.recoverClasses file table faults pos).2 = faults := by
      rw [recoverClasses, hfound]
    exact hstep.symm ▸ List.prefix_refl faults
  | case2 table faults pos failure hfailure table' faults' hgo ih =>
    rw [recoverClasses, hfailure]
    simp only [if_pos hgo]
    exact (List.prefix_append _ _).trans ih
  | case3 table faults pos failure hfailure hgo =>
    rw [recoverClasses, hfailure]
    simp only [if_neg hgo]
    exact List.prefix_append _ _

/-- The first pass over a text in which no fault is found is the only one. -/
theorem classes_eq_ok (h : (s.classesRecovering file).2 = []) :
    ∃ found, s.classes file 0 = .ok found := by
  cases hpass : s.classes file 0 with
  | ok found => exact ⟨found, rfl⟩
  | error failure =>
    exfalso
    have hmem : failure.fault ∈ (s.classesRecovering file).2 := by
      unfold classesRecovering
      rw [recoverClasses, hpass]
      dsimp only
      split
      · exact (faults_recoverClasses _ _ _).subset (by simp)
      · simp
    rw [h] at hmem
    cases hmem

theorem classesRecovering_of_ok {found : ClassTable} (h : s.classes file 0 = .ok found) :
    s.classesRecovering file = (OrderedMap.insertAll ∅ found, []) := by
  unfold classesRecovering
  rw [recoverClasses, h]

/-- A text in which no fault is found has the classes that are read at its keywords. -/
theorem classesRecovering_eq (h : (s.classesRecovering file).2 = []) :
    (∀ i ∈ s.classStarts file 0, (s.classAt file i).fault = none) ∧
      (s.classesRecovering file).1 = OrderedMap.insertAll ∅
        ((s.classStarts file 0).foldl (fun m i => addRead m (s.classAt file i)) ∅) := by
  obtain ⟨found, hpass⟩ := classes_eq_ok h
  obtain ⟨hclean, rfl⟩ := classesFrom_eq_ok hpass
  exact ⟨hclean, by rw [classesRecovering_of_ok hpass]⟩

theorem mem_keys_addRead {table : ClassTable} {read : ClassRead} {name : Text} :
    name ∈ (addRead table read).keys ↔
      name ∈ table.keys ∨ ∃ d, read.definition = some d ∧ d.name = name := by
  unfold addRead
  split
  · next d hd =>
    rw [OrderedMap.mem_keys_insert, or_comm, hd]
    simp [eq_comm]
  · next hd => simp [hd]

/-- A class that is read at a keyword has its name in the table. -/
theorem mem_keys_foldl_addRead {starts : List Nat} {table : ClassTable} {i : Nat}
    {d : ClassDefinition} (hi : i ∈ starts) (hd : (s.classAt file i).definition = some d) :
    d.name ∈ (starts.foldl (fun m i => addRead m (s.classAt file i)) table).keys := by
  have hkeep : ∀ (starts : List Nat) (table : ClassTable), d.name ∈ table.keys →
      d.name ∈ (starts.foldl (fun m i => addRead m (s.classAt file i)) table).keys := by
    intro starts
    induction starts with
    | nil => exact fun _ h => h
    | cons j rest ih => exact fun table h => ih _ (mem_keys_addRead.2 (.inl h))
  induction starts generalizing table with
  | nil => cases hi
  | cons j rest ih =>
    rcases List.mem_cons.1 hi with rfl | hi
    · exact hkeep rest _ (mem_keys_addRead.2 (.inr ⟨d, hd, rfl⟩))
    · exact ih hi

theorem classAt_block {i opening close : Nat}
    (hfind : s.findAny? [Byte.lbrace, Byte.semicolon, Byte.rbrace] i = some (opening, Byte.lbrace))
    (hclose : s.closingBrace? opening = some close) :
    s.classAt file i = s.classWithin file i opening close := by
  unfold classAt
  rw [hfind]
  dsimp only
  rw [if_pos rfl, hclose]

/-- What is read at a keyword without a fault: a class, from the keyword to the brace that closes
its block. -/
theorem definition_of_fault_eq_none {i : Nat} (h : (s.classAt file i).fault = none) :
    ∃ opening close d,
      s.findAny? [Byte.lbrace, Byte.semicolon, Byte.rbrace] i = some (opening, Byte.lbrace) ∧
      s.closingBrace? opening = some close ∧ (s.classAt file i).definition = some d ∧
      d.span = ⟨i, close + 1⟩ := by
  have hblock : ∃ opening close,
      s.findAny? [Byte.lbrace, Byte.semicolon, Byte.rbrace] i = some (opening, Byte.lbrace) ∧
      s.closingBrace? opening = some close := by
    unfold classAt at h
    split at h
    · cases h
    · next opening b hfind =>
      split at h
      · next hb =>
        subst hb
        split at h
        · cases h
        · next close hclose => exact ⟨opening, close, hfind, hclose⟩
      · cases h
  obtain ⟨opening, close, hfind, hclose⟩ := hblock
  rw [classAt_block hfind hclose] at h ⊢
  unfold classWithin at h ⊢
  split at h
  · cases h
  · next name parents hheader => exact ⟨opening, close, _, hfind, hclose, rfl, rfl⟩

end

end PageLang.MaskedText
