import PageLang.Proofs.MaskedText.Occurrences

/-!
# The ranges of statements

The ranges lie side by side and make up the text. A range ends just after the first live `;` or
newline in it, or at the end of the text.

* `exists_range`, `pairwise_statementRanges`: every offset lies in a range, and in no other one.
* `stop_of_mem_statementRanges`: where the range around an offset ends.
-/

namespace PageLang.MaskedText

open Cell

/-- Whether a range ends just after an offset. -/
def endsRange (s : MaskedText) (i : Nat) : Bool :=
  (s.liveByte? i).any (fun b => b == Byte.semicolon || b == Byte.newline)

variable {s : MaskedText}

theorem rangesFrom_succ (start i count : Nat) : s.rangesFrom start i (count + 1) =
    if s.endsRange i then (start, i + 1) :: s.rangesFrom (i + 1) (i + 1) count
    else s.rangesFrom start (i + 1) count := rfl

/-- The bounds of a range, and what stands in it: only its last byte ends it. -/
theorem of_mem_rangesFrom {start i count : Nat} {r : Nat × Nat} (hstart : start ≤ i)
    (hr : r ∈ s.rangesFrom start i count) :
    start ≤ r.1 ∧ r.1 < r.2 ∧ r.2 ≤ i + count ∧
      (∀ j, r.1 ≤ j → i ≤ j → j + 1 < r.2 → s.endsRange j = false) ∧
      (r.2 < i + count → s.endsRange (r.2 - 1) = true) := by
  induction count generalizing start i with
  | zero =>
    unfold rangesFrom at hr
    split at hr
    · obtain rfl : r = (start, i) := by simpa using hr
      exact ⟨Nat.le_refl _, by omega, by simp, fun j _ _ _ => by omega, fun hlt => by simp at hlt⟩
    · simp at hr
  | succ count ih =>
    rw [rangesFrom_succ] at hr
    split at hr
    · next hend =>
      rcases List.mem_cons.1 hr with rfl | hr
      · exact ⟨Nat.le_refl _, by omega, by simp, fun j _ _ _ => by omega, fun _ => hend⟩
      · obtain ⟨h1, h2, h3, h4, h5⟩ := ih (Nat.le_refl _) hr
        exact ⟨by omega, h2, by omega, fun j hj _ => h4 j hj (by omega), fun hlt => h5 (by omega)⟩
    · next hend =>
      obtain ⟨h1, h2, h3, h4, h5⟩ := ih (by omega) hr
      refine ⟨h1, h2, by omega, fun j hj hij hlt => ?_, fun hlt => h5 (by omega)⟩
      rcases Nat.eq_or_lt_of_le hij with rfl | hij
      · simpa using hend
      · exact h4 j hj hij hlt

theorem pairwise_rangesFrom {start i count : Nat} (hstart : start ≤ i) :
    (s.rangesFrom start i count).Pairwise (fun r r' => r.2 ≤ r'.1) := by
  induction count generalizing start i with
  | zero =>
    unfold rangesFrom
    split <;> simp
  | succ count ih =>
    rw [rangesFrom_succ]
    split
    · exact List.pairwise_cons.2
        ⟨fun r hr => (of_mem_rangesFrom (Nat.le_refl _) hr).1, ih (Nat.le_refl _)⟩
    · exact ih (by omega)

theorem exists_mem_rangesFrom {start i count k : Nat} (hstart : start ≤ i) (hk : start ≤ k)
    (hlt : k < i + count) : ∃ r ∈ s.rangesFrom start i count, r.1 ≤ k ∧ k < r.2 := by
  induction count generalizing start i with
  | zero => exact ⟨(start, i), by simp [rangesFrom]; omega, hk, by simpa using hlt⟩
  | succ count ih =>
    rw [rangesFrom_succ]
    split
    · rcases Nat.lt_or_ge k (i + 1) with hki | hki
      · exact ⟨_, .head _, hk, hki⟩
      · obtain ⟨r, hr, hrange⟩ := ih (Nat.le_refl _) hki (by omega)
        exact ⟨r, .tail _ hr, hrange⟩
    · exact ih (by omega) hk (by omega)

/-- Ranges do not overlap, and stand in order. -/
theorem pairwise_statementRanges (s : MaskedText) :
    s.statementRanges.Pairwise (fun r r' => r.2 ≤ r'.1) :=
  pairwise_rangesFrom (Nat.le_refl _)

/-- Every offset lies in a range. -/
theorem exists_range {k : Nat} (hk : k < s.size) : ∃ r ∈ s.statementRanges, r.1 ≤ k ∧ k < r.2 :=
  exists_mem_rangesFrom (Nat.le_refl _) (Nat.zero_le _) (by omega)

theorem range_le_size {r : Nat × Nat} (hr : r ∈ s.statementRanges) : r.1 < r.2 ∧ r.2 ≤ s.size := by
  obtain ⟨-, h1, h2, -⟩ := of_mem_rangesFrom (Nat.le_refl _) hr
  exact ⟨h1, by omega⟩

theorem start_of_mem_rangesFrom {start i count : Nat} {r : Nat × Nat}
    (hr : r ∈ s.rangesFrom start i count) : r.1 = start ∨ s.endsRange (r.1 - 1) = true := by
  induction count generalizing start i with
  | zero =>
    unfold rangesFrom at hr
    split at hr
    · exact .inl (by simp_all)
    · simp at hr
  | succ count ih =>
    rw [rangesFrom_succ] at hr
    split at hr
    · next hend =>
      rcases List.mem_cons.1 hr with rfl | hr
      · exact .inl rfl
      · rcases ih hr with hstart | hr
        · exact .inr (by rwa [hstart])
        · exact .inr hr
    · exact ih hr

/-- A range does not start inside of bytes that end no range. -/
theorem start_of_mem_statementRanges {r : Nat × Nat} (hr : r ∈ s.statementRanges) {k n : Nat}
    (hle : r.1 ≤ k + n) (hnone : ∀ j < n, s.endsRange (k + j) = false) : r.1 ≤ k := by
  rcases start_of_mem_rangesFrom hr with hstart | hend
  · omega
  · refine Nat.le_of_not_lt fun hlt => ?_
    rw [show r.1 - 1 = k + (r.1 - 1 - k) by omega, hnone _ (by omega)] at hend
    simp at hend

/-- The range around an offset ends at the first byte from there on that ends a range. -/
theorem stop_of_mem_statementRanges {r : Nat × Nat} (hr : r ∈ s.statementRanges) {k n : Nat}
    (hk : r.1 ≤ k) (hlt : k < r.2) (hend : s.endsRange (k + n) = true)
    (hnone : ∀ j < n, s.endsRange (k + j) = false) : r.2 = k + n + 1 := by
  obtain ⟨-, -, hsize, hinside, hlast⟩ := of_mem_rangesFrom (Nat.le_refl _) hr
  have hend_lt : k + n < s.size := by
    unfold endsRange at hend
    rw [Option.any_eq_true] at hend
    obtain ⟨b, hb, -⟩ := hend
    exact byte?_eq_some_lt (liveByte?_eq_some hb).2
  have hle : r.2 ≤ k + n + 1 := by
    refine Nat.le_of_not_lt fun hlt => ?_
    have := hinside (k + n) (by omega) (Nat.zero_le _) hlt
    simp [hend] at this
  rcases Nat.eq_or_lt_of_le hle with heq | hlt'
  · exact heq
  · -- the range would end before the first byte that ends one
    have := hlast (by omega)
    rw [show r.2 - 1 = k + (r.2 - 1 - k) by omega, hnone _ (by omega)] at this
    simp at this

end PageLang.MaskedText
