import PageLang.MaskedText.Basic

/-!
# Where searches end

Every search answers with an offset at or after the one it starts from, and inside the text. These
bounds justify the recursion of the parsers.

* `MaskedText.firstFrom?_eq_some`: a search finds the least offset that satisfies its condition.
* `MaskedText.le_skipTrivia`: skipping never goes back.
-/

namespace PageLang.MaskedText

theorem firstFrom?_eq_some {p : Nat → Bool} {start count j : Nat}
    (h : firstFrom? p start count = some j) :
    start ≤ j ∧ j < start + count ∧ p j = true ∧ ∀ k, start ≤ k → k < j → p k = false := by
  induction count generalizing start with
  | zero => simp [firstFrom?] at h
  | succ count ih =>
    unfold firstFrom? at h
    split at h
    · next hp =>
      injection h with h
      subst h
      exact ⟨Nat.le_refl _, by omega, hp, fun k h1 h2 => by omega⟩
    · next hp =>
      obtain ⟨h1, h2, h3, h4⟩ := ih h
      refine ⟨by omega, by omega, h3, fun k hk1 hk2 => ?_⟩
      rcases Nat.eq_or_lt_of_le hk1 with rfl | hk
      · simpa using hp
      · exact h4 k hk hk2

theorem firstFrom?_eq_none {p : Nat → Bool} {start count : Nat} :
    firstFrom? p start count = none ↔ ∀ k, start ≤ k → k < start + count → p k = false := by
  induction count generalizing start with
  | zero =>
    simp only [firstFrom?, true_iff]
    intro k h1 h2
    omega
  | succ count ih =>
    unfold firstFrom?
    split
    · next hp =>
      simp only [reduceCtorEq, false_iff]
      intro h
      have := h start (Nat.le_refl _) (by omega)
      simp_all
    · next hp =>
      rw [ih]
      constructor
      · intro h k h1 h2
        rcases Nat.eq_or_lt_of_le h1 with rfl | hk
        · simpa using hp
        · exact h k hk (by omega)
      · intro h k h1 h2
        exact h k (by omega) (by omega)

/-- A search finds the first offset that satisfies its condition. -/
theorem firstFrom?_of_least {p : Nat → Bool} {start count j : Nat} (hstart : start ≤ j)
    (hcount : j < start + count) (hp : p j = true)
    (hleast : ∀ k, start ≤ k → k < j → p k = false) : firstFrom? p start count = some j := by
  cases h : firstFrom? p start count with
  | none =>
    rw [firstFrom?_eq_none.1 h j hstart hcount] at hp
    cases hp
  | some k =>
    obtain ⟨h1, _, h3, h4⟩ := firstFrom?_eq_some h
    congr 1
    rcases Nat.lt_trichotomy k j with hlt | heq | hgt
    · rw [hleast k h1 hlt] at h3
      cases h3
    · exact heq
    · rw [h4 j hstart hgt] at hp
      cases hp

theorem byte?_ofText (mode : Mode) (t : Text) (i : Nat) : (ofText mode t).byte? i = t[i]? := by
  simp [byte?, ofText]

theorem size_ofText (mode : Mode) (t : Text) : (ofText mode t).size = t.length := by
  simp [size, ofText]

theorem byte?_eq_some_lt {s : MaskedText} {i : Nat} {b : UInt8} (h : s.byte? i = some b) :
    i < s.size := by
  unfold byte? at h
  exact (Array.getElem?_eq_some_iff.1 h).1

theorem liveByte?_eq_some {s : MaskedText} {i : Nat} {b : UInt8} (h : s.liveByte? i = some b) :
    s.isMasked i = false ∧ s.byte? i = some b := by
  unfold liveByte? at h
  split at h
  · simp at h
  · next hm => exact ⟨by simpa using hm, h⟩

theorem findAny?_eq_some {s : MaskedText} {set : Text} {start i : Nat} {b : UInt8}
    (h : s.findAny? set start = some (i, b)) :
    start ≤ i ∧ i < s.size ∧ s.liveByte? i = some b ∧ set.contains b = true := by
  simp only [findAny?, Option.bind_eq_bind, Option.pure_def, Option.bind_eq_some_iff,
    Option.some.injEq, Prod.mk.injEq] at h
  obtain ⟨j, hj, c, hc, rfl, rfl⟩ := h
  obtain ⟨h1, h2, h3, _⟩ := firstFrom?_eq_some hj
  rw [Option.any_eq_true] at h3
  obtain ⟨d, hd, hs⟩ := h3
  obtain ⟨_, hbyte⟩ := liveByte?_eq_some hd
  rw [hc] at hbyte
  injection hbyte with hbyte
  subst hbyte
  exact ⟨h1, byte?_eq_some_lt hc, hd, hs⟩

theorem not_mem_of_findAny? {s : MaskedText} {set : Text} {start i : Nat} {b : UInt8}
    (h : s.findAny? set start = some (i, b)) {k : Nat} (hk : start ≤ k) (hki : k < i) {c : UInt8}
    (hc : s.liveByte? k = some c) : c ∉ set := by
  simp only [findAny?, Option.bind_eq_bind, Option.pure_def, Option.bind_eq_some_iff,
    Option.some.injEq, Prod.mk.injEq] at h
  obtain ⟨j, hj, _, _, rfl, rfl⟩ := h
  have hnone := (firstFrom?_eq_some hj).2.2.2 k hk hki
  rw [hc, Option.any_some] at hnone
  intro hmem
  rw [List.contains_iff_mem.2 hmem] at hnone
  cases hnone

theorem findAny?_of_least {s : MaskedText} {set : Text} {start i : Nat} {b : UInt8}
    (hstart : start ≤ i) (hb : s.liveByte? i = some b) (hset : b ∈ set)
    (hleast : ∀ k, start ≤ k → k < i → ∀ c, s.liveByte? k = some c → c ∉ set) :
    s.findAny? set start = some (i, b) := by
  have hbyte := (liveByte?_eq_some hb).2
  have hlt := byte?_eq_some_lt hbyte
  have hfirst : firstFrom? (fun i => (s.liveByte? i).any set.contains) start (s.size - start) =
      some i := by
    refine firstFrom?_of_least hstart (by omega) ?_ (fun k h1 h2 => ?_)
    · rw [hb, Option.any_some, List.contains_iff_mem.2 hset]
    · cases hc : s.liveByte? k with
      | none => rfl
      | some c =>
        rw [Option.any_some]
        exact Bool.eq_false_iff.2 (fun h => hleast k h1 h2 c hc (List.contains_iff_mem.1 h))
  unfold findAny?
  rw [hfirst]
  simp [hbyte]

theorem findAny?_eq_none {s : MaskedText} {set : Text} {start : Nat}
    (h : s.findAny? set start = none) {k : Nat} (hk : start ≤ k) {c : UInt8}
    (hc : s.liveByte? k = some c) : c ∉ set := by
  intro hmem
  have hlt := byte?_eq_some_lt (liveByte?_eq_some hc).2
  cases hfirst : firstFrom? (fun i => (s.liveByte? i).any set.contains) start (s.size - start) with
  | none =>
    have hnone := firstFrom?_eq_none.1 hfirst k hk (by omega)
    rw [hc, Option.any_some, List.contains_iff_mem.2 hmem] at hnone
    cases hnone
  | some i =>
    obtain ⟨_, _, hi, _⟩ := firstFrom?_eq_some hfirst
    rw [Option.any_eq_true] at hi
    obtain ⟨d, hd, _⟩ := hi
    unfold findAny? at h
    rw [hfirst] at h
    simp [(liveByte?_eq_some hd).2] at h

/-- What a search for more bytes finds, a search for fewer finds too if it is one of them. -/
theorem findAny?_subset {s : MaskedText} {set fewer : Text} {start i : Nat} {b : UInt8}
    (h : s.findAny? set start = some (i, b)) (hsub : fewer ⊆ set) (hb : b ∈ fewer) :
    s.findAny? fewer start = some (i, b) := by
  obtain ⟨h1, _, hlive, _⟩ := findAny?_eq_some h
  exact findAny?_of_least h1 hlive hb
    (fun k hk hki c hc hmem => not_mem_of_findAny? h hk hki hc (hsub hmem))

theorem le_skipSpace (s : MaskedText) (start : Nat) : start ≤ s.skipSpace start := by
  unfold skipSpace
  cases h : s.findRaw? (fun b => !Byte.isSpace b) start with
  | none => exact Nat.le_max_left _ _
  | some i => simpa using (firstFrom?_eq_some h).1

/-- What is skipped is blank. -/
theorem isSpace_of_lt_skipSpace {s : MaskedText} {start k : Nat} (h : s.skipSpace start < s.size)
    (hk : start ≤ k) (hlt : k < s.skipSpace start) : (s.byte? k).any Byte.isSpace = true := by
  unfold skipSpace at h hlt
  cases hfind : s.findRaw? (fun b => !Byte.isSpace b) start with
  | none =>
    rw [hfind, Option.getD_none] at h
    omega
  | some j =>
    rw [hfind, Option.getD_some] at h hlt
    have hspace := (firstFrom?_eq_some hfind).2.2.2 k hk hlt
    cases hb : s.byte? k with
    | none =>
      unfold byte? at hb
      rw [Array.getElem?_eq_none_iff] at hb
      unfold size at h
      omega
    | some b =>
      rw [hb] at hspace
      simpa using hspace

theorem le_gapEnd (s : MaskedText) (gap : Gap) (i count : Nat) :
    i ≤ s.gapEnd gap i count ∧ s.gapEnd gap i count ≤ i + count := by
  induction count generalizing gap i with
  | zero => simp [gapEnd]
  | succ count ih =>
    have step : ∀ g, i ≤ s.gapEnd g (i + 1) count ∧ s.gapEnd g (i + 1) count ≤ i + (count + 1) :=
      fun g => by have := ih g (i + 1); omega
    cases gap with
    | blank =>
      unfold gapEnd
      split
      · exact step _
      · split
        · exact step _
        · split
          · exact step _
          · omega
    | line => exact step _
    | opening => exact step _
    | block star => exact step _

theorem le_skipTrivia {s : MaskedText} {start : Nat} (h : start ≤ s.size) :
    start ≤ s.skipTrivia start := by
  have := (s.le_gapEnd .blank (min start s.size) (s.size - start)).1
  unfold skipTrivia
  omega

theorem skipTrivia_le_size (s : MaskedText) (start : Nat) : s.skipTrivia start ≤ s.size := by
  have := (s.le_gapEnd .blank (min start s.size) (s.size - start)).2
  unfold skipTrivia
  omega

theorem skipTrivia_of_size_le {s : MaskedText} {start : Nat} (h : s.size ≤ start) :
    s.skipTrivia start = s.size := by
  have h1 := s.skipTrivia_le_size start
  have h2 := (s.le_gapEnd .blank (min start s.size) (s.size - start)).1
  unfold skipTrivia at *
  omega

/-- Where a byte stands behind a gap, the gap began at or before it. -/
theorem le_skipTrivia_of_lt {s : MaskedText} {start : Nat} (h : s.skipTrivia start < s.size) :
    start ≤ s.skipTrivia start := by
  rcases Nat.lt_or_ge start s.size with hs | hs
  · exact le_skipTrivia (Nat.le_of_lt hs)
  · rw [skipTrivia_of_size_le hs] at h
    omega

theorem closing?_eq_some {s : MaskedText} {opens closes : UInt8 → Bool} {depth i count j : Nat}
    (h : s.closing? opens closes depth i count = some j) : i ≤ j ∧ j < i + count := by
  induction count generalizing depth i with
  | zero => simp [closing?] at h
  | succ count ih =>
    unfold closing? at h
    split at h
    · have := ih h; omega
    · split at h
      · have := ih h; omega
      · split at h
        · split at h
          · injection h with h
            omega
          · have := ih h; omega
        · have := ih h; omega

theorem closingBrace?_eq_some {s : MaskedText} {opening j : Nat}
    (h : s.closingBrace? opening = some j) : opening < j ∧ j < s.size := by
  have := closing?_eq_some h
  omega

theorem closing?_live {s : MaskedText} {opens closes : UInt8 → Bool} {depth i count j : Nat}
    (h : s.closing? opens closes depth i count = some j) :
    ∃ b, s.liveByte? j = some b ∧ closes b = true := by
  induction count generalizing depth i with
  | zero => simp [closing?] at h
  | succ count ih =>
    unfold closing? at h
    split at h
    · exact ih h
    · next b hb =>
      split at h
      · exact ih h
      · split at h
        · next hcloses =>
          split at h
          · cases h
            exact ⟨b, hb, hcloses⟩
          · exact ih h
        · exact ih h

theorem liveByte?_of_closingBrace? {s : MaskedText} {opening j : Nat}
    (h : s.closingBrace? opening = some j) : s.liveByte? j = some Byte.rbrace := by
  obtain ⟨b, hb, hcloses⟩ := closing?_live h
  rw [hb, eq_of_beq hcloses]

theorem closingParen?_eq_some {s : MaskedText} {opening j : Nat}
    (h : s.closingParen? opening = some j) : opening ≤ j ∧ j < s.size := by
  have := closing?_eq_some h
  omega

theorem searchFrom?_eq_some {s : MaskedText} {pattern : Text} {passed i count j : Nat}
    (h : s.searchFrom? pattern passed i count = some j) :
    i ≤ j ∧ j < i + count ∧ s.startsAt pattern j = true ∧ s.isMasked j = false := by
  induction count generalizing passed i with
  | zero => cases passed <;> simp [searchFrom?] at h
  | succ count ih =>
    cases passed with
    | succ passed =>
      obtain ⟨h1, h2, h3⟩ := ih h
      exact ⟨by omega, by omega, h3⟩
    | zero =>
      unfold searchFrom? at h
      split at h
      · next hb =>
        split at h
        · obtain ⟨h1, h2, h3⟩ := ih h
          exact ⟨by omega, by omega, h3⟩
        · next hm =>
          injection h with h
          subst h
          simp only [Bool.and_eq_true] at hb
          exact ⟨Nat.le_refl _, by omega, hb.2, by simpa using hm⟩
      · obtain ⟨h1, h2, h3⟩ := ih h
        exact ⟨by omega, by omega, h3⟩

theorem length_slice (s : MaskedText) (start stop : Nat) :
    (s.slice start stop).length = min stop s.size - start := by
  simp only [slice, size, Array.length_toList, Array.size_extract]

theorem getElem?_slice {s : MaskedText} {i j k : Nat} (h : i + k < j) :
    (s.slice i j)[k]? = s.byte? (i + k) := by
  unfold slice byte?
  rw [Array.getElem?_toList, Array.getElem?_extract]
  split
  · rfl
  · rw [eq_comm, Array.getElem?_eq_none]
    omega

/-- The bytes of an occurrence. -/
theorem byte?_add_of_startsAt {s : MaskedText} {pattern : Text} {i k : Nat}
    (h : s.startsAt pattern i = true) (hk : k < pattern.length) :
    s.byte? (i + k) = pattern[k]? := by
  have hslice : s.slice i (i + pattern.length) = pattern := by simpa [startsAt] using h
  rw [← getElem?_slice (by omega : i + k < i + pattern.length), hslice]

theorem le_ceilBoundary {s : MaskedText} {i : Nat} (h : i ≤ s.size) : i ≤ s.ceilBoundary i := by
  unfold ceilBoundary
  cases hf : s.findRaw? (fun b => !Byte.isContinuation b) i with
  | none => simpa using h
  | some j => simpa using (firstFrom?_eq_some hf).1

/-- A pattern that is not empty is found inside the text, at or after the offset asked for. -/
theorem indexOf?_eq_some {s : MaskedText} {pattern : Text} {start j : Nat}
    (h : s.indexOf? pattern start = some j) (hp : pattern ≠ []) :
    start ≤ j ∧ j + pattern.length ≤ s.size := by
  obtain ⟨h1, _, h3, _⟩ := searchFrom?_eq_some h
  have hlen : (s.slice j (j + pattern.length)).length = pattern.length := by
    unfold startsAt at h3
    rw [eq_of_beq h3]
  rw [length_slice] at hlen
  have hpos : 0 < pattern.length := List.length_pos_iff.2 hp
  refine ⟨?_, by omega⟩
  rcases Nat.lt_or_ge s.size start with hs | hs
  · have : s.ceilBoundary start = s.size := by
      have hc : s.size - start = 0 := by omega
      simp [ceilBoundary, findRaw?, hc, firstFrom?]
    omega
  · exact Nat.le_trans (le_ceilBoundary hs) h1

end PageLang.MaskedText
