import Mathlib.Order.Bounds.Basic
import Mathlib.Order.Nat
import PageLang.MaskedText.Lemmas

/-!
# The first live occurrence

A search meets the occurrences of a pattern one behind the other: behind an occurrence it goes on
where that one ends, be it masked or not. So it answers with the first live occurrence among those
that it meets. An occurrence that begins inside a masked one it does not meet, and where that is the
first live one the search passes it over.

* `MaskedText.Meets`: the occurrences that a search meets.
* `MaskedText.searchFrom?_eq_some_iff_meets`: the answer of a search.
* `MaskedText.meets_of_apart`: which occurrences are met.
* `MaskedText.indexOf?_isLeast_iff`: when the answer is the first live occurrence.
-/

namespace PageLang.MaskedText

variable {s : MaskedText} {pattern : Text} {a b i j k : Nat}

/-- The pattern stands at a character boundary. -/
def StandsAt (s : MaskedText) (pattern : Text) (i : Nat) : Prop :=
  s.isBoundary i = true ∧ s.startsAt pattern i = true

instance (s : MaskedText) (pattern : Text) (i : Nat) : Decidable (s.StandsAt pattern i) :=
  inferInstanceAs (Decidable (_ ∧ _))

/-- The offsets at which a live occurrence begins, from `start` on. A `start` behind the text stands
for its end. -/
def liveFrom (s : MaskedText) (pattern : Text) (start : Nat) : Set Nat :=
  {i | min start s.size ≤ i ∧ s.StandsAt pattern i ∧ s.isMasked i = false}

instance (s : MaskedText) (pattern : Text) (start : Nat) :
    DecidablePred (· ∈ s.liveFrom pattern start) :=
  fun _ => inferInstanceAs (Decidable (_ ∧ _))

/-- The occurrences that a search from `a` on meets: the first one, and behind each of them the next
one that does not overlap it. An empty pattern occurs at every boundary. -/
inductive Meets (s : MaskedText) (pattern : Text) (a : Nat) : Nat → Prop
  | first {i : Nat} : IsLeast {j | a ≤ j ∧ s.StandsAt pattern j} i → Meets s pattern a i
  | next {i j : Nat} : Meets s pattern a i →
    IsLeast {k | i + max 1 pattern.length ≤ k ∧ s.StandsAt pattern k} j → Meets s pattern a j

/-- A part of the pattern that is not all of it stands at its start and at its end. -/
def Overlaps (pattern : Text) : Prop :=
  ∃ n, 0 < n ∧ n < pattern.length ∧ pattern.drop n <+: pattern

/-! ## What a search meets -/

theorem StandsAt.le_size (h : s.StandsAt pattern i) : i ≤ s.size := by
  obtain ⟨hbound, -⟩ := h
  unfold isBoundary at hbound
  cases hb : s.byte? i with
  | some b => exact Nat.le_of_lt (byte?_eq_some_lt hb)
  | none =>
    rw [hb] at hbound
    exact Nat.le_of_eq (beq_iff_eq.1 hbound)

namespace Meets

theorem standsAt (h : s.Meets pattern a i) : s.StandsAt pattern i := by
  cases h with
  | first h => exact h.1.2
  | next _ h => exact h.1.2

theorem le (h : s.Meets pattern a i) : a ≤ i := by
  induction h with
  | first h => exact h.1.1
  | next _ h ih => exact Nat.le_trans ih (Nat.le_trans (Nat.le_add_right ..) h.1.1)

/-- A search that starts elsewhere meets the same, if no occurrence stands between. -/
theorem of_start (h : s.Meets pattern a i)
    (hab : ∀ j, s.StandsAt pattern j → (a ≤ j ↔ b ≤ j)) : s.Meets pattern b i := by
  induction h with
  | first h =>
    refine .first ⟨⟨(hab _ h.1.2).1 h.1.1, h.1.2⟩, fun j hj => ?_⟩
    exact h.2 ⟨(hab j hj.2).2 hj.1, hj.2⟩
  | next _ h ih => exact .next ih h

/-- Two occurrences that are met do not overlap. -/
theorem apart (hi : s.Meets pattern a i) (hj : s.Meets pattern a j) (hlt : i < j) :
    i + max 1 pattern.length ≤ j := by
  induction j using Nat.strongRecOn generalizing i with
  | ind j ih =>
    cases hj with
    | first hfirst => exact absurd (hfirst.2 ⟨hi.le, hi.standsAt⟩) (Nat.not_le.2 hlt)
    | @next k _ hk hnext =>
      have hkj : k < j := by
        have := hnext.1.1
        omega
      rcases Nat.lt_trichotomy i k with hik | rfl | hki
      · have := ih k hkj hi hk hik
        omega
      · exact hnext.1.1
      · -- an occurrence that is met behind the one before would be the next one itself
        exact absurd (hnext.2 ⟨ih i hlt hk hi hki, hi.standsAt⟩) (Nat.not_le.2 hlt)

end Meets

theorem meets_succ (h : ¬ s.StandsAt pattern a) :
    s.Meets pattern a i ↔ s.Meets pattern (a + 1) i := by
  have hstart (j : Nat) (hj : s.StandsAt pattern j) : a ≤ j ↔ a + 1 ≤ j := by
    have : a ≠ j := fun heq => h (heq ▸ hj)
    omega
  exact ⟨fun hi => hi.of_start hstart, fun hi => hi.of_start fun j hj => (hstart j hj).symm⟩

theorem meets_of_standsAt (h : s.StandsAt pattern a) :
    s.Meets pattern a i ↔ i = a ∨ s.Meets pattern (a + max 1 pattern.length) i := by
  have hleast : IsLeast {j | a ≤ j ∧ s.StandsAt pattern j} a :=
    ⟨⟨Nat.le_refl a, h⟩, fun _ hj => hj.1⟩
  constructor
  · intro hi
    induction hi with
    | first hi => exact .inl (hi.unique hleast)
    | next _ hj ih =>
      rcases ih with rfl | ih
      · exact .inr (.first hj)
      · exact .inr (.next ih hj)
  · rintro (rfl | hi)
    · exact .first hleast
    · induction hi with
      | first hi => exact .next (.first hleast) hi
      | next _ hj ih => exact .next ih hj

/-- An occurrence is met if no other one that is met in front of it overlaps it. -/
theorem meets_of_apart (hk : s.StandsAt pattern k) (ha : a ≤ k)
    (hapart : ∀ j, s.Meets pattern a j → j < k → j + pattern.length ≤ k) :
    s.Meets pattern a k := by
  induction hn : k - a using Nat.strongRecOn generalizing a with
  | ind n ih =>
    subst hn
    by_cases hat : s.StandsAt pattern a
    · rw [meets_of_standsAt hat]
      rcases Nat.eq_or_lt_of_le ha with rfl | hlt
      · exact .inl rfl
      · have hend := hapart a ((meets_of_standsAt hat).2 (.inl rfl)) hlt
        exact .inr (ih _ (by omega) (by omega)
          (fun j hj => hapart j ((meets_of_standsAt hat).2 (.inr hj))) rfl)
    · have hne : a ≠ k := fun heq => hat (heq ▸ hk)
      rw [meets_succ hat]
      exact ih _ (by omega) (by omega) (fun j hj => hapart j ((meets_succ hat).2 hj)) rfl

/-! ## What a search answers -/

/-- A search answers with the first live occurrence among those that it meets. -/
theorem searchFrom?_eq_some_iff_meets {passed count : Nat} (hcount : i + count = s.size + 1) :
    s.searchFrom? pattern passed i count = some k ↔
      IsLeast {j | s.Meets pattern (i + passed) j ∧ s.isMasked j = false} k := by
  induction count generalizing passed i with
  | zero =>
    have hnone : s.searchFrom? pattern passed i 0 = none := by cases passed <;> rfl
    rw [hnone]
    refine ⟨nofun, fun h => ?_⟩
    have hle := h.1.1.le
    have hsize := h.1.1.standsAt.le_size
    omega
  | succ count ih =>
    cases passed with
    | succ passed =>
      rw [searchFrom?, ih (by omega), show i + 1 + passed = i + (passed + 1) by omega]
    | zero =>
      rw [searchFrom?, Nat.add_zero i]
      by_cases hat : s.StandsAt pattern i
      · rw [if_pos (Bool.and_eq_true_iff.2 hat)]
        cases hmask : s.isMasked i with
        | true =>
          rw [if_pos rfl, ih (by omega),
            show i + 1 + (pattern.length - 1) = i + max 1 pattern.length by omega]
          refine iff_of_eq (congrArg (IsLeast · k) (Set.ext fun j => ?_))
          show _ ∧ _ ↔ _ ∧ _
          rw [meets_of_standsAt hat]
          constructor
          · rintro ⟨h, hlive⟩
            exact ⟨.inr h, hlive⟩
          · rintro ⟨rfl | h, hlive⟩
            · rw [hmask] at hlive
              cases hlive
            · exact ⟨h, hlive⟩
        | false =>
          have hleast : IsLeast {j | s.Meets pattern i j ∧ s.isMasked j = false} i :=
            ⟨⟨(meets_of_standsAt hat).2 (.inl rfl), hmask⟩, fun _ hj => hj.1.le⟩
          rw [if_neg Bool.false_ne_true, Option.some.injEq]
          exact ⟨fun heq => heq ▸ hleast, fun h => hleast.unique h⟩
      · rw [if_neg (mt Bool.and_eq_true_iff.1 hat), ih (by omega), Nat.add_zero]
        refine iff_of_eq (congrArg (IsLeast · k) (Set.ext fun j => ?_))
        exact and_congr_left fun _ => (meets_succ hat).symm

/-- No character boundary stands between an offset and the boundary it is rounded up to. -/
theorem ceilBoundary_le_iff {start : Nat} (h : s.isBoundary j = true) (hj : j ≤ s.size) :
    s.ceilBoundary start ≤ j ↔ min start s.size ≤ j := by
  have hboundary (i : Nat) (hi : i < s.size) :
      s.isBoundary i = (s.byte? i).any (fun b => !Byte.isContinuation b) := by
    unfold isBoundary
    cases hb : s.byte? i with
    | some b => rfl
    | none =>
      have := Array.getElem?_eq_none_iff.1 hb
      exact absurd hi (Nat.not_lt.2 this)
  unfold ceilBoundary
  cases hfind : s.findRaw? (fun b => !Byte.isContinuation b) start with
  | none =>
    rw [Option.getD_none]
    refine ⟨fun hle => by omega, fun hle => Nat.le_of_not_lt fun hlt => ?_⟩
    have hnone := firstFrom?_eq_none.1 hfind j (by omega) (by omega)
    rw [← hboundary j hlt, h] at hnone
    cases hnone
  | some stop =>
    obtain ⟨hle, hlt, -, hfirst⟩ := firstFrom?_eq_some hfind
    rw [Option.getD_some]
    refine ⟨fun hstop => by omega, fun hstart => Nat.le_of_not_lt fun hbefore => ?_⟩
    have hno := hfirst j (by omega) hbefore
    rw [← hboundary j (by omega), h] at hno
    cases hno

theorem ceilBoundary_le_size (s : MaskedText) (start : Nat) : s.ceilBoundary start ≤ s.size := by
  unfold ceilBoundary
  cases hfind : s.findRaw? (fun b => !Byte.isContinuation b) start with
  | none => exact Nat.le_refl _
  | some stop =>
    obtain ⟨hle, hlt, -⟩ := firstFrom?_eq_some hfind
    rw [Option.getD_some]
    omega

theorem indexOf?_eq_some_iff_meets {start : Nat} : s.indexOf? pattern start = some k ↔
    IsLeast {j | s.Meets pattern (min start s.size) j ∧ s.isMasked j = false} k := by
  have hceil := s.ceilBoundary_le_size start
  rw [indexOf?, searchFrom?_eq_some_iff_meets (by omega), Nat.add_zero]
  have hstart (j : Nat) (hj : s.StandsAt pattern j) :
      s.ceilBoundary start ≤ j ↔ min start s.size ≤ j := ceilBoundary_le_iff hj.1 hj.le_size
  refine iff_of_eq (congrArg (IsLeast · k) (Set.ext fun j => and_congr_left fun _ => ?_))
  exact ⟨fun h => h.of_start hstart, fun h => h.of_start fun i hi => (hstart i hi).symm⟩

/-- A search answers no later than at a live occurrence that it meets. -/
theorem exists_indexOf?_of_meets {start : Nat} (h : s.Meets pattern (min start s.size) k)
    (hlive : s.isMasked k = false) : ∃ j ≤ k, s.indexOf? pattern start = some j := by
  classical
  have hsome : {j | s.Meets pattern (min start s.size) j ∧ s.isMasked j = false}.Nonempty :=
    ⟨k, h, hlive⟩
  have hleast := hsome.isLeast_natFind
  exact ⟨_, hleast.2 ⟨h, hlive⟩, indexOf?_eq_some_iff_meets.2 hleast⟩

/-! ## The first live occurrence -/

section
variable {start : Nat}

theorem mem_liveFrom_of_meets (h : s.Meets pattern (min start s.size) k)
    (hlive : s.isMasked k = false) : k ∈ s.liveFrom pattern start := ⟨h.le, h.standsAt, hlive⟩

/-- The first live occurrence is the answer if it is met. -/
theorem indexOf?_of_isLeast (hk : IsLeast (s.liveFrom pattern start) k)
    (hmeets : s.Meets pattern (min start s.size) k) : s.indexOf? pattern start = some k :=
  indexOf?_eq_some_iff_meets.2
    ⟨⟨hmeets, hk.1.2.2⟩, fun _ hj => hk.2 (mem_liveFrom_of_meets hj.1 hj.2)⟩

/-- Two occurrences of a pattern that does not overlap itself stand apart. -/
theorem le_of_not_overlaps (hpattern : ¬ Overlaps pattern) (hi : s.StandsAt pattern i)
    (hj : s.StandsAt pattern j) (hlt : i < j) : i + pattern.length ≤ j := by
  refine Nat.le_of_not_lt fun hover => hpattern ⟨j - i, by omega, by omega, ?_⟩
  rw [List.prefix_iff_getElem?]
  intro n hn
  rw [List.length_drop] at hn
  have hfar := byte?_add_of_startsAt hi.2 (k := j - i + n) (by omega)
  have hnear := byte?_add_of_startsAt hj.2 (k := n) (by omega)
  rw [show i + (j - i + n) = j + n by omega, hnear] at hfar
  rw [hfar, List.getElem_drop]
  exact List.getElem?_eq_getElem _

end

/-- A search answers with the first live occurrence among those that it meets. This is the first
live occurrence of all, with no answer where there is none, exactly if no occurrence that is met
overlaps that one from in front of it. So it is for every pattern that does not overlap itself. -/
theorem indexOf?_isLeast_iff (s : MaskedText) (pattern : Text) (start : Nat) :
    (∀ k, s.indexOf? pattern start = some k ↔
      IsLeast {j | s.Meets pattern (min start s.size) j ∧ s.isMasked j = false} k) ∧
    ((∀ k, s.indexOf? pattern start = some k ↔ IsLeast (s.liveFrom pattern start) k) ↔
      ∀ k, IsLeast (s.liveFrom pattern start) k →
        ∀ j, s.Meets pattern (min start s.size) j → j < k → j + pattern.length ≤ k) ∧
    (¬ Overlaps pattern →
      ∀ k, s.indexOf? pattern start = some k ↔ IsLeast (s.liveFrom pattern start) k) := by
  have hanswer : (∀ k, s.indexOf? pattern start = some k ↔ IsLeast (s.liveFrom pattern start) k) ↔
      ∀ k, IsLeast (s.liveFrom pattern start) k →
        ∀ j, s.Meets pattern (min start s.size) j → j < k → j + pattern.length ≤ k := by
    constructor
    · intro h k hk j hj hlt
      have hmeets := (indexOf?_eq_some_iff_meets.1 ((h k).2 hk)).1.1
      have := hj.apart hmeets hlt
      omega
    · intro h k
      have found {k : Nat} (hk : IsLeast (s.liveFrom pattern start) k) :
          s.indexOf? pattern start = some k :=
        indexOf?_of_isLeast hk (meets_of_apart hk.1.2.1 hk.1.1 (h k hk))
      refine ⟨fun hk => ?_, found⟩
      -- there is a live occurrence, so there is a first one, and that is the answer
      have hlive := indexOf?_eq_some_iff_meets.1 hk
      have hsome : (s.liveFrom pattern start).Nonempty :=
        ⟨k, mem_liveFrom_of_meets hlive.1.1 hlive.1.2⟩
      have hfirst := hsome.isLeast_natFind
      rw [Option.some.inj (hk.symm.trans (found hfirst))]
      exact hfirst
  refine ⟨fun k => indexOf?_eq_some_iff_meets, hanswer, fun hpattern => ?_⟩
  refine hanswer.2 fun k hk j hj hlt => ?_
  exact le_of_not_overlaps hpattern hj.standsAt hk.1.2.1 hlt

/-- The escaped semicolon at offset 4 is masked, and the two live ones behind it are passed over. -/
example : (ofText .declarations "x: \\;;;").indexOf? ";;" 0 = none ∧
    5 ∈ (ofText .declarations "x: \\;;;").liveFrom ";;" 0 :=
  by decide

end PageLang.MaskedText
