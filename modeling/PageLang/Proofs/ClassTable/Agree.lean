import PageLang.Proofs.ClassTable.Keywords
import PageLang.Proofs.Hierarchy.Agree

/-!
# Reading a class in texts that agree around it

A class that is read without a fault is read alike in every text that agrees with it up to its last
brace, and so is its keyword found, if what stands in front of it sets it off alike.

* `MaskedText.AgreeOn.classKeyword?_eq`: a keyword.
* `MaskedText.Window.classAt_eq`: a class without a fault.
-/

namespace PageLang

/-- What may stand right in front of a class keyword. -/
def Byte.setsOff (b : UInt8) : Bool := b == Byte.semicolon || b == Byte.rbrace || Byte.isSpace b

namespace MaskedText

theorem isClassKeyword_eq (s : MaskedText) (i : Nat) :
    s.isClassKeyword i = (s.startsAt "class" i && (s.byte? (i + 5)).any Byte.isSpace &&
      (i == 0 || (s.byte? (i - 1)).any Byte.setsOff)) := rfl

/-- What stands right in front of an offset sets a class keyword off alike in two texts. -/
def SetsOffAlike (s s' : MaskedText) (i : Nat) : Prop :=
  i = 0 ∨ (s'.byte? (i - 1)).any Byte.setsOff = (s.byte? (i - 1)).any Byte.setsOff

/-! ## Keywords -/

namespace AgreeOn

variable {s s' : MaskedText} {lo hi : Nat} (h : AgreeOn s s' lo hi)
include h

theorem setsOffAlike {i : Nat} (hlo : lo < i) (hi : i ≤ hi) : SetsOffAlike s s' i :=
  .inr (by rw [h.byte? _ (by omega) (by omega)])

theorem isClassKeyword_eq {i : Nat} (hlo : lo ≤ i) (hhi : i + 5 < hi)
    (hset : SetsOffAlike s s' lo) : s'.isClassKeyword i = s.isClassKeyword i := by
  have hset' : SetsOffAlike s s' i := by
    rcases Nat.eq_or_lt_of_le hlo with rfl | hlt
    · exact hset
    · exact h.setsOffAlike hlt (by omega)
  have hat : s'.startsAt "class" i = s.startsAt "class" i :=
    h.startsAt_eq hlo (show i + 5 ≤ hi by omega)
  rw [MaskedText.isClassKeyword_eq, MaskedText.isClassKeyword_eq, hat,
    h.byte? (i + 5) (by omega) hhi]
  rcases hset' with rfl | hset'
  · rfl
  · rw [hset']

theorem classKeywordFrom?_eq {depth i n n' j : Nat} (hlo : lo ≤ i) (hn' : hi ≤ i + n')
    (hj : j + 5 < hi) (hset : SetsOffAlike s s' lo)
    (hfind : s.classKeywordFrom? depth i n = some j) :
    s'.classKeywordFrom? depth i n' = some j := by
  induction n generalizing depth i n' with
  | zero => simp [classKeywordFrom?] at hfind
  | succ n ih =>
    have hle := (classKeywordFrom?_eq_some hfind).1
    obtain ⟨n', rfl⟩ : ∃ k, n' = k + 1 := ⟨n' - 1, by omega⟩
    have next {depth' : Nat} (hfind : s.classKeywordFrom? depth' (i + 1) n = some j) :
        s'.classKeywordFrom? depth' (i + 1) n' = some j := ih (by omega) (by omega) hfind
    unfold classKeywordFrom? at hfind ⊢
    rw [h.liveByte?_eq hlo (by omega), h.isClassKeyword_eq hlo (by omega) hset]
    split at hfind
    · next hb => simpa only [hb] using next hfind
    · next hb => simpa only [hb] using next hfind
    · by_cases hkey : depth = 0 ∧ s.isClassKeyword i = true
      · rw [if_pos hkey] at hfind ⊢
        exact hfind
      · rw [if_neg hkey] at hfind ⊢
        exact next hfind
    · next hb => simpa only [hb] using next hfind

/-- A keyword whose class ends in the range. -/
theorem classKeyword?_eq {pos j : Nat} (hlo : lo ≤ pos) (hj : j + 5 < hi)
    (hset : SetsOffAlike s s' lo) (hfind : s.classKeyword? pos = some j) :
    s'.classKeyword? pos = some j := by
  have := (classKeyword?_eq_some hfind).1
  have := h.le'
  exact h.classKeywordFrom?_eq hlo (by omega) hj hset hfind

end AgreeOn

/-- The search for keywords goes by live bytes and keywords alone. -/
theorem classKeywordFrom?_congr {s s' : MaskedText} {depth i n : Nat}
    (hlive : ∀ k, i ≤ k → s'.liveByte? k = s.liveByte? k)
    (hkey : ∀ k, i ≤ k → s'.isClassKeyword k = s.isClassKeyword k) :
    s'.classKeywordFrom? depth i n = s.classKeywordFrom? depth i n := by
  induction n generalizing depth i with
  | zero => rfl
  | succ n ih =>
    have next (depth : Nat) : s'.classKeywordFrom? depth (i + 1) n =
        s.classKeywordFrom? depth (i + 1) n :=
      ih (fun k hk => hlive k (by omega)) fun k hk => hkey k (by omega)
    rw [classKeywordFrom?, classKeywordFrom?, hlive i (Nat.le_refl _), hkey i (Nat.le_refl _)]
    simp only [next]

/-! ## Classes -/

/-- A class keyword stands in front of its block, with a blank between them. -/
theorem lt_opening_of_isClassKeyword {s : MaskedText} {i opening : Nat}
    (hkey : s.isClassKeyword i = true) (hle : i ≤ opening)
    (hopen : s.byte? opening = some Byte.lbrace) : i + 5 < opening := by
  rw [isClassKeyword_eq] at hkey
  obtain ⟨hkey, -⟩ := Bool.and_eq_true_iff.1 hkey
  obtain ⟨hat, hspace⟩ := Bool.and_eq_true_iff.1 hkey
  refine Nat.lt_of_not_le fun hno => ?_
  rcases Nat.eq_or_lt_of_le hno with rfl | hlt
  · rw [hopen] at hspace
    cases hspace
  · have hno : s.startsAt "class" i = false := startsAt_ends (by decide) hopen hle hlt
    rw [hat] at hno
    cases hno

/-- A class without a fault that ends in the range. -/
theorem Window.classAt_eq {s s' : MaskedText} {lo hi : Nat} (h : Window s s' lo hi) {file : Text}
    {start : Nat} (hlo : lo ≤ start) (hread : (s.classAt file start).fault = none)
    (hnext : (s.classAt file start).next ≤ hi) :
    s'.classAt file start = s.classAt file start := by
  obtain ⟨opening, close, d, hfind, hclose, -⟩ := definition_of_fault_eq_none hread
  have hat : s.classAt file start = s.classWithin file start opening close :=
    classAt_block hfind hclose
  rw [hat, next_classWithin] at hnext
  rw [hat] at hread
  have hle := (findAny?_eq_some hfind).1
  have hblock := (closingBrace?_eq_some hclose).1
  have hbody : (s.body .classStatement close (opening + 1)).fault = none := by
    unfold classWithin at hread
    split at hread
    · cases hread
    · dsimp only at hread
      split at hread
      · cases hread
      · next hfault => exact hfault
  have hcontent := h.content_body_eq _ _ _
    ⟨⟨opening, by omega, Nat.lt_succ_self _, hclose⟩, by omega⟩ hbody
  simp only [Body.content, Prod.mk.injEq] at hcontent
  obtain ⟨hdeclarations, hchildren, hfault⟩ := hcontent
  rw [hat, classAt_block (h.findAny?_eq hlo (by omega) hfind)
    (h.closingBrace?_eq (by omega) (by omega) hclose)]
  simp only [classWithin, h.slice_eq hlo (by omega : opening ≤ hi), hdeclarations, hchildren,
    hfault]

end MaskedText

end PageLang
