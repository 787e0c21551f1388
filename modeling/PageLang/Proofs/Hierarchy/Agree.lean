import PageLang.Proofs.Element.Agree
import PageLang.Proofs.Hierarchy.Blanked

/-!
# Reading a top-level statement in texts that agree around it

A statement that is read in one text is read alike in every text that agrees with it up to the end
of the statement, if what follows it gives it the same semicolon.

* `MaskedText.SameStart`, `MaskedText.Window.sameStart`: what a statement starts with.
* `MaskedText.Window.topLevelAt_eq`: a statement that is read.
-/

namespace PageLang.MaskedText

/-- The same words stand at the start of a statement in two texts, and a directive there ends
alike. -/
structure SameStart (s s' : MaskedText) (i : Nat) : Prop where
  directive : s'.isDirective i = s.isDirective i
  fontFace : s'.hasWord "*font-face" i = s.hasWord "*font-face" i
  startsClass : s'.startsClass i = s.startsClass i
  stop : s'.statementEnd i = s.statementEnd i

namespace Window

variable {s s' : MaskedText} {lo hi : Nat} (h : Window s s' lo hi)
include h

/-! ## Words -/

/-- A statement that ends in the range starts with the same words. -/
theorem sameStart {i : Nat} (hlo : lo ≤ i) (hends : s.EndsBetween i hi) : SameStart s s' i where
  directive := by
    unfold isDirective
    rw [h.toAgreeOn.hasWord_eq h.characters (by decide) hlo hends,
      h.toAgreeOn.hasWord_eq h.characters (by decide) hlo hends]
  fontFace := h.toAgreeOn.hasWord_eq h.characters (by decide) hlo hends
  startsClass := h.toAgreeOn.startsClass_eq h.characters hlo hends
  stop := by
    obtain ⟨d, b, hid, hd, hlive, hends⟩ := hends
    have hset : b ∈ [Byte.semicolon, Byte.lbrace, Byte.rbrace] := by
      rcases hends with rfl | rfl | rfl <;> decide
    unfold statementEnd
    cases hfind : s.findAny? [Byte.semicolon, Byte.lbrace, Byte.rbrace] i with
    | none => exact absurd hset (findAny?_eq_none hfind hid hlive)
    | some found =>
      have hstop : found.1 ≤ d := Nat.le_of_not_lt fun hlt =>
        not_mem_of_findAny? hfind hid hlt hlive hset
      rw [h.findAny?_eq hlo (by omega) hfind]

/-! ## Statements -/

section
variable {i next : Nat} {piece : Hierarchy} (hlo : lo ≤ i) (hnext : next ≤ hi)
  (hgap : ∀ stop, lo ≤ stop → s.skipSemicolon (stop + 1) = next →
    s'.skipSemicolon (stop + 1) = next)
include hlo hnext hgap

theorem fontFaceAt_eq (hread : s.fontFaceAt i = .found piece next) :
    s'.fontFaceAt i = .found piece next := by
  unfold fontFaceAt at hread ⊢
  dsimp only at hread ⊢
  split at hread
  · next opening hfind =>
    split at hread
    · next close hclose =>
      cases hread
      have hle := (findAny?_eq_some hfind).1
      have hblock := (closingBrace?_eq_some hclose).1
      have hskip := s.le_skipSemicolon (i := close + 1)
      simp only [h.findAny?_eq hlo (by omega) hfind,
        h.closingBrace?_eq (by omega : lo ≤ opening) (by omega) hclose,
        h.slice_eq (by omega : lo ≤ opening) (by omega : close + 1 ≤ hi), hgap close (by omega) rfl]
    · cases hread
  · cases hread

theorem passClass_eq (hread : s.passClass i = .found piece next) :
    s'.passClass i = .found piece next := by
  unfold passClass at hread ⊢
  split at hread
  · cases hread
  next opening b hfind =>
  split at hread
  · next hb =>
    split at hread
    · next close hclose =>
      cases hread
      have hle := (findAny?_eq_some hfind).1
      have hblock := (closingBrace?_eq_some hclose).1
      have hskip := s.le_skipSemicolon (i := close + 1)
      simp only [h.findAny?_eq hlo (by omega) hfind, if_pos hb,
        h.closingBrace?_eq (by omega : lo ≤ opening) (by omega) hclose, hgap close (by omega) rfl]
    · cases hread
  · cases hread

theorem rootAt_eq (hread : s.rootAt i = .found piece next) : s'.rootAt i = .found piece next := by
  unfold rootAt at hread ⊢
  cases hchild : s.element i with
  | error fault =>
    rw [hchild] at hread
    cases hread
  | ok r =>
    rw [hchild] at hread
    cases hread
    rw [h.element_eq hlo hchild hnext hgap]

/-- A statement that is read and ends in the range is read alike. -/
theorem topLevelAt_eq (hstart : SameStart s s' i) (hi : i < s.size)
    (hread : s.topLevelAt i = .found piece next) : s'.topLevelAt i = .found piece next := by
  have hlt := lt_of_topLevelAt hi hread
  unfold topLevelAt at hread ⊢
  rw [h.byte? i hlo (by omega), hstart.directive, hstart.fontFace, hstart.startsClass, hstart.stop]
  by_cases h1 : s.byte? i = some Byte.semicolon
  · rw [if_pos h1] at hread ⊢
    exact hread
  rw [if_neg h1] at hread ⊢
  by_cases h2 : s.isDirective i = true
  · rw [if_pos h2] at hread ⊢
    exact hread
  rw [if_neg h2] at hread ⊢
  by_cases h3 : s.hasWord "*font-face" i = true
  · rw [if_pos h3] at hread ⊢
    exact h.fontFaceAt_eq hlo hnext hgap hread
  rw [if_neg h3] at hread ⊢
  by_cases h4 : s.startsClass i = true
  · rw [if_pos h4] at hread ⊢
    exact h.passClass_eq hlo hnext hgap hread
  rw [if_neg h4] at hread ⊢
  by_cases h5 : s.statementKind i = .element
  · rw [if_pos h5] at hread
    have hkind : s'.statementKind i = .element := by
      obtain ⟨child, hchild⟩ : ∃ child, s.element i = .ok (child, next) := by
        unfold rootAt at hread
        split at hread
        · next hchild =>
          cases hread
          exact ⟨_, hchild⟩
        · cases hread
      obtain ⟨head, hhead, rfl, -⟩ := elementHead_of_element hchild
      obtain ⟨stop, b, hfind, hstop, hends⟩ := ends_of_elementHead hhead
      obtain ⟨hle, -, hlive, -⟩ := findAny?_eq_some hfind
      rw [h.statementKind_eq hlo hle (by omega) hlive hends, h5]
    rw [if_pos hkind]
    exact h.rootAt_eq hlo hnext hgap hread
  · rw [if_neg h5] at hread
    cases hread

end

end Window

end PageLang.MaskedText
