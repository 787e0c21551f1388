import PageLang.Proofs.ClassTable.Reads
import PageLang.Proofs.Element.Blanked

/-!
# Reading classes around a blanked comment

The class parser reads the same classes and the same faults if a comment outside all classes, or in
front of a statement of a class or of an element in it, is blanked.

* `MaskedText.AmongClasses`: where the comment stands, as the class parser reads.
* `MaskedText.Blanked.classAt_step`: one class.
* `MaskedText.Blanked.classesRecovering_eq`: all of them.
-/

namespace PageLang.MaskedText

/-- Reading classes from `pos` on, the comment from `a` up to `e` stands between two classes, or in
front of a statement of a class or of an element in it. -/
inductive AmongClasses (s : MaskedText) (file : Text) (a e : Nat) : (pos : Nat) → Prop
  /-- The next class, if there is one, stands behind the comment. -/
  | between {pos : Nat} : (∀ start, s.classKeyword? pos = some start → e ≤ start) →
    AmongClasses s file a e pos
  /-- The next class is passed. -/
  | behind {pos start : Nat} : s.classKeyword? pos = some start →
    (s.classAt file start).next ≤ a → AmongClasses s file a e (s.classAt file start).next →
    AmongClasses s file a e pos
  /-- The comment stands in front of the statement that starts at `p` in the next class. -/
  | inside {pos start opening close stop p : Nat} : s.classKeyword? pos = some start →
    s.findAny? [Byte.lbrace, Byte.semicolon, Byte.rbrace] start = some (opening, Byte.lbrace) →
    s.closingBrace? opening = some close → s.Comes close (opening + 1) stop p →
    s.Crosses a .blank p → e ≤ stop → AmongClasses s file a e pos

theorem amongClasses_of_le {s : MaskedText} {file : Text} {a e pos : Nat} (hle : e ≤ pos) :
    s.AmongClasses file a e pos :=
  .between fun _ hat => Nat.le_trans hle (classKeyword?_eq_some hat).1

namespace Blanked

variable {s s' : MaskedText} {a e : Nat} (h : Blanked s s' a e)
include h

/-! ## Keywords -/

theorem startsAt_class_inside {i : Nat} (ha : a ≤ i) (he : i < e) :
    s'.startsAt "class" i = false := by
  refine Bool.eq_false_iff.2 fun hat => ?_
  obtain ⟨b, hb, hspace⟩ := h.blank i ha he
  have hfirst := byte?_add_of_startsAt hat (show 0 < (Text.ofString "class").length by decide)
  rw [Nat.add_zero, hb] at hfirst
  cases hfirst
  cases hspace

theorem isClassKeyword_eq (hapart : s.Apart a e) {i : Nat} (hi : i < a ∨ e ≤ i) :
    s'.isClassKeyword i = s.isClassKeyword i := by
  have hlength : (Text.ofString "class").length = 5 := rfl
  have no (hat' : s'.startsAt "class" i = false) (hat : s.startsAt "class" i = false) :
      s'.isClassKeyword i = s.isClassKeyword i := by
    unfold isClassKeyword
    rw [hat', hat]
    rfl
  have hlt := h.lt
  rcases hi with hi | hi
  · rcases Nat.lt_trichotomy (i + 5) a with hfar | heq | hnear
    · unfold isClassKeyword
      rw [h.startsAt_eq (by omega), h.byte? (i + 5) (by omega), h.byte? (i - 1) (by omega)]
    · have hat := hapart.keywordFront i heq
      exact no (by rw [h.startsAt_eq (by omega), hat]) hat
    · have hnear : a < i + (Text.ofString "class").length := hnear
      obtain ⟨hat', hat⟩ := h.startsAt_across (by decide) (by decide) (Nat.le_of_lt hi) hnear
      exact no hat' hat
  · rcases Nat.eq_or_lt_of_le hi with rfl | hfar
    · have hat := hapart.keywordBehind
      exact no (by rw [h.startsAt_eq (by omega), hat]) hat
    · unfold isClassKeyword
      rw [h.startsAt_eq (by omega), h.byte? (i + 5) (by omega), h.byte? (i - 1) (by omega)]

theorem classKeywordFrom?_eq (hapart : s.Apart a e) (depth i count : Nat) :
    s'.classKeywordFrom? depth i count = s.classKeywordFrom? depth i count := by
  induction count generalizing depth i with
  | zero => rfl
  | succ count ih =>
    rw [classKeywordFrom?, classKeywordFrom?]
    by_cases hi : i < a ∨ e ≤ i
    · rw [h.liveByte?_eq hi, h.isClassKeyword_eq hapart hi]
      simp only [ih]
    · obtain ⟨hnone, hspace⟩ := h.liveByte?_inside (i := i) (by omega) (by omega)
      have hkey : s'.isClassKeyword i = false := by
        unfold isClassKeyword
        rw [h.startsAt_class_inside (by omega) (by omega)]
        rfl
      rw [hnone, hkey]
      simp only [ih]
      split
      · next hb => exact absurd (hspace _ hb) (by decide)
      · next hb => exact absurd (hspace _ hb) (by decide)
      · rw [if_neg fun hno => Bool.false_ne_true hno.2]
      · rfl

/-- Class keywords stand where they did. -/
theorem classKeyword?_eq (hapart : s.Apart a e) (start : Nat) :
    s'.classKeyword? start = s.classKeyword? start := by
  unfold classKeyword?
  rw [h.size_eq, h.classKeywordFrom?_eq hapart]

/-! ## Classes -/

/-- A class is made of its header and of what its body holds. -/
theorem classAt_eq {file : Text} {start : Nat}
    (hblock : ∀ opening close,
      s.findAny? [Byte.lbrace, Byte.semicolon, Byte.rbrace] start = some (opening, Byte.lbrace) →
      s.closingBrace? opening = some close → (opening ≤ a ∨ e ≤ start) ∧
        (s'.body .classStatement close (opening + 1)).content =
          (s.body .classStatement close (opening + 1)).content) :
    s'.classAt file start = s.classAt file start := by
  unfold classAt
  rw [h.findAny?_eq (by decide), h.size_eq]
  cases hfind : s.findAny? [Byte.lbrace, Byte.semicolon, Byte.rbrace] start with
  | none => rfl
  | some found =>
    obtain ⟨opening, b⟩ := found
    dsimp only
    split
    · next hb =>
      subst hb
      rw [h.closingBrace?_eq]
      cases hclose : s.closingBrace? opening with
      | none => rfl
      | some close =>
        obtain ⟨hheader, hbody⟩ := hblock opening close hfind hclose
        simp only [Body.content, Prod.mk.injEq] at hbody
        obtain ⟨hdeclarations, hchildren, hfault⟩ := hbody
        simp only [classWithin, h.slice_eq hheader, hdeclarations, hchildren, hfault]
    · rfl

theorem classAt_behind (hapart : s.Apart a e) {file : Text} {start : Nat} (hstart : e ≤ start) :
    s'.classAt file start = s.classAt file start := by
  refine h.classAt_eq fun opening close hfind _ => ⟨.inr hstart, ?_⟩
  have := (findAny?_eq_some hfind).1
  exact h.body_clear hapart _ _ _ (.inl (by omega))

theorem classAt_front (hapart : s.Apart a e) {file : Text} {start : Nat}
    (hnext : (s.classAt file start).next ≤ a) : s'.classAt file start = s.classAt file start := by
  refine h.classAt_eq fun opening close hfind hclose => ?_
  have hlt := (closingBrace?_eq_some hclose).1
  unfold classAt at hnext
  rw [hfind] at hnext
  simp only [if_true, hclose, next_classWithin] at hnext
  exact ⟨.inl (by omega),
    h.body_clear hapart _ _ _ (.inr ⟨opening, hclose, Nat.lt_succ_self _, by omega⟩)⟩

/-- The next class is read alike, and reading goes on between classes or in one. -/
theorem classAt_step (hapart : s.Apart a e) {file : Text} {pos start : Nat}
    (hamong : s.AmongClasses file a e pos) (hat : s.classKeyword? pos = some start) :
    s'.classAt file start = s.classAt file start ∧
      s.AmongClasses file a e (s.classAt file start).next := by
  cases hamong with
  | between hbehind =>
    have hle := hbehind start hat
    have hlt : start < (s.classAt file start).next :=
      lt_next_classAt (classKeyword?_eq_some hat).2
    exact ⟨h.classAt_behind hapart hle, amongClasses_of_le (by omega)⟩
  | behind hat' hnext hrest =>
    rw [hat] at hat'
    cases hat'
    exact ⟨h.classAt_front hapart hnext, hrest⟩
  | @inside _ _ opening close stop p hat' hfind hclose hcomes hcross hstop =>
    rw [hat] at hat'
    cases hat'
    have hlt := h.lt
    have hle := hcomes.le
    have hcross_le := hcross.le
    have hend := hcomes.le_close hclose (Nat.lt_succ_self _)
    constructor
    · refine h.classAt_eq fun opening' close' hfind' hclose' => ?_
      rw [hfind] at hfind'
      cases hfind'
      rw [hclose] at hclose'
      cases hclose'
      exact ⟨.inl (by omega),
        h.body_comes hapart hcomes hcross hstop hclose (Nat.lt_succ_self _) .classStatement⟩
    · refine amongClasses_of_le ?_
      unfold classAt
      rw [hfind]
      simp only [if_true, hclose, next_classWithin]
      omega

/-! ## Tables -/

theorem classesFrom_eq (hapart : s.Apart a e) {file : Text} (table : ClassTable) (pos : Nat)
    (hamong : s.AmongClasses file a e pos) :
    s'.classesFrom file table pos = s.classesFrom file table pos ∧
      ∀ failure, s.classesFrom file table pos = .error failure →
        s.AmongClasses file a e failure.resumeAt := by
  have hkey := h.classKeyword?_eq hapart pos
  induction table, pos using classesFrom.induct s file with
  | case1 table pos hat =>
    rw [hat] at hkey
    rw [classesFrom_end hat, classesFrom_end hkey]
    exact ⟨rfl, fun _ hfailure => by cases hfailure⟩
  | case2 table pos start hat read fault hfault =>
    obtain ⟨hread, hnext⟩ := h.classAt_step hapart hamong hat
    rw [hat] at hkey
    rw [classesFrom_fault hat hfault, classesFrom_fault hkey (by rw [hread]; exact hfault), hread]
    exact ⟨rfl, fun _ hfailure => by cases hfailure; exact hnext⟩
  | case3 table pos start hat read table' hfault ih =>
    obtain ⟨hread, hnext⟩ := h.classAt_step hapart hamong hat
    rw [hat] at hkey
    rw [classesFrom_next hat hfault, classesFrom_next hkey (by rw [hread]; exact hfault), hread]
    exact ih hnext (h.classKeyword?_eq hapart _)

theorem recoverClasses_eq (hapart : s.Apart a e) {file : Text} (table : ClassTable)
    (faults : List Fault) (pos : Nat) (hamong : s.AmongClasses file a e pos) :
    s'.recoverClasses file table faults pos = s.recoverClasses file table faults pos := by
  have hpass (pos : Nat) (hamong : s.AmongClasses file a e pos) :
      s'.classes file pos = s.classes file pos := (h.classesFrom_eq hapart ∅ pos hamong).1
  induction table, faults, pos using recoverClasses.induct s file with
  | case1 table faults pos found hfound =>
    rw [recoverClasses, recoverClasses, hpass pos hamong, hfound]
  | case2 table faults pos failure hfailure table' faults' hgo ih =>
    have hnext := (h.classesFrom_eq hapart ∅ pos hamong).2 failure hfailure
    rw [recoverClasses, hpass pos hamong, recoverClasses.eq_def s, hfailure]
    simp only [h.size_eq, if_pos hgo]
    exact ih hnext
  | case3 table faults pos failure hfailure hgo =>
    rw [recoverClasses, hpass pos hamong, recoverClasses.eq_def s, hfailure]
    simp only [h.size_eq, if_neg hgo]

/-- The classes of a text and their faults are the same if a comment that stands among them is
blanked. -/
theorem classesRecovering_eq (hapart : s.Apart a e) {file : Text}
    (hamong : s.AmongClasses file a e 0) :
    s'.classesRecovering file = s.classesRecovering file :=
  h.recoverClasses_eq hapart ∅ [] 0 hamong

end Blanked

end PageLang.MaskedText
