import PageLang.Proofs.ClassTable.Agree
import PageLang.Proofs.Declaration.WellFormed
import PageLang.Proofs.Document.Recovery
import PageLang.Proofs.Include.Layout
import PageLang.Proofs.Include.Opaque
import PageLang.Proofs.Mask.Directive

/-!
# Reading a text with a directive that stays in it

An include directive that is not expanded stays in the text. Where it stands between two top-level
statements, and nothing that is read in front of it reaches over its place, a text that can be read
with blank space in the place of the directive is read alike with the directive.

* `MaskedText.Carries`: a text with blank space, and the text with a directive in its place.
* `MaskedText.Visits`: the offsets behind top-level statements.
* `MaskedText.Carries.hierarchyFrom_eq`, `MaskedText.Carries.classesFrom_eq`,
  `MaskedText.Carries.dataImportsFrom_eq`: the tree, the classes and the data imports.
* `MaskedText.Carries.readAlike`: what is read of a text without faults.
* `MaskedText.carries_of_detour`: where a text carries its one directive.
-/

namespace PageLang.MaskedText

/-- What stands from `a` up to `e` is taken for nothing but a directive: it ends with its first live
brace or semicolon, and no class keyword and no data import stands in it. -/
structure Silent (s : MaskedText) (a e : Nat) : Prop where
  stop : s.statementEnd a = e
  keyword : ∀ i, a ≤ i → i < e → s.isClassKeyword i = false
  dataImport : ∀ i, a ≤ i → i < e → ¬ s.Occurs "*json" i

/-- `s'` is the text `s` with a directive in the place of the blank space from `a` up to `e`. -/
structure Carries (s s' : MaskedText) (a e : Nat) : Prop where
  lt : a < e
  front : AgreeOn s s' 0 a
  back : Shifted s s' e e
  blank : ∀ i, a ≤ i → i < e → ∃ b, s.byte? i = some b ∧ Byte.isSpace b = true
  directive : s'.isDirective a = true
  semicolon : s'.liveByte? (e - 1) = some Byte.semicolon
  silent : s'.Silent a e

/-- Two texts with the same classes, trees and data imports, and the same faults. -/
structure ReadAlike (file : Text) (s s' : MaskedText) : Prop where
  classes : s'.classesRecovering file = s.classesRecovering file
  tree : s'.hierarchyRecovering = s.hierarchyRecovering
  dataImports : s'.dataImports = s.dataImports

/-- Reading the tree of a text from `pos` on goes on at `p` behind a statement, or starts there. -/
inductive Visits (s : MaskedText) : (pos p : Nat) → Prop
  | here {p : Nat} : Visits s p p
  | step {pos next p : Nat} {piece : Hierarchy} : s.skipTrivia pos < s.size →
    s.topLevelAt (s.skipTrivia pos) = .found piece next → Visits s next p → Visits s pos p

theorem Visits.le {s : MaskedText} {pos p : Nat} (h : s.Visits pos p) : pos ≤ p := by
  induction h with
  | here => exact Nat.le_refl _
  | step hlt hread _ ih =>
    have := le_skipTrivia_of_lt hlt
    have := lt_of_topLevelAt hlt hread
    omega

/-- The tree from an offset on is the one from the statement that comes next. -/
theorem hierarchyFrom_congr {s : MaskedText} {tree : Hierarchy} {pos pos' : Nat}
    (h : s.skipTrivia pos = s.skipTrivia pos') :
    s.hierarchyFrom tree pos = s.hierarchyFrom tree pos' := by
  rcases Nat.lt_or_ge (s.skipTrivia pos') s.size with hlt | hge
  · cases hstep : s.topLevelAt (s.skipTrivia pos') with
    | ended => rw [hierarchyFrom_ended (h ▸ hlt) (h ▸ hstep), hierarchyFrom_ended hlt hstep]
    | found piece next =>
      rw [hierarchyFrom_found h hlt hstep, hierarchyFrom_found rfl hlt hstep]
    | failed fault resumeAt =>
      rw [hierarchyFrom_failed (h ▸ hlt) (h ▸ hstep), hierarchyFrom_failed hlt hstep]
  · rw [hierarchyFrom_end (h ▸ hge), hierarchyFrom_end hge]

/-- A place between two top-level statements over which nothing reaches that is read in front of
it. -/
structure Clears (s : MaskedText) (file : Text) (a e : Nat) : Prop where
  /-- Reading the tree comes to the place behind a statement or at the start. -/
  statements : ∃ p, s.Visits 0 p ∧ s.Crosses a .blank p
  /-- The place is in no class. -/
  classes : ∀ i ∈ s.classStarts file 0, (s.classAt file i).next ≤ a ∨ e ≤ i
  /-- No declaration that starts in front of the place ends behind it. -/
  declarations : ∀ i d next, i < a → s.skipTrivia i = i →
    s.declaration? i = .ok (some (d, next)) → next ≤ a
  /-- No data import that starts in front of the place ends behind it. -/
  dataImports : ∀ i, i < a → s.Occurs "*json" i → s.statementEnd i ≤ a
  /-- The characters in front of the place are whole. -/
  characters : ∀ i b, i < a → s.byte? i = some b → i + Text.charWidth b ≤ a

namespace Carries

variable {s s' : MaskedText} {a e : Nat} {file : Text} (h : Carries s s' a e)
include h

theorem size_eq : s'.size = s.size := by
  have := h.back.size_eq
  omega

theorem le_size : e ≤ s.size := h.back.le

theorem star : s'.byte? a = some Byte.star := byte?_of_isDirective h.directive

theorem skipTrivia_back {i : Nat} (hi : e ≤ i) : s'.skipTrivia i = s.skipTrivia i := by
  obtain ⟨k, rfl⟩ := Nat.exists_eq_add_of_le hi
  have := h.back.skipTrivia_eq k
  omega

theorem skipSpace_le_star {i : Nat} (hi : i ≤ a) : s'.skipSpace i ≤ a :=
  skipSpace_le hi h.star rfl

theorem byte?_back {i : Nat} (hi : e ≤ i) : s'.byte? i = s.byte? i := by
  obtain ⟨k, rfl⟩ := Nat.exists_eq_add_of_le hi
  exact h.back.byte? k

theorem slice_back {i : Nat} (hi : e ≤ i) (j : Nat) : s'.slice i j = s.slice i j := by
  refine List.ext_getElem? fun k => ?_
  have := h.size_eq
  by_cases hk : i + k < j
  · rw [getElem?_slice hk, getElem?_slice hk, h.byte?_back (by omega)]
  · rw [List.getElem?_eq_none (by rw [length_slice]; omega),
      List.getElem?_eq_none (by rw [length_slice]; omega)]

/-! ## Windows -/

/-- Nothing looks out of what stands in front of the directive. -/
theorem window_front (hclear : s.Clears file a e) : Window s s' 0 a where
  toAgreeOn := h.front
  declarations i d next _ hi hskip hread := hclear.declarations i d next hi hskip hread
  semicolon i _ hi hb := by
    refine Nat.lt_of_le_of_ne (h.skipSpace_le_star hi) fun heq => ?_
    rw [heq, h.star] at hb
    cases hb
  characters i n b _ hi hb :=
    h.front.take_slice_eq (Nat.zero_le _) (hclear.characters i b hi hb)

/-- Nothing looks out of a text at its end. -/
theorem window_back : Window s s' e s.size where
  le := Nat.le_refl _
  le' := Nat.le_of_eq h.size_eq.symm
  byte? i hi _ := h.byte?_back hi
  isMasked i hi _ := by
    obtain ⟨k, rfl⟩ := Nat.exists_eq_add_of_le hi
    exact h.back.isMasked k
  declarations i d next _ _ _ hread := next_declaration?_le_size hread
  semicolon i _ _ hb := by
    have := byte?_eq_some_lt hb
    have := h.size_eq
    omega
  characters i n b hi _ _ := by rw [h.slice_back hi]

/-! ## Gaps -/

/-- No live brace stands in the directive, and no live semicolon but the last byte. -/
theorem stop : s'.findAny? [Byte.semicolon, Byte.lbrace, Byte.rbrace] a =
    some (e - 1, Byte.semicolon) := by
  have hend := h.silent.stop
  have := h.lt
  cases hfind : s'.findAny? [Byte.semicolon, Byte.lbrace, Byte.rbrace] a with
  | none => exact absurd (by decide) (findAny?_eq_none hfind (by omega) h.semicolon)
  | some found =>
    obtain ⟨j, b⟩ := found
    rw [statementEnd_of_some hfind] at hend
    obtain rfl : j = e - 1 := by omega
    have hlive := (findAny?_eq_some hfind).2.2.1
    rw [h.semicolon] at hlive
    cases hlive
    rfl

theorem skipTrivia_star : s'.skipTrivia a = a := by
  have := h.lt
  have := h.le_size
  have := h.size_eq
  have hnext : s'.gapNext? .blank a = none := gapNext?_blank_eq_none h.star rfl (by decide)
  unfold skipTrivia
  rw [Nat.min_eq_left (by omega), show s'.size - a = s'.size - a - 1 + 1 by omega, gapEnd_succ,
    hnext]

/-- The blank space is skipped. -/
theorem gapEnd_blank {i n : Nat} (ha : a ≤ i) (hi : i ≤ e) :
    s.gapEnd .blank i (e - i + n) = s.gapEnd .blank e n := by
  induction hk : e - i generalizing i with
  | zero =>
    obtain rfl : i = e := by omega
    rw [Nat.zero_add]
  | succ k ih =>
    obtain ⟨b, hb, hspace⟩ := h.blank i ha (by omega)
    have hnext : s.gapNext? .blank i = some .blank := by
      rw [gapNext?, hb, Option.any_some, if_pos hspace]
    rw [show k + 1 + n = k + n + 1 by omega, gapEnd_succ, hnext]
    exact ih (by omega) (by omega) (by omega)

theorem skipTrivia_crosses {p : Nat} (hcross : s.Crosses a .blank p) :
    s.skipTrivia p = s.skipTrivia e := by
  have := h.lt
  have := h.le_size
  have := hcross.le
  unfold skipTrivia
  rw [Nat.min_eq_left (by omega), Nat.min_eq_left (by omega),
    show s.size - p = a - p + (s.size - a) by omega, hcross.gapEnd,
    show s.size - a = e - a + (s.size - e) by omega, h.gapEnd_blank (Nat.le_refl _) (by omega)]

/-- A gap that comes to the place does so in both texts. -/
theorem crosses {gap : Gap} {i : Nat} (hcross : s.Crosses a gap i) : s'.Crosses a gap i := by
  induction hcross with
  | here => exact .here
  | @step gap next i hi hnext _ ih =>
    refine .step hi ?_ ih
    rw [← hnext]
    cases gap with
    | line | opening | block star =>
      simp only [gapNext?, h.front.byte? i (Nat.zero_le _) hi]
    | blank =>
      refine h.front.gapNext?_eq (Nat.zero_le _) hi fun hslash => ?_
      refine Nat.lt_of_le_of_ne hi fun hlast => ?_
      -- a slash opens no comment in front of blank space
      obtain ⟨b, hb, hspace⟩ := h.blank a (Nat.le_refl _) h.lt
      have hno {pattern : Text} {c : UInt8} (hpattern : pattern[1]? = some c)
          (hc : Byte.isSpace c = false) : s.startsAt pattern i = false := by
        refine Bool.eq_false_iff.2 fun hat => ?_
        obtain ⟨hlt, hget⟩ := List.getElem?_eq_some_iff.1 hpattern
        have hsecond := byte?_add_of_startsAt hat hlt
        rw [show i + 1 = a from hlast, hb, hpattern] at hsecond
        cases hsecond
        rw [hspace] at hc
        cases hc
      rw [gapNext?, hslash, Option.any_some, if_neg (by decide),
        hno (c := Byte.slash) rfl rfl, hno (c := Byte.star) rfl rfl] at hnext
      cases hnext

theorem skipTrivia_directive {p : Nat} (hcross : s.Crosses a .blank p) : s'.skipTrivia p = a := by
  have := h.lt
  have := h.le_size
  have := h.size_eq
  have := hcross.le
  have hstar := h.skipTrivia_star
  unfold skipTrivia at hstar ⊢
  rw [Nat.min_eq_left (by omega)] at hstar ⊢
  rw [show s'.size - p = a - p + (s'.size - a) by omega, (h.crosses hcross).gapEnd]
  exact hstar

/-! ## Trees -/

/-- A gap that ends in front of the place, where a statement is read that ends there too. -/
theorem skipTrivia_front {pos next : Nat} {piece : Hierarchy}
    (hlt : s.skipTrivia pos < s.size)
    (hread : s.topLevelAt (s.skipTrivia pos) = .found piece next) (hnext : next ≤ a) :
    s'.skipTrivia pos = s.skipTrivia pos := by
  have hstep := lt_of_topLevelAt hlt hread
  refine h.front.skipTrivia_eq_of_slash (Nat.zero_le _) (by omega) fun hslash => ?_
  refine Nat.lt_of_le_of_ne (by omega) fun hlast => ?_
  have := h.lt
  have := h.le_size
  obtain ⟨d, b, hid, hd, hlive, hends⟩ := endsBetween_of_next? (s := s)
    (by rw [hslash]; decide) (congrArg TopLevel.next? hread) (by omega)
  obtain rfl : d = s.skipTrivia pos := by omega
  rw [(liveByte?_eq_some hlive).2] at hslash
  rcases hends with rfl | rfl | rfl <;> cases hslash

theorem skipSemicolon_front {next p stop : Nat} (hvisits : s.Visits next p)
    (hcross : s.Crosses a .blank p) (hskip : s.skipSemicolon (stop + 1) = next) :
    s'.skipSemicolon (stop + 1) = next := by
  have hle := hvisits.le
  have hle' := hcross.le
  unfold skipSemicolon at hskip ⊢
  dsimp only at hskip ⊢
  by_cases hb : s.byte? (s.skipTrivia (stop + 1)) = some Byte.semicolon
  · rw [if_pos hb] at hskip
    have hgap : s'.skipTrivia (stop + 1) = s.skipTrivia (stop + 1) := by
      refine h.front.skipTrivia_eq_of_slash (Nat.zero_le _) (by omega) fun hslash => ?_
      rw [hb] at hslash
      cases hslash
    rw [hgap, h.front.byte? _ (Nat.zero_le _) (by omega), if_pos hb, hskip]
  · rw [if_neg hb] at hskip
    subst hskip
    refine if_neg ?_
    -- what follows is the directive, or the next statement of both texts
    cases hvisits with
    | here =>
      rw [h.skipTrivia_directive hcross, h.star]
      decide
    | step hlt hread hrest =>
      have hlast := hrest.le
      have hstep := lt_of_topLevelAt hlt hread
      rw [h.skipTrivia_front hlt hread (by omega), h.front.byte? _ (Nat.zero_le _) (by omega)]
      exact hb

theorem topLevelAt_front (hclear : s.Clears file a e) {pos next p : Nat} {piece : Hierarchy}
    (hlt : s.skipTrivia pos < s.size)
    (hread : s.topLevelAt (s.skipTrivia pos) = .found piece next) (hvisits : s.Visits next p)
    (hcross : s.Crosses a .blank p) : s'.topLevelAt (s.skipTrivia pos) = .found piece next := by
  have hle := hvisits.le
  have hle' := hcross.le
  have hstep := lt_of_topLevelAt hlt hread
  by_cases hb : s.byte? (s.skipTrivia pos) = some Byte.semicolon
  · have hb' := (h.front.byte? _ (Nat.zero_le _) (by omega)).trans hb
    unfold topLevelAt at hread ⊢
    rw [if_pos hb] at hread
    rw [if_pos hb', hread]
  · have hends := endsBetween_of_next? hb (congrArg TopLevel.next? hread)
      (by have := h.lt; have := h.le_size; omega)
    have hwindow := h.window_front hclear
    exact hwindow.topLevelAt_eq (Nat.zero_le _) (by omega)
      (fun stop _ hskip => h.skipSemicolon_front hvisits hcross hskip)
      (hwindow.sameStart (Nat.zero_le _) (hends.mono (by omega))) hlt hread

theorem findAny?_back {i : Nat} (hi : e ≤ i) (set : Text) :
    s'.findAny? set i = s.findAny? set i := by
  obtain ⟨k, rfl⟩ := Nat.exists_eq_add_of_le hi
  rcases h.back.findAny?_eq set k with ⟨j, b, -, hfind, hfind'⟩ | ⟨hnone, hnone'⟩
  · rw [hfind, hfind']
  · rw [hnone, hnone']

theorem statementEnd_back {i : Nat} (hi : e ≤ i) : s'.statementEnd i = s.statementEnd i := by
  unfold statementEnd
  rw [h.findAny?_back hi, h.size_eq]

theorem startsAt_back {i : Nat} (hi : e ≤ i) (pattern : Text) :
    s'.startsAt pattern i = s.startsAt pattern i := by
  unfold startsAt
  rw [h.slice_back hi]

theorem sameStart_back {i : Nat} (hi : e ≤ i) : SameStart s s' i := by
  have hword (word : Text) : s'.hasWord word i = s.hasWord word i := by
    unfold hasWord
    rw [h.startsAt_back hi, h.slice_back (by omega)]
  refine ⟨?_, hword _, ?_, h.statementEnd_back hi⟩
  · unfold isDirective
    rw [hword, hword]
  · unfold startsClass
    rw [h.startsAt_back hi, h.slice_back (by omega)]

theorem skipSemicolon_back {i : Nat} (hi : e ≤ i) : s'.skipSemicolon i = s.skipSemicolon i := by
  have hgap := h.skipTrivia_back hi
  unfold skipSemicolon
  dsimp only
  rw [hgap]
  rcases Nat.lt_or_ge (s.skipTrivia i) s.size with hlt | hge
  · rw [h.byte?_back (Nat.le_trans hi (le_skipTrivia_of_lt hlt))]
  · -- no byte stands behind the end
    have hsize := h.size_eq
    have hno {t : MaskedText} (ht : t.size = s.size) :
        t.byte? (s.skipTrivia i) ≠ some Byte.semicolon := by
      intro hb
      have := byte?_eq_some_lt hb
      omega
    rw [if_neg (hno hsize), if_neg (hno rfl)]

theorem topLevelAt_back {i next : Nat} {piece : Hierarchy} (hi : e ≤ i) (hlt : i < s.size)
    (hread : s.topLevelAt i = .found piece next) : s'.topLevelAt i = .found piece next := by
  refine h.window_back.topLevelAt_eq hi (next?_le_size (congrArg TopLevel.next? hread))
    (fun stop hstop hskip => ?_) (h.sameStart_back hi) hlt hread
  rw [h.skipSemicolon_back (by omega), hskip]

/-- A class that is never closed ends both trees. -/
theorem ended_back {i : Nat} (hi : e ≤ i) (hended : s.topLevelAt i = .ended) :
    s'.topLevelAt i = .ended := by
  obtain ⟨hclass, opening, hfind, hopen⟩ := startsClass_of_ended hended
  have hclass' : s'.startsClass i = true := (h.sameStart_back hi).startsClass.trans hclass
  have hopen' : s'.closingBrace? opening = none := by
    have hle := (findAny?_eq_some hfind).1
    cases hclose : s'.closingBrace? opening with
    | none => rfl
    | some close =>
      have hlt := (closingBrace?_eq_some hclose).2
      have hsame := h.window_back.symm.closingBrace?_eq (by omega) (h.size_eq ▸ hlt) hclose
      rw [hopen] at hsame
      cases hsame
  rw [topLevelAt_of_startsClass hclass', passClass, h.findAny?_back hi, hfind]
  dsimp only
  rw [if_pos rfl, hopen']

theorem hierarchyFrom_back {tree found : Hierarchy} {pos : Nat} (hpos : e ≤ pos)
    (hread : s.hierarchyFrom tree pos = .ok found) : s'.hierarchyFrom tree pos = .ok found := by
  induction tree, pos using hierarchyFrom.induct s with
  | case1 tree pos i hlt hended =>
    have hi := le_skipTrivia_of_lt hlt
    have hgap := h.skipTrivia_back hpos
    rw [hierarchyFrom_ended hlt hended] at hread
    rw [← hread]
    refine hierarchyFrom_ended (by rw [hgap, h.size_eq]; exact hlt) ?_
    rw [hgap]
    exact h.ended_back (Nat.le_trans hpos hi) hended
  | case2 tree pos i hlt piece next hfound ih =>
    have hi := le_skipTrivia_of_lt hlt
    have hstep := lt_of_topLevelAt hlt hfound
    rw [hierarchyFrom_found rfl hlt hfound] at hread
    rw [hierarchyFrom_found (h.skipTrivia_back hpos) (by rw [h.size_eq]; exact hlt)
      (h.topLevelAt_back (Nat.le_trans hpos hi) hlt hfound)]
    exact ih (by omega) hread
  | case3 tree pos i hlt fault resumeAt hfailed =>
    rw [hierarchyFrom_failed hlt hfailed] at hread
    cases hread
  | case4 tree pos i hend =>
    rw [hierarchyFrom_end (Nat.le_of_not_lt hend)] at hread
    rw [← hread]
    exact hierarchyFrom_end (by rw [h.skipTrivia_back hpos, h.size_eq]; exact Nat.le_of_not_lt hend)

/-- The tree of the text with the directive, if the tree of the other one is read without a
fault. -/
theorem hierarchyFrom_eq (hclear : s.Clears file a e) {tree found : Hierarchy} {pos p : Nat}
    (hvisits : s.Visits pos p) (hcross : s.Crosses a .blank p)
    (hread : s.hierarchyFrom tree pos = .ok found) : s'.hierarchyFrom tree pos = .ok found := by
  induction hvisits generalizing tree with
  | here =>
    have := h.lt
    have := h.le_size
    have hat := topLevelAt_of_isDirective h.directive
    rw [h.silent.stop] at hat
    rw [hierarchyFrom_found (h.skipTrivia_directive hcross) (by rw [h.size_eq]; omega) hat]
    rw [Hierarchy.append_empty]
    exact h.hierarchyFrom_back (Nat.le_refl _)
      ((hierarchyFrom_congr (h.skipTrivia_crosses hcross)).symm.trans hread)
  | step hlt hfound hrest ih =>
    have hle := hrest.le
    have hle' := hcross.le
    rw [hierarchyFrom_found rfl hlt hfound] at hread
    rw [hierarchyFrom_found (h.skipTrivia_front hlt hfound (by omega))
      (by rw [h.size_eq]; exact hlt) (h.topLevelAt_front hclear hlt hfound hrest hcross)]
    exact ih hcross hread

/-! ## Classes -/

theorem liveByte?_back {i : Nat} (hi : e ≤ i) : s'.liveByte? i = s.liveByte? i := by
  obtain ⟨k, rfl⟩ := Nat.exists_eq_add_of_le hi
  exact h.back.liveByte?_eq k

/-- Blank space and a semicolon both set off a keyword behind them. -/
theorem isClassKeyword_back {i : Nat} (hi : e ≤ i) : s'.isClassKeyword i = s.isClassKeyword i := by
  have hlt := h.lt
  have hset : (s'.byte? (i - 1)).any Byte.setsOff = (s.byte? (i - 1)).any Byte.setsOff := by
    rcases Nat.eq_or_lt_of_le hi with rfl | hlt'
    · obtain ⟨b, hb, hspace⟩ := h.blank (e - 1) (by omega) (by omega)
      rw [hb, (liveByte?_eq_some h.semicolon).2, Option.any_some,
        Option.any_some, Byte.setsOff, Byte.setsOff, hspace, Bool.or_true]
      rfl
    · rw [h.byte?_back (by omega)]
  rw [isClassKeyword_eq, isClassKeyword_eq, h.startsAt_back hi, h.byte?_back (by omega), hset]

/-- No keyword reaches over the star of the directive. -/
theorem isClassKeyword_front {i : Nat} (hi : i < a) (hkey : s'.isClassKeyword i = true) :
    s.isClassKeyword i = true := by
  suffices hlt : i + 5 < a by
    rw [← h.front.isClassKeyword_eq (Nat.zero_le _) hlt (.inl rfl)]
    exact hkey
  refine Nat.lt_of_not_le fun hle => ?_
  rw [isClassKeyword_eq] at hkey
  obtain ⟨hat, hspace⟩ := Bool.and_eq_true_iff.1 (Bool.and_eq_true_iff.1 hkey).1
  rcases Nat.eq_or_lt_of_le hle with heq | hlt
  · rw [← heq, h.star] at hspace
    cases hspace
  · have hno : s'.startsAt "class" i = false :=
      startsAt_ends (by decide) h.star (Nat.le_of_lt hi) hlt
    rw [hat] at hno
    cases hno

/-- Neither the directive nor the blank space in its place has a keyword or a brace. -/
theorem passes_directive {i : Nat} (ha : a ≤ i) (hi : i < e) (depth n : Nat) :
    s'.classKeywordFrom? depth i (n + 1) = s'.classKeywordFrom? depth (i + 1) n ∧
      s.classKeywordFrom? depth i (n + 1) = s.classKeywordFrom? depth (i + 1) n := by
  constructor
  · refine classKeywordFrom?_pass (fun b hb => ?_) (h.silent.keyword i ha hi)
    rcases Nat.eq_or_lt_of_le (Nat.le_sub_one_of_lt hi) with rfl | hlt
    · rw [h.semicolon] at hb
      cases hb
      decide
    · have hset := not_mem_of_findAny? h.stop ha hlt hb
      constructor <;> rintro rfl <;> exact hset (by decide)
  · obtain ⟨b, hb, hspace⟩ := h.blank i ha hi
    refine classKeywordFrom?_pass (fun c hc => ?_) ?_
    · rw [(liveByte?_eq_some hc).2] at hb
      cases hb
      constructor <;> rintro rfl <;> cases hspace
    · refine Bool.eq_false_iff.2 fun hkey => ?_
      rw [byte?_of_isClassKeyword hkey] at hb
      cases hb
      cases hspace

/-- A search that finds nothing in front of the place finds the same in both texts. -/
theorem classKeywordFrom?_eq {depth i n : Nat}
    (hbehind : ∀ j, s.classKeywordFrom? depth i n = some j → e ≤ j) :
    s'.classKeywordFrom? depth i n = s.classKeywordFrom? depth i n := by
  induction n generalizing depth i with
  | zero => rfl
  | succ n ih =>
    rcases Nat.lt_or_ge i e with hlt | hge
    · rcases Nat.lt_or_ge i a with hfront | hin
      · have hlive : s'.liveByte? i = s.liveByte? i := h.front.liveByte?_eq (Nat.zero_le _) hfront
        unfold classKeywordFrom? at hbehind ⊢
        rw [hlive]
        split at hbehind
        · next hb => simpa only [hb] using ih hbehind
        · next hb => simpa only [hb] using ih hbehind
        · by_cases hkey : depth = 0 ∧ s.isClassKeyword i = true
          · rw [if_pos hkey] at hbehind
            have := hbehind i rfl
            omega
          · rw [if_neg hkey] at hbehind ⊢
            rw [if_neg fun hkey' => hkey ⟨hkey'.1, h.isClassKeyword_front hfront hkey'.2⟩]
            exact ih hbehind
        · next hb => simpa only [hb] using ih hbehind
      · obtain ⟨hpass', hpass⟩ := h.passes_directive hin hlt depth n
        rw [hpass', hpass]
        exact ih (hpass ▸ hbehind)
    · exact classKeywordFrom?_congr (fun k hk => h.liveByte?_back (by omega))
        fun k hk => h.isClassKeyword_back (by omega)

theorem classKeyword?_eq {pos : Nat} (hbehind : ∀ j, s.classKeyword? pos = some j → e ≤ j) :
    s'.classKeyword? pos = s.classKeyword? pos := by
  unfold classKeyword? at hbehind ⊢
  rw [h.size_eq]
  exact h.classKeywordFrom?_eq hbehind

/-- A class without a fault that ends in front of the place or starts behind it. -/
theorem class_eq (hclear : s.Clears file a e) {pos start : Nat}
    (hfind : s.classKeyword? pos = some start) (hread : (s.classAt file start).fault = none)
    (hapart : (s.classAt file start).next ≤ a ∨ e ≤ start) :
    s'.classKeyword? pos = some start ∧ s'.classAt file start = s.classAt file start := by
  rcases hapart with hfront | hback
  · have hlt : start + 5 < a := by
      obtain ⟨opening, close, d, hopen, hclose, -⟩ := definition_of_fault_eq_none hread
      rw [classAt_block hopen hclose, next_classWithin] at hfront
      have hin := (closingBrace?_eq_some hclose).1
      obtain ⟨hle, -, hlive, -⟩ := findAny?_eq_some hopen
      have := lt_opening_of_isClassKeyword (classKeyword?_spec hfind).1 hle
        (liveByte?_eq_some hlive).2
      omega
    exact ⟨h.front.classKeyword?_eq (Nat.zero_le _) hlt (.inl rfl) hfind,
      (h.window_front hclear).classAt_eq (Nat.zero_le _) hread hfront⟩
  · refine ⟨?_, h.window_back.classAt_eq hback hread (next_classAt_le s file start)⟩
    rw [h.classKeyword?_eq fun j hj => ?_, hfind]
    rw [hfind] at hj
    cases hj
    exact hback

/-- The classes of the text with the directive, if those of the other one are read without a
fault. -/
theorem classesFrom_eq (hclear : s.Clears file a e) {table found : ClassTable} {pos : Nat}
    (hapart : ∀ i ∈ s.classStarts file pos, (s.classAt file i).next ≤ a ∨ e ≤ i)
    (hread : s.classesFrom file table pos = .ok found) :
    s'.classesFrom file table pos = .ok found := by
  induction table, pos using classesFrom.induct s file with
  | case1 table pos hnone =>
    rw [classesFrom_end hnone] at hread
    rw [← hread]
    refine classesFrom_end ((h.classKeyword?_eq fun j hj => ?_).trans hnone)
    rw [hnone] at hj
    cases hj
  | case2 table pos start hfind read fault hfault =>
    rw [classesFrom_fault hfind hfault] at hread
    cases hread
  | case3 table pos start hfind read table' hfault ih =>
    rw [classStarts_cons hfind, List.forall_mem_cons] at hapart
    obtain ⟨hfind', hat⟩ := h.class_eq hclear hfind hfault hapart.1
    rw [classesFrom_next hfind hfault] at hread
    rw [classesFrom_next hfind' (hat ▸ hfault), hat]
    exact ih hapart.2 hread

/-! ## Keywords -/

/-- No keyword stands in blank space. -/
theorem not_occurs_blank {pattern : Text} (hhead : pattern.head? = some Byte.star) {i : Nat}
    (ha : a ≤ i) (hi : i < e) : ¬ s.Occurs pattern i := by
  intro hoccurs
  obtain ⟨b, hb, hblank⟩ := h.blank i ha hi
  have hno : s.startsAt pattern i = false := startsAt_eq_false hhead fun hstar => by
    rw [hb] at hstar
    cases hstar
    cases hblank
  rw [hoccurs.1] at hno
  cases hno

/-- A keyword in front of the place or behind it stands in both texts. -/
theorem occurs_iff {pattern : Text}
    (htail : pattern.tail.all (fun b => b != Byte.star && !Byte.isSpace b) = true) {i : Nat}
    (hi : i < a ∨ e ≤ i) : s'.Occurs pattern i ↔ s.Occurs pattern i := by
  rcases hi with hfront | hback
  · unfold Occurs
    rw [h.front.isMasked i (Nat.zero_le _) hfront]
    rcases Nat.lt_or_ge a (i + pattern.length) with hover | hle
    · -- a keyword reaches neither over the star nor over blank space
      have hno {t : MaskedText} {c : UInt8} (hc : t.byte? a = some c)
          (hc' : c = Byte.star ∨ Byte.isSpace c = true) : t.startsAt pattern i = false := by
        refine Bool.eq_false_iff.2 fun hat => ?_
        have hmem : c ∈ pattern.tail := by
          have hget := byte?_add_of_startsAt hat (show a - i < pattern.length by omega)
          rw [show i + (a - i) = a by omega, hc, show a - i = a - i - 1 + 1 by omega,
            ← List.getElem?_tail] at hget
          exact List.mem_of_getElem? hget.symm
        obtain ⟨hstar, hspace⟩ := Bool.and_eq_true_iff.1 (List.all_eq_true.1 htail c hmem)
        rcases hc' with rfl | hc'
        · exact bne_iff_ne.1 hstar rfl
        · rw [hc'] at hspace
          cases hspace
      obtain ⟨b, hb, hblank⟩ := h.blank a (Nat.le_refl _) h.lt
      rw [hno h.star (.inl rfl), hno hb (.inr hblank)]
    · rw [h.front.startsAt_eq (Nat.zero_le _) hle]
  · unfold Occurs
    obtain ⟨k, rfl⟩ := Nat.exists_eq_add_of_le hback
    rw [h.startsAt_back (Nat.le_add_right ..), h.back.isMasked]

/-- The data imports of the text with the directive are those of the other one. -/
theorem dataImportsFrom_eq (hclear : s.Clears file a e) (pos : Nat) :
    s'.dataImportsFrom pos = s.dataImportsFrom pos := by
  have hoccurs (i : Nat) : s'.Occurs "*json" i ↔ s.Occurs "*json" i := by
    by_cases hi : i < a ∨ e ≤ i
    · exact h.occurs_iff (by decide) hi
    · exact iff_of_false (h.silent.dataImport i (by omega) (by omega))
        (h.not_occurs_blank rfl (by omega) (by omega))
  fun_induction s.dataImportsFrom pos with
  | case1 pos hnone =>
    exact dataImportsFrom_end ((indexOf?_congr isKeyword_json hoccurs pos).trans hnone)
  | case2 pos i hfind ih =>
    have hsame : s'.statementEnd i = s.statementEnd i ∧
        s'.dataImport i (s.statementEnd i) = s.dataImport i (s.statementEnd i) := by
      obtain ⟨-, hat, -⟩ := (indexOf?_eq_some_iff isKeyword_json).1 hfind
      have := h.lt
      rcases Nat.lt_or_ge i e with hlt | hge
      · have hfront : i < a := Nat.lt_of_not_le fun hle =>
          h.silent.dataImport i hle hlt ((hoccurs i).2 hat)
        have hend := hclear.dataImports i hfront hat
        cases hstop : s.findAny? [Byte.semicolon, Byte.lbrace, Byte.rbrace] i with
        | none =>
          have := h.le_size
          rw [statementEnd_of_none hstop] at hend
          omega
        | some found =>
          rw [statementEnd_of_some hstop] at hend
          exact h.front.dataImport_eq (Nat.zero_le _) hstop hend
      · refine ⟨h.statementEnd_back hge, ?_⟩
        have hsize := (indexOf?_eq_some hfind isKeyword_json.ne_nil).2
        have hlength : (Text.ofString "*json").length = 5 := by decide
        have hlt := lt_statementEnd (s := s) (i := i) (by omega)
        unfold dataImport
        rw [h.slice_back (by omega), h.byte?_back (by omega)]
    rw [dataImportsFrom_found ((indexOf?_congr isKeyword_json hoccurs pos).trans hfind), hsame.1,
      hsame.2, ih]

/-! ## What is read -/

/-- A text without faults is read alike with the directive in the place of the blank space. -/
theorem readAlike (hclear : s.Clears file a e) (hclasses : (s.classesRecovering file).2 = [])
    (htree : s.hierarchyRecovering.2 = []) : ReadAlike file s s' := by
  obtain ⟨table, htable⟩ := classes_eq_ok hclasses
  obtain ⟨tree, hfound⟩ := hierarchy_eq_ok htree
  obtain ⟨p, hvisits, hcross⟩ := hclear.statements
  refine ⟨?_, ?_, ?_⟩
  · rw [classesRecovering_of_ok htable,
      classesRecovering_of_ok (h.classesFrom_eq hclear hclear.classes htable)]
  · rw [hierarchyRecovering_of_ok hfound,
      hierarchyRecovering_of_ok (h.hierarchyFrom_eq hclear hvisits hcross hfound)]
  · unfold dataImports
    rw [h.dataImportsFrom_eq hclear]

end Carries

/-! ## The directive of a text -/

section
variable {s : MaskedText} {directory : Path} {start stop : Nat} {d : Directive}

/-- What stands behind the keyword of a directive of the form: blank space, a comment or the
colon. -/
theorem DirectiveTo.behind (h : s.DirectiveTo start stop) : ∃ b, s.byte? (start + 8) = some b ∧
    (Byte.isSpace b = true ∨ b = Byte.slash ∨ b = Byte.colon) := by
  have hlt := byte?_eq_some_lt h.colon
  have hle := le_skipTrivia_of_lt hlt
  rcases Nat.eq_or_lt_of_le hle with heq | hgap
  · exact ⟨Byte.colon, heq ▸ h.colon, .inr (.inr rfl)⟩
  have hnext : s.gapNext? .blank (start + 8) ≠ none := by
    intro hnone
    unfold skipTrivia at hgap
    rw [Nat.min_eq_left (by omega), show s.size - (start + 8) = s.size - (start + 9) + 1 by omega,
      gapEnd_succ, hnone] at hgap
    exact absurd hgap (Nat.lt_irrefl _)
  have hin : start + 8 < s.bytes.size := Nat.lt_of_le_of_lt hle hlt
  obtain ⟨b, hb⟩ : ∃ b, s.byte? (start + 8) = some b := ⟨_, Array.getElem?_eq_getElem hin⟩
  refine ⟨b, hb, ?_⟩
  by_cases hspace : Byte.isSpace b = true
  · exact .inl hspace
  by_cases hslash : b = Byte.slash
  · exact .inr (.inl hslash)
  exact absurd (gapNext?_blank_eq_none hb (Bool.eq_false_iff.2 hspace) hslash) hnext

/-- A directive of the form is one for the tree parser too. -/
theorem isDirective_of_to (hat : s.startsAt "*include" start = true)
    (h : s.DirectiveTo start stop) : s.isDirective start = true := by
  obtain ⟨b, hb, hkind⟩ := h.behind
  have hplain : ∀ b, (Byte.isSpace b = true ∨ b = Byte.slash ∨ b = Byte.colon) →
      b < 0x80 ∧ Text.startsWord [b] = false := Byte.forall_of_nibbles (by decide +kernel)
  have hword : (s.slice (start + 8) (start + 8 + 4)).startsWord = false := by
    have hhead := (head?_slice (s := s) (show start + 8 < start + 8 + 4 by omega)).trans hb
    obtain ⟨rest, hslice⟩ := List.head?_eq_some_iff.1 hhead
    rw [hslice, Text.startsWord_cons (hplain b hkind).1, (hplain b hkind).2]
  unfold isDirective hasWord
  rw [hat]
  change (true && !(s.slice (start + 8) (start + 8 + 4)).startsWord || _) = true
  rw [hword]
  rfl

/-- The one directive of a text, and no other one behind it. -/
theorem directives_single (h : s.directives directory = ([d], [])) :
    s.indexOf? "*include" 0 = some d.span.start ∧
      (s.directiveAt directory d.span.start).result = .ok d ∧
      s.indexOf? "*include" d.span.stop = none := by
  unfold directives at h
  cases hfind : s.indexOf? "*include" 0 with
  | none =>
    rw [directivesFrom_none hfind] at h
    cases h
  | some start =>
    rw [directivesFrom_some hfind] at h
    cases hread : (s.directiveAt directory start).result with
    | error fault =>
      rw [hread] at h
      simp at h
    | ok found =>
      rw [hread] at h
      simp only [List.filterMap_cons, Except.toOption, Prod.mk.injEq, List.cons.injEq] at h
      obtain ⟨⟨rfl, hrest⟩, hfaults⟩ := h
      obtain ⟨hstart, hstop⟩ := span_of_directiveAt hread
      refine ⟨by rw [hstart], by rw [hstart, hread], ?_⟩
      cases hnext : s.indexOf? "*include" found.span.stop with
      | none => rfl
      | some next =>
        rw [hstop] at hnext
        rw [directivesFrom_some hnext] at hrest hfaults
        cases hother : (s.directiveAt directory next).result <;> rw [hother] at hrest hfaults
        · cases hfaults
        · cases hrest

/-- The one directive of a text begins with a star. -/
theorem byte?_of_directives_single (h : s.directives directory = ([d], [])) :
    s.byte? d.span.start = some Byte.star := by
  obtain ⟨-, hoccurs, -⟩ := (indexOf?_eq_some_iff isKeyword_include).1 (directives_single h).1
  exact byte?_of_startsAt hoccurs.1

/-- A directive of the form runs up to a semicolon. -/
theorem exists_directiveTo (h : (s.directiveAt directory start).result = .ok d) :
    ∃ stop, s.DirectiveTo start stop ∧ d.span = ⟨start, stop + 1⟩ := by
  by_cases hto : ∃ stop, s.DirectiveTo start stop
  · obtain ⟨stop, hto⟩ := hto
    refine ⟨stop, hto, ?_⟩
    rw [← (readSpan_of_to hto).1, h]
    rfl
  · rw [directiveAt_of_not fun stop h => hto ⟨stop, h⟩] at h
    cases h

end

open Mask in
/-- A text with one directive carries it in the place of the blank space. -/
theorem carries_of_detour {pre d post target : Text} {directory : Path}
    (hdetour : Detour .declarations pre d post)
    (hread : (ofText .declarations (pre ++ d ++ post)).directives directory =
      ([⟨⟨pre.length, pre.length + d.length⟩, target⟩], []))
    (hsilent : (ofText .declarations (pre ++ d ++ post)).Silent pre.length
      (pre.length + d.length)) :
    Carries (ofText .declarations (pre ++ blanked d ++ post))
      (ofText .declarations (pre ++ d ++ post)) pre.length (pre.length + d.length) := by
  obtain ⟨w, m, w', hw, hm, hmask, hmask'⟩ := hdetour.ofText
  obtain ⟨hfind, hat, -⟩ := directives_single hread
  obtain ⟨stop, hto, hspan⟩ := exists_directiveTo hat
  have hlt := hto.lt
  have hlength : (Cell.bits (Cell.live (blanked d))).length = (blanked d).length := by
    rw [Cell.bits, Cell.live, List.length_map, List.length_map]
  have hback := shifted_append hmask' hmask hw hlength hm
  rw [length_blanked] at hback
  have hend : pre.length + d.length = stop + 1 := congrArg Span.stop hspan
  refine ⟨?_, agreeOn_append hmask' hmask hw, hback, fun i ha he => ?_, ?_, ?_, hsilent⟩
  · have := d.length_pos_of_ne_nil hdetour.ne_nil
    omega
  · have hin : i - pre.length < (blanked d).length := by
      rw [length_blanked]
      omega
    refine ⟨(blanked d)[i - pre.length], ?_, isSpace_of_mem_blanked (List.getElem_mem _)⟩
    rw [byte?_ofText, List.append_assoc, List.getElem?_append_right ha,
      List.getElem?_append_left hin, List.getElem?_eq_getElem hin]
  · exact isDirective_of_to ((indexOf?_eq_some_iff isKeyword_include).1 hfind).2.1.1 hto
  · rw [hend, Nat.add_sub_cancel]
    exact (findAny?_eq_some hto.semicolon).2.2.1

/-- Without the one directive of the text there is none. -/
theorem Carries.directives_eq {s s' : MaskedText} {a e : Nat} (h : Carries s s' a e)
    {directory : Path} {d : Directive} (hspan : d.span = ⟨a, e⟩)
    (hread : s'.directives directory = ([d], [])) : s.directives directory = ([], []) := by
  obtain ⟨hfind, -, hbehind⟩ := directives_single hread
  rw [hspan] at hfind hbehind
  obtain ⟨-, -, hleast⟩ := (indexOf?_eq_some_iff isKeyword_include).1 hfind
  have hnone : s.indexOf? "*include" 0 = none := by
    refine (indexOf?_eq_none_iff isKeyword_include).2 fun i _ hoccurs => ?_
    rcases Nat.lt_or_ge i a with hfront | hle
    · exact hleast i (Nat.zero_le _) hfront ((h.occurs_iff (by decide) (.inl hfront)).2 hoccurs)
    rcases Nat.lt_or_ge i e with hin | hback
    · exact h.not_occurs_blank rfl hle hin hoccurs
    · exact (indexOf?_eq_none_iff isKeyword_include).1 hbehind i hback
        ((h.occurs_iff (by decide) (.inr hback)).2 hoccurs)
  unfold directives
  rw [directivesFrom_none hnone]
  rfl

end PageLang.MaskedText
