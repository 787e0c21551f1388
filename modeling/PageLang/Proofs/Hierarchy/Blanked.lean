import PageLang.Proofs.Element.Blanked
import PageLang.Proofs.Hierarchy.Statements
import PageLang.Proofs.MaskedText.Agree

/-!
# Reading the tree around a blanked comment

The tree parser reads the same tree and the same faults if a comment in front of a statement, at the
top level or in an element, is blanked, or a comment in the block of a class, which is passed over.

* `MaskedText.AgreeOn.hasWord_eq`, `MaskedText.AgreeOn.startsClass_eq`: the words that announce a
  statement, in texts that agree up to its end.
* `MaskedText.AmongStatements`: where the comment stands, as the tree parser reads.
* `MaskedText.Blanked.topLevelAt_step`: one statement.
* `MaskedText.Blanked.hierarchyRecovering_eq`: all of them.
-/

namespace PageLang

/-! ## The first character -/

namespace Text

theorem charWidth_pos (lead : UInt8) : 0 < charWidth lead := by
  unfold charWidth
  repeat' split
  all_goals decide

/-- The code point of a character is read from its own bytes. -/
theorem codePoint?_take (t : Text) (lead : UInt8) (h : t.head? = some lead) :
    codePoint? (t.take (charWidth lead)) = codePoint? t := by
  cases t with
  | nil => rw [List.take_nil]
  | cons b rest =>
    cases h
    obtain ⟨n, hn⟩ := Nat.exists_eq_add_of_lt (charWidth_pos lead)
    rw [Nat.zero_add] at hn
    rw [hn, List.take_succ_cons, codePoint?, codePoint?, hn, Nat.add_sub_cancel, List.take_take,
      Nat.min_self]

theorem startsWord_take (t : Text) (lead : UInt8) (h : t.head? = some lead) :
    startsWord (t.take (charWidth lead)) = startsWord t := by
  unfold startsWord
  rw [codePoint?_take t lead h]

/-- Every blank is one character. -/
theorem charWidth_of_blank : ∀ m ∈ blanks, m.head?.map charWidth = some m.length := by decide

theorem startsBlank_take (t : Text) (lead : UInt8) (h : t.head? = some lead) :
    startsBlank (t.take (charWidth lead)) = startsBlank t := by
  unfold startsBlank
  rw [Bool.eq_iff_iff, List.any_eq_true, List.any_eq_true]
  refine exists_congr fun m => and_congr_right fun hm => ?_
  rw [List.isPrefixOf_iff_prefix, List.isPrefixOf_iff_prefix]
  refine ⟨fun hpre => hpre.trans (List.take_prefix _ _), fun hpre => ?_⟩
  have hwidth := charWidth_of_blank m hm
  cases m with
  | nil => cases hwidth
  | cons b rest =>
    obtain ⟨u, rfl⟩ := hpre
    obtain rfl : b = lead := Option.some.inj h
    have htake : ((b :: rest) ++ u).take (b :: rest).length = b :: rest := List.take_left
    rw [Option.some.inj hwidth]
    exact htake.symm ▸ List.prefix_rfl

end Text

/-! ## Statements -/

/-- Where reading goes on behind a statement, if it does. -/
def TopLevel.next? : TopLevel → Option Nat
  | .ended => none
  | .found _ next => some next
  | .failed _ resumeAt => some resumeAt

namespace MaskedText

/-- Reading the tree from `pos` on, the comment from `a` up to `e` stands in front of a statement of
the top level or of an element, or in the block of a class. -/
inductive AmongStatements (s : MaskedText) (a e : Nat) : (pos : Nat) → Prop
  | here {pos : Nat} : s.Crosses a .blank pos → AmongStatements s a e pos
  /-- The next statement is passed. -/
  | behind {pos next : Nat} : s.skipTrivia pos < s.size →
    (s.topLevelAt (s.skipTrivia pos)).next? = some next → next ≤ a → AmongStatements s a e next →
    AmongStatements s a e pos
  /-- The comment stands in the next class. -/
  | passed {pos opening close : Nat} : s.startsClass (s.skipTrivia pos) = true →
    s.findAny? [Byte.lbrace, Byte.semicolon, Byte.rbrace] (s.skipTrivia pos) =
      some (opening, Byte.lbrace) → s.closingBrace? opening = some close → opening < a →
    e ≤ close → AmongStatements s a e pos
  /-- The comment stands in front of the statement that starts at `p` in the next element. -/
  | inside {pos opening close stop p : Nat} {head : ElementHead} :
    s.isDirective (s.skipTrivia pos) = false → s.hasWord "*font-face" (s.skipTrivia pos) = false →
    s.startsClass (s.skipTrivia pos) = false → s.statementKind (s.skipTrivia pos) = .element →
    s.elementHead (s.skipTrivia pos) = .ok head → head.block = some (opening, close) →
    s.Comes close (opening + 1) stop p → s.Crosses a .blank p → e ≤ stop →
    AmongStatements s a e pos

theorem head?_slice {s : MaskedText} {i j : Nat} (h : i < j) : (s.slice i j).head? = s.byte? i := by
  rw [List.head?_eq_getElem?, getElem?_slice (by omega), Nat.add_zero]

/-- A brace or a semicolon stands between two offsets. -/
def EndsBetween (s : MaskedText) (i j : Nat) : Prop :=
  ∃ d b, i ≤ d ∧ d < j ∧ s.liveByte? d = some b ∧ Mask.State.Ends b

theorem EndsBetween.mono {s : MaskedText} {i j k : Nat} (h : s.EndsBetween i j) (hjk : j ≤ k) :
    s.EndsBetween i k := by
  obtain ⟨d, b, hid, hd, hends⟩ := h
  exact ⟨d, b, hid, by omega, hends⟩

theorem EndsBetween.lt {s : MaskedText} {i j : Nat} (h : s.EndsBetween i j) : i < j := by
  obtain ⟨d, b, hid, hd, -⟩ := h
  omega

theorem endsBetween_of_findAny? {s : MaskedText} {i j d : Nat} {b : UInt8} {set : Text}
    (hfind : s.findAny? set i = some (d, b))
    (hset : set.all [Byte.semicolon, Byte.lbrace, Byte.rbrace].contains = true) (hd : d < j) :
    s.EndsBetween i j := by
  obtain ⟨hle, -, hlive, hmem⟩ := findAny?_eq_some hfind
  have hends := List.contains_iff_mem.1 (List.all_eq_true.1 hset b (List.contains_iff_mem.1 hmem))
  simp only [List.mem_cons, List.not_mem_nil, or_false] at hends
  exact ⟨d, b, hle, hd, hlive, hends⟩

/-- The offset behind the first brace or semicolon, or the end. -/
theorem endsBetween_statementEnd {s : MaskedText} {i : Nat} (h : s.statementEnd i < s.size) :
    s.EndsBetween i (s.statementEnd i) := by
  unfold statementEnd at h ⊢
  cases hfind : s.findAny? [Byte.semicolon, Byte.lbrace, Byte.rbrace] i with
  | none =>
    rw [hfind] at h
    exact absurd h (Nat.lt_irrefl _)
  | some found => exact endsBetween_of_findAny? hfind (by decide) (Nat.lt_succ_self found.1)

theorem elementExtent_eq {s : MaskedText} {i stop : Nat} {b : UInt8}
    (hfind : s.findAny? [Byte.semicolon, Byte.lbrace] i = some (stop, b)) :
    s.elementExtent i = if b = Byte.lbrace then
      ((s.closingBrace? stop).map fun close => s.skipSemicolon (close + 1)).getD s.size
      else stop + 1 := by
  have hset := (findAny?_eq_some hfind).2.2.2
  have hfind' : s.findAny? [Byte.lbrace, Byte.semicolon] i = some (stop, b) := by
    refine findAny?_subset hfind (by decide) ?_
    simpa [or_comm] using hset
  unfold elementExtent
  rw [hfind']
  dsimp only
  split
  · cases s.closingBrace? stop <;> rfl
  · rfl

/-- Behind an element reading goes on where the element ends, whatever is wrong inside. -/
theorem next_rootAt (s : MaskedText) (i : Nat) :
    (s.rootAt i).next? = some (s.elementExtent i) := by
  unfold rootAt
  cases hread : s.element i with
  | error fault => rfl
  | ok r =>
    obtain ⟨child, next⟩ := r
    obtain ⟨head, hhead, rfl, -⟩ := elementHead_of_element hread
    rcases elementHead_cases hhead with
      ⟨stop, hfind, -, hnext⟩ | ⟨opening, last, hfind, hlast, -, hnext⟩
    · rw [elementExtent_eq hfind, if_neg (by decide), ← hnext]
      rfl
    · rw [elementExtent_eq hfind, if_pos rfl, hlast]
      exact congrArg some hnext

theorem next_fontFaceAt {s : MaskedText} {i opening close : Nat}
    (hfind : s.findAny? [Byte.lbrace, Byte.semicolon] i = some (opening, Byte.lbrace))
    (hclose : s.closingBrace? opening = some close) :
    (s.fontFaceAt i).next? = some (s.skipSemicolon (close + 1)) := by
  unfold fontFaceAt
  dsimp only
  split
  · next opening' hfind' =>
    rw [hfind] at hfind'
    cases hfind'
    rw [hclose]
    rfl
  · next hno => exact absurd hfind (hno opening)

theorem endsBetween_fontFaceAt {s : MaskedText} {i next : Nat}
    (h : (s.fontFaceAt i).next? = some next) (hnext : next < s.size) : s.EndsBetween i next := by
  unfold fontFaceAt at h
  dsimp only at h
  split at h
  · next opening hfind =>
    split at h
    · next close hclose =>
      cases h
      exact endsBetween_of_findAny? hfind (by decide) (lt_skipSemicolon_of_closingBrace? hclose)
    · cases h
      exact endsBetween_statementEnd hnext
  · cases h
    exact endsBetween_statementEnd hnext

theorem endsBetween_passClass {s : MaskedText} {i next : Nat}
    (h : (s.passClass i).next? = some next) (hnext : next < s.size) : s.EndsBetween i next := by
  unfold passClass at h
  split at h
  · cases h
    exact absurd hnext (Nat.lt_irrefl _)
  next opening b hfind =>
  split at h
  · split at h
    · next close hclose =>
      cases h
      exact endsBetween_of_findAny? hfind (by decide) (lt_skipSemicolon_of_closingBrace? hclose)
    · cases h
  · cases h
    exact endsBetween_of_findAny? hfind (by decide) (Nat.lt_succ_self opening)

theorem endsBetween_rootAt {s : MaskedText} {i next : Nat} (hkind : s.statementKind i = .element)
    (h : (s.rootAt i).next? = some next) (hnext : next < s.size) : s.EndsBetween i next := by
  obtain ⟨stop, b, hfind, -⟩ := findAny?_of_element hkind
  refine endsBetween_of_findAny? hfind (by decide) ?_
  rw [next_rootAt, elementExtent_eq hfind] at h
  split at h
  · cases hclose : s.closingBrace? stop with
    | none =>
      rw [hclose] at h
      cases h
      exact absurd hnext (Nat.lt_irrefl _)
    | some close =>
      rw [hclose] at h
      cases h
      exact lt_skipSemicolon_of_closingBrace? hclose
  · cases h
    exact Nat.lt_succ_self stop

/-- A statement of the top level has a brace or a semicolon in front of where reading goes on. -/
theorem endsBetween_of_next? {s : MaskedText} {i next : Nat}
    (hsemicolon : s.byte? i ≠ some Byte.semicolon) (h : (s.topLevelAt i).next? = some next)
    (hnext : next < s.size) : s.EndsBetween i next := by
  unfold topLevelAt at h
  rw [if_neg hsemicolon] at h
  split at h
  · cases h
    exact endsBetween_statementEnd hnext
  split at h
  · exact endsBetween_fontFaceAt h hnext
  split at h
  · exact endsBetween_passClass h hnext
  split at h
  · next hkind => exact endsBetween_rootAt hkind h hnext
  · cases h
    exact endsBetween_statementEnd hnext

/-! ## What announces a statement -/

/-- A pattern without braces and semicolons does not reach over one. -/
theorem startsAt_ends {s : MaskedText} {pattern : Text} {i d : Nat} {b : UInt8}
    (hpattern : b ∉ pattern) (hb : s.byte? d = some b) (hid : i ≤ d)
    (hd : d < i + pattern.length) : s.startsAt pattern i = false := by
  obtain ⟨k, rfl⟩ := Nat.exists_eq_add_of_le hid
  have hk : k < pattern.length := by omega
  refine Bool.eq_false_iff.2 fun hat => hpattern ?_
  rw [byte?_add_of_startsAt hat hk, List.getElem?_eq_getElem hk] at hb
  exact Option.some.inj hb ▸ List.getElem_mem hk

namespace AgreeOn

variable {s s' : MaskedText} {lo hi : Nat} (h : AgreeOn s s' lo hi)
  (hwhole : ∀ i n b, lo ≤ i → i < hi → s.byte? i = some b →
    (s'.slice i (i + n)).take (Text.charWidth b) = (s.slice i (i + n)).take (Text.charWidth b))
include h hwhole

/-- What is read of the first character at an offset, if the characters in the range are whole. -/
theorem first_eq {p : Text → Bool}
    (hp : ∀ t lead, t.head? = some lead → p (t.take (Text.charWidth lead)) = p t) {i n : Nat}
    (hlo : lo ≤ i) (hi : i < hi) (hn : 0 < n) :
    p (s'.slice i (i + n)) = p (s.slice i (i + n)) := by
  have hlt : i < s.bytes.size := Nat.lt_of_lt_of_le hi h.le
  obtain ⟨b, hb⟩ : ∃ b, s.byte? i = some b := ⟨s.bytes[i], Array.getElem?_eq_getElem hlt⟩
  rw [← hp (s.slice i (i + n)) b (by rw [head?_slice (by omega), hb]),
    ← hp (s'.slice i (i + n)) b (by rw [head?_slice (by omega), h.byte? i hlo hi, hb]),
    hwhole i n b hlo hi hb]

/-- A word without braces and semicolons, and the test on the character behind it. -/
theorem startsAt_and_first_eq {word : Text} {p : Text → Bool} {i n : Nat}
    (hword : word.any [Byte.semicolon, Byte.lbrace, Byte.rbrace].contains = false)
    (hp : ∀ t lead, t.head? = some lead → p (t.take (Text.charWidth lead)) = p t) (hn : 0 < n)
    (hlo : lo ≤ i) (hends : s.EndsBetween i hi) :
    s'.startsAt word i = s.startsAt word i ∧ (s.startsAt word i = true →
      p (s'.slice (i + word.length) (i + word.length + n)) =
        p (s.slice (i + word.length) (i + word.length + n))) := by
  obtain ⟨d, b, hid, hd, hlive, hends⟩ := hends
  have hb := (liveByte?_eq_some hlive).2
  have hnot : b ∉ word := by
    intro hmem
    have hset := List.any_eq_false.1 hword b hmem
    rcases hends with rfl | rfl | rfl <;> exact hset (by decide)
  rcases Nat.lt_or_ge d (i + word.length) with hlt | hge
  · have hno := startsAt_ends hnot hb hid hlt
    have hb' := (h.byte? d (by omega) hd).trans hb
    refine ⟨(startsAt_ends hnot hb' hid hlt).trans hno.symm, ?_⟩
    rw [hno]
    exact fun hyes => nomatch hyes
  · exact ⟨h.startsAt_eq hlo (by omega),
      fun _ => h.first_eq hwhole hp (by omega) (by omega) hn⟩

theorem hasWord_eq {word : Text} {i : Nat}
    (hword : word.any [Byte.semicolon, Byte.lbrace, Byte.rbrace].contains = false) (hlo : lo ≤ i)
    (hends : s.EndsBetween i hi) : s'.hasWord word i = s.hasWord word i := by
  obtain ⟨hat, hbehind⟩ :=
    h.startsAt_and_first_eq hwhole hword Text.startsWord_take (by decide : 0 < 4) hlo hends
  unfold hasWord
  rw [hat]
  cases hyes : s.startsAt word i with
  | false => rfl
  | true => rw [hbehind hyes]

theorem startsClass_eq {i : Nat} (hlo : lo ≤ i) (hends : s.EndsBetween i hi) :
    s'.startsClass i = s.startsClass i := by
  have hclass : (Text.ofString "class").any
      [Byte.semicolon, Byte.lbrace, Byte.rbrace].contains = false := by decide
  obtain ⟨hat, hbehind⟩ :=
    h.startsAt_and_first_eq hwhole hclass Text.startsBlank_take (by decide : 0 < 3) hlo hends
  unfold startsClass
  rw [hat]
  cases hyes : s.startsAt (Text.ofString "class") i with
  | false => rfl
  | true => exact congrArg _ (hbehind hyes)

end AgreeOn

namespace Blanked

variable {s s' : MaskedText} {a e : Nat} (h : Blanked s s' a e)
include h

/-! ## In front of the comment -/

theorem agreeOn_front : AgreeOn s s' 0 a where
  le := by
    have := h.lt
    have := h.le
    omega
  le' := by
    have := h.lt
    have := h.le
    have := h.size_eq
    omega
  byte? i _ hi := h.byte? i (.inl hi)
  isMasked i _ hi := h.isMasked i (.inl hi)

theorem take_charWidth_eq (hapart : s.Apart a e) (i n : Nat) (b : UInt8) (_ : 0 ≤ i) (hi : i < a)
    (hb : s.byte? i = some b) :
    (s'.slice i (i + n)).take (Text.charWidth b) = (s.slice i (i + n)).take (Text.charWidth b) :=
  h.take_slice_eq (.inl (hapart.characters i b hi hb))

theorem hasWord_eq (hapart : s.Apart a e) {word : Text} {i : Nat}
    (hword : word.any [Byte.semicolon, Byte.lbrace, Byte.rbrace].contains = false)
    (hi : e ≤ i ∨ s.EndsBetween i a) : s'.hasWord word i = s.hasWord word i := by
  rcases hi with hi | hends
  · unfold hasWord
    rw [h.startsAt_eq (.inr hi), h.slice_eq (.inr (by omega))]
  · exact h.agreeOn_front.hasWord_eq (h.take_charWidth_eq hapart) hword (Nat.zero_le _) hends

theorem startsClass_eq (hapart : s.Apart a e) {i : Nat} (hi : e ≤ i ∨ s.EndsBetween i a) :
    s'.startsClass i = s.startsClass i := by
  rcases hi with hi | hends
  · unfold startsClass
    rw [h.startsAt_eq (.inr hi), h.slice_eq (.inr (by omega))]
  · exact h.agreeOn_front.startsClass_eq (h.take_charWidth_eq hapart) (Nat.zero_le _) hends

/-! ## Statements -/

theorem statementEnd_eq (i : Nat) : s'.statementEnd i = s.statementEnd i := by
  unfold statementEnd
  rw [h.findAny?_eq (by decide), h.size_eq]

theorem fontFaceAt_eq {i : Nat}
    (hblock : ∀ opening close,
      s.findAny? [Byte.lbrace, Byte.semicolon] i = some (opening, Byte.lbrace) →
      s.closingBrace? opening = some close →
      (close + 1 ≤ a ∨ e ≤ opening) ∧ s.Keeps a e (close + 1)) :
    s'.fontFaceAt i = s.fontFaceAt i := by
  unfold fontFaceAt
  rw [h.statementEnd_eq, h.findAny?_eq (by decide)]
  dsimp only
  split
  · next opening hfind =>
    rw [h.closingBrace?_eq]
    cases hclose : s.closingBrace? opening with
    | none => rfl
    | some close =>
      obtain ⟨hout, hkeeps⟩ := hblock opening close hfind hclose
      dsimp only
      rw [h.slice_eq hout, h.skipSemicolon_eq hkeeps]
  · rfl

theorem passClass_eq {i : Nat}
    (hblock : ∀ opening close,
      s.findAny? [Byte.lbrace, Byte.semicolon, Byte.rbrace] i = some (opening, Byte.lbrace) →
      s.closingBrace? opening = some close → s.Keeps a e (close + 1)) :
    s'.passClass i = s.passClass i := by
  unfold passClass
  rw [h.findAny?_eq (by decide), h.size_eq]
  cases hfind : s.findAny? [Byte.lbrace, Byte.semicolon, Byte.rbrace] i with
  | none => rfl
  | some found =>
    obtain ⟨opening, b⟩ := found
    dsimp only
    split
    · next hb =>
      subst hb
      rw [h.closingBrace?_eq]
      cases hclose : s.closingBrace? opening with
      | none => rfl
      | some close =>
        dsimp only
        rw [h.skipSemicolon_eq (hblock opening close hfind hclose)]
    · rfl

/-- An element is made of its head and of what its body holds. -/
theorem rootAt_eq {i : Nat}
    (hhead : e ≤ i ∨ ∀ stop b, s.findAny? [Byte.semicolon, Byte.lbrace] i = some (stop, b) →
      stop ≤ a)
    (hblock : ∀ opening close,
      s.findAny? [Byte.semicolon, Byte.lbrace] i = some (opening, Byte.lbrace) →
      s.closingBrace? opening = some close → s.Keeps a e (close + 1) ∧
        (s'.body .elementStatement close (opening + 1)).content =
          (s.body .elementStatement close (opening + 1)).content) :
    s'.rootAt i = s.rootAt i := by
  have hextent : s'.elementExtent i = s.elementExtent i := by
    unfold elementExtent
    rw [h.findAny?_eq (by decide), h.size_eq]
    cases hfind : s.findAny? [Byte.lbrace, Byte.semicolon] i with
    | none => rfl
    | some found =>
      obtain ⟨stop, b⟩ := found
      dsimp only
      split
      · next hb =>
        subst hb
        rw [h.closingBrace?_eq]
        cases hclose : s.closingBrace? stop with
        | none => rfl
        | some close =>
          exact h.skipSemicolon_eq
            (hblock stop close (findAny?_subset hfind (by decide) (by decide)) hclose).1
      · rfl
  unfold rootAt
  rw [h.element_eq hhead hblock, hextent]

/-- What announces a statement in front of the comment or behind it announces the same. -/
theorem topLevelAt_congr (hapart : s.Apart a e) {i : Nat}
    (hi : e ≤ i ∨ s.EndsBetween i a)
    (hfont : s.hasWord "*font-face" i = true → s.topLevelAt i = s.fontFaceAt i →
      s'.fontFaceAt i = s.fontFaceAt i)
    (hclass : s.startsClass i = true → s.topLevelAt i = s.passClass i →
      s'.passClass i = s.passClass i)
    (hroot : s.statementKind i = .element → s.topLevelAt i = s.rootAt i →
      s'.rootAt i = s.rootAt i) : s'.topLevelAt i = s.topLevelAt i := by
  have hout : i < a ∨ e ≤ i := hi.symm.imp EndsBetween.lt id
  have hdirective : s'.isDirective i = s.isDirective i := by
    unfold isDirective
    rw [h.hasWord_eq hapart (by decide) hi, h.hasWord_eq hapart (by decide) hi]
  have hface : s'.hasWord "*font-face" i = s.hasWord "*font-face" i :=
    h.hasWord_eq hapart (by decide) hi
  have hkind : s'.statementKind i = s.statementKind i := by
    rcases hi with hi | ⟨d, b, hid, hd, hlive, hends⟩
    · exact h.statementKind_eq (.inl hi)
    · exact h.statementKind_of_ends hid hd hlive hends
  unfold topLevelAt at hfont hclass hroot ⊢
  rw [h.byte? i hout, hdirective, hface, h.startsClass_eq hapart hi, hkind, h.statementEnd_eq]
  by_cases h1 : s.byte? i = some Byte.semicolon
  · rw [if_pos h1, if_pos h1]
  rw [if_neg h1] at hfont hclass hroot ⊢
  by_cases h2 : s.isDirective i = true
  · rw [if_pos h2, if_neg h1, if_pos h2]
  rw [if_neg h2] at hfont hclass hroot ⊢
  by_cases h3 : s.hasWord "*font-face" i = true
  · rw [if_pos h3] at hfont ⊢
    rw [if_neg h1, if_neg h2, if_pos h3]
    exact hfont h3 rfl
  rw [if_neg h3] at hclass hroot ⊢
  by_cases h4 : s.startsClass i = true
  · rw [if_pos h4] at hclass ⊢
    rw [if_neg h1, if_neg h2, if_neg h3, if_pos h4]
    exact hclass h4 rfl
  rw [if_neg h4] at hroot ⊢
  by_cases h5 : s.statementKind i = .element
  · rw [if_pos h5] at hroot ⊢
    rw [if_neg h1, if_neg h2, if_neg h3, if_neg h4, if_pos h5]
    exact hroot h5 rfl
  · rw [if_neg h5, if_neg h1, if_neg h2, if_neg h3, if_neg h4, if_neg h5]

theorem topLevelAt_behind (hapart : s.Apart a e) {i : Nat} (hi : e ≤ i) :
    s'.topLevelAt i = s.topLevelAt i := by
  refine h.topLevelAt_congr hapart (.inl hi) (fun _ _ => ?_) (fun _ _ => ?_) fun _ _ => ?_
  · refine h.fontFaceAt_eq fun opening close hfind hclose => ?_
    have := (findAny?_eq_some hfind).1
    have := (closingBrace?_eq_some hclose).1
    exact ⟨.inr (by omega), .inl (by omega)⟩
  · refine h.passClass_eq fun opening close hfind hclose => ?_
    have := (findAny?_eq_some hfind).1
    have := (closingBrace?_eq_some hclose).1
    exact .inl (by omega)
  · refine h.rootAt_eq (.inl hi) fun opening close hfind hclose => ?_
    have := (findAny?_eq_some hfind).1
    have := (closingBrace?_eq_some hclose).1
    exact ⟨.inl (by omega), h.body_clear hapart _ _ _ (.inl (by omega))⟩

/-- A statement that ends in front of the comment is read alike. -/
theorem topLevelAt_front (hapart : s.Apart a e) {i next : Nat}
    (hnext : (s.topLevelAt i).next? = some next) (hle : next ≤ a) (hkeeps : s.Keeps a e next)
    (hi : i < a) : s'.topLevelAt i = s.topLevelAt i := by
  by_cases hsemicolon : s.byte? i = some Byte.semicolon
  · unfold topLevelAt
    rw [if_pos hsemicolon, if_pos ((h.byte? i (.inl hi)).trans hsemicolon)]
  have hlt := h.lt
  have hsize := h.le
  have hbetween := endsBetween_of_next? hsemicolon hnext (by omega)
  have hblock {close : Nat} (heq : next = s.skipSemicolon (close + 1)) :
      close + 1 ≤ a ∧ s.Keeps a e (close + 1) := by
    have := s.le_skipSemicolon (i := close + 1)
    rw [heq] at hle hkeeps
    exact ⟨by omega, keeps_of_skipSemicolon hle hkeeps⟩
  refine h.topLevelAt_congr hapart (.inr (hbetween.mono hle)) (fun _ hat => ?_)
    (fun _ hat => ?_) fun hkind hat => ?_
  · refine h.fontFaceAt_eq fun opening close hfind hclose => ?_
    rw [hat, next_fontFaceAt hfind hclose] at hnext
    obtain ⟨hin, hgap⟩ := hblock (Option.some.inj hnext).symm
    exact ⟨.inl hin, hgap⟩
  · refine h.passClass_eq fun opening close hfind hclose => ?_
    rw [hat, passClass_block hfind hclose] at hnext
    exact (hblock (Option.some.inj hnext).symm).2
  · rw [hat, next_rootAt] at hnext
    refine h.rootAt_eq (.inr fun stop c hfind => ?_) fun opening close hfind hclose => ?_
    · obtain ⟨stop', c', hfind', hleast⟩ := findAny?_of_element hkind
      rw [hfind] at hfind'
      cases hfind'
      obtain ⟨d, b, hid, hd, hlive, hends⟩ := hbetween
      have := hleast d b hid hlive hends
      omega
    · rw [elementExtent_eq hfind, if_pos rfl, hclose] at hnext
      obtain ⟨hin, hgap⟩ := hblock (Option.some.inj hnext).symm
      exact ⟨hgap, h.body_clear hapart _ _ _ (.inr ⟨opening, hclose, Nat.lt_succ_self _, by omega⟩)⟩

end Blanked

/-- Reading goes on behind the start of a statement. -/
theorem lt_of_next? {s : MaskedText} {i next : Nat} (hi : i < s.size)
    (h : (s.topLevelAt i).next? = some next) : i < next := by
  by_cases hsemicolon : s.byte? i = some Byte.semicolon
  · unfold topLevelAt at h
    rw [if_pos hsemicolon] at h
    cases h
    exact Nat.lt_succ_self i
  rcases Nat.lt_or_ge next s.size with hlt | hge
  · exact (endsBetween_of_next? hsemicolon h hlt).lt
  · omega

theorem AmongStatements.keeps {s : MaskedText} {a e pos : Nat} (h : s.AmongStatements a e pos) :
    s.Keeps a e pos := by
  cases h with
  | here hcross => exact .inr (.inr hcross)
  | behind hlt hnext hle _ =>
    have := lt_of_next? hlt hnext
    exact .inr (.inl (by omega))
  | passed _ hfind _ hopen _ =>
    have := (findAny?_eq_some hfind).1
    exact .inr (.inl (by omega))
  | @inside _ opening _ _ _ _ _ _ _ _ hhead hblock hcomes hcross _ =>
    have := (elementHead_eq_ok hhead).2 _ hblock
    have := hcomes.le
    have := hcross.le
    exact .inr (.inl (by dsimp only at *; omega))

namespace Blanked

variable {s s' : MaskedText} {a e : Nat} (h : Blanked s s' a e)
include h

/-- A class around the comment is passed over. -/
theorem topLevelAt_passed (hapart : s.Apart a e) {i opening close : Nat}
    (hclass : s.startsClass i = true)
    (hfind : s.findAny? [Byte.lbrace, Byte.semicolon, Byte.rbrace] i = some (opening, Byte.lbrace))
    (hclose : s.closingBrace? opening = some close) (hopen : opening < a) (hend : e ≤ close) :
    s'.topLevelAt i = s.topLevelAt i ∧
      ∀ next, (s.topLevelAt i).next? = some next → e ≤ next := by
  have hclass' : s'.startsClass i = true :=
    (h.startsClass_eq hapart (.inr (endsBetween_of_findAny? hfind (by decide) hopen))).trans hclass
  rw [topLevelAt_of_startsClass hclass, topLevelAt_of_startsClass hclass']
  refine ⟨h.passClass_eq fun opening' close' hfind' hclose' => ?_, fun next hnext => ?_⟩
  · rw [hfind] at hfind'
    cases hfind'
    rw [hclose] at hclose'
    cases hclose'
    exact .inl (by omega)
  · rw [passClass_block hfind hclose] at hnext
    cases hnext
    have := s.le_skipSemicolon (i := close + 1)
    omega

/-- An element around the comment is read alike. -/
theorem topLevelAt_inside (hapart : s.Apart a e) {i opening close stop p : Nat} {head : ElementHead}
    (hdirective : s.isDirective i = false) (hface : s.hasWord "*font-face" i = false)
    (hclass : s.startsClass i = false) (hkind : s.statementKind i = .element)
    (hhead : s.elementHead i = .ok head) (hblock : head.block = some (opening, close))
    (hcomes : s.Comes close (opening + 1) stop p) (hcross : s.Crosses a .blank p)
    (hstop : e ≤ stop) :
    s'.topLevelAt i = s.topLevelAt i ∧
      ∀ next, (s.topLevelAt i).next? = some next → e ≤ next := by
  obtain ⟨hfind, hclose, -⟩ := block_of_elementHead hhead hblock
  have hopen : opening < a := by
    have := hcomes.le
    have := hcross.le
    omega
  have hend : e ≤ close := Nat.le_trans hstop (hcomes.le_close hclose (Nat.lt_succ_self _))
  have hsemicolon : s.byte? i ≠ some Byte.semicolon := by
    intro hsemicolon
    rw [statementKind_eq_empty.2 hsemicolon] at hkind
    cases hkind
  have hroot : s.topLevelAt i = s.rootAt i := by
    unfold topLevelAt
    simp only [if_neg hsemicolon, hdirective, hface, hclass, Bool.false_eq_true, if_false, hkind,
      if_true]
  have hroot' : s'.rootAt i = s.rootAt i := by
    refine h.rootAt_eq (.inr fun _ _ hfind' => ?_) fun _ _ hfind' hclose' => ?_
    · rw [hfind] at hfind'
      cases hfind'
      omega
    · rw [hfind] at hfind'
      cases hfind'
      rw [hclose] at hclose'
      cases hclose'
      exact ⟨.inl (by omega),
        h.body_comes hapart hcomes hcross hstop hclose (Nat.lt_succ_self _) .elementStatement⟩
  refine ⟨h.topLevelAt_congr hapart (.inr (endsBetween_of_findAny? hfind (by decide) hopen))
    (fun hface' => ?_) (fun hclass' => ?_) fun _ _ => hroot', fun next hnext => ?_⟩
  · rw [hface] at hface'
    cases hface'
  · rw [hclass] at hclass'
    cases hclass'
  · rw [hroot, next_rootAt, elementExtent_eq hfind, if_pos rfl, hclose] at hnext
    cases hnext
    have := s.le_skipSemicolon (i := close + 1)
    simp only [Option.map_some, Option.getD_some]
    omega

/-- The next statement is read alike, and reading goes on behind the comment or as before. -/
theorem topLevelAt_step (hapart : s.Apart a e) {pos : Nat}
    (hamong : e ≤ pos ∨ s.AmongStatements a e pos) :
    s'.skipTrivia pos = s.skipTrivia pos ∧ (s.skipTrivia pos < s.size →
      s'.topLevelAt (s.skipTrivia pos) = s.topLevelAt (s.skipTrivia pos) ∧
        ∀ next, (s.topLevelAt (s.skipTrivia pos)).next? = some next →
          e ≤ next ∨ s.AmongStatements a e next) := by
  have hkeeps : s.Keeps a e pos := hamong.elim .inl AmongStatements.keeps
  have behind (hlt : s.skipTrivia pos < s.size) (hle : e ≤ s.skipTrivia pos) :
      s'.topLevelAt (s.skipTrivia pos) = s.topLevelAt (s.skipTrivia pos) ∧
        ∀ next, (s.topLevelAt (s.skipTrivia pos)).next? = some next →
          e ≤ next ∨ s.AmongStatements a e next := by
    refine ⟨h.topLevelAt_behind hapart hle, fun next hnext => .inl ?_⟩
    have := lt_of_next? hlt hnext
    omega
  refine ⟨h.skipTrivia_eq hkeeps, fun hlt => ?_⟩
  rcases hamong with hpos | hamong
  · have := le_skipTrivia_of_lt hlt
    exact behind hlt (by omega)
  cases hamong with
  | here hcross =>
    refine behind hlt ?_
    rw [h.skipTrivia_of_crosses hcross]
    exact (s.le_gapEnd .blank e _).1
  | behind _ hnext hle hrest =>
    have := lt_of_next? hlt hnext
    refine ⟨h.topLevelAt_front hapart hnext hle hrest.keeps (by omega), fun next hnext' => .inr ?_⟩
    rw [hnext] at hnext'
    cases hnext'
    exact hrest
  | passed hclass hfind hclose hopen hend =>
    exact (h.topLevelAt_passed hapart hclass hfind hclose hopen hend).imp_right
      fun hle next hnext => .inl (hle next hnext)
  | inside hdirective hface hclass hkind hhead hblock hcomes hcross hstop =>
    exact (h.topLevelAt_inside hapart hdirective hface hclass hkind hhead hblock hcomes hcross
      hstop).imp_right fun hle next hnext => .inl (hle next hnext)

/-! ## Trees -/

theorem hierarchyFrom_eq (hapart : s.Apart a e) (tree : Hierarchy) (pos : Nat)
    (hamong : e ≤ pos ∨ s.AmongStatements a e pos) :
    s'.hierarchyFrom tree pos = s.hierarchyFrom tree pos ∧
      ∀ failure, s.hierarchyFrom tree pos = .error failure →
        e ≤ failure.resumeAt ∨ s.AmongStatements a e failure.resumeAt := by
  induction tree, pos using hierarchyFrom.induct s with
  | case1 tree pos i hi hended =>
    obtain ⟨hskip, hstep⟩ := h.topLevelAt_step hapart hamong
    obtain ⟨hread, -⟩ := hstep hi
    rw [hierarchyFrom_ended hi hended,
      hierarchyFrom_ended (by rw [hskip, h.size_eq]; exact hi) (by rw [hskip, hread]; exact hended)]
    exact ⟨rfl, fun _ hfailure => by cases hfailure⟩
  | case2 tree pos i hi piece next hfound ih =>
    obtain ⟨hskip, hstep⟩ := h.topLevelAt_step hapart hamong
    obtain ⟨hread, hrest⟩ := hstep hi
    rw [hierarchyFrom_found rfl hi hfound,
      hierarchyFrom_found hskip (by rw [h.size_eq]; exact hi) (hread.trans hfound)]
    exact ih (hrest next (by rw [show s.topLevelAt (s.skipTrivia pos) = _ from hfound]; rfl))
  | case3 tree pos i hi fault resumeAt hfailed =>
    obtain ⟨hskip, hstep⟩ := h.topLevelAt_step hapart hamong
    obtain ⟨hread, hrest⟩ := hstep hi
    rw [hierarchyFrom_failed hi hfailed,
      hierarchyFrom_failed (by rw [hskip, h.size_eq]; exact hi)
        (by rw [hskip, hread]; exact hfailed)]
    refine ⟨rfl, fun failure hfailure => ?_⟩
    cases hfailure
    exact hrest resumeAt (by rw [show s.topLevelAt (s.skipTrivia pos) = _ from hfailed]; rfl)
  | case4 tree pos i hi =>
    obtain ⟨hskip, -⟩ := h.topLevelAt_step hapart hamong
    have hend := Nat.le_of_not_lt hi
    rw [hierarchyFrom_end hend, hierarchyFrom_end (by rw [hskip, h.size_eq]; exact hend)]
    exact ⟨rfl, fun _ hfailure => by cases hfailure⟩

theorem recoverHierarchy_eq (hapart : s.Apart a e) (tree : Hierarchy) (faults : List Fault)
    (pos : Nat) (hamong : e ≤ pos ∨ s.AmongStatements a e pos) :
    s'.recoverHierarchy tree faults pos = s.recoverHierarchy tree faults pos := by
  have hpass (pos : Nat) (hamong : e ≤ pos ∨ s.AmongStatements a e pos) :
      s'.hierarchy pos = s.hierarchy pos := (h.hierarchyFrom_eq hapart ∅ pos hamong).1
  induction tree, faults, pos using recoverHierarchy.induct s with
  | case1 tree faults pos found hfound =>
    rw [recoverHierarchy, recoverHierarchy, hpass pos hamong, hfound]
  | case2 tree faults pos failure hfailure tree' faults' hgo ih =>
    have hnext := (h.hierarchyFrom_eq hapart ∅ pos hamong).2 failure hfailure
    rw [recoverHierarchy, hpass pos hamong, recoverHierarchy.eq_def s, hfailure]
    simp only [h.size_eq, if_pos hgo]
    exact ih hnext
  | case3 tree faults pos failure hfailure hgo =>
    rw [recoverHierarchy, hpass pos hamong, recoverHierarchy.eq_def s, hfailure]
    simp only [h.size_eq, if_neg hgo]

/-- The tree of a text and its faults are the same if a comment that stands among its statements is
blanked. -/
theorem hierarchyRecovering_eq (hapart : s.Apart a e) (hamong : s.AmongStatements a e 0) :
    s'.hierarchyRecovering = s.hierarchyRecovering :=
  h.recoverHierarchy_eq hapart ∅ [] 0 (.inr hamong)

end Blanked

end MaskedText

end PageLang
