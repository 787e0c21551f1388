import PageLang.Proofs.Qualify.Bindings
import PageLang.Proofs.Qualify.Waiting
import PageLang.Proofs.Script.Groups

/-!
# Heads of blocks

The heads of functions, of arrow functions, of handlers of errors and of loops over the elements of a
value bind the names of patterns in the block behind them. Each head, on one line, is found as a
declaration of parameters that binds the names of its patterns.

* `Head`: the heads, with their blanks.
* `Head.exists_declaration`: a head is found.
* `Head.hides`: where no brace stands in a head, its names are hidden in its block.
-/

namespace PageLang.Script

open Cell Qualify MaskedText

/-- What stands in front of a block and binds names in it. -/
inductive Head where
  | function (space : Blank) (apart : space.text ≠ []) (name : Identifier) (gap opening : Blank)
      (list : Binding (.items .elements)) (behind : Blank)
  | arrow (opening : Blank) (list : Binding (.items .elements)) (gap behind : Blank)
  | handler (gap opening : Blank) (p : Binding .pattern) (closing behind : Blank)
  /-- A loop over the elements of a value. -/
  | loop (gap opening : Blank) (isConst : Bool) (space : Blank) (apart : space.text ≠ [])
      (p : Binding .pattern) (before : Blank) (apart' : before.text ≠ []) (value : Text)
      (behind : Blank)

namespace Head

/-- The patterns that a head binds. -/
def list : Head → Binding (.items .elements)
  | function _ _ _ _ _ list _ | arrow _ list _ _ => list
  | handler _ _ p closing _ => .last (.element p) closing
  | loop _ _ _ _ _ p before _ _ _ => .last (.element p) before

/-- Whether a head is that of a function. -/
def isFunction : Head → Bool
  | function .. | arrow .. => true
  | handler .. | loop .. => false

/-- The keyword in the head of a loop. -/
def keyword (isConst : Bool) : Text := if isConst then "const" else "let"

/-- A head up to its value, if it is that of a loop, or else up to its last mark. -/
def front : Head → Text
  | function space _ name gap opening list _ =>
    Text.ofString "function" ++ (space.text ++ (name.text ++ (gap.text ++
      Byte.lparen :: ((opening.text ++ list.text) ++ [Byte.rparen]))))
  | arrow opening list gap _ =>
    Byte.lparen :: ((opening.text ++ list.text) ++ Byte.rparen :: (gap.text ++ Text.ofString "=>"))
  | handler gap opening p closing _ =>
    Text.ofString "catch" ++ (gap.text ++
      Byte.lparen :: ((opening.text ++ (p.text ++ closing.text)) ++ [Byte.rparen]))
  | loop gap opening isConst space _ p before _ _ _ =>
    Text.ofString "for" ++ (gap.text ++ Byte.lparen :: (opening.text ++
      (keyword isConst ++ (space.text ++ (p.text ++ (before.text ++ Text.ofString "of"))))))

/-- A head behind its front. -/
def back : Head → Text
  | function _ _ _ _ _ _ behind | arrow _ _ _ behind | handler _ _ _ _ behind => behind.text
  | loop _ _ _ _ _ _ _ _ value behind => value ++ Byte.rparen :: behind.text

/-- A head as it is written. -/
def text (h : Head) : Text := h.front ++ h.back

/-- The value of a loop whose head starts at an offset has no live brace, and the parenthesis behind it
is the one that closes the head. -/
def Closes (s : MaskedText) (i : Nat) : Head → Prop
  | function .. | arrow .. | handler .. => True
  | loop gap opening isConst space apart p before apart' value behind =>
    let start := i + (front (.loop gap opening isConst space apart p before apart' value behind)).length
    s.closingBracket? (i + (3 + gap.text.length)) s.size = some (start + value.length) ∧
      ∀ k, start ≤ k → k < start + value.length → s.liveByte? k ≠ some Byte.lbrace

/-- A head behind a text. If the head begins with a word, then no word ends in front of it. -/
def Behind (pre : Text) (h : Head) : Prop :=
  ∀ b ∈ pre.getLast?, ∀ c ∈ h.text.head?, Byte.isWord c = true → b < 0x80 ∧ Byte.isWord b = false

/-! ## Reading a head -/

theorem isWord_keyword (isConst : Bool) : ∀ b ∈ keyword isConst, Byte.isWord b = true := by
  cases isConst
  · exact Recogniser.isWord_of_mem_keywords "let" (by simp [Recogniser.keywords])
  · exact Recogniser.isWord_of_mem_keywords "const" (by simp [Recogniser.keywords])

/-- The front of a head is live as a whole. -/
theorem settled_front (h : Head) : Settled h.front := by
  have hmark {b : UInt8} (hb : Byte.isCalm b = true ∧ b ≠ Byte.semicolon ∧ b ≠ Byte.lbrace ∧
      b ≠ Byte.rbrace) {t : Text} (ht : Settled t) : Settled (b :: t) :=
    (settled_of_forall (t := [b]) (by simpa using hb)).append ht
  have hlist (opening : Blank) {l : Binding.Level} (p : Binding l) {t : Text} (ht : Settled t) :
      Settled (Byte.lparen :: ((opening.text ++ p.text) ++ Byte.rparen :: t)) :=
    hmark (by decide) (((settled_blank opening).append (settled_binding p)).append
      (hmark (by decide) ht))
  have hnil : Settled [] := settled_of_forall (by simp)
  cases h with
  | function space apart name gap opening list behind =>
    exact (settled_word Recogniser.isWord_function).append ((settled_blank space).append
      ((settled_word (word_of_isIdentifier name.fits)).append
        ((settled_blank gap).append (hlist opening list hnil))))
  | arrow opening list gap behind =>
    exact hlist opening list ((settled_blank gap).append (settled_of_forall (by decide)))
  | handler gap opening p closing behind =>
    exact (settled_word Recogniser.isWord_catch).append ((settled_blank gap).append
      (hlist opening (.last (.element p) closing) hnil))
  | loop gap opening isConst space apart p before apart' value behind =>
    refine (settled_word (Recogniser.isWord_of_mem_heads "for" (by simp))).append
      ((settled_blank gap).append (hmark (by decide) ?_))
    refine (settled_blank opening).append ((settled_word (isWord_keyword isConst)).append
      ((settled_blank space).append ((settled_binding p).append ((settled_blank before).append ?_))))
    exact settled_word (Recogniser.isWord_of_mem_heads "of" (by simp))

theorem front_ne_nil (h : Head) : h.front ≠ [] ∧ ∀ b ∈ h.front.head?, b ≠ Byte.newline := by
  have hword {w t : Text} (hne : w ≠ []) (hw : ∀ b ∈ w, Byte.isWord b = true) :
      w ++ t ≠ [] ∧ ∀ b ∈ (w ++ t).head?, b ≠ Byte.newline := by
    obtain ⟨b, w, rfl⟩ := List.exists_cons_of_ne_nil hne
    have hb := hw b (.head _)
    refine ⟨by simp, ?_⟩
    rintro _ ⟨⟩ rfl
    cases hb
  cases h with
  | function => exact hword (by decide) Recogniser.isWord_function
  | handler => exact hword (by decide) Recogniser.isWord_catch
  | loop => exact hword (by decide) (Recogniser.isWord_of_mem_heads "for" (by simp))
  | arrow => exact ⟨by simp [front], by simp +decide [front]⟩

/-- The blanks between a head and its block. -/
def behind : Head → Blank
  | function _ _ _ _ _ _ behind | arrow _ _ _ behind | handler _ _ _ _ behind
  | loop _ _ _ _ _ _ _ _ _ behind => behind

/-- A head without the blanks behind its last mark. -/
def core : Head → Text
  | function space apart name gap opening list behind =>
    front (.function space apart name gap opening list behind)
  | arrow opening list gap behind => front (.arrow opening list gap behind)
  | handler gap opening p closing behind => front (.handler gap opening p closing behind)
  | loop gap opening isConst space apart p before apart' value behind =>
    front (.loop gap opening isConst space apart p before apart' value behind) ++
      (value ++ [Byte.rparen])

theorem text_eq (h : Head) : h.text = h.core ++ h.behind.text := by
  cases h <;> simp [text, core, front, back, behind]

/-! ## A head in a body -/

section
variable {pre post : Text} {h : Head}
  (hlive : (ofText .code (pre ++ (h.text ++ Byte.lbrace :: post))).isLive pre.length = true)
include hlive

theorem exists_rest_front : ∃ v, (ofText .code (pre ++ (h.text ++ Byte.lbrace :: post))).Rest
    pre.length (live h.front ++ v) := by
  have hne := h.front_ne_nil
  rw [text, List.append_assoc] at hlive ⊢
  obtain ⟨v, -, hrest⟩ := h.settled_front.exists_rest hne.1 hne.2 hlive
  exact ⟨v, hrest⟩

omit hlive in
/-- Behind live text stand the blanks in front of a block, and its live brace. -/
theorem exists_rest_brace {front t : Text} {g : Blank} (ht : Settled t) (hne : t ≠ [])
    (hhead : ∀ b ∈ t.head?, b ≠ Byte.newline)
    (hlive : (ofText .code (front ++ (t ++ (g.text ++ Byte.lbrace :: post)))).isLive
      front.length = true) : ∃ v,
        (ofText .code (front ++ (t ++ (g.text ++ Byte.lbrace :: post)))).Rest
          (front.length + t.length) (live g.text ++ (Byte.lbrace, false) :: v) := by
  have hsettled := ht.append (settled_blank g)
  have hdepth : depth? 1 (live (t ++ (g.text ++ [Byte.lbrace]))) = some (1 + 1) := by
    rw [← List.append_assoc, live_append, depth?_append, hsettled.balanced 0]
    rfl
  have hbody : front ++ (t ++ (g.text ++ Byte.lbrace :: post)) =
      front ++ ((t ++ (g.text ++ [Byte.lbrace])) ++ post) := by simp
  obtain ⟨b, t, rfl⟩ := List.exists_cons_of_ne_nil hne
  rw [hbody] at hlive ⊢
  obtain ⟨v, -, hrest⟩ := exists_rest_of_isLive (List.forall_mem_append.2
    ⟨ht.calm, List.forall_mem_append.2 ⟨(settled_blank _).calm,
      List.forall_mem_singleton.2 (by decide)⟩⟩) (by simpa using hhead) (by simp) hdepth hlive
  have hcells : live (b :: t ++ (g.text ++ [Byte.lbrace])) ++ v =
      live (b :: t) ++ (live g.text ++ (Byte.lbrace, false) :: v) := by simp
  rw [hcells] at hrest
  have := hrest.skip
  rw [length_live] at this
  exact ⟨v, this⟩

/-- Behind the last mark of a head stand blanks and the live brace of its block. -/
theorem exists_rest_block
    (hcloses : h.Closes (ofText .code (pre ++ (h.text ++ Byte.lbrace :: post))) pre.length) :
    ∃ v, (ofText .code (pre ++ (h.text ++ Byte.lbrace :: post))).Rest
      (pre.length + h.core.length) (live h.behind.text ++ (Byte.lbrace, false) :: v) := by
  have hplain (hcore : h.core = h.front) (hback : h.back = h.behind.text) : ∃ v,
      (ofText .code (pre ++ (h.text ++ Byte.lbrace :: post))).Rest
        (pre.length + h.core.length) (live h.behind.text ++ (Byte.lbrace, false) :: v) := by
    rw [text, hback, List.append_assoc] at hlive ⊢
    rw [hcore]
    exact exists_rest_brace h.settled_front h.front_ne_nil.1 h.front_ne_nil.2 hlive
  cases h with
  | function | arrow | handler => exact hplain rfl rfl
  | loop gap opening isConst space apart p before apart' value behind =>
    obtain ⟨hclose, -⟩ := hcloses
    generalize hfront : front (.loop gap opening isConst space apart p before apart' value behind) =
      f at hclose
    have hbody : pre ++ (text (.loop gap opening isConst space apart p before apart' value behind) ++
        Byte.lbrace :: post) =
          (pre ++ (f ++ value)) ++ ([Byte.rparen] ++ (behind.text ++ Byte.lbrace :: post)) := by
      rw [text, hfront, back]
      simp
    rw [hbody] at hclose ⊢
    -- the parenthesis behind the value is live
    have hparen : (ofText .code ((pre ++ (f ++ value)) ++
        ([Byte.rparen] ++ (behind.text ++ Byte.lbrace :: post)))).isLive
          (pre ++ (f ++ value)).length = true := by
      obtain ⟨b, hb, -⟩ := closing?_live hclose
      obtain ⟨hmask, hbyte⟩ := liveByte?_eq_some hb
      rw [isLive, Bool.and_eq_true, decide_eq_true_eq, Bool.not_eq_true', List.length_append,
        List.length_append, ← Nat.add_assoc]
      exact ⟨byte?_eq_some_lt hbyte, hmask⟩
    obtain ⟨v, hrest⟩ := exists_rest_brace (t := [Byte.rparen])
      (settled_of_forall (List.forall_mem_singleton.2 (by decide))) (by simp)
      (by rintro _ ⟨⟩; decide) hparen
    refine ⟨v, ?_⟩
    rw [core, hfront]
    simpa [Head.behind, Nat.add_assoc] using hrest

/-- The range around a head. -/
theorem exists_range (hline : Byte.newline ∉ h.front) :
    ∃ r ∈ (ofText .code (pre ++ (h.text ++ Byte.lbrace :: post))).statementRanges, ∃ rest,
      r.1 ≤ pre.length ∧ pre.length + h.front.length ≤ r.2 ∧
        (ofText .code (pre ++ (h.text ++ Byte.lbrace :: post))).slice r.1 r.2 =
          pre.drop r.1 ++ (h.front ++ rest) := by
  obtain ⟨v, hrest⟩ := exists_rest_front hlive
  obtain ⟨r, hr, hle, hstop⟩ := exists_range_of_rest hrest h.front_ne_nil.1
    ⟨h.settled_front.semicolon, hline⟩
  refine ⟨r, hr, (h.back ++ Byte.lbrace :: post).take (r.2 - pre.length - h.front.length), hle, hstop, ?_⟩
  rw [slice_ofText, Text.slice, text, List.drop_append_of_le_length hle, List.append_assoc,
    List.take_append, List.take_of_length_le (by rw [List.length_drop]; omega), List.length_drop,
    List.take_append, List.take_of_length_le (l := h.front) (by omega)]
  congr 3
  omega

end

/-- Of the word characters, those of ASCII come first. -/
theorem startsWord_of_ascii {b : UInt8} (hb : b < 0x80) :
    Text.startsWord [b] = Text.inRanges (Text.wordRanges.take 4) b.toNat := by
  have hwidth : Text.charWidth b = 1 := by
    have : b < 0xc0 := UInt8.lt_of_lt_of_le hb (by decide)
    simp [Text.charWidth, this]
  have hlarge : ∀ r ∈ Text.wordRanges.drop 4, 0x80 ≤ r.1 := by decide +kernel
  have hnat : b.toNat < 0x80 := UInt8.lt_iff_toNat_lt.1 hb
  have hnone : (Text.wordRanges.drop 4).any (fun r => r.1 ≤ b.toNat && b.toNat ≤ r.2) = false := by
    rw [List.any_eq_false]
    intro r hr
    have := hlarge r hr
    simp only [Bool.and_eq_true, decide_eq_true_eq, not_and]
    omega
  have hsplit : Text.inRanges Text.wordRanges b.toNat =
      Text.inRanges (Text.wordRanges.take 4) b.toNat := by
    rw [Text.inRanges, Text.inRanges]
    conv_lhs => rw [← List.take_append_drop 4 Text.wordRanges, List.any_append, hnone, Bool.or_false]
  simp [Text.startsWord, Text.codePoint?, hwidth, hsplit]

/-- No word ends in front of a word. -/
theorem Behind.not_endsWord {pre : Text} {h : Head} (hbehind : h.Behind pre)
    (hword : ∀ c ∈ h.text.head?, Byte.isWord c = true) (hne : h.text ≠ []) (k : Nat) :
    Text.endsWord (pre.drop k).reverse = false ∧
      ∀ b ∈ (pre.drop k).getLast?, Byte.isWord b = false := by
  have hascii : ∀ b, b < 0x80 → Byte.isWord b = false → Byte.isContinuation b = false ∧
      Text.inRanges (Text.wordRanges.take 4) b.toNat = false :=
    Byte.forall_of_nibbles (by decide)
  obtain ⟨c, t, hcons⟩ := List.exists_cons_of_ne_nil hne
  rcases List.eq_nil_or_concat (pre.drop k) with hnil | ⟨u, b, hu⟩
  · rw [hnil]
    exact ⟨rfl, by simp⟩
  · have hpre : pre.getLast? = some b := by
      have hlast : (pre.take k ++ pre.drop k).getLast? = some b := by
        rw [hu, List.concat_eq_append, ← List.append_assoc, List.getLast?_concat]
      rwa [List.take_append_drop] at hlast
    obtain ⟨hlt, hb⟩ := hbehind b hpre c (by rw [hcons]; rfl) (hword c (by rw [hcons]; rfl))
    obtain ⟨hcont, hstarts⟩ := hascii b hlt hb
    rw [hu, List.concat_eq_append, List.reverse_append, List.reverse_singleton, List.singleton_append,
      Text.endsWord_cons hcont, startsWord_of_ascii hlt, hstarts, List.getLast?_concat]
    exact ⟨rfl, by simpa using hb⟩

/-! ## What a head declares -/

theorem parenless_list (opening : Blank) {l : Binding.Level} (p : Binding l) :
    Recogniser.Parenless (opening.text ++ p.text) :=
  (Recogniser.parenless_of_isSpace opening.blank).append
    ⟨fun h => (Binding.Fits.plain _ (p.fits_text _ h)).2.1 rfl,
      fun h => (Binding.Fits.plain _ (p.fits_text _ h)).2.2.1 rfl⟩

/-- The parenthesis of a loop is seen from the text in front of its keyword. -/
theorem loopParen?_eq_some {outer gap opening : Text} (hends : Text.endsWord outer.reverse = false)
    (hgap : Space gap) (hopening : Space opening) :
    Recogniser.loopParen? (outer ++ (Text.ofString "for" ++ (gap ++ Byte.lparen :: opening))).reverse =
      some (outer.length + (3 + gap.length)) := by
  have hreverse : (outer ++ (Text.ofString "for" ++ (gap ++ Byte.lparen :: opening))).reverse =
      opening.reverse ++ Byte.lparen :: (gap.reverse ++
        ((Text.ofString "for").reverse ++ outer.reverse)) := by simp
  have hfor : (Text.ofString "for").reverse = [0x72, 0x6f, 0x66] := by decide
  have hspace {t : Text} (ht : Space t) : ∀ b ∈ t.reverse, Byte.isSpace b = true :=
    fun b hb => ht b (List.mem_reverse.1 hb)
  have hawait : Text.stripStart? (Text.ofString "await").reverse
      ([0x72, 0x6f, 0x66] ++ outer.reverse) = none := by
    rw [show (Text.ofString "await").reverse = [0x74, 0x69, 0x61, 0x77, 0x61] by decide]
    simp [Text.stripStart?]
  have hstrip : Text.stripStart? [0x72, 0x6f, 0x66] ([0x72, 0x6f, 0x66] ++ outer.reverse) =
      some outer.reverse := Text.stripStart?_eq_some.2 rfl
  unfold Recogniser.loopParen?
  rw [hreverse, Text.trimBefore_append (hspace hopening), Text.trimBefore_of_ink (by decide)]
  split
  · next outside heq =>
    obtain rfl := (List.cons.inj heq).2
    dsimp only
    rw [hfor, Text.trimBefore_append (hspace hgap),
      show Recogniser.trimBefore ([0x72, 0x6f, 0x66] ++ outer.reverse) =
        [0x72, 0x6f, 0x66] ++ outer.reverse from Text.trimBefore_of_ink (by decide) _, hawait]
    dsimp only
    rw [hstrip]
    simp [hends]
    omega
  · next hne => exact absurd rfl (hne _)

theorem isWord_head {w : Text} (t : Text) (hw : ∀ c ∈ w, Byte.isWord c = true) (hne : w ≠ []) :
    ∀ c ∈ (w ++ t).head?, Byte.isWord c = true := by
  obtain ⟨c, w, rfl⟩ := List.exists_cons_of_ne_nil hne
  simpa using hw c (.head _)

/-- Behind the parenthesis of a loop no earlier find reaches over a keyword. -/
theorem clear_keyword (outer : Text) (gap opening : Blank) {word : Text}
    (hword : word = "let" ∨ word = "const") (rest : Text) :
    Text.endsWord (outer ++ (Text.ofString "for" ++ (gap.text ++ Byte.lparen :: opening.text))).reverse =
        false ∧
      Recogniser.Clear Recogniser.keyword
        (outer ++ (Text.ofString "for" ++ (gap.text ++ Byte.lparen :: opening.text)))
        (word ++ rest) := by
  obtain ⟨u, c, hu, hc⟩ : ∃ u c, outer ++ (Text.ofString "for" ++
      (gap.text ++ Byte.lparen :: opening.text)) = u ++ [c] ∧
        (Byte.isSpace c = true ∨ c ∈ marks) := by
    rcases List.eq_nil_or_concat opening.text with hnil | ⟨g, c, hconcat⟩
    · exact ⟨outer ++ (Text.ofString "for" ++ gap.text), Byte.lparen, by simp [hnil],
        .inr (by decide)⟩
    · exact ⟨outer ++ (Text.ofString "for" ++ (gap.text ++ Byte.lparen :: g)), c,
        by simp [hconcat], .inl (opening.blank c (by simp [hconcat]))⟩
  obtain ⟨hcont, hstarts⟩ := not_word_char c hc
  have hnot : Byte.isWord c = false := by
    rcases hc with hc | hc
    · exact Text.not_word_of_isSpace c hc
    · exact (not_word_of_mem_marks c hc).1
  rw [hu]
  refine ⟨?_, ?_⟩
  · rw [List.reverse_append, List.reverse_singleton, List.singleton_append,
      Text.endsWord_cons hcont, hstarts]
  · obtain ⟨b, w, hcons, hb⟩ : ∃ b w, word = b :: w ∧ Byte.isWord b = true := by
      rcases hword with rfl | rfl
      · exact ⟨_, _, rfl, by decide⟩
      · exact ⟨_, _, rfl, by decide⟩
    rw [hcons]
    exact clear_of_word (by simpa using hnot) hb _

section
variable {s : MaskedText} {r : Nat × Nat} {i : Nat} {outer rest : Text} {v : List Cell}
  {gap opening : Blank} {isConst : Bool} {space : Blank} {apart : space.text ≠ []}
  {p : Binding .pattern} {before : Blank} {apart' : before.text ≠ []} {value : Text}
  {behind : Blank}

/-- The keyword in the head of a loop is recognised, up to the pattern. -/
theorem mem_all_keyword_of_loop (hends : Text.endsWord outer.reverse = false)
    (hslice : s.slice r.1 r.2 = outer ++
      (front (.loop gap opening isConst space apart p before apart' value behind) ++ rest)) :
    (r.1 + outer.length + (3 + gap.text.length + 1 + opening.text.length),
      r.1 + outer.length + (3 + gap.text.length + 1 + opening.text.length +
        ((keyword isConst).length + space.text.length)),
      false, some (outer.length + (3 + gap.text.length))) ∈
        Recogniser.all Recogniser.keyword 0 r.1 [] (s.slice r.1 r.2) := by
  have hkeyword : keyword isConst = "let" ∨ keyword isConst = "const" := by
    cases isConst
    · exact .inl rfl
    · exact .inr rfl
  have hsplit : outer ++
      (front (.loop gap opening isConst space apart p before apart' value behind) ++ rest) =
        (outer ++ (Text.ofString "for" ++ (gap.text ++ Byte.lparen :: opening.text))) ++
          (keyword isConst ++ (space.text ++
            (p.text ++ (before.text ++ (Text.ofString "of" ++ rest))))) := by
    simp [front]
  obtain ⟨hends', hclear⟩ := clear_keyword outer gap opening hkeyword
    (space.text ++ (p.text ++ (before.text ++ (Text.ofString "of" ++ rest))))
  obtain ⟨b, t, hp, hink⟩ := p.stands.ink.first
  have htrim : Text.trimStart (space.text ++ (p.text ++ (before.text ++ (Text.ofString "of" ++ rest)))) =
      p.text ++ (before.text ++ (Text.ofString "of" ++ rest)) := by
    rw [Text.trimStart_append space.blank, hp, List.cons_append, Text.trimStart_of_ink hink]
  have hblank : Text.startsBlank (space.text ++ (p.text ++ (before.text ++
      (Text.ofString "of" ++ rest)))) = true := by
    obtain ⟨c, g, hcons⟩ := List.exists_cons_of_ne_nil apart
    rw [hcons]
    exact Text.startsBlank_of_isSpace (space.blank c (by simp [hcons])) _
  have hfound := hclear.mem_all (by cases isConst <;> simp +decide [keyword])
    (Recogniser.keyword_of_word hkeyword hends' hblank) r.1
  rw [← hsplit, ← hslice, htrim, loopParen?_eq_some hends gap.blank opening.blank] at hfound
  have hfor : (Text.ofString "for").length = 3 := by decide
  convert hfound using 2
  · simp only [List.length_append, List.length_cons, hfor]
    omega
  · congr 1
    simp only [List.length_append, List.length_cons, hfor]
    omega

/-- Behind the keyword of a loop the pattern is the first declarator. -/
theorem names_subset_of_loop
    (hstop : i + (front (.loop gap opening isConst space apart p before apart' value behind)).length ≤
      r.2)
    (hrest : s.Rest i
      (live (front (.loop gap opening isConst space apart p before apart' value behind)) ++ v)) :
    p.names ⊆ s.declaratorNames (i + (3 + gap.text.length + 1 + opening.text.length +
      ((keyword isConst).length + space.text.length))) r.2 := by
  have hfor : (Text.ofString "for").length = 3 := by decide
  have hcells : live (front (.loop gap opening isConst space apart p before apart' value behind)) ++ v =
      live (Text.ofString "for" ++ (gap.text ++ Byte.lparen :: (opening.text ++
        (keyword isConst ++ space.text)))) ++
          (live p.text ++ (live (before.text ++ Text.ofString "of") ++ v)) := by
    simp [front]
  rw [hcells] at hrest
  have hpattern := hrest.skip
  simp only [front, List.length_append, List.length_cons, hfor] at hstop
  generalize hk : i + (live (Text.ofString "for" ++ (gap.text ++ Byte.lparen :: (opening.text ++
    (keyword isConst ++ space.text))))).length = k at hpattern
  simp only [length_live, List.length_append, List.length_cons, hfor] at hk
  rw [show i + (3 + gap.text.length + 1 + opening.text.length +
    ((keyword isConst).length + space.text.length)) = k by omega]
  obtain ⟨b, t, hp, hink⟩ := p.stands.ink.first
  have hskip : s.skipWhile Byte.isSpace k r.2 = k := by
    have h := hpattern
    rw [hp, live_cons, List.cons_append] at h
    have hpos : 0 < p.text.length := by simp [hp]
    exact Rest.skipWhile (w := []) Byte.isSpace r.2 h (by simp) (Byte.isSpace_of_isInk b hink)
      (by simp; omega)
  obtain ⟨c, g, hbefore⟩ := List.exists_cons_of_ne_nil apart'
  have hnot : Byte.isWord c = false :=
    Text.not_word_of_isSpace c (before.blank c (by simp [hbefore]))
  rw [hbefore, List.cons_append, live_cons, List.cons_append] at hpattern
  have hname := hpattern.declarator?_binding p hnot
    (show k + p.text.length < r.2 by simp [hbefore] at hstop; omega)
  rw [declaratorNames_eq hskip (by simp [hp] at hstop; omega) hname]
  split
  · exact fun _ h => h
  · exact List.subset_append_left _ _

/-- The declaration in the head of a loop is found. -/
theorem exists_keyword_of_loop (hends : Text.endsWord outer.reverse = false)
    (hslice : s.slice r.1 r.2 = outer ++
      (front (.loop gap opening isConst space apart p before apart' value behind) ++ rest))
    (hstart : r.1 + outer.length = i)
    (hstop : i + (front (.loop gap opening isConst space apart p before apart' value behind)).length ≤
      r.2)
    (hrest : s.Rest i
      (live (front (.loop gap opening isConst space apart p before apart' value behind)) ++ v)) :
    ∃ d ∈ s.keywordLocals r.1 r.2,
      d.offset = i + (3 + gap.text.length + 1 + opening.text.length) ∧
        d.scope = s.loopScope (i + (3 + gap.text.length)) ∧ p.names ⊆ d.names := by
  have hfound := mem_all_keyword_of_loop hends hslice
  rw [hstart] at hfound
  refine ⟨_, List.mem_map.2 ⟨_, hfound, rfl⟩, rfl, ?_, names_subset_of_loop hstop hrest⟩
  simp only [Bool.false_eq_true, if_false, ← Nat.add_assoc, hstart]

end

section
variable {s : MaskedText} {r : Nat × Nat} {i : Nat} {outer rest : Text}
  (hstart : r.1 + outer.length = i)
include hstart

/-- A function is found where its head begins. -/
theorem mem_functionLocals {space : Blank} {apart : space.text ≠ []} {name : Identifier}
    {gap opening : Blank} {list : Binding (.items .elements)} {behind : Blank}
    (hends : Text.endsWord outer.reverse = false)
    (hlast : ∀ b ∈ outer.getLast?, Byte.isWord b = false)
    (hslice : s.slice r.1 r.2 =
      outer ++ (front (.function space apart name gap opening list behind) ++ rest)) :
    ⟨i, list.names, .parameters true⟩ ∈ s.functionLocals r.1 r.2 := by
  have hfront : front (.function space apart name gap opening list behind) ++ rest =
      Text.ofString "function" ++ (space.text ++ (name.text ++ (gap.text ++
        Byte.lparen :: ((opening.text ++ list.text) ++ Byte.rparen :: rest)))) := by
    simp [front]
  have hname : name.text ≠ [] := by
    obtain ⟨b, t, hcons, -⟩ := Text.exists_of_isIdentifier name.fits
    simp [hcons]
  have hfound := (Recogniser.clear_function hlast space.blank apart
    (word_of_isIdentifier name.fits) hname gap.blank).mem_all (by simp)
      (Recogniser.function_eq_of_name hends space.blank apart name.fits gap.blank
        (parenless_list opening list) rest) r.1
  rw [← hfront, ← hslice, hstart] at hfound
  exact List.mem_flatMap.2 ⟨_, hfound, by simp [list.names_text opening]⟩

/-- A handler of errors is found where its head begins. -/
theorem mem_catchLocals {gap opening : Blank} {p : Binding .pattern} {closing behind : Blank}
    (hends : Text.endsWord outer.reverse = false)
    (hlast : ∀ b ∈ outer.getLast?, Byte.isWord b = false)
    (hslice : s.slice r.1 r.2 =
      outer ++ (front (.handler gap opening p closing behind) ++ rest)) :
    ⟨i, (Binding.last (.element p) closing).names, .parameters false⟩ ∈ s.catchLocals r.1 r.2 := by
  have hfront : front (.handler gap opening p closing behind) ++ rest =
      Text.ofString "catch" ++ (gap.text ++ Byte.lparen ::
        ((opening.text ++ (Binding.last (.element p) closing).text) ++ Byte.rparen :: rest)) := by
    simp [front, Binding.text]
  have hfound := (Recogniser.clear_catchHead hlast gap.blank).mem_all (by simp)
    (Recogniser.catchHead_eq hends gap.blank
      (parenless_list opening (.last (.element p) closing)) rest) r.1
  rw [← hfront, ← hslice, hstart] at hfound
  exact List.mem_map.2 ⟨_, hfound, by simp [Binding.names_text]⟩

/-- An arrow function is found where its head begins, if its arrow is live and a brace stands behind
it. -/
theorem mem_arrowLocals {opening : Blank} {list : Binding (.items .elements)} {gap behind : Blank}
    (hslice : s.slice r.1 r.2 = outer ++ (front (.arrow opening list gap behind) ++ rest))
    (harrow : s.isLive (i + (front (.arrow opening list gap behind)).length - 2) = true)
    (hblock : s.byte? (s.skipTrivia (i + (front (.arrow opening list gap behind)).length)) =
      some Byte.lbrace) :
    ⟨i, list.names, .parameters true⟩ ∈ s.arrowLocals r.1 r.2 := by
  have hfront : front (.arrow opening list gap behind) ++ rest =
      Byte.lparen :: ((opening.text ++ list.text) ++
        Byte.rparen :: (gap.text ++ (Text.ofString "=>" ++ rest))) := by
    simp [front]
  have hfound := (Recogniser.clear_arrow outer _).mem_all (by simp)
    (Recogniser.arrow_eq gap.blank (parenless_list opening list) rest) r.1
  rw [← hfront, ← hslice, hstart, List.length_append, Nat.add_sub_cancel] at hfound
  refine List.mem_map.2 ⟨_, List.mem_filter.2 ⟨hfound, harrow⟩, ?_⟩
  simp only [hblock, if_true, list.names_text opening]

end

/-- Behind blanks a brace is the next byte that is read. -/
theorem byte?_skipTrivia_block {s : MaskedText} {i : Nat} {g : Blank} {v : List Cell}
    (hrest : s.Rest i (live g.text ++ (Byte.lbrace, false) :: v)) :
    s.byte? (s.skipTrivia i) = some Byte.lbrace := by
  have hskip := hrest.skip.byte?_zero
  rwa [length_live, ← hrest.skipTrivia_space g.blank (by decide)] at hskip

/-- A head stands in a body: it begins in live text, behind no word, on one line up to its value, and
closes in front of its block. -/
structure Stands (pre post : Text) (h : Head) : Prop where
  live : (ofText .code (pre ++ (h.text ++ Byte.lbrace :: post))).isLive pre.length = true
  line : Byte.newline ∉ h.front
  behind : h.Behind pre
  closes : h.Closes (ofText .code (pre ++ (h.text ++ Byte.lbrace :: post))) pre.length

section
variable {pre post : Text} {h : Head} {n : Text}

/-- A head is found as a declaration of parameters. -/
theorem Stands.exists_declaration (hs : h.Stands pre post) (hn : n ∈ h.list.names) :
    ∃ d ∈ (ofText .code (pre ++ (h.text ++ Byte.lbrace :: post))).declarations,
      d.scope = .parameters h.isFunction ∧ n ∈ d.names ∧ pre.length ≤ d.offset ∧
        d.offset < pre.length + h.front.length := by
  obtain ⟨hlive, hline, hbehind, hcloses⟩ := hs
  obtain ⟨r, hr, rest, hle, hstop, hslice⟩ := exists_range hlive hline
  have hstart : r.1 + (pre.drop r.1).length = pre.length := by
    rw [List.length_drop]
    omega
  have hpos : 0 < h.front.length := List.length_pos_iff.2 h.front_ne_nil.1
  obtain ⟨v, hrest⟩ := exists_rest_block hlive hcloses
  obtain ⟨v', hfrontRest⟩ := exists_rest_front hlive
  -- no word ends in front of a head that begins with one
  have hends {w t : Text} (htext : h.text = w ++ t) (hw : ∀ c ∈ w, Byte.isWord c = true)
      (hne : w ≠ []) : Text.endsWord (pre.drop r.1).reverse = false ∧
        ∀ b ∈ (pre.drop r.1).getLast?, Byte.isWord b = false :=
    hbehind.not_endsWord (htext ▸ isWord_head t hw hne) (by simp [htext, hne]) r.1
  generalize hbody : ofText .code (pre ++ (h.text ++ Byte.lbrace :: post)) = s
    at hlive hcloses hr hslice hrest hfrontRest ⊢
  -- what is found at the head
  have hdeclared {d : LocalDeclaration} {j : Nat} (hoffset : d.offset = pre.length + j)
      (hj : j < h.front.length) (hscope : d.scope = .parameters h.isFunction) (hnames : n ∈ d.names)
      (hd : d ∈ s.keywordLocals r.1 r.2 ++ s.functionLocals r.1 r.2 ++ s.catchLocals r.1 r.2 ++
        s.classLocals r.1 r.2 ++ s.arrowLocals r.1 r.2) :
      ∃ d ∈ s.declarations, d.scope = .parameters h.isFunction ∧ n ∈ d.names ∧
        pre.length ≤ d.offset ∧ d.offset < pre.length + h.front.length := by
    have hlive : s.isLive d.offset = true := by
      rw [hoffset]
      exact hfrontRest.isLive_of_live hj
    refine ⟨d, mem_declarations_of_range hr hd hlive (List.ne_nil_of_mem hnames), hscope,
      hnames, ?_, ?_⟩ <;> omega
  cases h with
  | function space apart name gap opening list behind =>
    obtain ⟨hends, hlast⟩ := hends (List.append_assoc ..) Recogniser.isWord_function (by decide)
    have hmem := mem_functionLocals hstart hends hlast hslice
    exact hdeclared (d := ⟨_, list.names, .parameters true⟩) (j := 0) rfl hpos rfl hn (by simp [hmem])
  | arrow opening list gap behind =>
    have hlong : 2 ≤ (front (.arrow opening list gap behind)).length := by
      simp only [front, List.length_cons, List.length_append]
      omega
    have harrow : s.isLive
        (pre.length + (front (.arrow opening list gap behind)).length - 2) = true := by
      rw [Nat.add_sub_assoc hlong]
      exact hfrontRest.isLive_of_live (by omega)
    have hmem := mem_arrowLocals hstart hslice harrow (byte?_skipTrivia_block hrest)
    exact hdeclared (d := ⟨_, list.names, .parameters true⟩) (j := 0) rfl hpos rfl hn (by simp [hmem])
  | handler gap opening p closing behind =>
    obtain ⟨hends, hlast⟩ := hends (List.append_assoc ..) Recogniser.isWord_catch (by decide)
    have hmem := mem_catchLocals hstart hends hlast hslice
    exact hdeclared (d := ⟨_, (Binding.last (.element p) closing).names, .parameters false⟩) (j := 0) rfl
      hpos rfl hn (by simp [hmem])
  | loop gap opening isConst space apart p before apart' value behind =>
    obtain ⟨hends, -⟩ := hends (List.append_assoc ..)
      (Recogniser.isWord_of_mem_heads "for" (by simp)) (by decide)
    obtain ⟨d, hd, hoffset, hscope, hnames⟩ :=
      exists_keyword_of_loop hends hslice hstart hstop hfrontRest
    obtain ⟨hclose, -⟩ := hcloses
    -- the parenthesis that closes the head is followed by the brace of the block
    have hcore : pre.length + (core
        (.loop gap opening isConst space apart p before apart' value behind)).length =
          pre.length + (front
            (.loop gap opening isConst space apart p before apart' value behind)).length +
              value.length + 1 := by
      simp [core, Nat.add_assoc]
    have hblock := byte?_skipTrivia_block hrest
    rw [hcore] at hblock
    have hloop : s.loopScope (pre.length + (3 + gap.text.length)) = .parameters false := by
      rw [loopScope, hclose]
      simp only [hblock, if_true]
    refine hdeclared hoffset ?_ (hscope.trans hloop) (hnames hn) (by simp [hd])
    have hlengths : (Text.ofString "for").length = 3 ∧ (Text.ofString "of").length = 2 := by decide
    simp only [front, List.length_append, List.length_cons, hlengths]
    omega

theorem lbrace_not_mem_front (hflat : h.list.hasObject = false) : Byte.lbrace ∉ h.front := by
  have hword {t : Text} (ht : ∀ b ∈ t, Byte.isWord b = true) : Byte.lbrace ∉ t := fun hmem => by
    have := ht _ hmem
    simp +decide at this
  have hblank (g : Blank) : Byte.lbrace ∉ g.text := fun hmem => by
    have := g.blank _ hmem
    simp +decide at this
  have hlist {l : Binding.Level} {p : Binding l} (hp : p.hasObject = false) : Byte.lbrace ∉ p.text := by
    rw [Binding.lbrace_mem_text, hp]
    exact Bool.false_ne_true
  have hmark : Byte.lbrace ≠ Byte.lparen ∧ Byte.lbrace ≠ Byte.rparen := by decide
  cases h with
  | function space apart name gap opening list behind =>
    have hfunction := hword Recogniser.isWord_function
    simp [front, hfunction, hblank, hword (word_of_isIdentifier name.fits), hmark, hlist (p := list) hflat]
  | arrow opening list gap behind =>
    have harrow : Byte.lbrace ∉ Text.ofString "=>" := by decide
    simp [front, hblank, hmark, hlist (p := list) hflat, harrow]
  | handler gap opening p closing behind =>
    have hcatch := hword Recogniser.isWord_catch
    simp [front, hcatch, hblank, hmark, hlist (p := p) hflat]
  | loop gap opening isConst space apart p before apart' value behind =>
    have hfor := hword (Recogniser.isWord_of_mem_heads "for" (by simp))
    have hof := hword (Recogniser.isWord_of_mem_heads "of" (by simp))
    simp [front, hfor, hof, hword (isWord_keyword isConst), hblank, hmark, hlist (p := p) hflat]

/-- In a head without object patterns no brace is live. -/
theorem Stands.liveByte?_ne (hs : h.Stands pre post) (hflat : h.list.hasObject = false) {k : Nat}
    (hle : pre.length ≤ k) (hlt : k < pre.length + h.text.length) :
    (ofText .code (pre ++ (h.text ++ Byte.lbrace :: post))).liveByte? k ≠ some Byte.lbrace := by
  intro hlive
  have hbyte := (MaskedText.liveByte?_eq_some hlive).2
  rw [byte?_ofText, List.getElem?_append_right hle, List.getElem?_append_left (by omega), text] at hbyte
  have hblank (g : Blank) : Byte.lbrace ∉ g.text := fun hmem => by
    have := g.blank _ hmem
    simp +decide at this
  rcases Nat.lt_or_ge (k - pre.length) h.front.length with hfront | hback
  · rw [List.getElem?_append_left hfront] at hbyte
    exact lbrace_not_mem_front hflat (List.mem_of_getElem? hbyte)
  · rw [List.getElem?_append_right hback] at hbyte
    cases h with
    | function | arrow | handler => exact hblank _ (List.mem_of_getElem? hbyte)
    | loop gap opening isConst space apart p before apart' value behind =>
      rcases Nat.lt_or_ge (k - pre.length - (front
        (.loop gap opening isConst space apart p before apart' value behind)).length) value.length
        with hvalue | hend
      · exact hs.closes.2 k (by omega) (by omega) hlive
      · rw [back, List.getElem?_append_right hend] at hbyte
        rcases List.mem_cons.1 (List.mem_of_getElem? hbyte) with heq | hmem
        · exact absurd heq (by decide)
        · exact hblank _ hmem

/-- Behind a head stands the live brace of its block. -/
theorem Stands.liveByte?_block (hs : h.Stands pre post) :
    (ofText .code (pre ++ (h.text ++ Byte.lbrace :: post))).liveByte? (pre.length + h.text.length) =
      some Byte.lbrace := by
  obtain ⟨v, hrest⟩ := exists_rest_block hs.live hs.closes
  have hbrace := hrest.skip.liveByte?_zero
  rwa [length_live, Nat.add_assoc, ← List.length_append, ← text_eq] at hbrace

/-- The names of a head without object patterns wait for its block. -/
theorem Stands.waits (hs : h.Stands pre post) (hflat : h.list.hasObject = false)
    (hn : n ∈ h.list.names) : (ofText .code (pre ++ (h.text ++ Byte.lbrace :: post))).Waits
      (pre.length + h.text.length) h.isFunction n := by
  obtain ⟨d, hd, hscope, hnames, hstart, hend⟩ := hs.exists_declaration hn
  have hfront : h.front.length ≤ h.text.length := by simp [text]
  exact ⟨d, hd, hscope, hnames, by omega, fun k hk hlt => hs.liveByte?_ne hflat (by omega) hlt⟩

/-- A head without object patterns hides its names in its block. -/
theorem Stands.hides (hs : h.Stands pre post) (hflat : h.list.hasObject = false) {r : Reference}
    (hr : r.Stands (ofText .code (pre ++ (h.text ++ Byte.lbrace :: post))))
    (hname : r.name ∈ h.list.names) (hle : pre.length + h.text.length ≤ r.offset)
    (hlt : r.offset < (ofText .code (pre ++ (h.text ++ Byte.lbrace :: post))).blockEnd
      (pre.length + h.text.length)) :
    (ofText .code (pre ++ (h.text ++ Byte.lbrace :: post))).hides r = true :=
  hides_of_waits (hs.waits hflat hname) hs.liveByte?_block hr hle hlt

end

end Head

end PageLang.Script
