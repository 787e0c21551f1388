import PageLang.Proofs.Qualify.Calm
import PageLang.Proofs.Script.Rows

/-!
# Patterns in a masked text

A pattern that is live as a whole closes the brackets that it opens. So the search for the end of a list
passes over a pattern in it, and a declarator that is a pattern binds the names of the tree.

* `Binding.text_induction`, `Binding.lbrace_mem_text`: the bytes of a pattern.
* `Rest.declarator?_binding`: a pattern as a declarator.
-/

namespace PageLang

open Cell Script

/-! ## The bytes of a pattern -/

namespace Binding

/-- A byte of a pattern that is no bracket. -/
def IsFlat (b : UInt8) : Prop :=
  Byte.isWord b = true ∨ Byte.isSpace b = true ∨ b = Byte.dot ∨ b = Byte.comma ∨ b = Byte.colon

theorem IsFlat.plain : ∀ b, IsFlat b → Byte.isOpening b = false ∧ Byte.isClosing b = false ∧
    b ≠ Byte.lbrace ∧ b ≠ Byte.rbrace :=
  Byte.forall_of_nibbles (by unfold IsFlat; decide)

/-- Patterns are put together from bytes that are no brackets, and from brackets. -/
theorem text_induction {P : Text → Prop} (hflat : ∀ t, (∀ b ∈ t, IsFlat b) → P t)
    (happend : ∀ t u, P t → P u → P (t ++ u))
    (hbracket : ∀ t, P t → P (Byte.lbracket :: (t ++ [Byte.rbracket])))
    (hbrace : ∀ t, P t → P (Byte.lbrace :: (t ++ [Byte.rbrace]))) {l : Level} (p : Binding l) :
    P p.text := by
  have hword {t : Text} (ht : t.isIdentifier = true) : P t :=
    hflat t fun b hb => .inl (word_of_isIdentifier ht b hb)
  have hblank (g : Blank) : P g.text := hflat _ fun b hb => .inr (.inl (g.blank b hb))
  have hmark {b : UInt8} (hb : IsFlat b) (sp : Spacing) : P (sp.around b) :=
    happend _ _ (happend _ _ (hblank sp.before) (hflat [b] (by simpa using hb))) (hblank sp.after)
  induction p with
  | name n => exact hword n.fits
  | shorthand n => exact hword n.fits
  | array opening inside ih => exact hbracket _ (happend _ _ (hblank opening) ih)
  | object opening inside ih => exact hbrace _ (happend _ _ (hblank opening) ih)
  | hole => exact hflat [] (by simp)
  | element p ih => exact ih
  | keyed key sp p ih =>
    exact happend _ _ (happend _ _ (hword key.fits) (hmark (.inr (.inr (.inr (.inr rfl)))) sp)) ih
  | rest gap p ih =>
    have hdots : P dots := hflat _ fun b hb => .inr (.inr (.inl (by simpa [dots] using hb)))
    exact happend _ _ (happend _ _ hdots (hblank gap)) ih
  | last i gap ih => exact happend _ _ ih (hblank gap)
  | more i sp others ih ihothers =>
    exact happend _ _ (happend _ _ ih (hmark (.inr (.inr (.inr (.inl rfl)))) sp)) ihothers

/-- A byte that may stand in a pattern. -/
def Fits (b : UInt8) : Prop :=
  IsFlat b ∨ b ∈ [Byte.lbracket, Byte.rbracket, Byte.lbrace, Byte.rbrace]

theorem fits_text {l : Level} (p : Binding l) : ∀ b ∈ p.text, Fits b := by
  have hbrackets {o c : UInt8} (ho : Fits o) (hc : Fits c) (t : Text) (ht : ∀ b ∈ t, Fits b) :
      ∀ b ∈ o :: (t ++ [c]), Fits b :=
    List.forall_mem_cons.2 ⟨ho, List.forall_mem_append.2 ⟨ht, by simpa using hc⟩⟩
  exact text_induction (P := fun t => ∀ b ∈ t, Fits b) (fun t ht b hb => .inl (ht b hb))
    (fun t u ht hu => List.forall_mem_append.2 ⟨ht, hu⟩)
    (hbrackets (.inr (by decide)) (.inr (by decide)))
    (hbrackets (.inr (by decide)) (.inr (by decide))) p

/-- What a byte of a pattern is not. -/
theorem Fits.plain : ∀ b, Fits b → Byte.isCalm b = true ∧ b ≠ Byte.lparen ∧ b ≠ Byte.rparen ∧
    b ≠ Byte.equals ∧ b ≠ Byte.greater ∧ b ≠ Byte.semicolon :=
  Byte.forall_of_nibbles (by unfold Fits IsFlat; decide)

/-- A brace stands in a pattern if an object pattern does. -/
theorem lbrace_mem_text {l : Level} (p : Binding l) :
    Byte.lbrace ∈ p.text ↔ p.hasObject = true := by
  have hword {t : Text} (ht : t.isIdentifier = true) : Byte.lbrace ∉ t := fun hmem => by
    have := word_of_isIdentifier ht _ hmem
    simp +decide at this
  have hblank (g : Blank) : Byte.lbrace ∉ g.text := fun hmem => by
    have := g.blank _ hmem
    simp +decide at this
  have hmark {b : UInt8} (hb : b ≠ Byte.lbrace) (sp : Spacing) : Byte.lbrace ∉ sp.around b := by
    simp [Spacing.around, hblank, Ne.symm hb]
  induction p with
  | name n => simpa [text, hasObject] using hword n.fits
  | shorthand n => simpa [text, hasObject] using hword n.fits
  | array opening inside ih =>
    simp +decide [text, hasObject, hblank, ih]
  | object opening inside ih => simp [text, hasObject]
  | hole => simp [text, hasObject]
  | element p ih => exact ih
  | keyed key sp p ih =>
    simp [text, hasObject, hword key.fits, hmark (b := Byte.colon) (by decide), ih]
  | rest gap p ih => simp +decide [text, hasObject, dots, hblank, ih]
  | last i gap ih => simp [text, hasObject, hblank, ih]
  | more i sp others ih ihothers =>
    simp [text, hasObject, hmark (b := Byte.comma) (by decide), ih, ihothers]

/-- A pattern closes the braces that it opens. -/
theorem balanced {l : Level} (p : Binding l) : Balanced (live p.text) := by
  refine text_induction (P := fun t => Balanced (live t)) (fun t ht => ?_) (fun t u ht hu => ?_)
    (fun t ht => ?_) (fun t ht => ?_) p
  · exact balanced_live fun b hb => (IsFlat.plain b (ht b hb)).2.2
  · rw [live_append]
    exact ht.append hu
  · rw [live_cons, live_append]
    exact (balanced_live (t := [Byte.lbracket]) (by decide)).append
      (ht.append (balanced_live (by decide)))
  · simpa using ht.braces

end Binding

/-! ## Texts of one statement -/

namespace MaskedText

/-- A text without strings, comments and semicolons that closes the braces it opens. -/
structure Settled (t : Text) : Prop where
  calm : ∀ b ∈ t, Byte.isCalm b = true
  semicolon : Byte.semicolon ∉ t
  balanced : Balanced (live t)

theorem Settled.append {t u : Text} (ht : Settled t) (hu : Settled u) : Settled (t ++ u) where
  calm := List.forall_mem_append.2 ⟨ht.calm, hu.calm⟩
  semicolon := fun h => (List.mem_append.1 h).elim ht.semicolon hu.semicolon
  balanced := by
    rw [live_append]
    exact ht.balanced.append hu.balanced

theorem settled_of_forall {t : Text} (h : ∀ b ∈ t, Byte.isCalm b = true ∧ b ≠ Byte.semicolon ∧
    b ≠ Byte.lbrace ∧ b ≠ Byte.rbrace) : Settled t where
  calm := fun b hb => (h b hb).1
  semicolon := fun hmem => (h _ hmem).2.1 rfl
  balanced := balanced_live fun b hb => (h b hb).2.2

theorem settled_word {t : Text} (h : ∀ b ∈ t, Byte.isWord b = true) : Settled t :=
  settled_of_forall fun b hb =>
    have hplain : ∀ b, Byte.isWord b = true → Byte.isCalm b = true ∧ b ≠ Byte.semicolon ∧
      b ≠ Byte.lbrace ∧ b ≠ Byte.rbrace := Byte.forall_of_nibbles (by decide)
    hplain b (h b hb)

theorem settled_blank (g : Blank) : Settled g.text :=
  settled_of_forall fun b hb =>
    have hplain : ∀ b, Byte.isSpace b = true → Byte.isCalm b = true ∧ b ≠ Byte.semicolon ∧
      b ≠ Byte.lbrace ∧ b ≠ Byte.rbrace := Byte.forall_of_nibbles (by decide)
    hplain b (g.blank b hb)

theorem settled_binding {l : Binding.Level} (p : Binding l) : Settled p.text where
  calm := fun b hb => (Binding.Fits.plain b (p.fits_text b hb)).1
  semicolon := fun hmem => (Binding.Fits.plain _ (p.fits_text _ hmem)).2.2.2.2.2 rfl
  balanced := p.balanced

/-- A statement whose first byte is live is live as a whole. -/
theorem Settled.exists_rest {pre t post : Text} (ht : Settled t) (hne : t ≠ [])
    (hhead : ∀ b ∈ t.head?, b ≠ Byte.newline)
    (hlive : (ofText .code (pre ++ (t ++ post))).isLive pre.length = true) :
    ∃ v, Cell.bytes v = post ∧ (ofText .code (pre ++ (t ++ post))).Rest pre.length (live t ++ v) :=
  exists_rest_of_isLive ht.calm hhead hne (ht.balanced 0) hlive

/-- A range that holds a whole text in which no range ends. -/
theorem exists_range_of_rest {s : MaskedText} {i : Nat} {t : Text} {v : List Cell}
    (h : s.Rest i (live t ++ v)) (hne : t ≠ [])
    (hends : Byte.semicolon ∉ t ∧ Byte.newline ∉ t) :
    ∃ r ∈ s.statementRanges, r.1 ≤ i ∧ i + t.length ≤ r.2 := by
  have hlength : 0 < t.length := List.length_pos_iff.2 hne
  have hsize := h.size_eq
  rw [List.length_append, length_live] at hsize
  obtain ⟨r, hr, hle, hlt⟩ := s.exists_range (k := i) (by omega)
  obtain ⟨-, -, -, -, hlast⟩ := of_mem_rangesFrom (Nat.le_refl _) hr
  refine ⟨r, hr, hle, Nat.le_of_not_lt fun hshort => ?_⟩
  have hend := hlast (by omega)
  rw [show r.2 - 1 = i + (r.2 - 1 - i) by omega, endsRange_eq_false h (fun c hc _ => ?_)
    (by rw [length_live]; omega)] at hend
  · cases hend
  · obtain ⟨b, hb, rfl⟩ := List.mem_map.1 hc
    exact ⟨fun heq => hends.1 (heq ▸ hb), fun heq => hends.2 (heq ▸ hb)⟩

/-- A declaration that is found in a range of live text. -/
theorem mem_declarations_of_range {s : MaskedText} {r : Nat × Nat} (hr : r ∈ s.statementRanges)
    {d : LocalDeclaration} (hd : d ∈ s.keywordLocals r.1 r.2 ++ s.functionLocals r.1 r.2 ++
      s.catchLocals r.1 r.2 ++ s.classLocals r.1 r.2 ++ s.arrowLocals r.1 r.2)
    (hlive : s.isLive d.offset = true) (hnames : d.names ≠ []) : d ∈ s.declarations := by
  refine List.mem_flatMap.2 ⟨r, hr, ?_⟩
  rw [locals, (List.mergeSort_perm _ _).mem_iff, List.mem_filter]
  exact ⟨hd, by simp [hlive, hnames]⟩

/-! ## Brackets -/

/-- A search for the end of a list passes over a text. -/
def Matched (t : Text) : Prop :=
  ∀ (s : MaskedText) (i : Nat) (v : List Cell) (depth n : Nat), s.Rest i (live t ++ v) →
    s.closing? Byte.isOpening Byte.isClosing (depth + 1) i (t.length + n) =
      s.closing? Byte.isOpening Byte.isClosing (depth + 1) (i + t.length) n

theorem Matched.append {t u : Text} (ht : Matched t) (hu : Matched u) : Matched (t ++ u) := by
  intro s i v depth n h
  rw [live_append, List.append_assoc] at h
  have hrest := h.skip
  rw [length_live] at hrest
  rw [List.length_append, Nat.add_assoc, ht s i _ depth _ h, hu s _ v depth n hrest, Nat.add_assoc]

theorem matched_of_forall {t : Text}
    (ht : ∀ b ∈ t, Byte.isOpening b = false ∧ Byte.isClosing b = false) : Matched t := by
  intro s i v depth n h
  rw [← length_live t]
  refine h.closing?_skip fun c hc _ => ?_
  obtain ⟨b, hb, rfl⟩ := List.mem_map.1 hc
  exact ht b hb

/-- It passes over brackets with what is inside of them. -/
theorem Matched.brackets {t : Text} (ht : Matched t) {o c : UInt8} (ho : Byte.isOpening o = true)
    (hc : Byte.isOpening c = false ∧ Byte.isClosing c = true) : Matched (o :: (t ++ [c])) := by
  intro s i v depth n h
  rw [live_cons, live_append, List.cons_append, List.append_assoc] at h
  have hclose := h.tail.skip
  rw [length_live] at hclose
  have hcount : (o :: (t ++ [c])).length + n = (t.length + (n + 1)) + 1 := by
    simp only [List.length_cons, List.length_append, List.length_nil]
    omega
  rw [hcount, closing?, h.liveByte?_zero]
  simp only [Bool.false_eq_true, if_false, ho, if_true]
  rw [ht s (i + 1) _ (depth + 1) (n + 1) h.tail, closing?,
    show s.liveByte? (i + 1 + t.length) = some c from hclose.liveByte?_zero]
  simp only [hc, Bool.false_eq_true, if_false, if_true]
  rw [if_neg (by omega), Nat.add_sub_cancel]
  congr 1
  simp only [List.length_cons, List.length_append, List.length_nil]
  omega

/-- It passes over patterns. -/
theorem matched_binding {l : Binding.Level} (p : Binding l) : Matched p.text :=
  Binding.text_induction
    (fun t ht => matched_of_forall fun b hb =>
      have hplain := Binding.IsFlat.plain b (ht b hb)
      ⟨hplain.1, hplain.2.1⟩)
    (fun _ _ => Matched.append) (fun _ ht => ht.brackets (by decide) (by decide))
    (fun _ ht => ht.brackets (by decide) (by decide)) p

/-- It passes over blanks. -/
theorem matched_blank (g : Blank) : Matched g.text := matched_of_forall fun b hb => by
  rcases Text.eq_of_isSpace (g.blank b hb) with rfl | rfl | rfl | rfl | rfl <;> decide

namespace Rest

variable {s : MaskedText} {i : Nat} {v : List Cell}

theorem liveByte?_of_live {t : Text} (h : s.Rest i (live t ++ v)) {j : Nat} {b : UInt8}
    (hb : t[j]? = some b) : s.liveByte? (i + j) = some b := by
  obtain ⟨hj, hget⟩ := List.getElem?_eq_some_iff.1 hb
  rw [h.liveByte?, List.getElem?_append_left (by rwa [length_live])]
  simp [live, hb]

theorem isLive_of_live {t : Text} (h : s.Rest i (live t ++ v)) {j : Nat} (hj : j < t.length) :
    s.isLive (i + j) = true := by
  have hlive := h.liveByte?_of_live (List.getElem?_eq_getElem hj)
  obtain ⟨hmask, hbyte⟩ := MaskedText.liveByte?_eq_some hlive
  simp [isLive, hmask, byte?_eq_some_lt hbyte]

/-- The bracket that closes the one at an offset. -/
theorem closingBracket? {t : Text} (ht : Matched t) {o c : UInt8} (ho : Byte.isOpening o = true)
    (hc : Byte.isOpening c = false ∧ Byte.isClosing c = true) {stop : Nat}
    (h : s.Rest i (live (o :: (t ++ [c])) ++ v)) (hstop : i + 1 + t.length < stop) :
    s.closingBracket? i stop = some (i + 1 + t.length) := by
  rw [live_cons, live_append, List.cons_append, List.append_assoc] at h
  have hclose := h.tail.skip
  rw [length_live] at hclose
  rw [MaskedText.closingBracket?, show stop - i = (t.length + ((stop - i - t.length - 2) + 1)) + 1 by omega,
    MaskedText.closing?, h.liveByte?_zero]
  simp only [Bool.false_eq_true, if_false, ho, if_true]
  rw [ht s (i + 1) _ 0 _ h.tail, MaskedText.closing?,
    show s.liveByte? (i + 1 + t.length) = some c from hclose.liveByte?_zero]
  simp [hc]

/-- A pattern as a declarator binds the names of the tree. -/
theorem declarator?_binding (p : Binding .pattern) {c : Cell} {stop : Nat}
    (h : s.Rest i (live p.text ++ c :: v)) (hc : Byte.isWord c.1 = false)
    (hstop : i + p.text.length < stop) :
    s.declarator? i stop = some (p.names, i + p.text.length) := by
  have hbrackets {o close : UInt8} {inside : Text}
      (ho : o = Byte.lbrace ∨ o = Byte.lbracket) (hmatched : Matched inside)
      (hopening : Byte.isOpening o = true)
      (hclosing : Byte.isOpening close = false ∧ Byte.isClosing close = true)
      (h : s.Rest i (live (o :: (inside ++ [close])) ++ c :: v))
      (hstop : i + (o :: (inside ++ [close])).length < stop) :
      s.declarator? i stop =
        some (Pattern.names inside, i + (o :: (inside ++ [close])).length) := by
    simp only [List.length_cons, List.length_append, List.length_nil] at hstop ⊢
    have hbyte : s.byte? i = some o := by
      rw [h.byte?_zero]
      rfl
    have hinside : s.slice (i + 1) (i + 1 + inside.length) = inside := by
      rw [live_cons, live_append, List.cons_append, List.append_assoc] at h
      have := h.tail.slice
      rwa [length_live, bytes_live] at this
    rw [MaskedText.declarator?, hbyte]
    dsimp only
    rw [if_pos ho, h.closingBracket? hmatched hopening hclosing (by omega), Option.map_some, hinside]
    simp only [Option.some.injEq, Prod.mk.injEq, true_and]
    omega
  cases p with
  | name n =>
    obtain ⟨b, rest, hcons, hb, hrest⟩ := Text.exists_of_isIdentifier n.fits
    have hbyte : s.byte? i = some b := by
      rw [h.byte?_zero, Binding.text, hcons]
      rfl
    have hnot := Byte.not_space_of_isWordStart b hb
    have hend : s.skipWhile Byte.isWord (i + 1) stop = i + n.text.length := by
      rw [Binding.text, hcons, live_cons, List.cons_append] at h
      rw [Binding.text, hcons, List.length_cons] at hstop
      have := h.tail.skipWhile (w := live rest) Byte.isWord stop (by simpa [live] using hrest) hc
        (by rw [length_live]; omega)
      rw [this, hcons, length_live, List.length_cons]
      omega
    have hslice : s.slice i (i + n.text.length) = n.text := by
      have := h.slice
      rwa [length_live, bytes_live] at this
    rw [MaskedText.declarator?, hbyte]
    simp [hnot, hb, hend, hslice, Binding.text, Binding.names]
  | array opening inside =>
    rw [hbrackets (.inr rfl) ((matched_blank opening).append (matched_binding inside)) (by decide) (by decide)
      h hstop, inside.names_text opening]
    rfl
  | object opening inside =>
    rw [hbrackets (.inl rfl) ((matched_blank opening).append (matched_binding inside)) (by decide) (by decide)
      h hstop, inside.names_text opening]
    rfl

theorem gapEnd_space {gap : Text} (hgap : Space gap) (h : s.Rest i (live gap ++ v)) (n : Nat) :
    s.gapEnd .blank i (gap.length + n) = s.gapEnd .blank (i + gap.length) n := by
  induction gap generalizing i with
  | nil => simp
  | cons b gap ih =>
    have hbyte : s.byte? i = some b := by
      rw [h.byte?_zero]
      rfl
    rw [List.length_cons, show gap.length + 1 + n = (gap.length + n) + 1 by omega, MaskedText.gapEnd,
      hbyte, if_pos (by simpa using hgap b (.head _)), ih (fun c hc => hgap c (.tail _ hc)) h.tail]
    congr 1
    omega

/-- Trivia that is blank space ends in front of a live byte. -/
theorem skipTrivia_space {gap : Text} (hgap : Space gap) {b : UInt8} {m : Bool}
    (hb : Byte.isSpace b = false ∧ b ≠ Byte.slash) (h : s.Rest i (live gap ++ (b, m) :: v)) :
    s.skipTrivia i = i + gap.length := by
  have hsize := h.size_eq
  rw [List.length_append, List.length_cons, length_live] at hsize
  have hstart : ∀ pattern : Text, pattern.head? = some Byte.slash →
      s.startsAt pattern (i + gap.length) = false := by
    intro pattern hpattern
    have hrest := h.skip
    rw [length_live] at hrest
    rw [hrest.startsAt]
    cases pattern with
    | nil => simp at hpattern
    | cons c pattern =>
      obtain rfl : c = Byte.slash := by simpa using hpattern
      simp [hb.2]
  have hbyte : s.byte? (i + gap.length) = some b := by
    have hrest := h.skip
    rw [length_live] at hrest
    exact hrest.byte?_zero
  rw [MaskedText.skipTrivia, show min i s.size = i by omega,
    show s.size - i = gap.length + (v.length + 1) by omega, h.gapEnd_space hgap, MaskedText.gapEnd,
    hbyte, if_neg (by simp [hb.1]), if_neg (by simp [hstart "//" (by decide)]),
    if_neg (by simp [hstart "/*" (by decide)])]

end Rest

end MaskedText

end PageLang
