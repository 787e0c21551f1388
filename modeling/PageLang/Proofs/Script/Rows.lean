import PageLang.Proofs.Qualify.Keyword
import PageLang.Proofs.Qualify.Visible
import PageLang.Proofs.Script.Binding

/-!
# Words in rows

In a list of patterns each word is followed by a comma, a colon or a closing bracket, or by another mark
that ends it. No recogniser of declarations but that of arrow functions finds a name behind such a word.

* `Rows`: texts in which one of some marks follows each word.
* `rows_binding`: patterns are such texts.
* `exists_arrow_of_tame`: where words stand in rows, only arrow functions are found.
-/

namespace PageLang

open Cell Qualify

namespace Script

/-! ## Rows -/

/-- The marks that may follow a word in a row. -/
def rowMarks : List UInt8 := [Byte.comma, Byte.colon, Byte.equals, Byte.semicolon, Byte.rparen,
  Byte.rbracket, Byte.rbrace]

theorem of_mem_rowMarks : ∀ b ∈ rowMarks, Byte.isInk b = true ∧ Byte.isWord b = false ∧
    Byte.isSpace b = false ∧ Byte.isWordStart b = false ∧ b ≠ Byte.lbrace ∧ b ≠ Byte.lbracket ∧
    b ≠ Byte.lparen ∧ b ≠ Byte.star :=
  Text.forall_mem_of_all (by decide)

/-- A text that begins with one of the marks, after blanks. -/
def Follows (marks : List UInt8) (t : Text) : Prop :=
  ∃ gap b rest, t = gap ++ b :: rest ∧ Space gap ∧ b ∈ marks

/-- A text that begins with a word, or a part of one, and one of the marks behind it. -/
def RowAt (marks : List UInt8) (t : Text) : Prop :=
  ∃ word u, t = word ++ u ∧ (∀ c ∈ word, Byte.isWord c = true) ∧ Follows marks u

/-- A text in which one of the marks follows each word. -/
def Rows (marks : List UInt8) (t : Text) : Prop :=
  ∀ k, ∀ b ∈ t[k]?, Byte.isWord b = true → RowAt marks (t.drop k)

section
variable {marks : List UInt8} {t : Text}

theorem follows_cons {b : UInt8} (hb : b ∈ marks) (t : Text) : Follows marks (b :: t) :=
  ⟨[], b, t, rfl, by simp [Space], hb⟩

theorem Follows.append {gap : Text} (hgap : Space gap) (h : Follows marks t) :
    Follows marks (gap ++ t) := by
  obtain ⟨gap', b, rest, rfl, hgap', hb⟩ := h
  exact ⟨gap ++ gap', b, rest, by simp, List.forall_mem_append.2 ⟨hgap, hgap'⟩, hb⟩

theorem rows_nil (marks : List UInt8) : Rows marks [] := fun k b hb => by simp at hb

theorem Rows.cons {b : UInt8} (hb : Byte.isWord b = false) (h : Rows marks t) :
    Rows marks (b :: t) := by
  intro k c hc hword
  cases k with
  | zero =>
    obtain rfl : b = c := by simpa using hc
    simp [hb] at hword
  | succ k => exact h k c (by simpa using hc) hword

theorem Rows.append {u : Text} (hu : ∀ b ∈ u, Byte.isWord b = false) (h : Rows marks t) :
    Rows marks (u ++ t) := by
  induction u with
  | nil => exact h
  | cons b u ih => exact (ih fun c hc => hu c (.tail _ hc)).cons (hu b (.head _))

theorem Rows.append_space {gap : Text} (hgap : Space gap) (h : Rows marks t) :
    Rows marks (gap ++ t) :=
  h.append fun b hb => Text.not_word_of_isSpace b (hgap b hb)

theorem Rows.append_word {word : Text} (hword : ∀ c ∈ word, Byte.isWord c = true)
    (hfollows : Follows marks t) (h : Rows marks t) : Rows marks (word ++ t) := by
  intro k c hc hb
  rcases Nat.lt_or_ge k word.length with hlt | hge
  · refine ⟨word.drop k, t, List.drop_append_of_le_length (Nat.le_of_lt hlt), fun d hd => ?_, hfollows⟩
    exact hword d (List.mem_of_mem_drop hd)
  · rw [List.getElem?_append_right hge] at hc
    rw [List.drop_append, List.drop_eq_nil_of_le hge, List.nil_append]
    exact h _ c hc hb

end

/-- The marks that may follow a word in a pattern. -/
def patternMarks : List UInt8 := [Byte.comma, Byte.colon, Byte.rbracket, Byte.rbrace]

/-- In a pattern words stand in rows, if a mark follows it. -/
theorem rows_binding {marks : List UInt8} (hmarks : patternMarks ⊆ marks) {l : Binding.Level}
    (p : Binding l) {t : Text} (hfollows : Follows marks t) (h : Rows marks t) :
    Rows marks (p.text ++ t) := by
  have hmark {b : UInt8} (hb : b ∈ patternMarks) (t : Text) : Follows marks (b :: t) :=
    follows_cons (hmarks hb) t
  induction p generalizing t with
  | name n => exact h.append_word (word_of_isIdentifier n.fits) hfollows
  | shorthand n => exact h.append_word (word_of_isIdentifier n.fits) hfollows
  | array opening inside ih =>
    have hinside := ih (hmark (by decide) t) (h.cons (b := Byte.rbracket) (by decide))
    simpa [Binding.text] using (hinside.append_space opening.blank).cons (b := Byte.lbracket) (by decide)
  | object opening inside ih =>
    have hinside := ih (hmark (by decide) t) (h.cons (b := Byte.rbrace) (by decide))
    simpa [Binding.text] using (hinside.append_space opening.blank).cons (b := Byte.lbrace) (by decide)
  | hole => exact h
  | element p ih => exact ih hfollows h
  | keyed key sp p ih =>
    have hvalue := ((ih hfollows h).append_space sp.after.blank).cons (b := Byte.colon) (by decide)
    have := (hvalue.append_space sp.before.blank).append_word (word_of_isIdentifier key.fits)
      ((hmark (by decide) _).append sp.before.blank)
    simpa [Binding.text, Spacing.around] using this
  | rest gap p ih =>
    have := ((ih hfollows h).append_space gap.blank).append (u := Binding.dots)
      (Text.forall_mem_of_all (by decide))
    simpa [Binding.text] using this
  | last i gap ih =>
    have := ih (hfollows.append gap.blank) (h.append_space gap.blank)
    simpa [Binding.text] using this
  | more i sp others ih ihothers =>
    have hrest := ((ihothers hfollows h).append_space sp.after.blank).cons (b := Byte.comma) (by decide)
    have := ih ((hmark (by decide) _).append sp.before.blank) (hrest.append_space sp.before.blank)
    simpa [Binding.text, Spacing.around] using this

/-! ## What is found in rows -/

theorem isWord_of_mem_declaring : ∀ w ∈ declaring, ∀ c ∈ w, Byte.isWord c = true := by
  have hall : ∀ w ∈ declaring, w.all Byte.isWord = true := by decide
  exact fun w hw => List.all_eq_true.1 (hall w hw)

/-- At an offset stands no word that begins a declaration, or it stands in a row. -/
def Tame (marks : List UInt8) (t : Text) (k : Nat) : Prop :=
  ∀ kw ∈ declaring, kw <+: t.drop k → RowAt marks (t.drop k)

theorem Rows.tame {marks : List UInt8} {t : Text} (h : Rows marks t) (k : Nat) : Tame marks t k := by
  intro kw hkw hprefix
  obtain ⟨rest, hrest⟩ := hprefix
  have hne : ∀ w ∈ declaring, w ≠ [] := by decide
  obtain ⟨b, w, rfl⟩ := List.exists_cons_of_ne_nil (hne kw hkw)
  refine h k b ?_ (isWord_of_mem_declaring _ hkw b (.head _))
  rw [← List.head?_drop, ← hrest]
  rfl

/-- What is found in a range is recognised in the text, which is cut off at the end of the range. -/
theorem exists_of_mem_all_slice {α : Type} {recognise : Text → Text → Option (Text × α)} {t : Text}
    {start stop : Nat} {x : Nat × Nat × α}
    (hx : x ∈ Recogniser.all recognise 0 start [] (t.slice start stop)) :
    start ≤ x.1 ∧ ∃ before b v behind, (t.drop x.1).take (stop - x.1) = b :: v ∧
      recognise before (b :: v) = some (behind, x.2.2) ∧
      x.2.1 = x.1 + ((b :: v).length - behind.length) := by
  obtain ⟨u, b, v, behind, y, heq, -, hrec, rfl⟩ := Recogniser.exists_of_mem_all hx
  refine ⟨Nat.le_add_right _ _, _, b, v, behind, ?_, hrec, rfl⟩
  have := congrArg (List.drop u.length) heq
  rw [List.drop_left] at this
  rw [← this, Text.slice, List.drop_take, List.drop_drop, Nat.sub_sub]

section
variable {marks : List UInt8} (hmarks : marks ⊆ rowMarks) {t : Text} {start stop : Nat}
include hmarks

/-- What stands behind a word that is found in a row. -/
theorem cutWord_of_rowAt {k : Nat} {kw rest : Text} (h : kw <+: t.drop k → RowAt marks (t.drop k))
    (hkw : kw ∈ declaring) (heq : (t.drop k).take (stop - k) = kw ++ rest) :
    ∃ word gap b, Recogniser.CutWord rest word gap b ∧ b ∈ marks := by
  have hprefix : kw <+: t.drop k :=
    (heq ▸ List.prefix_append _ _ : kw <+: (t.drop k).take (stop - k)).trans (List.take_prefix _ _)
  obtain ⟨word, u, hrow, hword, gap, b, r, rfl, hgap, hb⟩ := h hprefix
  have hmark := of_mem_rowMarks b (hmarks hb)
  have hhead : ∀ c ∈ (gap ++ b :: r).head?, Byte.isWord c = false := by
    cases gap with
    | nil => simpa using hmark.2.1
    | cons c gap => simpa using Text.not_word_of_isSpace c (hgap c (.head _))
  rw [hrow] at heq
  obtain ⟨y, rfl, rfl⟩ := exists_of_take (isWord_of_mem_declaring kw hkw) hhead heq
  exact ⟨y, gap, b, ⟨⟨r, _, rfl⟩, fun c hc => hword c (by simp [hc]), hgap, hmark.1, hmark.2.1⟩, hb⟩

/-- A keyword in a row declares nothing. -/
theorem Tame.declaratorNames_eq_nil {x : Nat × Nat × Bool × Option Nat} (h : Tame marks t x.1)
    (hx : x ∈ Recogniser.all Recogniser.keyword 0 start [] (t.slice start stop))
    (hstop : stop ≤ t.length) : (MaskedText.ofText .code t).declaratorNames x.2.1 stop = [] := by
  obtain ⟨-, before, b, v, behind, hslice, hrec, hbehind⟩ := exists_of_mem_all_slice hx
  obtain ⟨w, hw, rest, -, heq, hblank, rfl, -⟩ := Recogniser.keyword_eq_some hrec
  have hkeywords : ∀ w ∈ Recogniser.keywords, Text.ofString w ∈ declaring := by decide
  obtain ⟨word, gap, c, hcut, hc⟩ := cutWord_of_rowAt hmarks (h _ (hkeywords w hw)) (hkeywords w hw)
    (hslice.trans heq)
  have hmark := of_mem_rowMarks c (hmarks hc)
  have hlength := congrArg List.length hslice
  simp only [List.length_take, List.length_drop] at hlength
  refine Script.declaratorNames_eq_nil ?_
  rcases (hcut.of_startsBlank hblank).2 with hnil | ⟨r, hcons⟩
  · left
    rw [hbehind, hnil, List.length_nil]
    omega
  · right
    refine ⟨c, ?_, hmark.2.2.1, hmark.2.2.2.2.1, hmark.2.2.2.2.2.1, hmark.2.2.2.1⟩
    obtain ⟨front, hfront⟩ := Recogniser.suffix_trimStart rest
    have hbytes : b :: v = (Text.ofString w ++ front) ++ c :: r := by
      rw [heq, ← hfront, hcons, List.append_assoc]
    have hget : (b :: v)[(b :: v).length - rest.trimStart.length]? = some c := by
      rw [hcons, hbytes, List.length_append, Nat.add_sub_cancel,
        List.getElem?_append_right (Nat.le_refl _)]
      simp
    rw [← hslice, List.getElem?_take, List.getElem?_drop] at hget
    rw [MaskedText.byte?_ofText, Option.mem_def, hbehind, ← hslice]
    exact (Option.ite_none_right_eq_some.1 hget).2

/-- What begins with a declaring word and is found in a row has a mark of rows behind its word. -/
theorem exists_cutWord_of_mem_all {α : Type} {recognise : Text → Text → Option (Text × α)} {kw : Text}
    (hbegins : Recogniser.BeginsWith recognise kw) (hkw : kw ∈ declaring) {x : Nat × Nat × α}
    (h : kw <+: t.drop x.1 → RowAt marks (t.drop x.1))
    (hx : x ∈ Recogniser.all recognise 0 start [] (t.slice start stop)) :
    ∃ before rest y word gap b, recognise before (kw ++ rest) = some y ∧
      Recogniser.CutWord rest word gap b ∧ b ∈ marks := by
  obtain ⟨-, before, b, v, behind, hslice, hrec, -⟩ := exists_of_mem_all_slice hx
  obtain ⟨rest, -, heq⟩ := hbegins _ _ _ hrec
  obtain ⟨word, gap, c, hcut, hc⟩ := cutWord_of_rowAt hmarks h hkw (hslice.trans heq)
  rw [heq] at hrec
  exact ⟨before, rest, _, word, gap, c, hrec, hcut, hc⟩

/-! Neither a function nor a handler of errors nor a class begins in a row. -/

theorem not_function {x : Nat × Nat × Option Text × Text}
    (h : Text.ofString "function" <+: t.drop x.1 → RowAt marks (t.drop x.1)) :
    x ∉ Recogniser.all Recogniser.function 0 start [] (t.slice start stop) := by
  intro hx
  obtain ⟨_, _, _, _, _, c, hrec, hcut, hc⟩ :=
    exists_cutWord_of_mem_all hmarks Recogniser.beginsWith_function (by decide) h hx
  have hmark := of_mem_rowMarks c (hmarks hc)
  exact hmark.2.2.2.2.2.2.1 (Recogniser.of_function hcut hmark.2.2.2.2.2.2.2 hrec).2.2

theorem not_catchHead {x : Nat × Nat × Text}
    (h : Text.ofString "catch" <+: t.drop x.1 → RowAt marks (t.drop x.1)) :
    x ∉ Recogniser.all Recogniser.catchHead 0 start [] (t.slice start stop) := by
  intro hx
  obtain ⟨_, _, _, _, _, c, hrec, hcut, hc⟩ :=
    exists_cutWord_of_mem_all hmarks Recogniser.beginsWith_catchHead (by decide) h hx
  exact (of_mem_rowMarks c (hmarks hc)).2.2.2.2.2.2.1 (Recogniser.of_catchHead hcut hrec).2.2

theorem not_classHead {x : Nat × Nat × Text}
    (h : Text.ofString "class" <+: t.drop x.1 → RowAt marks (t.drop x.1)) :
    x ∉ Recogniser.all Recogniser.classHead 0 start [] (t.slice start stop) := by
  intro hx
  obtain ⟨_, _, _, _, _, _, hrec, hcut, -⟩ :=
    exists_cutWord_of_mem_all hmarks Recogniser.beginsWith_classHead (by decide) h hx
  rw [Recogniser.classHead_eq_none hcut] at hrec
  cases hrec

/-- Where no function, handler or class begins but in a row, keywords and arrow functions are found. -/
theorem exists_keyword_or_arrow {d : LocalDeclaration}
    (hd : d ∈ (MaskedText.ofText .code t).declarations)
    (h : ∀ kw ∈ ["function", "catch", "class"], Text.ofString kw <+: t.drop d.offset →
      RowAt marks (t.drop d.offset)) :
    d.names ≠ [] ∧ ∃ r ∈ (MaskedText.ofText .code t).statementRanges,
      d ∈ (MaskedText.ofText .code t).keywordLocals r.1 r.2 ∨
        d ∈ (MaskedText.ofText .code t).arrowLocals r.1 r.2 := by
  obtain ⟨r, hr, hd⟩ := List.mem_flatMap.1 hd
  rw [MaskedText.locals, (List.mergeSort_perm _ _).mem_iff, List.mem_filter, Bool.and_eq_true] at hd
  obtain ⟨hd, -, hnames⟩ := hd
  refine ⟨by simpa using hnames, r, hr, ?_⟩
  simp only [List.mem_append] at hd
  rcases hd with (((hd | hd) | hd) | hd) | hd
  · exact .inl hd
  · obtain ⟨x, hx, hmem⟩ := List.mem_flatMap.1 hd
    rw [MaskedText.slice_ofText] at hx
    have hoffset : d.offset = x.1 := by
      simp only [List.mem_cons, List.not_mem_nil, or_false] at hmem
      rcases hmem with rfl | rfl <;> rfl
    rw [hoffset] at h
    exact absurd hx (not_function hmarks (h _ (by simp)))
  · obtain ⟨x, hx, rfl⟩ := List.mem_map.1 hd
    rw [MaskedText.slice_ofText] at hx
    exact absurd hx (not_catchHead hmarks (h _ (by simp)))
  · obtain ⟨x, hx, rfl⟩ := List.mem_map.1 hd
    rw [MaskedText.slice_ofText] at hx
    exact absurd hx (not_classHead hmarks (h _ (by simp)))
  · exact .inr hd

/-- Where words stand in rows, only arrow functions are found. -/
theorem exists_arrow_of_tame {d : LocalDeclaration}
    (hd : d ∈ (MaskedText.ofText .code t).declarations) (h : Tame marks t d.offset) :
    ∃ r ∈ (MaskedText.ofText .code t).statementRanges,
      d ∈ (MaskedText.ofText .code t).arrowLocals r.1 r.2 := by
  have hheads : ∀ kw ∈ ["function", "catch", "class"], Text.ofString kw ∈ declaring := by decide
  obtain ⟨hnames, r, hr, hd | hd⟩ := exists_keyword_or_arrow hmarks hd fun kw hkw => h _ (hheads kw hkw)
  · obtain ⟨x, hx, rfl⟩ := List.mem_map.1 hd
    have hsize := (MaskedText.range_le_size hr).2
    rw [MaskedText.size_ofText] at hsize
    rw [MaskedText.slice_ofText] at hx
    exact absurd (h.declaratorNames_eq_nil hmarks hx hsize) hnames
  · exact ⟨r, hr, hd⟩

end

end Script

end PageLang
