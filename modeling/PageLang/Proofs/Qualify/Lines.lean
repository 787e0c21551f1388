import PageLang.Proofs.Qualify.Shadowed
import PageLang.Proofs.Script.Declaration

/-!
# Declarations on more lines

Declarations are looked for in ranges that end at newlines. So of a declaration that is written on more
lines, the names on the line of its keyword are declared, and no others.

* `Declarators.declaratorNames_eq`: the names that are read from a list of declarators.
* `Declaration.mem_onLine_iff`: the names that a declaration hides in its block, wherever it stands.
-/

namespace PageLang

open Cell Script

/-! ## Lines -/

namespace Text

/-- The number of bytes in front of the first newline, or of all if there is none. -/
def lineLength (t : Text) : Nat := (t.takeWhile (· != Byte.newline)).length

theorem lineLength_of_not_mem {t : Text} (h : Byte.newline ∉ t) (u : Text) :
    lineLength (t ++ u) = t.length + lineLength u := by
  have hall : ∀ b ∈ t, (b != Byte.newline) = true := fun b hb => by
    simpa using fun heq : b = Byte.newline => h (heq ▸ hb)
  rw [lineLength, List.takeWhile_append_of_pos hall, List.length_append]
  rfl

theorem lineLength_eq_length {t : Text} (h : Byte.newline ∉ t) : lineLength t = t.length := by
  have := lineLength_of_not_mem h []
  rwa [List.append_nil] at this

theorem lineLength_of_mem {t : Text} (h : Byte.newline ∈ t) (u : Text) :
    lineLength (t ++ u) = lineLength t ∧ lineLength t < t.length := by
  obtain ⟨a, c, rfl, ha⟩ := List.eq_append_cons_of_mem h
  have hcut (v : Text) : lineLength (a ++ Byte.newline :: v) = a.length := by
    rw [lineLength_of_not_mem ha]
    simp [lineLength]
  rw [List.append_assoc, List.cons_append, hcut, hcut]
  simp

/-- Behind the first line stands a newline, or what follows the text. -/
theorem getElem?_lineLength (t u : Text) : (t ++ u)[lineLength t]? = some Byte.newline ∨
    Byte.newline ∉ t ∧ (t ++ u)[lineLength t]? = u.head? := by
  by_cases h : Byte.newline ∈ t
  · left
    obtain ⟨a, c, rfl, ha⟩ := List.eq_append_cons_of_mem h
    rw [lineLength_of_not_mem ha]
    simp [lineLength]
  · right
    rw [lineLength_eq_length h, List.getElem?_append_right (Nat.le_refl _), Nat.sub_self,
      List.head?_eq_getElem?]
    exact ⟨h, rfl⟩

/-- In the first line stands no newline. -/
theorem not_newline_of_lt_lineLength {t : Text} {j : Nat} (hj : j < lineLength t) :
    ∃ b ∈ t, t[j]? = some b ∧ b ≠ Byte.newline := by
  have hlt : j < (t.takeWhile (· != Byte.newline)).length := hj
  have hall := List.all_eq_true.1 (List.all_takeWhile (l := t) (p := fun b => b != Byte.newline)) _
    (List.getElem_mem hlt)
  have hprefix := List.takeWhile_prefix (fun b => b != Byte.newline) (l := t)
  refine ⟨_, hprefix.subset (List.getElem_mem hlt), ?_, by simpa using hall⟩
  rw [List.getElem?_eq_getElem (Nat.lt_of_lt_of_le hlt hprefix.length_le), hprefix.getElem]

end Text

/-! ## Searches that end at a newline -/

namespace MaskedText

/-- A bracket that closes another one does so however far the search goes. -/
theorem closing?_mono {s : MaskedText} {opens closes : UInt8 → Bool} {depth i n m j : Nat}
    (h : s.closing? opens closes depth i n = some j) (hle : n ≤ m) :
    s.closing? opens closes depth i m = some j := by
  induction n generalizing depth i m with
  | zero => simp [closing?] at h
  | succ n ih =>
    obtain ⟨m, rfl⟩ : ∃ k, m = k + 1 := ⟨m - 1, by omega⟩
    rw [closing?] at h ⊢
    split at h
    · exact ih h (by omega)
    · split at h
      · next hopens =>
        simp only [hopens, if_true]
        exact ih h (by omega)
      · next hopens =>
        simp only [hopens, Bool.false_eq_true, if_false]
        split at h
        · next hcloses =>
          simp only [hcloses, if_true]
          split at h
          · next hdepth => rwa [if_pos hdepth]
          · next hdepth =>
            rw [if_neg hdepth]
            exact ih h (by omega)
        · next hcloses =>
          simp only [hcloses, Bool.false_eq_true, if_false]
          exact ih h (by omega)

namespace Rest

variable {s : MaskedText} {i : Nat} {v : List Cell}

/-- A pattern that is cut off by a newline is no declarator. -/
theorem declarator?_eq_none (p : Binding .pattern) (h : s.Rest i (live p.text ++ v)) {stop : Nat}
    (hnewline : Byte.newline ∈ p.text) (hstop : stop ≤ i + p.text.lineLength + 1) :
    s.declarator? i stop = none := by
  have hcut : p.text.lineLength < p.text.length := (Text.lineLength_of_mem hnewline []).2
  have hbrackets {o close : UInt8} {inside : Text} (htext : p.text = o :: (inside ++ [close]))
      (ho : o = Byte.lbrace ∨ o = Byte.lbracket) (hmatched : Matched inside)
      (hopening : Byte.isOpening o = true)
      (hclosing : Byte.isOpening close = false ∧ Byte.isClosing close = true)
      (hclose : close ≠ Byte.newline) : s.declarator? i stop = none := by
    rw [htext] at h hcut hstop hnewline
    have hbyte : s.byte? i = some o := by
      rw [h.byte?_zero]
      rfl
    -- the bracket behind the newline would close this one
    have hlast : Text.lineLength (o :: (inside ++ [close])) < inside.length + 1 := by
      have hfront : Byte.newline ∈ o :: inside := by
        rw [← List.cons_append, List.mem_append, List.mem_singleton] at hnewline
        exact hnewline.resolve_right (Ne.symm hclose)
      have := Text.lineLength_of_mem hfront [close]
      rw [List.cons_append] at this
      rw [this.1]
      simpa using this.2
    have hnone : s.closingBracket? i stop = none := by
      rw [Option.eq_none_iff_forall_ne_some]
      intro j hj
      have hfull := h.closingBracket? hmatched hopening hclosing
        (show i + 1 + inside.length < i + inside.length + 2 by omega)
      have hmono : s.closingBracket? i (i + inside.length + 2) = some j :=
        closing?_mono hj (by omega)
      have := closing?_eq_some hj
      rw [hmono, Option.some.injEq] at hfull
      omega
    rw [MaskedText.declarator?, hbyte]
    dsimp only
    rw [if_pos ho, hnone, Option.map_none]
  cases p with
  | name n =>
    have := word_of_isIdentifier n.fits _ hnewline
    simp +decide at this
  | array opening inside =>
    exact hbrackets rfl (.inr rfl) ((matched_blank opening).append (matched_binding inside)) (by decide)
      (by decide) (by decide)
  | object opening inside =>
    exact hbrackets rfl (.inl rfl) ((matched_blank opening).append (matched_binding inside)) (by decide)
      (by decide) (by decide)

/-- Skipping ends where the range does, if all bytes up to there satisfy `p`. -/
theorem skipWhile_of_all {w : List Cell} (p : UInt8 → Bool) (h : s.Rest i (w ++ v))
    (hw : ∀ d ∈ w, p d.1 = true) {stop : Nat} (hle : i ≤ stop) (hstop : stop ≤ i + w.length) :
    s.skipWhile p i stop = stop := by
  have hskip : ∀ j < stop - i, (!(s.byte? (i + j)).any p) = false := by
    intro j hj
    have hj : j < w.length := by omega
    rw [h.byte?, List.getElem?_append_left hj, List.getElem?_eq_getElem hj]
    simpa using hw _ (List.getElem_mem hj)
  have hnone := firstFrom?_skip (p := fun j => !(s.byte? j).any p) (n := 0) hskip
  rw [Nat.add_zero] at hnone
  rw [MaskedText.skipWhile, hnone, MaskedText.firstFrom?, Option.getD_none]

/-- A byte of a value, or of the blanks around it. -/
def IsPlain (b : UInt8) : Prop := Byte.isSpace b = true ∨ b = Byte.equals ∨ Byte.isWord b = true

theorem inner_live {t : Text} (ht : ∀ b ∈ t, IsPlain b) : Inner (live t) := by
  refine inner_of_plain fun c hc _ => ?_
  obtain ⟨b, hb, rfl⟩ := List.mem_map.1 hc
  have hplain : ∀ b, IsPlain b → Byte.isOpening b = false ∧ Byte.isClosing b = false ∧
      b ≠ Byte.comma ∧ b ≠ Byte.semicolon := Byte.forall_of_nibbles (by unfold IsPlain; decide)
  exact hplain b (ht b hb)

/-- Behind a value that is cut off no declarator is found. -/
theorem nextDeclarator?_cut {t : Text} (ht : ∀ b ∈ t, IsPlain b) (h : s.Rest i (live t ++ v)) {n : Nat}
    (hn : n ≤ t.length) : s.nextDeclarator? 0 i n = none := by
  rw [← List.take_append_drop n t, live_append, List.append_assoc] at h
  have hpass := h.nextDeclarator? (inner_live (fun b hb => ht b (List.mem_of_mem_take hb)) 0) 0
  rw [length_live, List.length_take, Nat.min_eq_left hn, Nat.add_zero] at hpass
  rw [hpass]
  rfl

/-- Behind a value stands a semicolon, or a comma and the next declarator. -/
theorem nextDeclarator?_end {t : Text} (ht : ∀ b ∈ t, IsPlain b)
    (h : s.Rest i (live t ++ (Byte.semicolon, false) :: v)) (n : Nat) :
    s.nextDeclarator? 0 i (t.length + (n + 1)) = none := by
  have hpass := h.nextDeclarator? (inner_live ht 0) (n + 1)
  have hend := h.skip
  rw [length_live] at hpass hend
  rw [hpass, MaskedText.nextDeclarator?, hend.liveByte?_zero]
  rfl

theorem nextDeclarator?_comma {t : Text} (ht : ∀ b ∈ t, IsPlain b)
    (h : s.Rest i (live t ++ (Byte.comma, false) :: v)) (n : Nat) :
    s.nextDeclarator? 0 i (t.length + (n + 1)) = some (i + t.length + 1) := by
  have hpass := h.nextDeclarator? (inner_live ht 0) (n + 1)
  have hend := h.skip
  rw [length_live] at hpass hend
  rw [hpass, MaskedText.nextDeclarator?, hend.liveByte?_zero]
  rfl

/-- The first of some declarators, in a range that ends at a newline or at the semicolon. -/
theorem declaratorNames_first {p : Binding .pattern} {gap : Blank} {u : Text} {stop : Nat}
    (h : s.Rest i (live (gap.text ++ (p.text ++ u)) ++ (Byte.semicolon, false) :: v))
    (hu : ∀ b ∈ u.head?, Byte.isWord b = false)
    (hstop : stop = i + Text.lineLength (gap.text ++ (p.text ++ u)) + 1) :
    s.declaratorNames i stop = if Byte.newline ∈ gap.text then [] else
      if Byte.newline ∈ p.text then [] else
        match s.nextDeclarator? 0 (i + gap.text.length + p.text.length) (Text.lineLength u + 1) with
        | none => p.names
        | some next => p.names ++ s.declaratorNames next stop := by
  have hcells : live (gap.text ++ (p.text ++ u)) ++ (Byte.semicolon, false) :: v =
      live gap.text ++ (live (p.text ++ u) ++ (Byte.semicolon, false) :: v) := by simp
  rw [hcells] at h
  by_cases hgap : Byte.newline ∈ gap.text
  · rw [if_pos hgap]
    obtain ⟨heq, hlt⟩ := Text.lineLength_of_mem hgap (p.text ++ u)
    refine declaratorNames_of_none (h.skipWhile_of_all Byte.isSpace ?_ (by omega)
      (by rw [length_live]; omega)) fun hlt => absurd hlt (Nat.lt_irrefl _)
    intro d hd
    obtain ⟨b, hb, rfl⟩ := List.mem_map.1 hd
    exact gap.blank b hb
  rw [if_neg hgap]
  rw [Text.lineLength_of_not_mem hgap] at hstop
  -- blanks are skipped up to the pattern
  obtain ⟨b, t, hp, hink⟩ := p.stands.ink.first
  have hskip : s.skipWhile Byte.isSpace i stop = i + gap.text.length := by
    have hrest := h
    rw [hp, List.cons_append, live_cons, List.cons_append] at hrest
    have := hrest.skipWhile Byte.isSpace stop ?_ (Byte.isSpace_of_isInk b hink)
      (by rw [length_live]; omega)
    · rwa [length_live] at this
    · intro d hd
      obtain ⟨c, hc, rfl⟩ := List.mem_map.1 hd
      exact gap.blank c hc
  have hpattern := h.skip
  rw [length_live, live_append, List.append_assoc] at hpattern
  by_cases hnewline : Byte.newline ∈ p.text
  · rw [if_pos hnewline]
    rw [(Text.lineLength_of_mem hnewline u).1] at hstop
    exact declaratorNames_of_none hskip fun _ =>
      hpattern.declarator?_eq_none p hnewline (by omega)
  rw [if_neg hnewline]
  rw [Text.lineLength_of_not_mem hnewline] at hstop
  obtain ⟨c, w, hcons, hc⟩ : ∃ c w, live u ++ (Byte.semicolon, false) :: v = c :: w ∧
      Byte.isWord c.1 = false := by
    cases u with
    | nil => exact ⟨_, _, rfl, by decide⟩
    | cons b u => exact ⟨_, _, rfl, hu b rfl⟩
  rw [hcons] at hpattern
  have hnames := declaratorNames_eq hskip (by omega) (hpattern.declarator?_binding p hc (by omega))
  rw [show stop - (i + gap.text.length + p.text.length) = Text.lineLength u + 1 by omega] at hnames
  exact hnames

end Rest

end MaskedText

/-! ## The names of a list of declarators -/

namespace Lines

open MaskedText Script Qualify

theorem isPlain_of_isSpace {gap : Text} (hgap : ∀ b ∈ gap, Byte.isSpace b = true) :
    ∀ b ∈ gap, Rest.IsPlain b := fun b hb => .inl (hgap b hb)

/-- No word touches the pattern of a declarator, if none follows its value. -/
theorem Declarator.not_word_append (d : Declarator) {t : Text}
    (ht : ∀ b ∈ t.head?, Byte.isWord b = false) : ∀ b ∈ (d.back ++ t).head?, Byte.isWord b = false := by
  cases hback : d.back with
  | nil => exact ht
  | cons c u =>
    have := d.not_word_back
    rw [hback] at this
    exact this

/-- The names that are read from declarators are those that stand on the line. -/
theorem Declarators.declaratorNames_eq (ds : Declarators) {s : MaskedText} {i stop : Nat} (gap : Blank)
    {v : List Cell} (h : s.Rest i (live (gap.text ++ ds.text) ++ (Byte.semicolon, false) :: v))
    (hstop : stop = i + Text.lineLength (gap.text ++ ds.text) + 1) :
    s.declaratorNames i stop = if Byte.newline ∈ gap.text then [] else ds.onLine := by
  -- what stands behind the first pattern
  have hbehind {p : Binding .pattern} {u : Text} {i : Nat} {gap : Blank}
      (h : s.Rest i (live (gap.text ++ (p.text ++ u)) ++ (Byte.semicolon, false) :: v)) :
      s.Rest (i + gap.text.length + p.text.length) (live u ++ (Byte.semicolon, false) :: v) := by
    rw [live_append, live_append, List.append_assoc, List.append_assoc] at h
    simpa using h.skip.skip
  induction ds generalizing i gap with
  | last d behind =>
    have hplain : ∀ b ∈ d.back ++ behind.text, Rest.IsPlain b :=
      List.forall_mem_append.2 ⟨d.of_mem_back, isPlain_of_isSpace behind.blank⟩
    have htext : gap.text ++ (last d behind).text =
        gap.text ++ (d.target.text ++ (d.back ++ behind.text)) := by
      simp [text, Declarator.text]
    have hhead : ∀ b ∈ (d.back ++ behind.text).head?, Byte.isWord b = false :=
      d.not_word_append fun b hb =>
        Text.not_word_of_isSpace b (behind.blank b (List.mem_of_mem_head? hb))
    rw [htext] at h hstop
    have hnone : s.nextDeclarator? 0 (i + gap.text.length + d.target.text.length)
        (Text.lineLength (d.back ++ behind.text) + 1) = none := by
      by_cases hnewline : Byte.newline ∈ d.back ++ behind.text
      · exact (hbehind h).nextDeclarator?_cut hplain (Text.lineLength_of_mem hnewline []).2
      · rw [Text.lineLength_eq_length hnewline]
        exact (hbehind h).nextDeclarator?_end hplain 0
    rw [h.declaratorNames_first hhead hstop, hnone, onLine]
  | more d sp others ih =>
    have hplain : ∀ b ∈ d.back ++ sp.before.text, Rest.IsPlain b :=
      List.forall_mem_append.2 ⟨d.of_mem_back, isPlain_of_isSpace sp.before.blank⟩
    generalize hw : d.back ++ sp.before.text = w at hplain
    have htext : gap.text ++ (more d sp others).text = gap.text ++
        (d.target.text ++ (w ++ Byte.comma :: (sp.after.text ++ others.text))) := by
      simp [text, Declarator.text, Spacing.around, ← hw]
    have hhead : ∀ b ∈ (w ++ Byte.comma :: (sp.after.text ++ others.text)).head?,
        Byte.isWord b = false := by
      rw [← hw, List.append_assoc]
      refine d.not_word_append ?_
      cases hspace : sp.before.text with
      | nil => simp +decide
      | cons c t => simpa using Text.not_word_of_isSpace c (sp.before.blank c (by simp [hspace]))
    have hcomma : Byte.newline ∈ d.back ++ sp.around Byte.comma ↔
        Byte.newline ∈ w ∨ Byte.newline ∈ sp.after.text := by
      simp +decide [Spacing.around, ← hw, or_assoc]
    rw [htext] at h hstop
    rw [h.declaratorNames_first hhead hstop, onLine]
    by_cases hgap : Byte.newline ∈ gap.text
    · rw [if_pos hgap, if_pos hgap]
    rw [if_neg hgap, if_neg hgap]
    by_cases hpattern : Byte.newline ∈ d.target.text
    · rw [if_pos hpattern, if_pos hpattern]
    rw [if_neg hpattern, if_neg hpattern]
    have hrest := hbehind h
    rw [live_append, live_cons, List.append_assoc, List.cons_append] at hrest
    by_cases hnewline : Byte.newline ∈ w
    · -- the line ends in front of the comma
      obtain ⟨hlength, hlt⟩ :=
        Text.lineLength_of_mem hnewline (Byte.comma :: (sp.after.text ++ others.text))
      rw [hlength, hrest.nextDeclarator?_cut hplain hlt, if_pos (hcomma.2 (.inl hnewline)),
        List.append_nil]
    · have hlength : Text.lineLength (w ++ Byte.comma :: (sp.after.text ++ others.text)) =
          w.length + (Text.lineLength (sp.after.text ++ others.text) + 1) := by
        have := Text.lineLength_of_not_mem (t := [Byte.comma]) (by decide) (sp.after.text ++ others.text)
        rw [Text.lineLength_of_not_mem hnewline]
        simp only [List.singleton_append, List.length_singleton] at this
        omega
      have hnext := hrest.skip.tail
      rw [length_live] at hnext
      rw [Text.lineLength_of_not_mem hgap, Text.lineLength_of_not_mem hpattern, hlength] at hstop
      rw [hlength, Nat.add_assoc w.length, hrest.nextDeclarator?_comma hplain]
      dsimp only
      rw [ih sp.after hnext (by omega)]
      simp only [hcomma, hnewline, false_or]

/-! ## A declaration in a body -/

/-- Where a statement starts, the text in front ends with a semicolon or a brace, or is blank. -/
theorem exists_ends {pre : Text} (h : Mask.startsStatement pre.reverse = true) :
    ∃ last, Ends last pre ∧ last ≠ some Byte.lparen ∧ last ≠ some Byte.dot ∧
      last ≠ some Byte.space := by
  have hsplit : pre = (pre.reverse.dropWhile Byte.isSpace).reverse ++
      (pre.reverse.takeWhile Byte.isSpace).reverse := by
    rw [← List.reverse_append, List.takeWhile_append_dropWhile, List.reverse_reverse]
  have hspace : Space (pre.reverse.takeWhile Byte.isSpace).reverse := fun b hb =>
    List.all_eq_true.1 List.all_takeWhile b (List.mem_reverse.1 hb)
  unfold Mask.startsStatement at h
  rw [hsplit]
  split at h
  · next hnil =>
    rw [hnil, List.reverse_nil, List.nil_append]
    exact ⟨none, .start hspace, by simp, by simp, by simp⟩
  · next b rest hcons =>
    rw [hcons, List.reverse_cons, List.append_assoc, List.singleton_append]
    have hb : b ∈ marks ∧ b ≠ Byte.lparen ∧ b ≠ Byte.dot ∧ b ≠ Byte.space := by
      simp only [Bool.or_eq_true, beq_iff_eq] at h
      rcases h with (rfl | rfl) | rfl <;> decide
    exact ⟨some b, .mark _ hb.1 hspace hb.2.2.1, by simpa using hb.2.1, by simpa using hb.2.2.1,
      by simpa using hb.2.2.2⟩

namespace Declaration

/-- What stands behind the keyword of a declaration. -/
def behind (D : Declaration) (post : Text) : Text :=
  D.space.text ++ (D.list.text ++ Byte.semicolon :: post)

theorem text_append (D : Declaration) (post : Text) :
    D.text ++ post = Text.ofString D.keyword ++ D.behind post := by
  simp [text, front, behind]

/-- What stands behind the keyword up to the end of its range. -/
def line (D : Declaration) (post : Text) : Text :=
  (D.behind post).take (Text.lineLength (D.space.text ++ D.list.text) + 1)

theorem lineLength_front (D : Declaration) : Text.lineLength D.front =
    (Text.ofString D.keyword).length + Text.lineLength (D.space.text ++ D.list.text) := by
  refine Text.lineLength_of_not_mem (fun hmem => ?_) _
  exact absurd (Recogniser.isWord_of_mem_keywords _ D.isKeyword _ hmem) (by decide)

theorem take_text_append (D : Declaration) (post : Text) :
    (D.text ++ post).take (Text.lineLength D.front + 1) = Text.ofString D.keyword ++ D.line post := by
  rw [text_append, lineLength_front, Nat.add_assoc, List.take_length_add_append]
  rfl

theorem length_line (D : Declaration) (post : Text) :
    (D.line post).length = Text.lineLength (D.space.text ++ D.list.text) + 1 := by
  have hle : Text.lineLength (D.space.text ++ D.list.text) ≤ (D.space.text ++ D.list.text).length :=
    (List.takeWhile_sublist _).length_le
  rw [line, behind, List.length_take]
  simp only [List.length_append, List.length_cons] at hle ⊢
  omega

/-- If a newline stands behind the keyword, the range ends there. -/
theorem trimStart_line_of_mem {D : Declaration} (h : Byte.newline ∈ D.space.text) (post : Text) :
    (D.line post).trimStart = [] := by
  obtain ⟨hlength, hlt⟩ := Text.lineLength_of_mem h D.list.text
  have hblank : ∀ b ∈ D.line post, Byte.isSpace b = true := by
    intro b hb
    rw [line, behind, hlength, List.take_append_of_le_length hlt] at hb
    exact D.space.blank b (List.mem_of_mem_take hb)
  have := Text.trimStart_append hblank []
  rwa [List.append_nil] at this

/-- If no newline stands there, the blanks are followed by declarators. -/
theorem trimStart_line {D : Declaration} (h : Byte.newline ∉ D.space.text) (post : Text) :
    D.line post = D.space.text ++ (D.line post).trimStart := by
  obtain ⟨b, t, hlist, hb⟩ := D.list.exists_ink
  have hline : D.line post = D.space.text ++
      (D.list.text ++ Byte.semicolon :: post).take (Text.lineLength D.list.text + 1) := by
    rw [line, behind, Text.lineLength_of_not_mem h, Nat.add_assoc, List.take_length_add_append]
  have htrim : (D.line post).trimStart =
      (D.list.text ++ Byte.semicolon :: post).take (Text.lineLength D.list.text + 1) := by
    rw [hline, Text.trimStart_append D.space.blank, hlist, List.cons_append, List.take_succ_cons,
      Text.trimStart_of_ink hb]
  rw [htrim, hline]

section
variable {D : Declaration} {pre post : Text}
  (hlive : (ofText .code (pre ++ (D.text ++ post))).isLive pre.length = true)
include hlive

/-- A declaration whose first byte is live is live as a whole. -/
theorem exists_rest : ∃ v, (ofText .code (pre ++ (D.text ++ post))).Rest pre.length
    (live D.front ++ (Byte.semicolon, false) :: v) := by
  have hsettled := D.settled_front
  have hdepth : depth? 1 (live D.text) = some 1 := by
    rw [text, live_append, depth?_append, hsettled.balanced 0]
    rfl
  have hcalm : ∀ b ∈ D.text, Byte.isCalm b = true :=
    List.forall_mem_append.2 ⟨hsettled.calm, List.forall_mem_singleton.2 (by decide)⟩
  obtain ⟨b, t, hkeyword⟩ :=
    List.exists_cons_of_ne_nil (Recogniser.ne_nil_of_mem_keywords _ D.isKeyword)
  have hhead : b ≠ Byte.newline := by
    rintro rfl
    have := Recogniser.isWord_of_mem_keywords _ D.isKeyword Byte.newline (by simp [hkeyword])
    cases this
  obtain ⟨v, -, hrest⟩ := exists_rest_of_isLive hcalm
    (by simpa [text, front, hkeyword] using hhead) (by simp [text]) hdepth hlive
  exact ⟨v, by simpa [text] using hrest⟩

/-- The range around the keyword ends with the line, or with the declaration. -/
theorem stop_of_range {r : Nat × Nat}
    (hr : r ∈ (ofText .code (pre ++ (D.text ++ post))).statementRanges) (hle : r.1 ≤ pre.length)
    (hlt : pre.length < r.2) : r.2 = pre.length + Text.lineLength D.front + 1 := by
  obtain ⟨v, hrest⟩ := exists_rest hlive
  refine stop_of_mem_statementRanges hr hle hlt ?_ fun j hj => ?_
  · have hcells : live D.front ++ (Byte.semicolon, false) :: v =
        live (D.front ++ [Byte.semicolon]) ++ v := by simp
    rw [hcells] at hrest
    rcases Text.getElem?_lineLength D.front [Byte.semicolon] with hbyte | ⟨-, hbyte⟩
    · rw [endsRange, hrest.liveByte?_of_live hbyte]
      rfl
    · rw [endsRange, hrest.liveByte?_of_live hbyte]
      rfl
  · obtain ⟨b, hmem, hbyte, hb⟩ := Text.not_newline_of_lt_lineLength hj
    have hsemicolon : b ≠ Byte.semicolon := fun heq => D.settled_front.semicolon (heq ▸ hmem)
    rw [endsRange, hrest.liveByte?_of_live hbyte]
    simp [hb, hsemicolon]

/-- A keyword that is found where the declaration begins declares the names on its line. -/
theorem names_of_keyword {r : Nat × Nat}
    (hr : r ∈ (ofText .code (pre ++ (D.text ++ post))).statementRanges)
    {x : Nat × Nat × Bool × Option Nat}
    (hx : x ∈ Recogniser.all Recogniser.keyword 0 r.1 []
      ((ofText .code (pre ++ (D.text ++ post))).slice r.1 r.2)) (hoffset : x.1 = pre.length) :
    (ofText .code (pre ++ (D.text ++ post))).declaratorNames x.2.1 r.2 = D.onLine := by
  rw [slice_ofText] at hx
  obtain ⟨hstart, before, b, w, rest, hslice, hrec, hbehind⟩ := exists_of_mem_all_slice hx
  obtain ⟨kw, hkw, found, -, heq, hblank, rfl, -⟩ := Recogniser.keyword_eq_some hrec
  rw [hoffset] at hstart hslice hbehind
  have hlt : pre.length < r.2 := by
    have := congrArg List.length hslice
    simp only [List.length_take, List.length_cons] at this
    omega
  have hstop := stop_of_range hlive hr hstart hlt
  obtain ⟨v, hrest⟩ := exists_rest hlive
  -- behind the keyword stands the line
  rw [List.drop_left, hstop, Nat.add_assoc, Nat.add_sub_cancel_left, take_text_append] at hslice
  have hword := hslice.trans heq
  obtain rfl := Recogniser.eq_of_keywords D.isKeyword hkw hword
  obtain rfl := List.append_cancel_left hword
  rw [heq, List.length_append] at hbehind
  unfold onLine
  by_cases hempty : D.space.text = []
  · -- no keyword touches a word or a mark
    obtain ⟨c, t, hlist, hc⟩ := D.list.exists_ink
    rw [line, behind, hempty, hlist] at hblank
    simp [Text.startsBlank_of_ink hc] at hblank
  by_cases hnewline : Byte.newline ∈ D.space.text
  · rw [if_pos (.inr hnewline)]
    refine Script.declaratorNames_eq_nil (.inl ?_)
    rw [hbehind, trimStart_line_of_mem hnewline, length_line, hstop, lineLength_front, List.length_nil]
    omega
  · rw [if_neg (by simp [hempty, hnewline])]
    have hlength := congrArg List.length (trimStart_line hnewline post)
    rw [List.length_append] at hlength
    have hfirst : x.2.1 = pre.length + (Text.ofString D.keyword).length + D.space.text.length := by
      omega
    have hcells : live D.front ++ (Byte.semicolon, false) :: v =
        live (Text.ofString D.keyword) ++ (live D.space.text ++ (live (([] : Text) ++ D.list.text) ++
          (Byte.semicolon, false) :: v)) := by simp [front]
    rw [hcells] at hrest
    have hlist := hrest.skip.skip
    rw [length_live, length_live, ← hfirst] at hlist
    have hstop' : r.2 = x.2.1 + Text.lineLength (([] : Text) ++ D.list.text) + 1 := by
      rw [hstop, hfirst, lineLength_front, Text.lineLength_of_not_mem hnewline, List.nil_append]
      omega
    rw [D.list.declaratorNames_eq ⟨[], by simp⟩ hlist hstop', if_neg (by simp)]

/-- The names on the line are found. -/
theorem exists_declaration (hstarts : Mask.startsStatement pre.reverse = true) {n : Text}
    (hn : n ∈ D.onLine) : ∃ d ∈ (ofText .code (pre ++ (D.text ++ post))).declarations,
      (d.scope = .block ∨ d.scope = .function) ∧ n ∈ d.names ∧ d.offset = pre.length := by
  obtain ⟨last, hends, hparen, hdot, hspace⟩ := exists_ends hstarts
  have hlt : pre.length < (ofText .code (pre ++ (D.text ++ post))).size := by
    simp only [size_ofText, text, List.length_append, List.length_singleton]
    omega
  obtain ⟨r, hr, hle, hlt⟩ := exists_range (s := ofText .code (pre ++ (D.text ++ post))) hlt
  have hstop := stop_of_range hlive hr hle hlt
  have hempty : D.space.text ≠ [] := by
    intro hempty
    simp [onLine, hempty] at hn
  have hblank : Text.startsBlank (D.line post) = true := by
    obtain ⟨b, gap, hspace⟩ := List.exists_cons_of_ne_nil hempty
    rw [line, behind, hspace, List.cons_append, List.cons_append, List.take_succ_cons]
    exact Text.startsBlank_of_isSpace (D.space.blank b (by simp [hspace])) _
  have hslice : (ofText .code (pre ++ (D.text ++ post))).slice r.1 r.2 =
      pre.drop r.1 ++ (Text.ofString D.keyword ++ D.line post) := by
    rw [slice_ofText, Text.slice, List.drop_append_of_le_length hle, List.take_append,
      List.take_of_length_le (by rw [List.length_drop]; omega), List.length_drop,
      show r.2 - r.1 - (pre.length - r.1) = Text.lineLength D.front + 1 by omega, take_text_append]
  -- the keyword is recognised, and no earlier find reaches over it
  have hrec := Recogniser.keyword_eq D.isKeyword (hends.endsWord_drop r.1) hblank
  rw [hends.loopParen?_drop hparen hdot hspace r.1] at hrec
  have hclear : Recogniser.Clear Recogniser.keyword (pre.drop r.1)
      (Text.ofString D.keyword ++ D.line post) := by
    obtain ⟨b, w, hword⟩ :=
      List.exists_cons_of_ne_nil (Recogniser.ne_nil_of_mem_keywords _ D.isKeyword)
    rw [hword]
    exact hends.clear_keyword r.1
      (Recogniser.isWord_of_mem_keywords _ D.isKeyword b (by simp [hword])) _
  have hfound := hclear.mem_all (by simp [← List.length_eq_zero_iff, length_line]) hrec r.1
  rw [← hslice, List.length_drop, Nat.add_sub_cancel' hle] at hfound
  have hnames := names_of_keyword hlive hr hfound rfl
  have hd : (⟨pre.length, D.onLine, if D.keyword == "var" then .function else .block⟩ :
      LocalDeclaration) ∈ (ofText .code (pre ++ (D.text ++ post))).keywordLocals r.1 r.2 :=
    List.mem_map.2 ⟨_, hfound, by dsimp only; rw [hnames]⟩
  refine ⟨_, mem_declarations_of_range hr (List.mem_append_left _ (List.mem_append_left _
    (List.mem_append_left _ (List.mem_append_left _ hd)))) hlive (List.ne_nil_of_mem hn), ?_, hn, rfl⟩
  dsimp only
  split
  · exact .inr rfl
  · exact .inl rfl

/-- They are hidden up to the end of the block. -/
theorem hides (hstarts : Mask.startsStatement pre.reverse = true) {r : Reference}
    (hr : r.Stands (ofText .code (pre ++ (D.text ++ post)))) (hname : r.name ∈ D.onLine)
    (hle : pre.length ≤ r.offset)
    (hlt : r.offset < (ofText .code (pre ++ (D.text ++ post))).blockEnd pre.length) :
    (ofText .code (pre ++ (D.text ++ post))).hides r = true := by
  obtain ⟨d, hd, hscope, hnames, hoffset⟩ := exists_declaration hlive hstarts hname
  exact hides_of_block hd hscope hr hnames (hoffset ▸ hle) (hoffset ▸ hlt)

end

/-! ## A block with a declaration and a name -/

/-- A block that begins with a declaration and ends with a name. -/
def block (D : Declaration) (n : Text) : Text := [Byte.lbrace] ++ (D.text ++ (n ++ [Byte.rbrace]))

/-- The name in the block. -/
def reference (D : Declaration) (n : Text) : Reference := ⟨D.text.length + 1, n.length, n, .bare⟩

/-- Where the keyword stands, no function, handler or class begins. -/
theorem not_head_block (D : Declaration) (n : Text) {kw : String} (hkw : kw ∈ ["function", "catch", "class"]) :
    ¬ Text.ofString kw <+: (D.block n).drop 1 := by
  have hletters : ∀ w ∈ Recogniser.keywords, ∀ kw ∈ ["function", "catch", "class"],
      (Text.ofString w).take 2 ≠ (Text.ofString kw).take 2 ∧ 2 ≤ (Text.ofString w).length ∧
        2 ≤ (Text.ofString kw).length := by decide
  obtain ⟨hne, hlength, hlength'⟩ := hletters _ D.isKeyword kw hkw
  rintro ⟨rest, hrest⟩
  rw [block, text_append] at hrest
  have := congrArg (List.take 2) hrest
  rw [List.take_append_of_le_length hlength', List.singleton_append, List.drop_one, List.tail_cons,
    List.take_append_of_le_length hlength] at this
  exact hne this.symm

section
variable (D : Declaration) {n : Text} (hn : n.isIdentifier = true)
include hn

theorem rest_block : (ofText .code (D.block n)).Rest 0 (live (D.block n)) := by
  have hname := settled_word (word_of_isIdentifier hn)
  have hfront := D.settled_front
  refine rest_of_calm ?_ ?_
  · have hmark {b : UInt8} (hb : Byte.isCalm b = true) : ∀ c ∈ [b], Byte.isCalm c = true :=
      List.forall_mem_singleton.2 hb
    exact List.forall_mem_append.2 ⟨hmark (by decide), List.forall_mem_append.2
      ⟨List.forall_mem_append.2 ⟨hfront.calm, hmark (by decide)⟩,
        List.forall_mem_append.2 ⟨hname.calm, hmark (by decide)⟩⟩⟩
  · have hend := balanced_live (t := [Byte.semicolon]) (List.forall_mem_singleton.2 (by decide))
    have hinside := (hfront.balanced.append hend).append hname.balanced
    simpa [block, text] using hinside.braces

theorem isLive_block : (ofText .code (D.block n)).isLive 1 = true := by
  have h := D.rest_block hn
  rw [← List.append_nil (live _)] at h
  have hlength : 1 < (D.block n).length := by
    simp only [block, text, List.length_append, List.length_singleton]
    omega
  have := h.isLive_of_live hlength
  rwa [Nat.zero_add] at this

/-- Behind the keyword a mark follows each word. -/
theorem rows_behind : Rows rowMarks (D.behind (n ++ [Byte.rbrace])) := by
  have hname : Rows rowMarks (n ++ [Byte.rbrace]) :=
    ((rows_nil _).cons (by decide)).append_word (word_of_isIdentifier hn) (follows_cons (by decide) [])
  exact (D.list.rows (follows_cons (by decide) _) (hname.cons (by decide))).append_space D.space.blank

/-- But for its keyword, no word that declares stands in the block outside of a row. -/
theorem tame_block {k : Nat} (hk : k ≠ 1) : Tame rowMarks (D.block n) k := by
  have hblock : D.block n = Byte.lbrace :: (Text.ofString D.keyword ++ D.behind (n ++ [Byte.rbrace])) := by
    rw [block, text_append]
    rfl
  have hdeclaring : ∀ kw ∈ declaring, kw ≠ [] ∧ ∀ b ∈ kw.head?, b ≠ Byte.lbrace ∧
      ∀ w ∈ Recogniser.keywords, b ∉ (Text.ofString w).tail := by
    decide +kernel
  intro kw hkw hprefix
  obtain ⟨hne, hletter⟩ := hdeclaring kw hkw
  obtain ⟨b, w, rfl⟩ := List.exists_cons_of_ne_nil hne
  obtain ⟨hbrace, htail⟩ := hletter b rfl
  have hfirst : (D.block n)[k]? = some b := by
    obtain ⟨rest, hrest⟩ := hprefix
    rw [← List.head?_drop, ← hrest]
    rfl
  rw [hblock] at hfirst hprefix ⊢
  cases k with
  | zero => exact absurd (Option.some.inj hfirst).symm hbrace
  | succ k =>
    rw [List.getElem?_cons_succ] at hfirst
    rcases Nat.lt_or_ge k (Text.ofString D.keyword).length with hlt | hge
    · -- inside of the keyword no such word begins
      rw [List.getElem?_append_left hlt] at hfirst
      obtain ⟨k, rfl⟩ : ∃ j, k = j + 1 := ⟨k - 1, by omega⟩
      refine absurd ?_ (htail _ D.isKeyword)
      rw [← List.getElem?_tail] at hfirst
      exact List.mem_of_getElem? hfirst
    · rw [List.drop_succ_cons, List.drop_append, List.drop_eq_nil_of_le hge, List.nil_append] at hprefix ⊢
      exact (D.rows_behind hn).tame _ _ hkw hprefix

/-- No arrow stands in the block. -/
theorem greater_not_mem_block : Byte.greater ∉ D.block n := by
  have hword {t : Text} (ht : ∀ b ∈ t, Byte.isWord b = true) : Byte.greater ∉ t := fun hmem => by
    have := ht _ hmem
    simp +decide at this
  have hlist : Byte.greater ∉ D.list.text := fun hmem =>
    (D.list.fits _ hmem).elim (fun hfits => (Binding.Fits.plain _ hfits).2.2.2.2.1 rfl) (by decide)
  have hspace : Byte.greater ∉ D.space.text := fun hmem => by
    have := D.space.blank _ hmem
    simp +decide at this
  simp +decide [block, text, front, hword (Recogniser.isWord_of_mem_keywords _ D.isKeyword), hlist, hspace,
    hword (word_of_isIdentifier hn)]

/-- A declaration with a name behind it declares the names on its line alone. -/
theorem names_of_mem_declarations {d : LocalDeclaration}
    (hd : d ∈ (ofText .code (D.block n)).declarations) : d.names = D.onLine := by
  have harrow {r : Nat × Nat} : d ∉ (ofText .code (D.block n)).arrowLocals r.1 r.2 :=
    not_mem_arrowLocals (D.greater_not_mem_block hn)
  by_cases hoffset : d.offset = 1
  · obtain ⟨-, r, hr, hd | hd⟩ := exists_keyword_or_arrow (List.Subset.refl _) hd fun kw hkw hprefix =>
      absurd (hoffset ▸ hprefix) (D.not_head_block n hkw)
    · obtain ⟨x, hx, rfl⟩ := List.mem_map.1 hd
      exact names_of_keyword (D.isLive_block hn) hr hx hoffset
    · exact absurd hd harrow
  · obtain ⟨r, -, hd⟩ := exists_arrow_of_tame (List.Subset.refl _) hd (D.tame_block hn hoffset)
    exact absurd hd harrow

/-- A name that stands on another line is qualified in the block. -/
theorem isQualified_reference (hnot : n ∉ D.onLine) :
    IsQualified (D.block n) ⟨[n], []⟩ [] .instanced (D.reference n) := by
  have hne : n ≠ [] := by
    rintro rfl
    cases hn
  have hblock : D.block n = ([Byte.lbrace] ++ D.text) ++ (n ++ Byte.rbrace :: []) := by simp [block]
  have hsame : D.reference n = ⟨([Byte.lbrace] ++ D.text).length, n.length, n, .bare⟩ := by
    simp [reference, Nat.add_comm]
  have hlive : (ofText .code (D.block n)).isLive ([Byte.lbrace] ++ D.text).length = true := by
    have h := D.rest_block hn
    rw [← List.append_nil (live _)] at h
    have hpos := List.length_pos_iff.2 hne
    have hlength : ([Byte.lbrace] ++ D.text).length < (D.block n).length := by
      simp only [hblock, List.length_append]
      omega
    have := h.isLive_of_live hlength
    rwa [Nat.zero_add] at this
  have hlast : ∀ c ∈ ([Byte.lbrace] ++ D.text).getLast?, Byte.isWord c = false ∧ c ≠ Byte.dot := by
    rw [text, ← List.append_assoc, List.getLast?_concat]
    rintro _ ⟨⟩
    decide
  have hstands : Reference.Stands (ofText .code (D.block n)) (D.reference n) := by
    rw [hblock] at hlive ⊢
    rw [hsame]
    exact stands_of_word hne hlast (by decide) hlive
  refine isQualified_of_visible hstands hn (not_hides fun d hd => ?_)
  rw [D.names_of_mem_declarations hn hd]
  exact hnot

/-- The name stands in the block. -/
theorem lt_blockEnd : (D.reference n).offset < (ofText .code (D.block n)).blockEnd 1 := by
  obtain ⟨b, w, hkeyword⟩ :=
    List.exists_cons_of_ne_nil (Recogniser.ne_nil_of_mem_keywords _ D.isKeyword)
  have hb : Byte.isWord b = true := Recogniser.isWord_of_mem_keywords _ D.isKeyword b (by simp [hkeyword])
  have htext : D.text = b :: (w ++ (D.space.text ++ D.list.text) ++ [Byte.semicolon]) := by
    simp [text, front, hkeyword]
  generalize w ++ (D.space.text ++ D.list.text) ++ [Byte.semicolon] = t at htext
  have hpos : 0 < n.length := by
    refine List.length_pos_iff.2 ?_
    rintro rfl
    cases hn
  have hrest := D.rest_block hn
  have hcells : live (D.block n) = (Byte.lbrace, false) :: (b, false) ::
      (live (t ++ n) ++ (Byte.rbrace, false) :: []) := by
    simp [block, htext]
  rw [hcells] at hrest
  have hdepth : depth? 1 (live (t ++ n)) = some 1 := by
    have hend := balanced_live (t := [Byte.semicolon]) (List.forall_mem_singleton.2 (by decide))
    have hfront := (D.settled_front.balanced.append hend) 0
    rw [← live_append, show D.front ++ [Byte.semicolon] = D.text from rfl, htext, live_cons, depth?_cons]
      at hfront
    have hstep : step? 1 (b, false) = some 1 := by
      have hl : b ≠ Byte.lbrace ∧ b ≠ Byte.rbrace := by
        constructor <;> rintro rfl <;> simp +decide at hb
      simp [step?, hl]
    rw [hstep, Option.bind_some] at hfront
    rw [live_append, depth?_append, hfront]
    exact (settled_word (word_of_isIdentifier hn)).balanced 0
  have hclose := hrest.tail.tail.closing? hdepth
  rw [blockEnd, closingBrace?, hclose, Option.getD_some, length_live, List.length_append, reference, htext,
    List.length_cons]
  dsimp only
  omega

end

/-- The names that a declaration hides in its block, wherever a statement may start, are those that
stand on the line of its keyword. -/
theorem mem_onLine_iff (D : Declaration) (n : Text) :
    n ∈ D.onLine ↔ n ∈ D.names ∧
      ∀ (pre post : Text) (names : ResolvableNames) (parameters : List Text) (context : BodyContext)
        (r : Reference), Mask.startsStatement pre.reverse = true →
        (ofText .code (pre ++ (D.text ++ post))).isLive pre.length = true →
        IsQualified (pre ++ (D.text ++ post)) names parameters context r → r.name = n →
        pre.length ≤ r.offset →
        (ofText .code (pre ++ (D.text ++ post))).blockEnd pre.length ≤ r.offset := by
  constructor
  · refine fun hn => ⟨D.onLine_subset hn, ?_⟩
    intro pre post names parameters context r hstarts hlive hqualified hname hle
    refine Nat.le_of_not_lt fun hlt => ?_
    have hhides := hides hlive hstarts hqualified.stands.1 (hname ▸ hn) hle hlt
    rw [hides_of_isQualified hqualified] at hhides
    cases hhides
  · rintro ⟨hn, hhidden⟩
    have hidentifier := D.list.isIdentifier_of_mem_names hn
    by_contra hnot
    have hend := hhidden [Byte.lbrace] (n ++ [Byte.rbrace]) _ _ _ _ (by decide)
      (D.isLive_block hidentifier) (D.isQualified_reference hidentifier hnot) rfl
      (by simp [reference])
    exact absurd (D.lt_blockEnd hidentifier) (Nat.not_lt_of_le hend)

end Declaration

end Lines

end PageLang
