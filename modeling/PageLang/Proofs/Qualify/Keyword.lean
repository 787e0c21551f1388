import PageLang.Proofs.Qualify.Found
import PageLang.Proofs.Qualify.Reference
import PageLang.Proofs.Script.Groups

/-!
# Declarations by keyword

A keyword of the pieces is recognised with the line behind it, which ends where the range ends. What
else is recognised as a keyword is the end of a longer word, or masked: no name stands behind it.

* `line_of_keyword`: the range around a keyword ends with its line.
* `mem_keywordLocals`: the declarations by keyword that are live and name something.
-/

namespace PageLang.Script

open Cell Qualify

/-! ## Before a keyword -/

theorem not_word_char : ∀ c, Byte.isSpace c = true ∨ c ∈ marks →
    Byte.isContinuation c = false ∧ Text.startsWord [c] = false :=
  Byte.forall_of_nibbles (by decide +kernel)

/-- Every text in front of a piece is empty or ends with a blank or a mark. -/
theorem Ends.cases_last {last : Option UInt8} {t : Text} (h : Ends last t) :
    t = [] ∨ ∃ t' c, t = t' ++ [c] ∧ (Byte.isSpace c = true ∨ c ∈ marks) := by
  cases h with
  | start ht =>
    rcases List.eq_nil_or_concat t with rfl | ⟨t, c, rfl⟩
    · exact .inl rfl
    · exact .inr ⟨t, c, by simp, .inl (ht c (by simp))⟩
  | @space t c hc => exact .inr ⟨t, c, rfl, .inl hc⟩
  | @mark t b after hb hafter _ =>
    rcases List.eq_nil_or_concat after with rfl | ⟨after, c, rfl⟩
    · exact .inr ⟨t, b, rfl, .inr hb⟩
    · exact .inr ⟨t ++ b :: after, c, by simp, .inl (hafter c (by simp))⟩
  | @dot t c _ => exact .inr ⟨t ++ [c], Byte.dot, by simp, .inr (by decide)⟩

/-- A word begins behind the text in front of a piece, or a part of it. -/
theorem Ends.endsWord_drop {last : Option UInt8} {t : Text} (h : Ends last t) (k : Nat) :
    Text.endsWord (t.drop k).reverse = false := by
  rcases h.cases_last with rfl | ⟨t, c, rfl, hc⟩
  · simp
    decide
  · obtain ⟨hcont, hword⟩ := not_word_char c hc
    rcases Nat.lt_or_ge t.length k with hk | hk
    · rw [List.drop_of_length_le (by simp; omega)]
      decide
    · rw [List.drop_append_of_le_length hk, List.reverse_append, List.reverse_singleton,
        List.singleton_append, Text.endsWord_cons hcont, hword]

theorem loopParen?_eq_none {before : Text}
    (h : Recogniser.trimBefore before = [] ∨
      ∃ b r, Recogniser.trimBefore before = b :: r ∧ b ≠ Byte.lparen) :
    Recogniser.loopParen? before = none := by
  unfold Recogniser.loopParen?
  rcases h with h | ⟨b, r, h, hb⟩
  · rw [h]
  · rw [h]
    split
    · next heq => exact absurd (List.cons.inj heq).1 hb
    · rfl

/-- A statement does not stand in the head of a loop. -/
theorem Ends.loopParen?_drop {last : Option UInt8} {t : Text} (h : Ends last t)
    (hparen : last ≠ some Byte.lparen) (hdot : last ≠ some Byte.dot)
    (hspace : last ≠ some Byte.space) (k : Nat) :
    Recogniser.loopParen? (t.drop k).reverse = none := by
  have hblank {u : Text} (hu : Space u) : Recogniser.trimBefore u.reverse = [] := by
    have htrim : Recogniser.trimBefore (u.reverse ++ []) = Recogniser.trimBefore [] :=
      Text.trimBefore_append (fun b hb => hu b (List.mem_reverse.1 hb)) []
    rw [List.append_nil] at htrim
    rw [htrim]
    rfl
  refine loopParen?_eq_none ?_
  cases h with
  | start ht => exact .inl (hblank fun c hc => ht c (List.mem_of_mem_drop hc))
  | space t hc => exact absurd rfl hspace
  | @mark t b after hb hafter _ =>
    rcases Nat.lt_or_ge t.length k with hk | hk
    · left
      refine hblank fun c hc => ?_
      rw [List.drop_append, List.drop_of_length_le (by omega), List.nil_append] at hc
      cases hk' : k - t.length with
      | zero => omega
      | succ j =>
        rw [hk', List.drop_succ_cons] at hc
        exact hafter c (List.mem_of_mem_drop hc)
    · right
      refine ⟨b, (t.drop k).reverse, ?_, fun heq => hparen (by rw [heq])⟩
      rw [List.drop_append_of_le_length hk, List.reverse_append, List.reverse_cons,
        List.append_assoc, Text.trimBefore_append (by simpa using hafter), List.singleton_append,
        Text.trimBefore_of_ink (isInk_of_mem_marks b hb)]
  | dot t hc => exact absurd rfl hdot

/-! ## What is no keyword -/

/-- A word that declares stands in a keyword only as a whole. -/
theorem eq_of_keyword {w : String} (hw : w ∈ Recogniser.keywords) {word x y : Text}
    (hword : word = "let" ∨ word = "const") (heq : word = x ++ (Text.ofString w ++ y)) :
    x = [] ∧ y = [] ∧ w ≠ "var" := by
  have hinfix : Text.hasInfix word w = true := heq ▸ Text.hasInfix_append x w y
  have hlen := congrArg List.length heq
  simp only [List.length_append] at hlen
  have hnil {n : Nat} (hn : (Text.ofString w).length = n) (hle : word.length = n) (hne : w ≠ "var") :
      x = [] ∧ y = [] ∧ w ≠ "var" :=
    ⟨List.length_eq_zero_iff.1 (by omega), List.length_eq_zero_iff.1 (by omega), hne⟩
  simp only [Recogniser.keywords, List.mem_cons, List.not_mem_nil, or_false] at hw
  rcases hword with rfl | rfl
  · rcases hw with rfl | rfl | rfl
    · exact hnil (n := 3) (by decide) (by decide) (by decide)
    · exact absurd hinfix (by decide)
    · exact absurd hinfix (by decide)
  · rcases hw with rfl | rfl | rfl
    · exact absurd hinfix (by decide)
    · exact hnil (n := 5) (by decide) (by decide) (by decide)
    · exact absurd hinfix (by decide)

/-- No names are declared at the end of the range, or at a byte that begins none. -/
theorem declaratorNames_eq_nil {s : MaskedText} {i stop : Nat}
    (h : stop ≤ i ∨ ∃ b ∈ s.byte? i, Byte.isSpace b = false ∧ b ≠ Byte.lbrace ∧
      b ≠ Byte.lbracket ∧ Byte.isWordStart b = false) : s.declaratorNames i stop = [] := by
  rcases Nat.lt_or_ge i stop with hlt | hge
  · obtain ⟨b, hb, hspace, hbrace, hbracket, hstart⟩ := h.resolve_left (by omega)
    have hskip : s.skipWhile Byte.isSpace i stop = i := by
      unfold MaskedText.skipWhile
      rw [show stop - i = (stop - i - 1) + 1 by omega, MaskedText.firstFrom?,
        if_pos (by rw [hb]; simp [hspace])]
      rfl
    have hnone : s.declarator? i stop = none := by
      unfold MaskedText.declarator?
      rw [hb]
      simp [hbrace, hbracket, hstart]
    exact MaskedText.declaratorNames_of_none hskip fun _ => hnone
  · have hskip : s.skipWhile Byte.isSpace i stop = stop := by
      unfold MaskedText.skipWhile
      rw [Nat.sub_eq_zero_of_le hge]
      rfl
    exact MaskedText.declaratorNames_of_none hskip fun hlt => absurd hlt (Nat.lt_irrefl _)

/-- What is found as a keyword before a word ends before the word. -/
theorem lt_length_of_keyword {u₂ v : Text} {c b : UInt8} {before behind : Text}
    {y : Bool × Option Nat} (hlast : ∀ d ∈ (c :: u₂).getLast?, Byte.isWord d = false)
    (hb : Byte.isWord b = true)
    (hrec : Recogniser.keyword before (c :: (u₂ ++ b :: v)) = some (behind, y)) :
    v.length < behind.length := by
  obtain ⟨isVar, paren⟩ := y
  obtain ⟨w, hw, rest, -, ht, -, rfl, -, -⟩ := Recogniser.keyword_eq_some hrec
  have hword := Recogniser.isWord_of_mem_keywords
  rw [← List.cons_append] at ht
  rcases List.append_eq_append_iff.1 ht with ⟨x, hx, -⟩ | ⟨x, hx, rfl⟩
  · -- the keyword would hold the byte before the word
    have hmem : (c :: u₂).getLast (by simp) ∈ Text.ofString w :=
      hx ▸ List.mem_append_left _ (List.getLast_mem _)
    have := hlast _ (List.getLast_mem_getLast? (by simp))
    simp [hword w hw _ hmem] at this
  · -- the blanks behind the keyword end before the word
    obtain ⟨gap, hgap, hink⟩ := Text.exists_of_trimStart (x ++ b :: v)
    rcases List.append_eq_append_iff.1 hgap with ⟨z, rfl, hz⟩ | ⟨z, -, hz⟩
    · cases z with
      | nil =>
        rw [List.nil_append] at hz
        rw [← hz]
        simp
      | cons d z =>
        obtain ⟨rfl, -⟩ := List.cons.inj hz
        have := hink b (by simp)
        simp [Text.isInk_of_isWord b hb] at this
    · rw [hz]
      simp
      omega

/-- Where a word begins, no earlier find reaches over it. -/
theorem clear_of_word {u : Text} (hu : ∀ c ∈ u.getLast?, Byte.isWord c = false) {b : UInt8}
    (hb : Byte.isWord b = true) (t : Text) : Recogniser.Clear Recogniser.keyword u (b :: t) := by
  intro u₁ d u₂ behind y hsplit hrec
  refine lt_length_of_keyword (fun c hc => hu c ?_) hb hrec
  rw [hsplit, List.getLast?_append, Option.mem_def.1 hc]
  rfl

/-- Behind the text in front of a piece, or a part of it, no earlier find reaches over a word. -/
theorem Ends.clear_keyword {last : Option UInt8} {t : Text} (h : Ends last t) (k : Nat) {b : UInt8}
    (hb : Byte.isWord b = true) (rest : Text) :
    Recogniser.Clear Recogniser.keyword (t.drop k) (b :: rest) := by
  refine clear_of_word (fun c hc => h.not_word c ?_) hb rest
  rw [List.getLast?_drop] at hc
  split at hc
  · cases hc
  · exact hc

/-! ## The range around a keyword -/

theorem endsRange_eq_false {s : MaskedText} {i : Nat} {w v : List Cell} (h : s.Rest i (w ++ v))
    (hw : ∀ c ∈ w, c.2 = false → c.1 ≠ Byte.semicolon ∧ c.1 ≠ Byte.newline) {j : Nat}
    (hj : j < w.length) : s.endsRange (i + j) = false := by
  unfold MaskedText.endsRange
  rw [h.liveByte?, List.getElem?_append_left hj, List.getElem?_eq_getElem hj]
  have := hw _ (List.getElem_mem hj)
  cases hm : w[j].2 <;> simp_all

/-- A word with the line behind it. -/
theorem slice_of_line {s : MaskedText} {i stop : Nat} {word gap : Text} {b : UInt8}
    {w v : List Cell} (hline : s.Rest i (live (word ++ gap) ++ ((live [b] ++ w) ++ v)))
    (hstop : stop = i + (word ++ gap).length + (live [b] ++ w).length) :
    s.slice i stop = word ++ (gap ++ b :: bytes w) := by
  have hend : stop = i + (live (word ++ gap) ++ (live [b] ++ w)).length := by
    rw [hstop]
    simp only [List.length_append, length_live]
    omega
  rw [← List.append_assoc] at hline
  rw [hend, hline.slice]
  simp

/-- Behind a word that stands in front of a mark, and the blanks after it, no name is declared. -/
theorem declaratorNames_of_cutWord {s : MaskedText} {start stop i : Nat} {u rest word : Text}
    {m : Mark} (hm : m.Fits) (hbrace : m.byte ≠ Byte.lbrace)
    (hcut : Recogniser.CutWord rest word m.before m.byte) (hblank : rest.startsBlank = true)
    (hslice : s.slice start stop = u ++ rest.trimStart) (hi : start + u.length = i)
    (hstop : i + rest.trimStart.length = stop) : s.declaratorNames i stop = [] := by
  refine declaratorNames_eq_nil ?_
  rcases (hcut.of_startsBlank hblank).2 with hempty | ⟨r, hmark⟩
  · left
    rw [hempty, List.length_nil] at hstop
    omega
  · right
    have hbracket : m.byte ≠ Byte.lbracket := fun heq => absurd (heq ▸ hm.byte) (by decide)
    have hstart := (not_word_of_mem_marks _ hm.byte).1
    simp only [Byte.isWord, Bool.or_eq_false_iff] at hstart
    have hbyte : s.byte? i = some m.byte := by
      rw [hmark, List.length_cons] at hstop
      rw [← hi, ← MaskedText.getElem?_slice (by omega : start + u.length < stop), hslice, hmark]
      simp
    exact ⟨m.byte, hbyte, (not_word_of_mem_marks _ hm.byte).2, hbrace, hbracket, hstart.1⟩

section
variable {s : MaskedText} {lead : Text} {ps : List Piece} (hlead : Space lead)
  (hps : Tidy none ps) (h : s.Rest 0 (live lead ++ cells ps)) {r : Nat × Nat}
  (hr : r ∈ s.statementRanges)
include hlead hps h hr

/-- The range around a keyword ends with the semicolon of its line. The line begins with a name,
after the blanks behind the keyword. -/
theorem line_of_keyword {pre post : List Piece} {word space : Text} {names : List Text}
    (hsplit : ps = pre ++ .keyword word space names :: post)
    (hle : r.1 ≤ lead.length + (cells pre).length)
    (hlt : lead.length + (cells pre).length < r.2) :
    ∃ gap b w v, names ≠ [] ∧ Space gap ∧ gap ≠ [] ∧ Byte.isWordStart b = true ∧
      Declares (live [b] ++ w) names ∧
      s.Rest (lead.length + (cells pre).length)
        (live (word ++ gap) ++ ((live [b] ++ w) ++ v)) ∧
      r.2 = lead.length + (cells pre).length + (word ++ gap).length + (live [b] ++ w).length := by
  have hsplit' := hsplit
  subst hsplit'
  obtain ⟨-, ⟨hword, hne, hspace⟩, hnewline, -, -, -, w₀, v, hbehind, w', hw₀, hdeclares, hline⟩ :=
    hps.split (.start hlead)
  obtain ⟨hnames, gap, b, w, hw, hgap, hb, hdeclares⟩ := hdeclares.exists_trimmed
  have hrest : s.Rest (lead.length + (cells pre).length)
      ((live (word ++ space) ++ w') ++ (live [Byte.semicolon] ++ v)) := by
    have := rest_of_split h hsplit
    simpa [Piece.cells, hbehind, hw₀] using this
  have hquiet : ∀ c ∈ live (word ++ space) ++ w', c.2 = false →
      c.1 ≠ Byte.semicolon ∧ c.1 ≠ Byte.newline := by
    intro c hc hlive
    rcases List.mem_append.1 hc with hc | hc
    · obtain ⟨d, hd, rfl⟩ := List.mem_map.1 hc
      rcases List.mem_append.1 hd with hd | hd
      · have hletters : ∀ d ∈ word, Byte.isWord d = true := by
          rcases hword with rfl | rfl <;>
            exact Recogniser.isWord_of_mem_keywords _ (by simp [Recogniser.keywords])
        have := hletters d hd
        constructor <;> rintro rfl <;> cases this
      · refine ⟨?_, fun heq => hnewline (heq ▸ hd)⟩
        rintro rfl
        have := hspace _ hd
        simp +decide at this
    · exact hline c hc hlive
  have hend : s.endsRange (lead.length + (cells pre).length +
      (live (word ++ space) ++ w').length) = true := by
    unfold MaskedText.endsRange
    rw [hrest.skip.liveByte?_zero]
    rfl
  have hstop := MaskedText.stop_of_mem_statementRanges hr hle hlt hend fun j hj =>
    endsRange_eq_false hrest hquiet hj
  have hcells : live (word ++ space) ++ w' ++ (live [Byte.semicolon] ++ v) =
      live (word ++ (space ++ gap)) ++ ((live [b] ++ w) ++ v) := by
    have hline : w' ++ live [Byte.semicolon] = live gap ++ live [b] ++ w := hw₀.symm.trans hw
    rw [List.append_assoc, ← List.append_assoc w', hline]
    simp
  have hlength := congrArg List.length hcells
  rw [hcells] at hrest
  refine ⟨space ++ gap, b, w, v, hnames, ?_, by simp [hne], hb, hdeclares, hrest, ?_⟩
  · intro c hc
    rcases List.mem_append.1 hc with hc | hc
    · exact hspace c hc
    · exact hgap c hc
  · simp only [List.length_append, length_live, List.length_cons, List.length_nil] at hlength hstop ⊢
    omega

/-- What is found as a keyword, is live and names something, is a keyword of the pieces. -/
theorem of_mem_keywords {x : Nat × Nat × Bool × Option Nat}
    (hx : x ∈ Recogniser.all Recogniser.keyword 0 r.1 [] (s.slice r.1 r.2))
    (hlive : s.isLive x.1 = true) (hnames : s.declaratorNames x.2.1 r.2 ≠ []) :
    ∃ pre word space post, ps = pre ++ .keyword word space (s.declaratorNames x.2.1 r.2) :: post ∧
      x.1 = lead.length + (cells pre).length ∧ r.1 ≤ x.1 ∧ x.1 < r.2 ∧ x.2.2 = (false, none) := by
  obtain ⟨u, b, v, behind, ⟨isVar, paren⟩, hslice, -, hrec, rfl⟩ := Recogniser.exists_of_mem_all hx
  rw [List.append_nil] at hrec
  obtain ⟨w, hw, rest, hends, hbv, hblank, rfl, rfl, rfl⟩ := Recogniser.keyword_eq_some hrec
  rw [hbv] at hslice
  have hne := Recogniser.ne_nil_of_mem_keywords w hw
  have hlen := s.length_slice r.1 r.2
  rw [hslice] at hlen
  have hbvlen := congrArg List.length hbv
  have hpos := List.length_pos_iff.2 hne
  have hsize := (MaskedText.range_le_size hr).2
  simp only [List.length_append] at hlen hbvlen
  obtain ⟨pre, p, post, x, y, behind, hsplit, hword, hoffset, hx, hu, n, hrest⟩ :=
    exists_of_found hlead hps h hr hslice hlive hne (Recogniser.isWord_of_mem_keywords w hw) hends
  have hp := hps.fits p (by simp [hsplit])
  have hall := (Piece.forall_of_word? hp hword).2.1
  obtain ⟨gap, hgap, -⟩ := Text.exists_of_trimStart rest
  have hgaplen := congrArg List.length hgap
  simp only [List.length_append] at hgaplen
  have hbehind : r.1 + u.length + ((b :: v).length - (Text.trimStart rest).length) =
      r.1 + (u ++ (Text.ofString w ++ gap)).length := by
    rw [List.length_append, List.length_append]
    omega
  have hstop : r.1 + (u ++ (Text.ofString w ++ gap)).length + (Text.trimStart rest).length =
      r.2 := by
    rw [List.length_append, List.length_append]
    omega
  simp only [hbehind] at hnames ⊢
  cases p with
  | marked o m =>
    cases o with
    | none => simp [Piece.word?] at hword
    | string t => simp [Piece.word?] at hword
    | word t =>
      -- the end of a longer word: behind the blanks stands its mark
      obtain ⟨rfl, rfl⟩ : t = x ++ (Text.ofString w ++ y) ∧ m.text = behind := by
        simpa [Piece.word?] using hword
      have hcut := cutWord_of_marked hp.2.1 (fun c hc => hall c (by simp [hc])) hrest
      have hbrace : m.byte ≠ Byte.lbrace := fun heq => by simpa using hp.2.2.2 heq
      refine absurd (declaratorNames_of_cutWord hp.2.1 hbrace hcut hblank ?_ rfl hstop) hnames
      rw [hslice, List.append_assoc, List.append_assoc, ← hgap]
  | keyword word space names =>
    obtain ⟨rfl, rfl⟩ : word = x ++ (Text.ofString w ++ y) ∧ space = behind := by
      simpa [Piece.word?] using hword
    obtain ⟨rfl, rfl, hvar⟩ := eq_of_keyword hw hp.1 rfl
    rw [List.nil_append, List.append_nil] at hsplit
    rw [List.length_nil, Nat.add_zero] at hoffset
    obtain ⟨gap', b', w', v', -, hgap', -, hb', hdeclares, hline, hstop'⟩ :=
      line_of_keyword hlead hps h hr hsplit (by omega) (by omega)
    -- what stands behind the keyword in the range is its line
    have htext : rest = gap' ++ b' :: bytes w' := by
      have hdrop := s.drop_slice r.1 r.2 u.length
      rw [hslice, List.drop_left, hoffset, slice_of_line hline hstop'] at hdrop
      exact List.append_cancel_left hdrop
    have htrim : Text.trimStart rest = b' :: bytes w' := by
      rw [htext, Text.trimStart_append hgap', Text.trimStart_of_ink]
      exact Text.isInk_of_isWord b' (by simp [Byte.isWord, hb'])
    have hnames' : s.declaratorNames (r.1 + (u ++ (Text.ofString w ++ gap)).length) r.2 = names := by
      have := hline.skip.declaratorNames hdeclares
      rw [htrim] at hstop
      simp only [List.length_append, length_live, List.length_cons, List.length_nil, length_bytes]
        at hstop hstop' this ⊢
      rw [hstop'] at hstop ⊢
      rw [← this]
      congr 1
      omega
    obtain ⟨hends', -⟩ := ends_before hlead hps h hsplit
    obtain ⟨-, -, -, hparen, hdot, hspace, -⟩ := (hsplit ▸ hps).split (.start hlead)
    have hlt : r.1 + u.length < r.2 := by omega
    refine ⟨pre, _, _, post, by rw [hnames', hsplit], hoffset, Nat.le_add_right _ _, hlt, ?_⟩
    rw [hu, List.append_nil, hends'.loopParen?_drop hparen hdot hspace]
    simp [hvar]

/-- A keyword of the pieces is found, with the names of its line. -/
theorem mem_keywords {pre post : List Piece} {word space : Text} {names : List Text}
    (hsplit : ps = pre ++ .keyword word space names :: post)
    (hle : r.1 ≤ lead.length + (cells pre).length)
    (hlt : lead.length + (cells pre).length < r.2) :
    ∃ behind, (lead.length + (cells pre).length, behind, false, none) ∈
      Recogniser.all Recogniser.keyword 0 r.1 [] (s.slice r.1 r.2) ∧
        s.declaratorNames behind r.2 = names := by
  obtain ⟨gap, b, w, v, -, hgap, hne, hb, hdeclares, hline, hstop⟩ :=
    line_of_keyword hlead hps h hr hsplit hle hlt
  obtain ⟨hends, hp, -⟩ := ends_before hlead hps h hsplit
  obtain ⟨-, -, -, hparen, hdot, hspace, -⟩ := (hsplit ▸ hps).split (.start hlead)
  have hword : ∃ c word', word = c :: word' ∧ Byte.isWord c = true := by
    rcases hp.1 with rfl | rfl
    · exact ⟨_, _, rfl, by decide⟩
    · exact ⟨_, _, rfl, by decide⟩
  obtain ⟨c, word', rfl, hc⟩ := hword
  obtain ⟨u, hu⟩ : ∃ u, u = (lead ++ bytes (cells pre)).drop r.1 := ⟨_, rfl⟩
  have hulen : r.1 + u.length = lead.length + (cells pre).length := by
    rw [hu, List.length_drop, List.length_append, length_bytes]
    omega
  have hslice : s.slice r.1 r.2 = u ++ c :: (word' ++ (gap ++ b :: bytes w)) := by
    have hbefore : (s.slice r.1 r.2).take u.length = u := by
      have hcells : bytes (live lead ++ cells ps) = lead ++ bytes (cells pre) ++
          bytes ((Piece.keyword (c :: word') space names).cells ++ cells post) := by
        simp [hsplit]
      rw [h.slice_eq, List.take_take, Nat.min_eq_left (by omega), hcells,
        List.drop_append_of_le_length (by simpa using hle), ← hu, List.take_left]
    rw [← List.take_append_drop u.length (s.slice r.1 r.2), MaskedText.drop_slice, hulen,
      slice_of_line hline hstop, hbefore]
    rfl
  have hstarts : Text.startsBlank (gap ++ b :: bytes w) = true := by
    obtain ⟨d, gap, rfl⟩ := List.exists_cons_of_ne_nil hne
    exact Text.startsBlank_of_isSpace (hgap d (.head _)) _
  have hrec : Recogniser.keyword u.reverse (c :: (word' ++ (gap ++ b :: bytes w))) =
      some (b :: bytes w, false, none) := by
    have hink := Text.isInk_of_isWord b (by simp [Byte.isWord, hb])
    have := Recogniser.keyword_of_word hp.1 (hu ▸ hends.endsWord_drop r.1) hstarts
    have hloop := hends.loopParen?_drop hparen hdot hspace r.1
    rw [← hu] at hloop
    rwa [hloop, Text.trimStart_append hgap, Text.trimStart_of_ink hink] at this
  have hclear : Recogniser.Clear Recogniser.keyword u (c :: (word' ++ (gap ++ b :: bytes w))) :=
    hu ▸ hends.clear_keyword r.1 hc _
  have hfound := hclear.mem_all (by simp) hrec r.1
  rw [← hslice, hulen] at hfound
  refine ⟨_, hfound, ?_⟩
  have hnames := hline.skip.declaratorNames hdeclares
  rw [← hnames, hstop]
  congr 1
  · simp
    omega
  · simp

/-- The declarations by keyword in a range, as far as they are live and name something. -/
theorem mem_keywordLocals {names : List Text} {d : LocalDeclaration} :
    (d ∈ s.keywordLocals r.1 r.2 ∧ s.isLive d.offset = true ∧ d.names ≠ []) ↔
      (d.offset, .declares d) ∈ events names none lead.length ps ∧
        r.1 ≤ d.offset ∧ d.offset < r.2 := by
  rw [mem_events_declares]
  constructor
  · rintro ⟨hd, hlive, hne⟩
    obtain ⟨⟨first, behind, isVar, paren⟩, hx, rfl⟩ := List.mem_map.1 hd
    obtain ⟨pre, word, space, post, hsplit, hfirst, hle, hlt, hscope⟩ :=
      of_mem_keywords hlead hps h hr hx hlive hne
    obtain ⟨rfl, rfl⟩ := Prod.mk.inj hscope
    exact ⟨⟨pre, word, space, _, post, hsplit, hfirst, rfl⟩, hle, hlt⟩
  · rintro ⟨⟨pre, word, space, declared, post, hsplit, hoffset, hd⟩, hle, hlt⟩
    rw [hoffset] at hle hlt
    obtain ⟨behind, hfound, hnames⟩ := mem_keywords hlead hps h hr hsplit hle hlt
    obtain ⟨-, -, -, -, hne, -⟩ := line_of_keyword hlead hps h hr hsplit hle hlt
    have hp := hps.fits (.keyword word space declared) (by simp [hsplit])
    obtain ⟨c, word', rfl⟩ := List.exists_cons_of_ne_nil (Piece.forall_of_word? hp rfl).1
    obtain ⟨hmask, hbyte⟩ := MaskedText.liveByte?_eq_some (rest_of_split h hsplit).liveByte?_zero
    have hsize := MaskedText.byte?_eq_some_lt hbyte
    rw [hd]
    refine ⟨List.mem_map.2 ⟨_, hfound, by simp [hnames, hoffset]⟩, ?_, hne⟩
    simp [MaskedText.isLive, hoffset, hsize, hmask]

end

end PageLang.Script
