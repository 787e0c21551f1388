import PageLang.Proofs.Declaration.Cuts
import PageLang.Proofs.Declaration.ScalarText

/-!
# Parameters with default values

A parameter is a name with an optional default value: words, strings and brackets, with commas only
between brackets. The parameter list is searched for its closing parenthesis and cut at its commas
by the spelling alone, so what stands in the strings counts.

* `Parameter`: a parameter as a tree.
* `Parameter.declaration?_iff`: the lists that are read as the parameters they hold.
-/

namespace PageLang

open Cell

/-! ## Default values -/

/-- A pair of brackets. -/
inductive BracketPair where
  | round
  | square
  | curly

namespace BracketPair

/-- The bracket that opens. -/
def opening : BracketPair → UInt8
  | round => Byte.lparen
  | square => Byte.lbracket
  | curly => Byte.lbrace

/-- The bracket that closes. -/
def closing : BracketPair → UInt8
  | round => Byte.rparen
  | square => Byte.rbracket
  | curly => Byte.rbrace

end BracketPair

/-- A string that ends where it seems to: on its line, and without code between its backquotes. -/
structure Literal.OneLine (l : Literal) : Prop where
  newline : Byte.newline ∉ l.inside
  interpolation : l.quote = Byte.backquote → l.inside.hasInfix "$\x7b" = false

/-- Where a piece of a default value stands. -/
inductive DefaultValue.Place where
  | outside
  | inBrackets

/-- A default value, piece by piece. Commas stand in brackets only. -/
inductive DefaultValue : DefaultValue.Place → Type where
  | done {p : DefaultValue.Place} : DefaultValue p
  /-- A name or a number. -/
  | word {p : DefaultValue.Place} (t : Text) (fits : ∀ b ∈ t, Byte.isWord b = true ∨ b = Byte.dot)
      (more : DefaultValue p) : DefaultValue p
  | string {p : DefaultValue.Place} (l : Literal) (fits : l.OneLine) (more : DefaultValue p) :
      DefaultValue p
  | brackets {p : DefaultValue.Place} (k : BracketPair) (inside : DefaultValue .inBrackets)
      (more : DefaultValue p) : DefaultValue p
  | blank {p : DefaultValue.Place} (gap : Script.Blank) (more : DefaultValue p) : DefaultValue p
  | comma (more : DefaultValue .inBrackets) : DefaultValue .inBrackets

namespace DefaultValue

/-- A default value with its mask in live text. -/
def cells {p : Place} : DefaultValue p → List Cell
  | done => []
  | word t _ more => live t ++ more.cells
  | string l _ more => masked l.text ++ more.cells
  | brackets k inside more => live [k.opening] ++ inside.cells ++ live [k.closing] ++ more.cells
  | blank gap more => live gap.text ++ more.cells
  | comma more => live [Byte.comma] ++ more.cells

/-- A default value as it is written. -/
def text {p : Place} (d : DefaultValue p) : Text := bytes d.cells

end DefaultValue

/-- A parameter: a name, and a default value that neither begins nor ends with a blank. -/
structure Parameter where
  name : Identifier
  default : Option (DefaultValue .outside)
  fits : ∀ d ∈ default, Text.IsInk d.text

namespace Parameter

/-- A parameter with its mask in live text. -/
def cells (p : Parameter) : List Cell :=
  live p.name.text ++
    p.default.elim [] fun d => live [Byte.space, Byte.equals, Byte.space] ++ d.cells

/-- A parameter as it is written. -/
def text (p : Parameter) : Text := bytes p.cells

theorem isParameter (p : Parameter) : Text.IsParameter p.text := by
  have hwords := word_of_isIdentifier p.name.fits
  obtain ⟨b, rest, heq, -⟩ := Text.exists_of_isIdentifier p.name.fits
  have hb : Byte.isWord b = true := hwords b (by rw [heq]; exact .head _)
  have htext : p.text = p.name.text ++
      p.default.elim [] fun d => [Byte.space, Byte.equals, Byte.space] ++ d.text := by
    cases hdefault : p.default <;> simp [text, cells, hdefault, DefaultValue.text]
  refine ⟨⟨⟨b, _, by rw [htext, heq]; rfl, Text.isInk_of_isWord b hb⟩, ?_⟩, ?_⟩
  · cases hdefault : p.default with
    | none =>
      rw [htext, hdefault]
      have hne : p.name.text ≠ [] := by simp [heq]
      simpa using (Text.isInk_of_all hne fun c hc => Text.isInk_of_isWord c (hwords c hc)).last
    | some d =>
      obtain ⟨c, front, hlast, hc⟩ := (p.fits d hdefault).last
      refine ⟨c, p.name.text ++ ([Byte.space, Byte.equals, Byte.space] ++ front), ?_, hc⟩
      rw [htext, hdefault, Option.elim_some, hlast]
      simp
  · rw [htext, heq]
    rintro hcomma
    obtain rfl : b = Byte.comma := by simpa using hcomma
    cases hb

/-- The parameters of a list with its mask in live text. -/
def listCells : List Parameter → List Cell
  | [] => []
  | p :: ps => p.cells ++ ps.flatMap fun p => live [Byte.comma, Byte.space] ++ p.cells

/-- A list of parameters as it is written. -/
def listText (ps : List Parameter) : Text := bytes (listCells ps)

theorem listText_eq (ps : List Parameter) :
    listText ps = Written.parameterList (ps.map text) := by
  cases ps with
  | nil => rfl
  | cons p ps =>
    have htail : bytes (ps.flatMap fun p => live [Byte.comma, Byte.space] ++ p.cells) =
        (ps.map text).flatMap ([Byte.comma, Byte.space] ++ ·) := by
      induction ps with
      | nil => rfl
      | cons q ps ih =>
        rw [List.flatMap_cons, bytes_append, ih, List.map_cons, List.flatMap_cons, bytes_append,
          bytes_live]
        rfl
    rw [listText, listCells, bytes_append, htail]
    rfl

end Parameter

/-! ## The list in live text -/

namespace Mask.State

variable {mode : Mode} {depth : Nat} {outer : List Frame}

/-- The rest of a string in backquotes without interpolations. -/
theorem reads_toBackquote {t : Text} (ht : ∀ b ∈ t, b ≠ Byte.backquote ∧ b ≠ Byte.backslash)
    (hinterpolation : t.hasInfix "$\x7b" = false) (before ahead : Text) :
    Reads ⟨.template false, mode, depth, outer⟩ before (masked (t ++ [Byte.backquote])) ahead
      ⟨.live, mode, depth, outer⟩ := by
  induction t generalizing before with
  | nil => exact .cons rfl (.nil ..)
  | cons b t ih =>
    obtain ⟨hpre, hinfix⟩ := Text.hasInfix_cons_eq_false hinterpolation
    obtain ⟨hquote, hbackslash⟩ := ht b (.head _)
    have hread (rest : Text) (hrest : ¬ (b = Byte.dollar ∧ rest.head? = some Byte.lbrace)) :
        State.read ⟨.template false, mode, depth, outer⟩ before b rest =
          (true, ⟨.template false, mode, depth, outer⟩) := by
      simp only [State.read, readTemplate, hquote, hbackslash, hrest, if_false]
    refine .cons (hread _ ?_) (ih (fun c hc => ht c (.tail _ hc)) hinfix _)
    rintro ⟨rfl, hhead⟩
    cases t with
    | nil =>
      have hbyte : Byte.backquote = Byte.lbrace := by simpa using hhead
      exact absurd hbyte (by decide)
    | cons c t =>
      obtain rfl : c = Byte.lbrace := by simpa using hhead
      rw [show Text.ofString "$\x7b" = [Byte.dollar, Byte.lbrace] by decide] at hpre
      simp at hpre

theorem reads_literal {l : Literal} (h : l.OneLine) (before ahead : Text) :
    Reads ⟨.live, mode, depth, outer⟩ before (masked l.text) ahead ⟨.live, mode, depth, outer⟩ := by
  have hquoted (hq : l.quote ≠ Byte.backslash ∧ l.quote ≠ Byte.newline) (before : Text) :
      Reads ⟨.quoted l.quote false, mode, depth, outer⟩ before (masked (l.inside ++ [l.quote])) ahead
        ⟨.live, mode, depth, outer⟩ := by
    refine reads_toQuote (fun b hb => ?_) hq _ _
    exact ⟨(l.fits b hb).1, (l.fits b hb).2, fun hnewline => h.newline (hnewline ▸ hb)⟩
  rcases l.quote_cases with hq | hq | hq
  · refine .cons ?_ (hquoted (by rw [hq]; decide) _)
    rw [hq]
    rfl
  · refine .cons ?_ (hquoted (by rw [hq]; decide) _)
    rw [hq]
    rfl
  · have hfits := l.fits
    rw [hq] at hfits
    rw [Literal.text, hq]
    exact .cons rfl (reads_toBackquote hfits (h.interpolation hq) _ _)

end Mask.State

namespace Cell

/-- The search for the parenthesis that closes the last of `depth` open ones. -/
abbrev closingFrom? (s : MaskedText) (depth i count : Nat) : Option Nat :=
  s.closing? (· == Byte.lparen) (· == Byte.rparen) depth i count

/-- Cells of live text that leave the mask machine where it was, and that the search for a closing
parenthesis passes over. -/
structure Closed (w : List Cell) : Prop where
  reads : ∀ (mode : Mode) (depth : Nat) (outer : List Mask.Frame) (before ahead : Text),
    Mask.State.Reads ⟨.live, mode, depth, outer⟩ before w ahead ⟨.live, mode, depth, outer⟩
  search : ∀ (s : MaskedText) (i depth n : Nat) (v : List Cell), s.Rest i (w ++ v) → 0 < depth →
    closingFrom? s depth i (w.length + n) = closingFrom? s depth (i + w.length) n

theorem closed_nil : Closed [] where
  reads _ _ _ _ _ := .nil ..
  search _ _ _ _ _ _ _ := by simp

theorem Closed.append {w v : List Cell} (hw : Closed w) (hv : Closed v) : Closed (w ++ v) where
  reads mode depth outer _ _ := (hw.reads mode depth outer _ _).append (hv.reads ..)
  search s i depth n u h hdepth := by
    rw [List.append_assoc] at h
    rw [List.length_append, Nat.add_assoc, hw.search s i depth _ _ h hdepth,
      hv.search s _ depth n u h.skip hdepth, Nat.add_assoc]

theorem closed_live {t : Text} (ht : ∀ b ∈ t, Byte.isPlain b = true ∧ b ≠ Byte.lparen ∧
    b ≠ Byte.rparen) : Closed (live t) where
  reads _ _ _ _ _ := Mask.State.reads_plain (fun b hb => (ht b hb).1) _ _
  search _ _ _ _ _ h _ := h.closing?_skip fun d hd _ => by
    obtain ⟨b, hb, rfl⟩ := List.mem_map.1 hd
    simpa using (ht b hb).2

theorem closed_literal {l : Literal} (hl : l.OneLine) : Closed (masked l.text) where
  reads _ _ _ _ _ := Mask.State.reads_literal hl _ _
  search _ _ _ _ _ h _ := h.closing?_skip fun _ hd hlive =>
    absurd hlive (ne_false_of_mem_masked hd)

theorem Closed.brackets {w : List Cell} (hw : Closed w) (k : BracketPair) :
    Closed (live [k.opening] ++ w ++ live [k.closing]) := by
  cases k with
  | square =>
    exact ((closed_live (by decide)).append hw).append (closed_live (by decide))
  | curly =>
    refine ⟨fun mode depth outer before ahead => ?_, fun s i depth n v h hdepth => ?_⟩
    · exact .append (.append (Mask.State.reads_lbrace _ _) (hw.reads mode (depth + 1) outer _ _))
        (Mask.State.reads_rbrace _ _)
    · have hpass (b : UInt8) (hb : b ≠ Byte.lparen ∧ b ≠ Byte.rparen) {i n : Nat} {v : List Cell}
          (h : s.Rest i (live [b] ++ v)) :
          closingFrom? s depth i (1 + n) = closingFrom? s depth (i + 1) n :=
        h.closing?_skip (by simpa using hb)
      simp only [List.append_assoc] at h
      have hinside : s.Rest (i + 1) (w ++ (live [Byte.rbrace] ++ v)) := h.skip
      simp only [List.length_append, length_live, List.length_singleton]
      rw [show i + (1 + w.length + 1) = i + 1 + w.length + 1 by omega,
        show 1 + w.length + 1 + n = 1 + (w.length + (1 + n)) by omega,
        hpass _ (by decide) h, hw.search s _ depth _ _ hinside hdepth,
        hpass _ (by decide) hinside.skip]
  | round =>
    refine ⟨fun mode depth outer before ahead => ?_, fun s i depth n v h hdepth => ?_⟩
    · exact .append (.append (Mask.State.reads_plain (by decide) _ _) (hw.reads mode depth outer _ _))
        (Mask.State.reads_plain (by decide) _ _)
    · simp only [List.append_assoc] at h
      have hinside : s.Rest (i + 1) (w ++ (live [Byte.rparen] ++ v)) := h.skip
      have hopen : s.liveByte? i = some Byte.lparen := h.liveByte?_zero
      have hclose : s.liveByte? (i + 1 + w.length) = some Byte.rparen := hinside.skip.liveByte?_zero
      have hsearch := hw.search s (i + 1) (depth + 1) (n + 1) _ hinside (Nat.succ_pos _)
      have hend : closingFrom? s (depth + 1) (i + 1 + w.length) (n + 1) =
          closingFrom? s depth (i + 1 + w.length + 1) n := by
        have hone : ¬ depth + 1 ≤ 1 := by omega
        rw [closingFrom?, MaskedText.closing?, hclose]
        simp +decide only [if_true, if_false, hone, Nat.add_sub_cancel]
      simp only [List.length_append, length_live, List.length_singleton]
      rw [show i + (1 + w.length + 1) = i + 1 + w.length + 1 by omega,
        show 1 + w.length + 1 + n = (w.length + (n + 1)) + 1 by omega, closingFrom?,
        MaskedText.closing?, hopen]
      exact hsearch.trans hend

end Cell

theorem DefaultValue.closed {p : Place} (d : DefaultValue p) : Closed d.cells := by
  induction d with
  | done => exact closed_nil
  | word t fits more ih =>
    refine .append (closed_live fun b hb => ?_) ih
    rcases fits b hb with hword | rfl
    · obtain ⟨hopening, hclosing, -⟩ := Byte.not_bracket_of_isWord b hword
      refine ⟨Byte.isPlain_of_isNamePart b (by simp [Byte.isNamePart, hword]), ?_, ?_⟩
      · rintro rfl
        cases hopening
      · rintro rfl
        cases hclosing
    · decide
  | string l fits more ih => exact .append (closed_literal fits) ih
  | brackets k inside more ihinside ih => exact .append (ihinside.brackets k) ih
  | blank gap more ih =>
    refine .append (closed_live fun b hb => ?_) ih
    rcases Text.eq_of_isSpace (gap.blank b hb) with rfl | rfl | rfl | rfl | rfl <;> decide
  | comma more ih => exact .append (closed_live (by decide)) ih

namespace Parameter

theorem closed (p : Parameter) : Closed p.cells := by
  refine .append (closed_live fun b hb => ?_) ?_
  · have hword := word_of_isIdentifier p.name.fits b hb
    obtain ⟨hopening, hclosing, -⟩ := Byte.not_bracket_of_isWord b hword
    refine ⟨Byte.isPlain_of_isNamePart b (by simp [Byte.isNamePart, hword]), ?_, ?_⟩
    · rintro rfl
      cases hopening
    · rintro rfl
      cases hclosing
  · cases p.default with
    | none => exact closed_nil
    | some d => exact .append (closed_live (by decide)) d.closed

theorem closed_list (ps : List Parameter) : Closed (listCells ps) := by
  cases ps with
  | nil => exact closed_nil
  | cons p ps =>
    refine .append p.closed ?_
    induction ps with
    | nil => exact closed_nil
    | cons q ps ih =>
      rw [List.flatMap_cons]
      exact .append (.append (closed_live (by decide)) q.closed) ih

end Parameter

end PageLang
