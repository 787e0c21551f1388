import PageLang.Diagnostic.Basic
import PageLang.Proofs.ClassTable.Blanked
import PageLang.Proofs.Hierarchy.Blanked
import PageLang.Proofs.Include.Characters
import PageLang.Proofs.RoundTrip.Gap

/-!
# Comments between statements

A comment that stands between two statements may be replaced by blank space. The classes and the
tree of the text stay the same with all their spans, and so do the faults, which are reported on the
same lines. This holds as far as nothing looks over the comment and takes its bytes for code:
neither the mask machine (`Mask.Unseen`) nor a search by spelling alone (`MaskedText.Apart`).

* `MaskedText.blanked_ofText`: the two masked texts.
* `Text.place_blanked_line`: a place stays on its line.
* `MaskedText.recovering_blanked`: the classes, the tree and the faults.
-/

namespace PageLang

open Mask

namespace MaskedText

open Cell

/-! ## The two masked texts -/

/-- A comment is skipped. A newline behind a line comment is blank space. -/
theorem gapEnd_comment {s : MaskedText} {i : Nat} {c : Text} {v : List Cell}
    (hcomment : IsComment c (Cell.bytes v)) (h : s.Rest i (masked c ++ v)) :
    s.gapEnd .blank i (c.length + v.length) = s.gapEnd .blank (i + c.length) v.length := by
  generalize hahead : Cell.bytes v = ahead at hcomment
  cases hcomment with
  | @block t _ ht =>
    have hskip := Written.Filler.gapEnd (n := v.length) (.blockComment t ht) h
    rwa [Written.Filler.cells, length_masked] at hskip
  | @line t _ ht hnewline =>
    have h : s.Rest i ((Byte.slash, true) :: (Byte.slash, true) :: (masked t ++ v)) := h
    have hline := Written.Filler.gapEnd_line (n := v.length) ht h.tail.tail
    rw [show ([Byte.slash, Byte.slash] ++ t).length = t.length + 1 + 1 from rfl,
      show t.length + 1 + 1 + v.length = t.length + v.length + 1 + 1 by omega,
      Written.Filler.gapEnd_slashes h, hline]
    have hbehind := h.tail.tail.skip
    rw [length_masked, show i + 1 + 1 + t.length = i + (t.length + 1 + 1) by omega] at hbehind
    rw [show i + 1 + 1 + t.length = i + (t.length + 1 + 1) by omega]
    cases v with
    | nil => rfl
    | cons d v =>
      obtain ⟨b, m⟩ := d
      obtain rfl : b = Byte.newline := hnewline b (by rw [← hahead]; rfl)
      rw [List.length_cons, Written.Filler.gapEnd_newline hbehind, gapEnd, hbehind.byte?_zero]
      rfl

theorem getElem?_outside {α : Type} {u m m' v : List α} {i : Nat} (hlength : m'.length = m.length)
    (hi : i < u.length ∨ u.length + m.length ≤ i) : (u ++ (m' ++ v))[i]? = (u ++ (m ++ v))[i]? := by
  rcases hi with hi | hi
  · rw [List.getElem?_append_left hi, List.getElem?_append_left hi]
  · rw [← List.append_assoc, ← List.append_assoc, List.getElem?_append_right,
      List.getElem?_append_right, List.length_append, List.length_append, hlength]
    all_goals
      rw [List.length_append]
      omega

theorem blanked_of_cells {s s' : MaskedText} {c : Text} {u v : List Cell}
    (hcomment : IsComment c (Cell.bytes v)) (hs : s.cells = u ++ (masked c ++ v))
    (hs' : s'.cells = u ++ (live (blanked c) ++ v)) :
    Blanked s s' u.length (u.length + c.length) := by
  have hpos := hcomment.length_pos
  have hsize : s.size = u.length + (c.length + v.length) := by
    rw [← length_cells, hs, List.length_append, List.length_append, length_masked]
  have hsame (i : Nat) (hi : i < u.length ∨ u.length + c.length ≤ i) :
      s'.cells[i]? = s.cells[i]? := by
    rw [hs, hs']
    exact getElem?_outside (by rw [length_live, length_blanked, length_masked])
      (by rwa [length_masked])
  have hin (i : Nat) (hle : u.length ≤ i) (hlt : i < u.length + c.length) :
      s.cells[i]? = (Cell.masked c)[i - u.length]? ∧
        s'.cells[i]? = (live (blanked c))[i - u.length]? := by
    rw [hs, hs', List.getElem?_append_right hle, List.getElem?_append_right hle,
      List.getElem?_append_left (by rw [length_masked]; omega),
      List.getElem?_append_left (by rw [length_live, length_blanked]; omega)]
    exact ⟨rfl, rfl⟩
  have hrest : s.Rest u.length (masked c ++ v) :=
    ⟨by omega, by rw [hs, List.drop_left]⟩
  constructor
  case lt => omega
  case le => omega
  case size_eq =>
    rw [← length_cells, hs', hsize, List.length_append, List.length_append, length_live,
      length_blanked]
  case byte? =>
    intro i hi
    rw [byte?_eq_cells, byte?_eq_cells, hsame i hi]
  case isMasked =>
    intro i hi
    rw [isMasked_eq_cells, isMasked_eq_cells, hsame i hi]
  case masked =>
    intro i hle hlt
    rw [isMasked_eq_cells, (hin i hle hlt).1, masked, List.getElem?_map,
      List.getElem?_eq_getElem (by omega)]
    rfl
  case blank =>
    intro i hle hlt
    have hlength : i - u.length < (blanked c).length := by rw [length_blanked]; omega
    rw [byte?_eq_cells, (hin i hle hlt).2, live, List.getElem?_map,
      List.getElem?_eq_getElem hlength]
    exact ⟨_, rfl, isSpace_of_mem_blanked (List.getElem_mem _)⟩
  case slash =>
    rw [hrest.byte?_zero]
    cases hcomment <;> rfl
  case gapEnd =>
    rw [hsize, Nat.add_sub_cancel_left, ← Nat.add_assoc, Nat.add_sub_cancel_left]
    exact gapEnd_comment hcomment hrest

/-- A comment that nothing looks over, in a text and blanked. -/
theorem blanked_ofText {mode : Mode} {pre c post : Text} (h : Unseen mode pre c post) :
    Blanked (ofText mode (pre ++ c ++ post)) (ofText mode (pre ++ blanked c ++ post)) pre.length
      (pre.length + c.length) := by
  obtain ⟨w, w', hw, hmask, hmask'⟩ := h.ofText
  have hw' : w'.length = post.length := by
    have hlength := congrArg List.length hmask
    rw [length_ofText] at hlength
    simp only [List.length_append, bits, Cell.masked, List.length_map] at hlength
    omega
  have hbytes : Cell.bytes (post.zip w') = post := bytes_zip hw'
  have hu : (pre.zip w).length = pre.length := by rw [List.length_zip, hw, Nat.min_self]
  have hcells (d : List Cell) :
      (pre ++ Cell.bytes d ++ post).zip (w ++ bits d ++ w') = pre.zip w ++ (d ++ post.zip w') := by
    rw [List.append_assoc, List.append_assoc, List.zip_append hw.symm,
      List.zip_append (by rw [Cell.bytes, bits, List.length_map, List.length_map]), zip_bytes_bits]
  rw [← hu]
  refine blanked_of_cells (by rw [hbytes]; exact h.comment) ?_ ?_
  · rw [cells_ofText, hmask]
    have := hcells (Cell.masked c)
    rwa [bytes_masked] at this
  · rw [cells_ofText, hmask']
    have := hcells (live (blanked c))
    rwa [bytes_live] at this

end MaskedText

/-! ## Lines -/

namespace Text

theorem newlines_blanked (c : Text) : newlines (blanked c) = newlines c := by
  induction c with
  | nil => rfl
  | cons b c ih =>
    rw [blanked, List.map_cons, ← List.singleton_append, newlines_append, ← blanked, ih,
      ← List.singleton_append (l := c), newlines_append]
    congr 1
    by_cases hb : b = Byte.newline
    · rw [if_pos hb, hb]
    · rw [if_neg hb]
      simp +decide [newlines, hb]

theorem newlines_take_blanked (pre c post : Text) (k : Nat) :
    newlines ((pre ++ blanked c ++ post).take k) = newlines ((pre ++ c ++ post).take k) := by
  have htake (n : Nat) : newlines ((blanked c).take n) = newlines (c.take n) := by
    rw [blanked, ← List.map_take]
    exact newlines_blanked _
  simp only [List.take_append, newlines_append, List.length_append, length_blanked, htake]

/-- Blank space in the place of a comment leaves the characters whole. -/
theorem Whole.blanked {pre c post : Text} (h : Whole (pre ++ c ++ post))
    (hcomment : IsComment c post) : Whole (pre ++ blanked c ++ post) := by
  rw [List.append_assoc] at h ⊢
  have hsame {i : Nat} (hi : i < pre.length ∨ pre.length + c.length ≤ i) :
      (pre ++ (Mask.blanked c ++ post))[i]? = (pre ++ (c ++ post))[i]? :=
    MaskedText.getElem?_outside (length_blanked c) hi
  intro k b hb hcont
  have hk : k < pre.length ∨ pre.length + c.length ≤ k := by
    by_contra hin
    rw [List.getElem?_append_right (by omega),
      List.getElem?_append_left (by rw [length_blanked]; omega)] at hb
    obtain ⟨d, -, rfl⟩ := List.mem_map.1 (List.mem_of_getElem? hb)
    split at hcont <;> cases hcont
  rw [hsame hk] at hb
  obtain ⟨j, d, rfl, hd, hle⟩ := h k b hb hcont
  refine ⟨j, d, rfl, ?_, hle⟩
  rw [← hd]
  refine hsame ?_
  by_contra hin
  -- the byte stands right behind the comment, whose last byte is none of a longer character
  have hlast : j + 1 = pre.length + c.length := by omega
  rcases hcomment.getLast? with hnewline | hslash
  · rw [hlast, List.getElem?_append_right (Nat.le_add_right ..), Nat.add_sub_cancel_left,
      List.getElem?_append_right (Nat.le_refl _), Nat.sub_self, ← List.head?_eq_getElem?] at hb
    rw [hnewline b hb] at hcont
    cases hcont
  · rw [List.getElem?_append_right (by omega), List.getElem?_append_left (by omega),
      show j - pre.length = c.length - 1 by omega, ← List.getLast?_eq_getElem?, hslash] at hd
    cases hd
    exact absurd hle (by decide)

/-- Every offset stays on its line. -/
theorem place_blanked_line {pre c post : Text} (h : Whole (pre ++ c ++ post))
    (hcomment : IsComment c post) (offset : Nat) :
    ((pre ++ blanked c ++ post).place offset).line = ((pre ++ c ++ post).place offset).line := by
  rw [place_line, place_line, (h.blanked hcomment).countsLines offset, h.countsLines offset,
    newlines_take_blanked]

end Text

/-- A diagnostic without its columns. -/
def Diagnostic.onLines (d : Diagnostic) : Diagnostic := { d with column := .point 0 }

theorem Fault.diagnostic_blanked {pre c post : Text} (h : (pre ++ c ++ post).Whole)
    (hcomment : IsComment c post) (f : Fault) (file : Text) :
    (f.diagnostic file (pre ++ blanked c ++ post)).onLines =
      (f.diagnostic file (pre ++ c ++ post)).onLines := by
  have hline := Text.place_blanked_line h hcomment
  simp only [Fault.diagnostic, Fault.unlocated, Diagnostic.located, Diagnostic.onLines, hline]

/-! ## What is read -/

namespace MaskedText

/-- The classes and the tree of a text are the same with all their spans if a comment between two
statements is blanked, and so are the faults and the lines they are reported on. -/
theorem recovering_blanked {file pre c post : Text} (hunseen : Unseen .declarations pre c post)
    (hwhole : (pre ++ c ++ post).Whole)
    (hapart : (ofText .declarations (pre ++ c ++ post)).Apart pre.length (pre.length + c.length))
    (hclasses : (ofText .declarations (pre ++ c ++ post)).AmongClasses file pre.length
      (pre.length + c.length) 0)
    (htree : (ofText .declarations (pre ++ c ++ post)).AmongStatements pre.length
      (pre.length + c.length) 0) :
    (ofText .declarations (pre ++ blanked c ++ post)).classesRecovering file =
        (ofText .declarations (pre ++ c ++ post)).classesRecovering file ∧
      (ofText .declarations (pre ++ blanked c ++ post)).hierarchyRecovering =
        (ofText .declarations (pre ++ c ++ post)).hierarchyRecovering ∧
      ∀ (f : Fault) (name : Text), (f.diagnostic name (pre ++ blanked c ++ post)).onLines =
        (f.diagnostic name (pre ++ c ++ post)).onLines := by
  have h := blanked_ofText hunseen
  exact ⟨h.classesRecovering_eq hapart hclasses, h.hierarchyRecovering_eq hapart htree,
    Fault.diagnostic_blanked hwhole hunseen.comment⟩

/-! ## A comment between two variables -/

/-- A class up to its second variable. -/
def sampleFront : Text := "class A \x7b\n  x: 1; "
/-- A comment. -/
def sampleNote : Text := "/* note */"
/-- The class from its second variable on. -/
def sampleBack : Text := "\n  y: 2;\n\x7d;\n"
/-- The class with its comment. -/
def sampleClass : MaskedText := ofText .declarations (sampleFront ++ sampleNote ++ sampleBack)

theorem unseen_sampleNote : Unseen .declarations sampleFront sampleNote sampleBack where
  comment := .block (t := " note ") (by decide)
  live := by decide
  lists := .of_notMem (by decide) (by decide)
  look := by
    refine .of_head? fun b hb => ?_
    cases hb
    decide

theorem apart_sampleNote : sampleClass.Apart 18 28 where
  functions := by
    have hno : ∀ i < 40, sampleClass.byte? (sampleClass.skipSpace (i + 1)) ≠ some Byte.lparen := by
      decide
    intro colon hcolon _ hparen
    exact absurd hparen (hno colon (byte?_eq_some_lt (liveByte?_eq_some hcolon).2))
  semicolon := by decide
  keywordFront := by
    intro i hi
    obtain rfl : i = 13 := by omega
    decide
  keywordBehind := by decide
  characters := by
    have hin : ∀ i < 18,
        (sampleClass.byte? i).all (fun b => i + Text.charWidth b ≤ 18) = true := by decide
    intro i b hi hb
    have := hin i hi
    rw [hb] at this
    exact of_decide_eq_true this

theorem comes_sampleNote :
    sampleClass.Comes 37 9 37 17 ∧ sampleClass.Crosses 18 .blank 17 := by
  have hskip : sampleClass.skipTrivia 9 = 12 := by decide
  have hread : ((sampleClass.declaration? 12).toOption.bind id).map Prod.snd = some 17 := by
    decide
  obtain ⟨⟨d, next⟩, hd, rfl⟩ := Option.map_eq_some_iff.1 hread
  have hdeclaration : sampleClass.declaration? 12 = .ok (some (d, 17)) := by
    cases h : sampleClass.declaration? 12 with
    | error fault =>
      rw [h] at hd
      cases hd
    | ok found =>
      rw [h] at hd
      exact congrArg _ hd
  rw [← hskip] at hdeclaration
  exact ⟨.step (.declaration (by rw [hskip]; decide) (by rw [hskip]; decide) hdeclaration)
    .here, .step (by decide) (by decide) .here⟩

theorem recovering_blanked_sampleNote :
    (ofText .declarations (sampleFront ++ blanked sampleNote ++ sampleBack)).classesRecovering
        "main.nazca" = sampleClass.classesRecovering "main.nazca" ∧
      (ofText .declarations (sampleFront ++ blanked sampleNote ++ sampleBack)).hierarchyRecovering =
        sampleClass.hierarchyRecovering := by
  obtain ⟨hcomes, hcross⟩ := comes_sampleNote
  have hopening : sampleClass.findAny? [Byte.lbrace, Byte.semicolon, Byte.rbrace] 0 =
      some (8, Byte.lbrace) := by decide
  have hclose : sampleClass.closingBrace? 8 = some 37 := by decide
  have hskip : sampleClass.skipTrivia 0 = 0 := by decide
  have hclasses : sampleClass.AmongClasses "main.nazca" 18 28 0 :=
    .inside (by decide) hopening hclose hcomes hcross (by decide)
  have htree : sampleClass.AmongStatements 18 28 0 :=
    .passed (by rw [hskip]; decide) (by rw [hskip]; exact hopening) hclose (by decide)
      (by decide)
  have hwhole : (sampleFront ++ sampleNote ++ sampleBack).Whole :=
    ((Text.whole_ofString _).append (Text.whole_ofString _)).append (Text.whole_ofString _)
  obtain ⟨hread, htree', -⟩ :=
    recovering_blanked unseen_sampleNote hwhole apart_sampleNote hclasses htree
  exact ⟨hread, htree'⟩

end MaskedText

end PageLang
