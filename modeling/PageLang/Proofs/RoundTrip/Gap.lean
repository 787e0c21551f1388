import PageLang.Element.Parser
import PageLang.Proofs.MaskedText.Cells

/-!
# Gaps between statements

Between two statements may stand any whitespace and any comments. A gap is masked as far as it is
comment, it is skipped as a whole, and it changes neither what the mask machine expects next nor
the number of open braces.

* `Gap.reads`: the cells a gap is read as.
* `Gap.skipTrivia`: skipping ends behind the gap.
* `Gap.afterBlock_eq`, `Gap.skipSemicolon_eq`: a `;` right behind a block belongs to it, and one
  behind a gap does not.
-/

namespace PageLang.Written

open Cell

/-- One byte of whitespace, or one comment. -/
inductive Filler where
  | space (b : UInt8) (h : Byte.isSpace b = true)
  | lineComment (t : Text) (h : Byte.newline ∉ t)
  | blockComment (t : Text) (h : t.hasInfix "*/" = false)

namespace Filler

/-- A filler as written. A line comment ends with its newline. -/
def text : Filler → Text
  | space b _ => [b]
  | lineComment t _ => [Byte.slash, Byte.slash] ++ t ++ [Byte.newline]
  | blockComment t _ => [Byte.slash, Byte.star] ++ t ++ [Byte.star, Byte.slash]

/-- A filler with its mask. -/
def cells : Filler → List Cell
  | space b _ => live [b]
  | lineComment t _ => masked ([Byte.slash, Byte.slash] ++ t) ++ live [Byte.newline]
  | blockComment t _ => masked ([Byte.slash, Byte.star] ++ t ++ [Byte.star, Byte.slash])

@[simp] theorem bytes_cells (f : Filler) : bytes f.cells = f.text := by
  cases f <;> simp [cells, text]

theorem reads (f : Filler) {mode : Mode} {depth : Nat} {outer : List Mask.Frame}
    (before ahead : Text) :
    Mask.State.Reads ⟨.live, mode, depth, outer⟩ before f.cells ahead
      ⟨.live, mode, depth, outer⟩ := by
  cases f with
  | space b h =>
    exact Mask.State.reads_plain (by simpa using Byte.isPlain_of_isSpace h) before ahead
  | lineComment t h => exact Mask.State.reads_lineComment h before ahead
  | blockComment t h => exact Mask.State.reads_blockComment h before ahead

/-- The live cells of a filler are whitespace. -/
theorem isSpace_of_live (f : Filler) : ∀ c ∈ f.cells, c.2 = false → Byte.isSpace c.1 = true := by
  intro c hc hlive
  cases f with
  | space b h =>
    obtain rfl : c = (b, false) := by simpa [cells] using hc
    exact h
  | lineComment t h =>
    simp only [cells, live, masked, List.mem_append, List.mem_map] at hc
    rcases hc with ⟨b, _, rfl⟩ | ⟨b, hb, rfl⟩
    · simp at hlive
    · obtain rfl : b = Byte.newline := by simpa using hb
      rfl
  | blockComment t h =>
    simp only [cells, masked, List.mem_map] at hc
    obtain ⟨b, _, rfl⟩ := hc
    simp at hlive

/-! ## Skipping one filler -/

section
variable {s : MaskedText} {i n : Nat} {v : List Cell}

/-- Two slashes begin a line comment. -/
theorem gapEnd_slashes {m m' : Bool} (h : s.Rest i ((Byte.slash, m) :: (Byte.slash, m') :: v)) :
    s.gapEnd .blank i (n + 1 + 1) = s.gapEnd .line (i + 1 + 1) n := by
  have hfirst : s.byte? i = some Byte.slash := h.byte?_zero
  have hsecond : s.byte? (i + 1) = some Byte.slash := h.tail.byte?_zero
  have hat : s.startsAt "//" i = true := by
    rw [h.startsAt]
    simp [show Text.ofString "//" = [Byte.slash, Byte.slash] by decide]
  rw [MaskedText.gapEnd, hfirst, if_neg (by decide), if_pos hat, MaskedText.gapEnd, hsecond,
    if_neg (by decide)]

/-- A line comment goes on until its newline. -/
theorem gapEnd_line {t : Text} (ht : Byte.newline ∉ t) (h : s.Rest i (masked t ++ v)) :
    s.gapEnd .line i (t.length + n) = s.gapEnd .line (i + t.length) n := by
  induction t generalizing i with
  | nil => rw [List.length_nil, Nat.zero_add, Nat.add_zero]
  | cons b t ih =>
    rw [List.mem_cons, not_or] at ht
    rw [List.length_cons, Nat.add_right_comm, MaskedText.gapEnd, h.byte?_zero,
      if_neg (by simpa using Ne.symm ht.1), ih ht.2 h.tail, Nat.add_assoc, Nat.add_comm 1]

theorem gapEnd_newline {m : Bool} (h : s.Rest i ((Byte.newline, m) :: v)) :
    s.gapEnd .line i (n + 1) = s.gapEnd .blank (i + 1) n := by
  rw [MaskedText.gapEnd, h.byte?_zero]
  rfl

theorem gapEnd_toCommentEnd {t : Text} {star : Bool}
    (hslash : star = true → t.head? ≠ some Byte.slash) (ht : Text.hasInfix t "*/" = false)
    (h : s.Rest i (masked (t ++ [Byte.star, Byte.slash]) ++ v)) :
    s.gapEnd (.block star) i (t.length + 2 + n) = s.gapEnd .blank (i + (t.length + 2)) n := by
  induction t generalizing i star with
  | nil =>
    have hstar : s.byte? i = some Byte.star := h.byte?_zero
    have hend : s.byte? (i + 1) = some Byte.slash := h.tail.byte?_zero
    rw [show [].length + 2 + n = n + 1 + 1 by simp; omega, MaskedText.gapEnd, hstar,
      if_neg (by decide +revert), MaskedText.gapEnd, hend]
    rfl
  | cons b t ih =>
    obtain ⟨hpre, ht⟩ := Text.hasInfix_cons_eq_false ht
    have hb : ¬ (star = true ∧ s.byte? i = some Byte.slash) := by
      rw [h.byte?_zero]
      exact fun hb => hslash hb.1 hb.2
    rw [show (b :: t).length + 2 + n = (t.length + 2 + n) + 1 by simp; omega, MaskedText.gapEnd,
      if_neg hb, ih ?_ ht h.tail]
    · congr 1
      simp
      omega
    · intro hstar hhead
      rw [h.byte?_zero, decide_eq_true_eq] at hstar
      obtain ⟨rest, rfl⟩ := List.head?_eq_some_iff.1 hhead
      obtain rfl : b = Byte.star := by simpa using hstar
      rw [show Text.ofString "*/" = [Byte.star, Byte.slash] by decide] at hpre
      simp at hpre

theorem gapEnd (f : Filler) (h : s.Rest i (f.cells ++ v)) :
    s.gapEnd .blank i (f.cells.length + n) = s.gapEnd .blank (i + f.cells.length) n := by
  cases f with
  | space b hb =>
    rw [show (space b hb).cells.length + n = n + 1 by simp [cells]; omega, MaskedText.gapEnd,
      h.byte?_zero]
    simp [cells, hb]
  | lineComment t ht =>
    have h : s.Rest i ((Byte.slash, true) :: (Byte.slash, true) ::
        (masked t ++ (Byte.newline, false) :: v)) := by simpa [cells] using h
    have hnewline := h.tail.tail.skip
    rw [show (lineComment t ht).cells.length + n = (t.length + (n + 1)) + 1 + 1 by
        simp [cells]; omega,
      gapEnd_slashes h, gapEnd_line ht h.tail.tail]
    rw [length_masked] at hnewline
    rw [gapEnd_newline hnewline]
    congr 1
    simp [cells]
    omega
  | blockComment t ht =>
    have h : s.Rest i ((Byte.slash, true) :: (Byte.star, true) ::
        (masked (t ++ [Byte.star, Byte.slash]) ++ v)) := by simpa [cells] using h
    have hfirst : s.byte? i = some Byte.slash := h.byte?_zero
    have hline : s.startsAt "//" i = false := by
      rw [h.startsAt]
      simp +decide [show Text.ofString "//" = [Byte.slash, Byte.slash] by decide]
    have hat : s.startsAt "/*" i = true := by
      rw [h.startsAt]
      simp [show Text.ofString "/*" = [Byte.slash, Byte.star] by decide]
    rw [show (blockComment t ht).cells.length + n = (t.length + 2 + n) + 1 + 1 by
        simp [cells]; omega,
      MaskedText.gapEnd, hfirst, if_neg (by decide), if_neg (by simp [hline]), if_pos hat,
      MaskedText.gapEnd, gapEnd_toCommentEnd (by simp) ht h.tail.tail]
    congr 1
    simp [cells]
    omega

end

end Filler

/-! ## Gaps -/

/-- What stands between two statements. -/
abbrev Gap := List Filler

namespace Gap

/-- A gap as written. -/
def text (g : Gap) : Text := g.flatMap Filler.text
/-- A gap with its mask. -/
def cells (g : Gap) : List Cell := g.flatMap Filler.cells

@[simp] theorem cells_nil : cells [] = [] := rfl
@[simp] theorem cells_cons (f : Filler) (g : Gap) : cells (f :: g) = f.cells ++ cells g := rfl

@[simp] theorem bytes_cells (g : Gap) : bytes (cells g) = text g := by
  induction g with
  | nil => rfl
  | cons f g ih => simp [text, ih]

theorem reads (g : Gap) {mode : Mode} {depth : Nat} {outer : List Mask.Frame}
    (before ahead : Text) :
    Mask.State.Reads ⟨.live, mode, depth, outer⟩ before g.cells ahead
      ⟨.live, mode, depth, outer⟩ := by
  induction g generalizing before with
  | nil => exact .nil ..
  | cons f g ih => exact (f.reads before _).append (ih _)

theorem isSpace_of_live (g : Gap) : ∀ c ∈ g.cells, c.2 = false → Byte.isSpace c.1 = true := by
  intro c hc
  obtain ⟨f, _, hc⟩ := List.mem_flatMap.1 hc
  exact f.isSpace_of_live c hc

theorem balanced (g : Gap) : Balanced g.cells := by
  refine balanced_of_no_braces fun c hc hlive => ?_
  have := g.isSpace_of_live c hc hlive
  refine ⟨?_, ?_⟩ <;> intro h <;> rw [h] at this <;> exact absurd this (by decide)

section
variable {s : MaskedText} {i : Nat} {v : List Cell}

theorem gapEnd (g : Gap) {n : Nat} (h : s.Rest i (g.cells ++ v)) :
    s.gapEnd .blank i (g.cells.length + n) = s.gapEnd .blank (i + g.cells.length) n := by
  induction g generalizing i with
  | nil => simp
  | cons f g ih =>
    rw [cells_cons, List.append_assoc] at h
    rw [cells_cons, List.length_append, Nat.add_assoc, f.gapEnd h, ih h.skip, Nat.add_assoc]

/-- Skipping ends behind a gap, where neither a blank nor a comment follows. -/
theorem skipTrivia (g : Gap) (h : s.Rest i (g.cells ++ v))
    (hv : ∀ b ∈ s.byte? (i + g.cells.length), Byte.isSpace b = false ∧ b ≠ Byte.slash) :
    s.skipTrivia i = i + g.cells.length := by
  have hsize := h.size_eq
  rw [List.length_append] at hsize
  rw [MaskedText.skipTrivia, show min i s.size = i by omega,
    show s.size - i = g.cells.length + v.length by omega, g.gapEnd h]
  cases v with
  | nil => rfl
  | cons c v =>
    have hbyte : s.byte? (i + g.cells.length) = some c.1 := h.skip.byte?_zero
    have hc := hv c.1 hbyte
    have hslash (pattern : Text) (hp : pattern.head? = some Byte.slash) :
        s.startsAt pattern (i + g.cells.length) = false := by
      rw [h.skip.startsAt]
      cases pattern with
      | nil => simp at hp
      | cons b pattern =>
        obtain rfl : b = Byte.slash := by simpa using hp
        simp [hc.2]
    rw [List.length_cons, MaskedText.gapEnd, hbyte, if_neg (by simp [hc.1]),
      if_neg (by simp [hslash "//" rfl]), if_neg (by simp [hslash "/*" rfl])]

/-- A semicolon, or nothing. -/
def ending (semicolon : Bool) : Text := if semicolon then [Byte.semicolon] else []

/-- A statement, a closing brace or the end stands here. -/
def Starts (v : List Cell) : Prop :=
  ∀ c ∈ v.head?, Byte.isSpace c.1 = false ∧ c.1 ≠ Byte.slash ∧ c.1 ≠ Byte.semicolon

/-- What may follow a statement without a semicolon. -/
def Continues (v : List Cell) : Prop := ∃ (g : Gap) (w : List Cell), v = g.cells ++ w ∧ Starts w

theorem skipTrivia_of_starts (g : Gap) (h : s.Rest i (g.cells ++ v)) (hv : Starts v) :
    s.skipTrivia i = i + g.cells.length := by
  refine g.skipTrivia h fun b hb => ?_
  rw [h.skip.byte?_zero] at hb
  obtain ⟨c, hc, rfl⟩ := Option.map_eq_some_iff.1 hb
  exact ⟨(hv c hc).1, (hv c hc).2.1⟩

/-- A gap is whitespace up to a comment or to its end. -/
theorem exists_spaces (g : Gap) {w : List Cell}
    (hw : ∀ c ∈ w.head?, Byte.isSpace c.1 = false ∧ c.1 ≠ Byte.semicolon) :
    ∃ spaces r, g.cells ++ w = spaces ++ r ∧ (∀ c ∈ spaces, Byte.isSpace c.1 = true) ∧
      ∀ c ∈ r.head?, Byte.isSpace c.1 = false ∧ c.1 ≠ Byte.semicolon := by
  induction g with
  | nil => exact ⟨[], w, rfl, by simp, hw⟩
  | cons f g ih =>
    cases f with
    | space b hb =>
      obtain ⟨spaces, r, heq, hspaces, hr⟩ := ih
      refine ⟨(b, false) :: spaces, r, ?_, List.forall_mem_cons.2 ⟨hb, hspaces⟩, hr⟩
      rw [cells_cons, List.append_assoc, heq]
      rfl
    | lineComment t ht => exact ⟨[], _, rfl, by simp, by simp +decide⟩
    | blockComment t ht => exact ⟨[], _, rfl, by simp, by simp +decide⟩

/-- The offset after a block, which takes the semicolon right behind it but none from further on. -/
theorem afterBlock_eq {semicolon : Bool} (h : s.Rest i (live (ending semicolon) ++ v))
    (hv : semicolon = false → Continues v) :
    s.afterBlock i = i + (ending semicolon).length := by
  cases semicolon with
  | true =>
    have hskip : s.skipSpace i = i := h.skipSpace (w := []) (by simp) (by simp +decide)
    have hbyte : s.byte? i = some Byte.semicolon := h.byte?_zero
    rw [MaskedText.afterBlock, hskip, hbyte]
    rfl
  | false =>
    obtain ⟨g, w, rfl, hw⟩ := hv rfl
    obtain ⟨spaces, r, heq, hspaces, hr⟩ :=
      g.exists_spaces (fun c hc => ⟨(hw c hc).1, (hw c hc).2.2⟩)
    have h : s.Rest i (spaces ++ r) := heq ▸ h
    have hskip := h.skipSpace hspaces (fun c hc => (hr c hc).1)
    rw [MaskedText.afterBlock, hskip, h.skip.byte?_zero, if_neg]
    · rfl
    · intro hsemi
      obtain ⟨c, hc, hsemi⟩ := Option.map_eq_some_iff.1 hsemi
      exact (hr c hc).2 hsemi

/-- The same for the offset after an element. -/
theorem skipSemicolon_eq {semicolon : Bool} (h : s.Rest i (live (ending semicolon) ++ v))
    (hv : semicolon = false → Continues v) :
    s.skipSemicolon i = i + (ending semicolon).length := by
  cases semicolon with
  | true =>
    have hbyte : s.byte? i = some Byte.semicolon := h.byte?_zero
    have hskip : s.skipTrivia i = i := Gap.skipTrivia [] h (by simp +decide [hbyte])
    rw [MaskedText.skipSemicolon, hskip, hbyte]
    rfl
  | false =>
    obtain ⟨g, w, rfl, hw⟩ := hv rfl
    have h : s.Rest i (g.cells ++ w) := h
    have hskip := g.skipTrivia_of_starts h hw
    rw [MaskedText.skipSemicolon, hskip, h.skip.byte?_zero, if_neg]
    · rfl
    · intro hsemi
      obtain ⟨c, hc, hsemi⟩ := Option.map_eq_some_iff.1 hsemi
      exact (hw c hc).2.2 hsemi

end

end Gap

end PageLang.Written
