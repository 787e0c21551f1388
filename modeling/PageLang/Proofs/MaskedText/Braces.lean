import PageLang.Proofs.MaskedText.Cells

/-!
# The braces of a stretch of text

A block is closed by the first brace that leaves none open, so an offset behind its opening brace
stands in the block exactly if the braces in front of it leave the block open. A whole block changes
nothing, so a block in a block is closed in it.

* `MaskedText.piece`: the cells between two offsets.
* `MaskedText.isSome_openAt_iff`: the offsets in a block.
* `MaskedText.balanced_block`, `MaskedText.closingBrace?_lt`: blocks inside.
-/

namespace PageLang

open Cell

/-- Some brace stays open. -/
theorem Cell.depth?_pos {depth n : Nat} {w : List Cell} (hdepth : 0 < depth)
    (h : depth? depth w = some n) : 0 < n := by
  induction w generalizing depth with
  | nil =>
    cases h
    exact hdepth
  | cons c w ih =>
    rw [depth?_cons, Option.bind_eq_some_iff] at h
    obtain ⟨k, hstep, h⟩ := h
    refine ih ?_ h
    unfold step? at hstep
    repeat' split at hstep
    all_goals cases hstep
    all_goals omega

theorem Cell.Balanced.depth?_eq {w : List Cell} (hw : Balanced w) {depth : Nat} (h : 0 < depth) :
    depth? depth w = some depth := by
  obtain ⟨k, rfl⟩ := Nat.exists_eq_add_of_lt h
  simpa using hw k

namespace MaskedText

variable {s : MaskedText} {a b c opening close : Nat}

/-- The cells from `start` up to `stop`. -/
def piece (s : MaskedText) (start stop : Nat) : List Cell :=
  (s.cells.drop start).take (stop - start)

theorem piece_append (hab : a ≤ b) (hbc : b ≤ c) :
    s.piece a c = s.piece a b ++ s.piece b c := by
  obtain ⟨m, rfl⟩ := Nat.exists_eq_add_of_le hab
  obtain ⟨n, rfl⟩ := Nat.exists_eq_add_of_le hbc
  unfold piece
  rw [show a + m + n - a = m + n by omega, show a + m - a = m by omega,
    show a + m + n - (a + m) = n by omega, List.take_add, List.drop_drop]

theorem drop_cells_eq (h : a ≤ b) : s.cells.drop a = s.piece a b ++ s.cells.drop b := by
  conv => lhs; rw [← List.take_append_drop (b - a) (s.cells.drop a)]
  rw [List.drop_drop, Nat.add_sub_cancel' h]
  rfl

/-- What stands behind an opening brace that is closed. -/
theorem drop_of_closingBrace? (h : s.closingBrace? opening = some close) :
    ∃ v, s.cells.drop (opening + 1) =
        s.piece (opening + 1) close ++ (Byte.rbrace, false) :: v ∧
      opening + 1 + (s.piece (opening + 1) close).length = close ∧
      depth? 1 (s.piece (opening + 1) close) = some 1 := by
  have hlt := closingBrace?_eq_some h
  have hlength : (s.cells.drop (opening + 1)).length = s.size - (opening + 1) := by
    rw [List.length_drop, length_cells]
  have hrest : s.Rest (opening + 1) (s.cells.drop (opening + 1)) := ⟨by omega, rfl⟩
  rw [closingBrace?, ← hlength] at h
  obtain ⟨v, u, hcells, rfl, hdepth⟩ := hrest.split_of_closing? Nat.one_pos h
  have hpiece : s.piece (opening + 1) (opening + 1 + v.length) = v := by
    unfold piece
    rw [hcells, Nat.add_sub_cancel_left, List.take_left]
  rw [hpiece]
  exact ⟨u, hcells, rfl, hdepth⟩

/-- The braces open at `p` of those from the one at `opening` on, unless that one is closed. -/
def openAt (s : MaskedText) (opening p : Nat) : Option Nat :=
  depth? 1 (s.piece (opening + 1) p)

theorem openAt_trans (h : opening < a) (hab : a ≤ b) :
    s.openAt opening b = (s.openAt opening a).bind fun n => depth? n (s.piece a b) := by
  unfold openAt
  rw [piece_append (s := s) h hab, depth?_append]

theorem openAt_pos {n : Nat} (h : s.openAt opening a = some n) : 0 < n :=
  depth?_pos Nat.one_pos h

/-- A stretch that leaves open what is open. -/
theorem openAt_of_balanced (h : opening < a) (hab : a ≤ b) (hw : Balanced (s.piece a b)) :
    s.openAt opening b = s.openAt opening a := by
  rw [openAt_trans h hab]
  cases hopen : s.openAt opening a with
  | none => rfl
  | some n => exact hw.depth?_eq (openAt_pos hopen)

theorem openAt_close (h : s.closingBrace? opening = some close) :
    s.openAt opening close = some 1 :=
  (drop_of_closingBrace? h).choose_spec.2.2

/-- The offsets in a block, its closing brace among them, are those at which it is open. -/
theorem isSome_openAt_iff (h : s.closingBrace? opening = some close) (ha : opening < a) :
    (s.openAt opening a).isSome = true ↔ a ≤ close := by
  constructor
  · intro hopen
    refine Nat.le_of_not_lt fun hlt => ?_
    obtain ⟨v, hcells, hlength, hdepth⟩ := drop_of_closingBrace? h
    have hpiece : s.piece (opening + 1) a = s.piece (opening + 1) close ++
        (Byte.rbrace, false) :: v.take (a - close - 1) := by
      conv => lhs; unfold piece
      rw [hcells, show a - (opening + 1) =
          (s.piece (opening + 1) close).length + (a - close - 1 + 1) by omega,
        List.take_length_add_append, List.take_succ_cons]
    rw [openAt, hpiece, depth?_append, hdepth] at hopen
    cases hopen
  · intro hle
    have hclose := openAt_close h
    rw [openAt_trans ha hle] at hclose
    obtain ⟨n, hn, -⟩ := Option.bind_eq_some_iff.1 hclose
    rw [hn]
    rfl

/-- A block leaves open what is open around it. -/
theorem balanced_block (hlive : s.liveByte? opening = some Byte.lbrace)
    (h : s.closingBrace? opening = some close) : Balanced (s.piece opening (close + 1)) := by
  obtain ⟨v, hcells, hlength, hdepth⟩ := drop_of_closingBrace? h
  have hlt := closingBrace?_eq_some h
  have hpiece : s.piece opening (close + 1) =
      live [Byte.lbrace] ++ s.piece (opening + 1) close ++ live [Byte.rbrace] := by
    conv => lhs; unfold piece
    rw [drop_cells_of_live hlive, hcells, show close + 1 - opening =
        (s.piece (opening + 1) close).length + 1 + 1 by omega, List.take_succ_cons,
      List.take_length_add_append, List.take_succ_cons]
    rfl
  rw [hpiece]
  exact (balanced_of_depth? hdepth).braces

/-- A block in a block is closed in it. -/
theorem closingBrace?_lt {inner last : Nat} (h : s.closingBrace? opening = some close)
    (hlive : s.liveByte? inner = some Byte.lbrace) (hinner : s.closingBrace? inner = some last)
    (ho : opening < inner) (hi : inner < close) : last < close := by
  have hlt := (closingBrace?_eq_some hinner).1
  have hopen := (isSome_openAt_iff h ho).2 (Nat.le_of_lt hi)
  rw [← openAt_of_balanced ho (by omega) (balanced_block hlive hinner)] at hopen
  exact (isSome_openAt_iff h (by omega)).1 hopen

end MaskedText

end PageLang
