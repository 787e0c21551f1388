import Mathlib.Order.Monotone.Basic
import PageLang.Proofs.Include.Characters

/-!
# Places in a text and in a piece of it

The place of an offset is the place behind the bytes in front of its character. It is found by
going through these bytes, so the places of a piece follow from the place where the piece starts:
the lines go on from there, and the columns of its first line as well, while a newline makes all
columns forget where the piece started.

* `Text.floorBoundary_mono`, `Text.line_place_mono`: a later offset is on no earlier line.
* `Text.place_add`: the place of an offset in a piece, going on from the start of the piece.
* `Text.column_place_add`: when the piece alone tells the column.
-/

namespace PageLang

namespace Text

variable {t : Text} {k : Nat} {b : UInt8}

/-! ## The start of a character -/

theorem floorBoundary_of_length_le (h : t.length ≤ k) : t.floorBoundary k = t.length := if_pos h

theorem floorBoundary_of_boundary (hb : t[k]? = some b) (hcont : Byte.isContinuation b = false) :
    t.floorBoundary k = k := by
  have hlt := (List.getElem?_eq_some_iff.1 hb).1
  unfold floorBoundary
  rw [if_neg (by omega), reverse_take_succ hb, List.takeWhile_cons_of_neg (by simp [hcont])]
  rfl

theorem floorBoundary_le (t : Text) (k : Nat) : t.floorBoundary k ≤ k := by
  unfold floorBoundary
  split
  · assumption
  · exact Nat.sub_le _ _

theorem floorBoundary_le_length (t : Text) (k : Nat) : t.floorBoundary k ≤ t.length := by
  unfold floorBoundary
  split <;> omega

theorem floorBoundary_mono (t : Text) : Monotone t.floorBoundary := by
  refine monotone_nat_of_le_succ fun k => ?_
  cases hb : t[k + 1]? with
  | none =>
    rw [floorBoundary_of_length_le (List.getElem?_eq_none_iff.1 hb)]
    exact floorBoundary_le_length t k
  | some b =>
    cases hcont : Byte.isContinuation b with
    | true => rw [floorBoundary_succ hb hcont]
    | false =>
      rw [floorBoundary_of_boundary hb hcont]
      exact Nat.le_succ_of_le (floorBoundary_le t k)

/-! ## Lines -/

theorem countsLines_length (t : Text) : t.CountsLines t.length := by
  unfold CountsLines
  rw [floorBoundary_of_length_le (Nat.le_refl _)]

theorem one_le_line_place (t : Text) (k : Nat) : 1 ≤ (t.place k).line := by
  rw [place_line]
  exact Nat.le_add_left _ _

theorem line_place_le (t : Text) (k : Nat) : (t.place k).line ≤ t.newlines + 1 := by
  rw [place_line]
  exact Nat.succ_le_succ (newlines_take_le t _)

/-- A later offset is on no earlier line. -/
theorem line_place_mono (t : Text) : Monotone fun k => (t.place k).line := by
  intro j k hjk
  dsimp only
  rw [place_line, place_line]
  exact Nat.succ_le_succ (newlines_take_mono t (floorBoundary_mono t hjk))

/-! ## Columns -/

/-- Without a newline, each character moves the column by one. -/
theorem column_foldl_of_not_mem (h : Byte.newline ∉ t) (p : Place) :
    (t.foldl Place.after p).column = p.column + t.countP (!Byte.isContinuation ·) := by
  induction t generalizing p with
  | nil => rfl
  | cons b t ih =>
    obtain ⟨hb, ht⟩ : Byte.newline ≠ b ∧ Byte.newline ∉ t := by simpa using h
    have hafter : (p.after b).column = p.column + if !Byte.isContinuation b then 1 else 0 := by
      unfold Place.after
      rw [if_neg (by simpa using hb.symm)]
      cases Byte.isContinuation b <;> rfl
    rw [List.foldl_cons, ih ht, hafter, List.countP_cons]
    omega

theorem le_column_foldl (t : Text) {p : Place} (h : 1 ≤ p.column) :
    1 ≤ (t.foldl Place.after p).column := by
  induction t generalizing p with
  | nil => exact h
  | cons b t ih =>
    refine ih ?_
    unfold Place.after
    split
    · exact Nat.le_refl 1
    · split
      · exact h
      · exact Nat.le_add_left _ _

theorem one_le_column_place (t : Text) (k : Nat) : 1 ≤ (t.place k).column :=
  le_column_foldl _ (Nat.le_refl 1)

/-- Behind a newline the column does not depend on where the text started. -/
theorem column_foldl_of_mem (h : Byte.newline ∈ t) (p q : Place) :
    (t.foldl Place.after p).column = (t.foldl Place.after q).column := by
  induction t generalizing p q with
  | nil => cases h
  | cons b t ih =>
    rw [List.foldl_cons, List.foldl_cons]
    by_cases hmem : Byte.newline ∈ t
    · exact ih hmem _ _
    · -- the first byte is the last newline, and both sides go on from column 1
      obtain rfl : Byte.newline = b := (List.mem_cons.1 h).resolve_right hmem
      rw [column_foldl_of_not_mem hmem, column_foldl_of_not_mem hmem]
      rfl

/-! ## Pieces -/

variable {start stop p : Nat}

theorem getElem?_slice (t : Text) (start stop : Nat) (h : k < (t.slice start stop).length) :
    (t.slice start stop)[k]? = t[start + k]? := by
  have hk : k < stop - start := by
    simp only [slice, List.length_take] at h
    omega
  rw [slice, List.getElem?_take_of_lt hk, List.getElem?_drop]

theorem newlines_take_slice (t : Text) (h : start ≤ stop) :
    newlines (t.take stop) = newlines (t.take start) + newlines (t.slice start stop) := by
  rw [slice, ← newlines_append, ← List.take_add, Nat.add_sub_cancel' h]

/-- Characters of a piece that starts with a character are those of the text. -/
theorem floorBoundary_slice (hb : t[start]? = some b) (hcont : Byte.isContinuation b = false)
    (hp : p < (t.slice start stop).length) :
    t.floorBoundary (start + p) = start + (t.slice start stop).floorBoundary p := by
  induction p with
  | zero =>
    have hfirst : (t.slice start stop)[0]? = some b := by
      rw [getElem?_slice t _ _ hp, Nat.add_zero, hb]
    rw [Nat.add_zero, floorBoundary_of_boundary hb hcont, floorBoundary_of_boundary hfirst hcont]
    rfl
  | succ p ih =>
    have hc := List.getElem?_eq_getElem hp
    have hc' : t[start + p + 1]? = _ := (getElem?_slice t _ _ hp).symm.trans hc
    cases hcont' : Byte.isContinuation (t.slice start stop)[p + 1] with
    | true =>
      rw [floorBoundary_succ hc hcont', ← Nat.add_assoc, floorBoundary_succ hc' hcont']
      exact ih (Nat.lt_of_succ_lt hp)
    | false =>
      rw [floorBoundary_of_boundary hc hcont', ← Nat.add_assoc,
        floorBoundary_of_boundary hc' hcont']

/-- The place of an offset in a piece is found by going on from the place where the piece starts. -/
theorem place_add (hb : t[start]? = some b) (hcont : Byte.isContinuation b = false)
    (hp : p < (t.slice start stop).length) :
    t.place (start + p) =
      ((t.slice start stop).take ((t.slice start stop).floorBoundary p)).foldl Place.after
        (t.place start) := by
  have hwidth : (t.slice start stop).floorBoundary p ≤ stop - start := by
    have := floorBoundary_le (t.slice start stop) p
    simp only [slice, List.length_take] at hp
    omega
  have htake : t.take (start + (t.slice start stop).floorBoundary p) =
      t.take start ++ (t.slice start stop).take ((t.slice start stop).floorBoundary p) := by
    generalize (t.slice start stop).floorBoundary p = n at hwidth
    rw [List.take_add, slice, List.take_take, Nat.min_eq_left hwidth]
  rw [place, floorBoundary_slice hb hcont hp, htake, List.foldl_append, place,
    floorBoundary_of_boundary hb hcont]

/-- The lines of a piece go on from the line where it starts. -/
theorem line_place_add (hb : t[start]? = some b) (hcont : Byte.isContinuation b = false)
    (hp : p < (t.slice start stop).length) :
    (t.place (start + p)).line =
      (t.place start).line + (((t.slice start stop).place p).line - 1) := by
  rw [place_add hb hcont hp, foldl_after_line, place_line (t.slice start stop), Nat.add_sub_cancel]

/-- On the first line of a piece the columns go on from the column where it starts. On all other
lines the piece alone tells the column. -/
theorem column_place_add (hb : t[start]? = some b) (hcont : Byte.isContinuation b = false)
    (hp : p < (t.slice start stop).length) :
    (t.place (start + p)).column =
      if ((t.slice start stop).place p).line = 1 then
        (t.place start).column + (((t.slice start stop).place p).column - 1)
      else ((t.slice start stop).place p).column := by
  have hline := place_line (t.slice start stop) p
  rw [place_add hb hcont hp]
  unfold place at hline ⊢
  rw [hline]
  generalize (t.slice start stop).take ((t.slice start stop).floorBoundary p) = front
  by_cases hmem : Byte.newline ∈ front
  · have hpos : 0 < newlines front := List.count_pos_iff.2 hmem
    rw [if_neg (by omega)]
    exact column_foldl_of_mem hmem _ _
  · have hzero : newlines front = 0 := List.count_eq_zero.2 hmem
    rw [if_pos (by omega), column_foldl_of_not_mem hmem, column_foldl_of_not_mem hmem,
      Nat.add_sub_cancel_left]

end Text

end PageLang
