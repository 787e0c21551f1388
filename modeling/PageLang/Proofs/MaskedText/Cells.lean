import PageLang.MaskedText.Lemmas
import PageLang.Proofs.Mask.Nested

/-!
# Searching the cells of a text

`s.Rest i w`: the cells `w` make up the text from offset `i` to its end. A search that starts there
depends on `w` alone, so each search has a lemma that says how it passes over a piece of `w`, or
where in `w` it ends.

* `rest_ofText`: a text that is read as the cells `w` holds `w`.
* `Rest.findAny?`, `Rest.skipSpace`, `Rest.closingBrace?`: where the searches end.
-/

namespace PageLang.MaskedText

open Cell

/-- The bytes of a text with their bits. -/
def cells (s : MaskedText) : List Cell := s.bytes.toList.zip s.mask.toList

/-- The cells `w` make up the text from offset `i` on. -/
def Rest (s : MaskedText) (i : Nat) (w : List Cell) : Prop := i ≤ s.size ∧ s.cells.drop i = w

theorem length_cells (s : MaskedText) : s.cells.length = s.size := by
  simp [cells, size, s.size_mask]

theorem getElem?_cells (s : MaskedText) (i : Nat) :
    s.cells[i]? = (s.byte? i).map (fun b => (b, s.isMasked i)) := by
  unfold cells byte? isMasked
  rcases Nat.lt_or_ge i s.bytes.size with h | h
  · have hm : i < s.mask.size := by rw [s.size_mask]; exact h
    simp [List.getElem?_zip_eq_some, h, hm]
  · have hm : s.mask.size ≤ i := by rw [s.size_mask]; exact h
    have hz : (s.bytes.toList.zip s.mask.toList).length ≤ i := by
      simp
      omega
    simp only [List.getElem?_eq_none hz]
    simp [h]

/-- The cells from a byte on begin with the cell of that byte. -/
theorem drop_cells {s : MaskedText} {i : Nat} {b : UInt8} (hb : s.byte? i = some b) :
    s.cells.drop i = (b, s.isMasked i) :: s.cells.drop (i + 1) := by
  have hcell : s.cells[i]? = some (b, s.isMasked i) := by
    rw [getElem?_cells, hb]
    rfl
  obtain ⟨hlt, hget⟩ := List.getElem?_eq_some_iff.1 hcell
  rw [List.drop_eq_getElem_cons hlt, hget]

theorem drop_cells_of_live {s : MaskedText} {i : Nat} {b : UInt8} (h : s.liveByte? i = some b) :
    s.cells.drop i = (b, false) :: s.cells.drop (i + 1) := by
  obtain ⟨hmask, hbyte⟩ := MaskedText.liveByte?_eq_some h
  rw [drop_cells hbyte, hmask]

theorem byte?_eq_cells (s : MaskedText) (i : Nat) : s.byte? i = s.cells[i]?.map Prod.fst := by
  rw [getElem?_cells, Option.map_map]
  exact Option.map_id'.symm

theorem isMasked_eq_cells (s : MaskedText) (i : Nat) :
    s.isMasked i = (s.cells[i]?.map Prod.snd).getD false := by
  rw [getElem?_cells, Option.map_map]
  cases hb : s.byte? i with
  | some b => rfl
  | none =>
    have hle : s.bytes.size ≤ i := Array.getElem?_eq_none_iff.1 hb
    unfold isMasked
    rw [Array.getD_eq_getD_getElem?, Array.getElem?_eq_none (by rw [s.size_mask]; exact hle)]
    rfl

theorem cells_ofText (mode : Mode) (t : Text) :
    (ofText mode t).cells = t.zip (Mask.ofText mode t) := rfl

theorem rest_zero (s : MaskedText) : s.Rest 0 s.cells := ⟨Nat.zero_le _, List.drop_zero⟩

/-- A text that is read as the cells `w` holds them. -/
theorem rest_ofText {mode : Mode} {w : List Cell} {e : Mask.State}
    (h : Mask.State.Reads (.start mode) [] w [] e) : (ofText mode (Cell.bytes w)).Rest 0 w := by
  have hcells : (ofText mode (Cell.bytes w)).cells = w := by
    simp only [cells, ofText, Mask.State.ofText_of_reads h]
    exact zip_bytes_bits w
  have := rest_zero (ofText mode (Cell.bytes w))
  rwa [hcells] at this

namespace Rest

variable {s : MaskedText} {i : Nat} {w v : List Cell} {c : Cell}

theorem size_eq (h : s.Rest i w) : s.size = i + w.length := by
  have := congrArg List.length h.2
  rw [List.length_drop, length_cells] at this
  have := h.1
  omega

theorem skip (h : s.Rest i (w ++ v)) : s.Rest (i + w.length) v := by
  refine ⟨by rw [h.size_eq, List.length_append]; omega, ?_⟩
  rw [← List.drop_drop, h.2, List.drop_left]

theorem tail (h : s.Rest i (c :: w)) : s.Rest (i + 1) w := skip (w := [c]) h

theorem getElem? (h : s.Rest i w) (j : Nat) : s.cells[i + j]? = w[j]? := by
  rw [← List.getElem?_drop, h.2]

theorem byte? (h : s.Rest i w) (j : Nat) : s.byte? (i + j) = w[j]?.map Prod.fst := by
  rw [← h.getElem? j, getElem?_cells, Option.map_map]
  simp [Function.comp_def]

theorem byte?_zero (h : s.Rest i w) : s.byte? i = w.head?.map Prod.fst := by
  rw [List.head?_eq_getElem?]
  exact h.byte? 0

theorem liveByte? (h : s.Rest i w) (j : Nat) :
    s.liveByte? (i + j) = w[j]?.bind (fun c => if c.2 then none else some c.1) := by
  rw [← h.getElem? j, getElem?_cells]
  unfold MaskedText.liveByte?
  cases s.byte? (i + j) <;> simp

theorem liveByte?_zero (h : s.Rest i (c :: w)) :
    s.liveByte? i = if c.2 then none else some c.1 := h.liveByte? 0

/-- The next `n` bytes, or as many as there are. -/
theorem slice_take (h : s.Rest i w) (n : Nat) : s.slice i (i + n) = (Cell.bytes w).take n := by
  have hbytes : s.bytes.toList = s.cells.map Prod.fst := by
    unfold cells
    rw [List.map_fst_zip (by simp [s.size_mask])]
  unfold MaskedText.slice
  rw [Array.toList_extract, List.extract_eq_take_drop, hbytes, ← List.map_drop, h.2,
    Nat.add_sub_cancel_left]
  rfl

/-- The bytes of a piece. -/
theorem slice (h : s.Rest i (w ++ v)) : s.slice i (i + w.length) = Cell.bytes w := by
  rw [h.slice_take, Cell.bytes_append, List.take_left' (by simp)]

theorem startsAt (h : s.Rest i w) (pattern : Text) :
    s.startsAt pattern i = ((Cell.bytes w).take pattern.length == pattern) := by
  rw [MaskedText.startsAt, h.slice_take]

end Rest

/-! ## First offsets -/

/-- A search passes over the offsets that it does not accept. -/
theorem firstFrom?_skip {p : Nat → Bool} {i n k : Nat} (hskip : ∀ j < k, p (i + j) = false) :
    firstFrom? p i (k + n) = firstFrom? p (i + k) n := by
  induction k generalizing i with
  | zero => simp
  | succ k ih =>
    have hi : p i = false := hskip 0 (by omega)
    rw [show k + 1 + n = (k + n) + 1 by omega, firstFrom?, if_neg (by simp [hi]), ih]
    · congr 1
      omega
    · intro j hj
      have := hskip (j + 1) (by omega)
      rwa [show i + (j + 1) = i + 1 + j by omega] at this

namespace Rest

variable {s : MaskedText} {i : Nat} {w v : List Cell} {c : Cell}

/-- A search that accepts none of the cells of `w`, but the cell behind them. -/
theorem firstFrom? (h : s.Rest i (w ++ c :: v)) {p : Nat → Bool}
    (hskip : ∀ j < w.length, p (i + j) = false) (hp : p (i + w.length) = true) :
    MaskedText.firstFrom? p i (s.size - i) = some (i + w.length) := by
  have hsize : s.size - i = w.length + (v.length + 1) := by
    rw [h.size_eq]
    simp
  rw [hsize, firstFrom?_skip hskip, MaskedText.firstFrom?, if_pos hp]

theorem findRaw? {p : UInt8 → Bool} (h : s.Rest i (w ++ c :: v)) (hw : ∀ d ∈ w, p d.1 = false)
    (hc : p c.1 = true) : s.findRaw? p i = some (i + w.length) := by
  refine h.firstFrom? (fun j hj => ?_) ?_
  · rw [h.byte?, List.getElem?_append_left hj, List.getElem?_eq_getElem hj]
    exact hw _ (List.getElem_mem hj)
  · rw [h.byte?]
    simpa using hc

/-- The first live byte of a set, behind a piece where such bytes are masked. -/
theorem findAny? (set : Text) {b : UInt8} (h : s.Rest i (w ++ (b, false) :: v))
    (hw : ∀ d ∈ w, d.2 = false → d.1 ∉ set) (hb : b ∈ set) :
    s.findAny? set i = some (i + w.length, b) := by
  have hfirst : MaskedText.firstFrom? (fun j => (s.liveByte? j).any set.contains) i (s.size - i) =
      some (i + w.length) := by
    refine h.firstFrom? (fun j hj => ?_) ?_
    · rw [h.liveByte?, List.getElem?_append_left hj, List.getElem?_eq_getElem hj]
      have := hw _ (List.getElem_mem hj)
      cases hm : w[j].2 <;> simp_all
    · rw [h.liveByte?]
      simpa using hb
  have hbyte : s.byte? (i + w.length) = some b := by
    rw [h.byte?]
    simp
  simp [MaskedText.findAny?, hfirst, hbyte]

theorem skipSpace (h : s.Rest i (w ++ v)) (hw : ∀ d ∈ w, Byte.isSpace d.1 = true)
    (hv : ∀ d ∈ v.head?, Byte.isSpace d.1 = false) : s.skipSpace i = i + w.length := by
  unfold MaskedText.skipSpace
  cases v with
  | cons c v => rw [h.findRaw? (by simpa using hw) (by simpa using hv)]; rfl
  | nil =>
    rw [List.append_nil] at h
    have hsize := h.size_eq
    have hnone : s.findRaw? (fun b => !Byte.isSpace b) i = none := by
      unfold MaskedText.findRaw?
      rw [firstFrom?_eq_none]
      intro k hk hk'
      obtain ⟨j, rfl⟩ := Nat.exists_eq_add_of_le hk
      have hj : j < w.length := by omega
      rw [h.byte?, List.getElem?_eq_getElem hj]
      simpa using hw _ (List.getElem_mem hj)
    rw [hnone, Option.getD_none]
    omega

/-! ## Brackets -/

/-- The brace that closes the last of `depth` open ones stands behind a piece that leaves one
open. -/
theorem closing? {depth : Nat} (h : s.Rest i (w ++ (Byte.rbrace, false) :: v))
    (hdepth : depth? depth w = some 1) :
    s.closing? (· == Byte.lbrace) (· == Byte.rbrace) depth i (s.size - i) =
      some (i + w.length) := by
  have hsize := h.size_eq
  induction w generalizing i depth with
  | nil =>
    obtain rfl : depth = 1 := by simpa using hdepth
    rw [List.nil_append] at h
    rw [hsize, Nat.add_sub_cancel_left, List.nil_append, List.length_cons, MaskedText.closing?,
      h.liveByte?_zero]
    rfl
  | cons c w ih =>
    rw [depth?_cons, Option.bind_eq_some_iff] at hdepth
    obtain ⟨n, hstep, hdepth⟩ := hdepth
    have htail : s.Rest (i + 1) (w ++ (Byte.rbrace, false) :: v) := h.tail
    have ih := ih htail hdepth htail.size_eq
    rw [show s.size - i = (s.size - (i + 1)) + 1 by simp at hsize; omega, MaskedText.closing?,
      show s.liveByte? i = _ from h.liveByte?_zero, List.length_cons,
      show i + (w.length + 1) = i + 1 + w.length by omega]
    unfold step? at hstep
    obtain ⟨b, m⟩ := c
    cases m with
    | true => simp_all
    | false =>
      by_cases hl : b = Byte.lbrace
      · subst hl
        obtain rfl : depth + 1 = n := by simpa using hstep
        simpa using ih
      by_cases hr : b = Byte.rbrace
      · subst hr
        have hstep : ¬ depth ≤ 1 ∧ depth - 1 = n := by
          by_cases hd : depth ≤ 1 <;> simp_all +decide
        obtain ⟨hd, rfl⟩ := hstep
        simp +decide [hd, ih]
      · simp_all

theorem closingBrace? {b : UInt8} (h : s.Rest i ((b, false) :: w ++ (Byte.rbrace, false) :: v))
    (hw : Balanced w) : s.closingBrace? i = some (i + 1 + w.length) :=
  closing? h.tail (hw 0)

/-- The search for the closing brace splits what it looks at: in front of the brace stands a piece
that leaves one open. -/
theorem split_of_closing? {depth stop : Nat} (h : s.Rest i w) (hdepth : 0 < depth)
    (hclose : s.closing? (· == Byte.lbrace) (· == Byte.rbrace) depth i w.length = some stop) :
    ∃ v u, w = v ++ (Byte.rbrace, false) :: u ∧ stop = i + v.length ∧ depth? depth v = some 1 := by
  induction w generalizing i depth with
  | nil => simp [MaskedText.closing?] at hclose
  | cons c w ih =>
    rw [List.length_cons, MaskedText.closing?,
      show s.liveByte? i = _ from h.liveByte?_zero] at hclose
    -- the cell is passed over, and the search ends in what follows
    have pass {n : Nat} (hn : 0 < n) (hstep : step? depth c = some n)
        (hclose : s.closing? (· == Byte.lbrace) (· == Byte.rbrace) n (i + 1) w.length =
          some stop) :
        ∃ v u, c :: w = v ++ (Byte.rbrace, false) :: u ∧ stop = i + v.length ∧
          depth? depth v = some 1 := by
      obtain ⟨v, u, rfl, rfl, hv⟩ := ih h.tail hn hclose
      refine ⟨c :: v, u, rfl, by rw [List.length_cons]; omega, ?_⟩
      rw [depth?_cons, hstep]
      exact hv
    obtain ⟨b, m⟩ := c
    cases m with
    | true => exact pass hdepth rfl hclose
    | false =>
      by_cases hl : b = Byte.lbrace
      · subst hl
        exact pass (Nat.succ_pos _) rfl (by simpa using hclose)
      by_cases hr : b = Byte.rbrace
      · subst hr
        by_cases hd : depth ≤ 1
        · obtain rfl : i = stop := by simpa +decide [hd] using hclose
          exact ⟨[], w, rfl, rfl, by simp; omega⟩
        · exact pass (n := depth - 1) (by omega) (by simp +decide [step?, hd])
            (by simpa +decide [hd] using hclose)
      · exact pass hdepth (by simp [step?, hl, hr]) (by simpa [hl, hr] using hclose)

/-- A search for the closing brace that ends at the last cell says what is before it. -/
theorem exists_of_closing? {depth : Nat} (h : s.Rest i w) (hdepth : 0 < depth)
    (hclose : s.closing? (· == Byte.lbrace) (· == Byte.rbrace) depth i w.length =
      some (i + w.length - 1)) :
    ∃ v, w = v ++ live [Byte.rbrace] ∧ depth? depth v = some 1 := by
  obtain ⟨v, u, rfl, hstop, hv⟩ := h.split_of_closing? hdepth hclose
  obtain rfl : u = [] := by
    rw [List.length_append, List.length_cons] at hstop
    exact List.length_eq_zero_iff.1 (by omega)
  exact ⟨v, rfl, hv⟩

/-- A search for a bracket passes over cells that are no live brackets. -/
theorem closing?_skip {opens closes : UInt8 → Bool} {depth n : Nat} (h : s.Rest i (w ++ v))
    (hw : ∀ d ∈ w, d.2 = false → opens d.1 = false ∧ closes d.1 = false) :
    s.closing? opens closes depth i (w.length + n) =
      s.closing? opens closes depth (i + w.length) n := by
  induction w generalizing i with
  | nil => simp
  | cons c w ih =>
    have ih := ih h.tail (fun d hd => hw d (.tail _ hd))
    have hc := hw c (.head _)
    rw [List.length_cons, show w.length + 1 + n = (w.length + n) + 1 by omega, MaskedText.closing?,
      show s.liveByte? i = _ from h.liveByte?_zero,
      show i + (w.length + 1) = i + 1 + w.length by omega]
    cases hm : c.2 <;> simp_all

/-- The parenthesis that matches the one at `i`, if none stands between them. -/
theorem closingParen? (h : s.Rest i ((Byte.lparen, false) :: w ++ (Byte.rparen, false) :: v))
    (hw : ∀ d ∈ w, d.2 = false → d.1 ≠ Byte.lparen ∧ d.1 ≠ Byte.rparen) :
    s.closingParen? i = some (i + 1 + w.length) := by
  have hsize : s.size - i = (w.length + (v.length + 1)) + 1 := by
    rw [h.size_eq]
    simp
  have hclose : s.liveByte? (i + 1 + w.length) = some Byte.rparen := h.tail.skip.liveByte?_zero
  rw [MaskedText.closingParen?, hsize, MaskedText.closing?,
    show s.liveByte? i = _ from h.liveByte?_zero]
  simp only [Bool.false_eq_true, if_false, BEq.rfl, if_true]
  rw [h.tail.closing?_skip (by simpa using hw), MaskedText.closing?, hclose]
  rfl

end Rest

end PageLang.MaskedText
