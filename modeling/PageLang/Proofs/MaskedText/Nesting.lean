import Mathlib.Order.Bounds.Basic
import PageLang.Proofs.MaskedText.Braces
import PageLang.Proofs.Text.Nests

/-!
# Live braces nest

The search for the brace that closes a block counts live braces. What it finds is told without a
count: it is the live brace in front of which the block holds balanced braces, and no other brace
has that. So the blocks of a text nest: of two blocks the later one begins behind the first or ends
in it, and a brace that is opened in a block is closed there.

* `Cell.depth?_eq_some_iff`: how many braces stay open.
* `MaskedText.Balances`, `MaskedText.closingBrace?_eq_some_iff`: where a block is closed.
* `MaskedText.exists_closingBrace?_lt`: blocks in a block.
* `MaskedText.closingBrace?_nested`: the blocks of a text.
-/

namespace PageLang

namespace Cell

/-- The bytes of the cells that are not masked. -/
def liveBytes (w : List Cell) : Text := w.filterMap fun c => if c.2 then none else some c.1

variable {depth n : Nat} {w : List Cell}

theorem liveBytes_cons (c : Cell) (w : List Cell) :
    liveBytes (c :: w) = if c.2 then liveBytes w else c.1 :: liveBytes w := by
  unfold liveBytes
  rw [List.filterMap_cons]
  cases c.2 <;> rfl

/-- With one brace too many open around a piece, counting its braces never fails if its live braces
nest, and ends with what they leave open. -/
theorem depth?_eq_some_iff : depth? (depth + 1) w = some (n + 1) ↔
    Text.Nests Byte.lbrace Byte.rbrace depth (liveBytes w) ∧
      n + (liveBytes w).count Byte.rbrace = depth + (liveBytes w).count Byte.lbrace := by
  have hne : Byte.lbrace ≠ Byte.rbrace := by decide
  induction w generalizing depth with
  | nil =>
    rw [depth?_nil, show liveBytes [] = [] from rfl, iff_true_intro (Text.nests_nil _ _ depth),
      true_and]
    simp [eq_comm]
  | cons c w ih =>
    obtain ⟨b, masked⟩ := c
    rw [depth?_cons, liveBytes_cons]
    cases masked with
    | true => exact ih
    | false =>
      rw [if_neg Bool.false_ne_true]
      dsimp only
      by_cases hopen : b = Byte.lbrace
      · subst hopen
        refine ih.trans (and_congr (Text.nests_opening_cons hne).symm ?_)
        rw [List.count_cons_self, List.count_cons_of_ne hne]
        omega
      by_cases hclose : b = Byte.rbrace
      · subst hclose
        cases depth with
        | zero => exact iff_of_false nofun fun h => Text.not_nests_closing_cons hne h.1
        | succ depth =>
          refine ih.trans (and_congr (Text.nests_closing_cons hne).symm ?_)
          rw [List.count_cons_self, List.count_cons_of_ne hne.symm]
          omega
      · have hstep : step? (depth + 1) (b, false) = some (depth + 1) := by
          simp [step?, hopen, hclose]
        rw [hstep]
        refine ih.trans (and_congr (Text.nests_plain_cons hopen hclose).symm ?_)
        rw [List.count_cons_of_ne hopen, List.count_cons_of_ne hclose]

/-- A piece that closes the last brace open does so at a first cell. -/
theorem exists_of_depth?_eq_none (h : depth? (depth + 1) w = none) :
    ∃ v u, w = v ++ (Byte.rbrace, false) :: u ∧ depth? (depth + 1) v = some 1 := by
  induction w generalizing depth with
  | nil => cases h
  | cons c w ih =>
    rw [depth?_cons] at h
    cases hstep : step? (depth + 1) c with
    | some n =>
      obtain ⟨n, rfl⟩ : ∃ m, n = m + 1 := by
        have hpos : 0 < n := depth?_pos (w := [c]) (Nat.succ_pos depth) (by simp [hstep])
        exact ⟨n - 1, by omega⟩
      rw [hstep] at h
      obtain ⟨v, u, rfl, hv⟩ := ih h
      exact ⟨c :: v, u, rfl, by rw [depth?_cons, hstep]; exact hv⟩
    | none =>
      -- only the brace that closes the last one open stops the count
      obtain ⟨b, masked⟩ := c
      have hlast : b = Byte.rbrace ∧ masked = false ∧ depth = 0 := by
        unfold step? at hstep
        repeat' split at hstep
        all_goals simp_all
      obtain ⟨rfl, rfl, rfl⟩ := hlast
      exact ⟨[], w, rfl, rfl⟩

end Cell

open Cell

namespace MaskedText

variable {s : MaskedText} {opening close inner start stop : Nat}

/-- The live bytes from `start` up to `stop`. -/
def liveBytes (s : MaskedText) (start stop : Nat) : Text := Cell.liveBytes (s.piece start stop)

/-- The live braces from `start` up to `stop` are balanced: in no front of them more are closed than
opened, and in all of them as many are closed as opened. -/
def Balances (s : MaskedText) (start stop : Nat) : Prop :=
  Text.Nests Byte.lbrace Byte.rbrace 0 (s.liveBytes start stop) ∧
    (s.liveBytes start stop).count Byte.rbrace = (s.liveBytes start stop).count Byte.lbrace

theorem balances_iff : s.Balances start stop ↔ depth? 1 (s.piece start stop) = some 1 := by
  have hcount : depth? (0 + 1) (s.piece start stop) = some (0 + 1) ↔ _ := depth?_eq_some_iff
  rw [Nat.zero_add, Nat.zero_add, Nat.zero_add] at hcount
  exact hcount.symm

/-! ## Where a block is closed -/

/-- A piece that leaves one brace open, and the brace behind it that closes this one. -/
theorem closingBrace?_of_drop {v u : List Cell} (h : opening + 1 ≤ s.size)
    (hcells : s.cells.drop (opening + 1) = v ++ (Byte.rbrace, false) :: u)
    (hv : depth? 1 v = some 1) : s.closingBrace? opening = some (opening + 1 + v.length) :=
  Rest.closing? ⟨h, hcells⟩ hv

/-- A block is closed by the live brace in front of which its braces are balanced. -/
theorem closingBrace?_eq_some_iff : s.closingBrace? opening = some close ↔
    opening < close ∧ s.liveByte? close = some Byte.rbrace ∧ s.Balances (opening + 1) close := by
  rw [balances_iff]
  constructor
  · intro h
    exact ⟨(closingBrace?_eq_some h).1, liveByte?_of_closingBrace? h, openAt_close h⟩
  · rintro ⟨hlt, hlive, hdepth⟩
    have hsize := byte?_eq_some_lt (liveByte?_eq_some hlive).2
    have hcells := drop_cells_eq (s := s) (Nat.succ_le_of_lt hlt)
    rw [drop_cells_of_live hlive] at hcells
    have hlength : opening + 1 + (s.piece (opening + 1) close).length = close := by
      unfold piece
      rw [List.length_take, List.length_drop, length_cells]
      omega
    rw [closingBrace?_of_drop (by omega) hcells hdepth, hlength]

/-! ## Blocks in a block -/

/-- A brace that is opened in a block is closed there. -/
theorem exists_closingBrace?_lt (h : s.closingBrace? opening = some close)
    (hlive : s.liveByte? inner = some Byte.lbrace) (ho : opening < inner) (hi : inner < close) :
    ∃ last < close, s.closingBrace? inner = some last := by
  have hsize := (closingBrace?_eq_some h).2
  -- from the inner brace to the end of the block at least one more is closed than opened
  have hblock := openAt_close h
  rw [openAt_trans ho hi.le, Option.bind_eq_some_iff] at hblock
  obtain ⟨n, hopen, hclosed⟩ := hblock
  have hpos := openAt_pos hopen
  have hfirst : s.piece inner close = (Byte.lbrace, false) :: s.piece (inner + 1) close := by
    have hcells := drop_cells_of_live hlive
    unfold piece
    rw [hcells, show close - inner = close - (inner + 1) + 1 by omega, List.take_succ_cons]
  rw [hfirst, depth?_cons] at hclosed
  have hstep : step? n (Byte.lbrace, false) = some (1 + n) := by rw [Nat.add_comm]; rfl
  rw [hstep, Option.bind_some] at hclosed
  -- so with the inner brace alone the count stops in between
  have hnone : depth? (0 + 1) (s.piece (inner + 1) close) = none := by
    refine Option.eq_none_iff_forall_ne_some.2 fun m hm => ?_
    have hmore := depth?_add hm n
    have hm := depth?_pos Nat.one_pos hm
    rw [Nat.zero_add, hclosed] at hmore
    have := Option.some.inj hmore
    omega
  obtain ⟨v, u, hpiece, hv⟩ := exists_of_depth?_eq_none hnone
  have hcells := drop_cells_eq (s := s) (Nat.succ_le_of_lt hi)
  rw [hpiece, List.append_assoc, List.cons_append] at hcells
  have hlength := congrArg List.length hpiece
  rw [piece, List.length_take, List.length_append, List.length_cons] at hlength
  exact ⟨_, by omega, closingBrace?_of_drop (by omega) hcells hv⟩

/-- Each brace is closed by the first live brace in front of which the live braces are balanced.
Of two blocks the later one begins behind the first or is closed in it, and a brace that is opened
in a block is closed there. -/
theorem closingBrace?_nested (s : MaskedText) :
    (∀ opening close, s.closingBrace? opening = some close ↔
      IsLeast {i | opening < i ∧ s.liveByte? i = some Byte.rbrace ∧ s.Balances (opening + 1) i}
        close) ∧
    ∀ opening inner close, s.liveByte? inner = some Byte.lbrace → opening < inner →
      s.closingBrace? opening = some close →
        (∀ last, s.closingBrace? inner = some last → close < inner ∨ last < close) ∧
        (inner < close → ∃ last, s.closingBrace? inner = some last) := by
  refine ⟨fun opening close => ⟨fun h => ⟨closingBrace?_eq_some_iff.1 h, fun i hi => ?_⟩,
    fun h => closingBrace?_eq_some_iff.2 h.1⟩, fun opening inner close hlive ho h => ⟨?_, ?_⟩⟩
  · -- there is no other such offset
    have hi := h.symm.trans (closingBrace?_eq_some_iff.2 hi)
    exact (Option.some.inj hi).le
  · intro last hlast
    rcases Nat.lt_trichotomy close inner with hlt | rfl | hgt
    · exact .inl hlt
    · have hboth := (liveByte?_of_closingBrace? h).symm.trans hlive
      exact absurd hboth (by decide)
    · obtain ⟨last', hlt, hlast'⟩ := exists_closingBrace?_lt h hlive ho hgt
      rw [hlast] at hlast'
      obtain rfl := Option.some.inj hlast'
      exact .inr hlt
  · intro hi
    obtain ⟨last, -, hlast⟩ := exists_closingBrace?_lt h hlive ho hi
    exact ⟨last, hlast⟩

/-- A block in a block, behind a brace in a string. -/
def sampleBlocks : MaskedText := ofText .code "\x7b '\x7d' \x7b \x7d \x7d \x7b"

theorem closingBrace?_nested_sampleBlocks :
    IsLeast {i | 0 < i ∧ sampleBlocks.liveByte? i = some Byte.rbrace ∧ sampleBlocks.Balances 1 i}
      10 ∧
    sampleBlocks.liveByte? 6 = some Byte.lbrace ∧
    ∃ last, sampleBlocks.closingBrace? 6 = some last ∧ (10 < 6 ∨ last < 10) := by
  obtain ⟨hfirst, hnested⟩ := closingBrace?_nested sampleBlocks
  have houter : sampleBlocks.closingBrace? 0 = some 10 := by decide
  have hinner : sampleBlocks.liveByte? 6 = some Byte.lbrace := by decide
  obtain ⟨hapart, hclosed⟩ := hnested 0 6 10 hinner (by decide) houter
  obtain ⟨last, hlast⟩ := hclosed (by decide)
  exact ⟨(hfirst 0 10).1 houter, hinner, last, hlast, hapart last hlast⟩

/-- The brace in the string counts for nothing, and the last brace is never closed. -/
example : sampleBlocks.closingBrace? 0 = some 10 ∧ sampleBlocks.closingBrace? 12 = none := by
  decide

end MaskedText

end PageLang
