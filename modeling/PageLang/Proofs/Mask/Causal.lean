import PageLang.Proofs.Mask.Overwritten

/-!
# The mask of code is causal

What follows a byte of code decides nothing about it but whether a slash begins a comment, and for
that one byte is enough. So the bits of a text are the same whatever is written behind it, wherever
the text stops: in a string, a template, an interpolation, a regular expression or a comment. Only a
slash that divides at the end of the text becomes the first byte of a comment, if a slash or a star
follows.

* `Mask.OpensComment`: a comment opens across the end of a text.
* `Mask.State.InCode.read_end_iff`: the last byte of a text.
* `Mask.isMasked_append_iff`: the bytes whose bits depend on what follows the text.
-/

namespace PageLang.Mask

/-- The last byte of one text and the first byte of the next would open a comment. -/
def OpensComment (t u : Text) : Prop :=
  t.getLast? = some Byte.slash ∧ (u.head? = some Byte.slash ∨ u.head? = some Byte.star)

theorem opensComment_cons_cons (b c : UInt8) (t u : Text) :
    OpensComment (b :: c :: t) u ↔ OpensComment (c :: t) u := by
  unfold OpensComment
  rw [List.getLast?_cons_cons]

namespace State

variable {s : State}

/-- In code, one byte is all that the machine looks ahead. -/
theorem InCode.read_of_head? (h : s.InCode) (before : Text) (b : UInt8) {rest rest' : Text}
    (hhead : rest'.head? = rest.head?) : s.read before b rest' = s.read before b rest :=
  h.read_congr b rfl fun c _ => by rw [hhead]

/-- Outside live text, what follows a byte of code does not decide its bit. -/
theorem InCode.read_fst_of_region_ne (h : s.InCode) (hlive : s.region ≠ .live) (before : Text)
    (b : UInt8) (rest rest' : Text) : (s.read before b rest').1 = (s.read before b rest).1 := by
  obtain ⟨region, mode, depth, outer⟩ := s
  obtain ⟨hregion, -, -⟩ := h
  dsimp only at hregion hlive
  cases region with
  | live => exact absurd rfl hlive
  | template escaped =>
    cases escaped with
    | true => rfl
    | false =>
      -- the dollar sign is masked whether or not it opens an interpolation
      have hmasked (next : Text) : (State.readTemplate ⟨.template false, mode, depth, outer⟩ b
          next).1 = true := by
        unfold readTemplate
        repeat' split
        all_goals rfl
      exact (hmasked rest').trans (hmasked rest).symm
  | quoted quote escaped => cases escaped <;> rfl
  | regex inClass escaped => cases escaped <;> rfl
  | opening | lineComment | commentOpening | blockComment => rfl
  | _ => cases hregion

/-- The last byte of a text has another bit with more text behind it exactly if it is a slash that
divides and the text behind makes it the start of a comment. -/
theorem InCode.read_end_iff (h : s.InCode) (before : Text) (b : UInt8) (u : Text) :
    (s.read before b u).1 ≠ (s.read before b []).1 ↔
      (s.read before b []).1 = false ∧ OpensComment [b] u := by
  have hopens : OpensComment [b] u ↔
      b = Byte.slash ∧ (u.head? = some Byte.slash ∨ u.head? = some Byte.star) := by
    simp [OpensComment]
  rw [hopens]
  by_cases hlive : s.region = .live
  · by_cases hb : b = Byte.slash
    · subst hb
      have hend : (s.read before Byte.slash []).1 = regexAllowed before :=
        read_slash_fst hlive (by simp) (by simp)
      rw [hend]
      by_cases hnext : u.head? = some Byte.slash ∨ u.head? = some Byte.star
      · have hmasked : (s.read before Byte.slash u).1 = true := by
          rcases hnext with hnext | hnext
          · rw [read_slash_slash hlive hnext]
          · rw [read_slash_star hlive hnext]
        simp [hmasked, hnext]
      · obtain ⟨hline, hblock⟩ := not_or.1 hnext
        simp [read_slash_fst hlive hline hblock, hnext]
    · have hsame : s.read before b u = s.read before b [] := by
        unfold State.read
        rw [hlive]
        simp only [readLive, hb, false_and]
      simp [hsame, hb]
  · have hsame := h.read_fst_of_region_ne hlive before b [] u
    -- a live byte outside live text is a newline
    have hnewline : (s.read before b []).1 = false → b ≠ Byte.slash := by
      rintro hread rfl
      exact hlive (h.region_of_live hread (by decide))
    rw [hsame]
    refine ⟨fun hne => absurd rfl hne, ?_⟩
    rintro ⟨hread, hb, -⟩
    exact absurd hb (hnewline hread)

/-- The bits of a text with more text behind it differ from those of the text alone in the last
byte at most. -/
theorem InCode.bits_append_iff (h : s.InCode) (before t u : Text) {i : Nat} (hi : i < t.length) :
    (s.bits before (t ++ u)).getD i false ≠ (s.bits before t).getD i false ↔
      i + 1 = t.length ∧ (s.bits before t).getD i false = false ∧ OpensComment t u := by
  induction t generalizing s before i with
  | nil => cases hi
  | cons b t ih =>
    cases t with
    | nil =>
      obtain rfl : i = 0 := by simpa using hi
      simpa [State.bits] using h.read_end_iff before b u
    | cons c t =>
      have hread : s.read before b (c :: t ++ u) = s.read before b (c :: t) :=
        h.read_of_head? before b rfl
      rw [opensComment_cons_cons, List.cons_append, State.bits, State.bits, hread]
      cases i with
      | zero => simp
      | succ i =>
        have hrest := @ih _ (h.read before b (c :: t)) (b :: before) i (by simpa using hi)
        simpa only [List.getD_cons_succ, List.length_cons, Nat.add_right_cancel_iff] using hrest

end State

/-- What follows a text of code changes the bit of no byte of the text but that of its last one,
where this is a slash that divides and a slash or a star follows. -/
theorem isMasked_append_iff (t u : Text) (i : Fin t.length) :
    isMasked (ofText .code (t ++ u)) i ≠ isMasked (ofText .code t) i ↔
      i + 1 = t.length ∧ isMasked (ofText .code t) i = false ∧ OpensComment t u :=
  State.inCode_start.bits_append_iff [] t u i.isLt

/-- A slash behind a name divides, unless what follows makes it open a comment. -/
example : ofText .code "a /" = [false, false, false] ∧
    ofText .code "a //" = [false, false, true, true] := by decide

end PageLang.Mask
