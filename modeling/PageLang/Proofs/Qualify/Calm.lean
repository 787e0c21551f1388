import PageLang.Proofs.Qualify.Apart

/-!
# Text that is live as a whole

A text without quotes and slashes is live as a whole wherever its first byte is live, as long as it
closes no brace that it did not open. A newline may be live where a string has ended in front of it, so
it does not count as a first byte.

* `MaskedText.exists_rest_of_isLive`: the text, and the cells behind it.
-/

namespace PageLang

open Cell

/-- A byte that opens neither a string nor a comment nor a pattern. -/
def Byte.isCalm (b : UInt8) : Bool := !(isQuote b || b == slash)

namespace Mask.State

theorem read_calm {depth : Nat} {outer : List Frame} (before rest : Text) {b : UInt8}
    (hb : Byte.isCalm b = true) (hlbrace : b ≠ Byte.lbrace) (hrbrace : b ≠ Byte.rbrace) :
    (State.mk .live .code depth outer).read before b rest = (false, ⟨.live, .code, depth, outer⟩) := by
  simp only [Byte.isCalm, Byte.isQuote, Bool.not_eq_true', Bool.or_eq_false_iff,
    beq_eq_false_iff_ne] at hb
  simp [State.read, readLive, hb, hlbrace, hrbrace, into]

/-- A calm text is live, and changes the number of open braces alone. -/
theorem reads_calm (base : Nat) {d d' : Nat} (outer : List Frame) {t : Text}
    (ht : ∀ b ∈ t, Byte.isCalm b = true) (hdepth : depth? (d + 1) (live t) = some (d' + 1))
    (before ahead : Text) :
    Reads ⟨.live, .code, base + d, outer⟩ before (live t) ahead
      ⟨.live, .code, base + d', outer⟩ := by
  induction t generalizing d before with
  | nil =>
    obtain rfl : d = d' := by simpa using hdepth
    exact .nil ..
  | cons b t ih =>
    obtain ⟨hb, htail⟩ := List.forall_mem_cons.1 ht
    rw [live_cons, depth?_cons, Option.bind_eq_some_iff] at hdepth
    obtain ⟨n, hstep, hdepth⟩ := hdepth
    by_cases hl : b = Byte.lbrace
    · subst hl
      obtain rfl : d + 1 + 1 = n := by simpa [step?] using hstep
      exact .cons rfl (ih htail hdepth _)
    by_cases hr : b = Byte.rbrace
    · subst hr
      cases d with
      | zero => simp +decide [step?] at hstep
      | succ d =>
        obtain rfl : d + 1 = n := by simpa +decide [step?] using hstep
        exact .cons rfl (ih htail hdepth _)
    · obtain rfl : d + 1 = n := by simpa [step?, hl, hr] using hstep
      exact .cons (read_calm before _ hb hl hr) (ih htail hdepth _)

end Mask.State

namespace MaskedText

open Mask

/-- A calm text whose first byte is live is live as a whole. -/
theorem exists_rest_of_isLive {pre t post : Text} {n : Nat} (ht : ∀ b ∈ t, Byte.isCalm b = true)
    (hhead : ∀ b ∈ t.head?, b ≠ Byte.newline) (hne : t ≠ [])
    (hdepth : depth? 1 (live t) = some (n + 1))
    (hlive : (ofText .code (pre ++ (t ++ post))).isLive pre.length = true) :
    ∃ v, Cell.bytes v = post ∧
      (ofText .code (pre ++ (t ++ post))).Rest pre.length (live t ++ v) := by
  obtain ⟨b, t', rfl⟩ := List.exists_cons_of_ne_nil hne
  have hb : (pre ++ (b :: t' ++ post))[pre.length]? = some b := by simp
  have hmask := isMasked_of_isLive hlive
  rw [State.isMasked_ofText hb] at hmask
  obtain ⟨w, hw, hreads⟩ := State.exists_reads_after (.start .code) [] pre (b :: t' ++ post)
  have hcode := State.inCode_start.after [] pre.length (pre ++ (b :: t' ++ post))
  have hregion := hcode.region_of_live hmask (hhead b rfl)
  generalize (State.start .code).after [] pre.length (pre ++ (b :: t' ++ post)) = s
    at hmask hreads hcode hregion
  obtain ⟨region, mode, depth, outer⟩ := s
  obtain rfl : region = .live := hregion
  obtain rfl : mode = .code := hcode.mode
  have hcalm := State.reads_calm depth outer (d := 0) ht hdepth
    ((Cell.bytes w).reverse ++ []) (post ++ [])
  obtain ⟨v, hv, hrest⟩ := State.exists_reads_after ⟨.live, .code, depth + n, outer⟩
    ((Cell.bytes (live (b :: t'))).reverse ++ ((Cell.bytes w).reverse ++ [])) post []
  refine ⟨v, hv, ?_⟩
  have hall : State.Reads (.start .code) [] (w ++ (live (b :: t') ++ v)) [] _ :=
    State.Reads.append (by simpa [hv] using hreads)
      (State.Reads.append (by simpa [hv] using hcalm) (by simpa using hrest))
  have hzero := rest_ofText hall
  simp only [Cell.bytes_append, hw, Cell.bytes_live, hv] at hzero
  have := hzero.skip
  rwa [Nat.zero_add, ← Cell.length_bytes, hw] at this

end MaskedText

end PageLang
