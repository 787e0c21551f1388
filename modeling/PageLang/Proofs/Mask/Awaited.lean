import PageLang.Proofs.Mask.Regions

/-!
# What the mask machine waits for

A string waits for the quote that it began with, one of the three, and the brace of an interpolation
is seen before its dollar sign is read. Every step keeps that, so it holds wherever the machine
stands in a text.

* `Mask.Region.Awaits`: what a region waits for.
* `Mask.State.awaits_read`, `Mask.awaits_start`: one step, and a whole text.
-/

namespace PageLang.Mask

namespace Region

/-- What a region waits for: the quote that ends it, or the brace that follows. -/
def Awaits (ahead : Text) : Region → Prop
  | .quoted quote _ | .valueQuoted quote _ => Byte.isQuote quote = true
  | .opening => ahead.head? = some Byte.lbrace
  | _ => True

end Region

namespace State

variable {s : State} {before rest : Text} {b : UInt8}

theorem awaits_readLive (s : State) (before : Text) (b : UInt8) (rest : Text) :
    (s.readLive before b rest).2.region.Awaits rest := by
  unfold readLive
  split
  · next hquote =>
    show Byte.isQuote b = true
    rcases hquote with rfl | rfl <;> rfl
  repeat' split
  any_goals exact trivial
  rcases s.closeBrace_region with hregion | hregion <;>
  · rw [hregion]
    trivial

theorem awaits_readValue (s : State) (depth : Nat) (before : Text) (b : UInt8) (rest : Text) :
    (s.readValue depth before b rest).2.region.Awaits rest := by
  unfold readValue
  repeat' split
  any_goals exact trivial
  all_goals exact s.awaits_readLive ..

theorem awaits_readAfterColon (hs : s.region = .afterColon) :
    (s.readAfterColon before b rest).2.region.Awaits rest := by
  unfold readAfterColon
  split
  · rw [hs]
    trivial
  split
  · dsimp only [into]
    split <;> trivial
  split
  · trivial
  split
  · assumption
  · exact s.awaits_readValue ..

/-- Every step leads to a region that waits for one of the quotes: they are opened by themselves,
and an interpolation is seen before its brace is read. -/
theorem awaits_read (h : s.region.Awaits (b :: rest)) :
    (s.read before b rest).2.region.Awaits rest := by
  obtain ⟨region, mode, depth, outer⟩ := s
  cases region with
  | live => exact awaits_readLive ..
  | quoted quote escaped =>
    cases escaped with
    | true => exact h
    | false =>
      dsimp only [State.read, readQuoted]
      repeat' split
      all_goals first | exact h | trivial
  | template escaped =>
    cases escaped with
    | true => trivial
    | false =>
      dsimp only [State.read, readTemplate]
      repeat' split
      any_goals trivial
      next hopens => exact hopens.2
  | regex inClass escaped =>
    cases escaped with
    | true => trivial
    | false =>
      dsimp only [State.read, readRegex]
      repeat' split
      all_goals trivial
  | lineComment =>
    dsimp only [State.read]
    split <;> trivial
  | blockComment star =>
    dsimp only [State.read, into]
    split <;> trivial
  | afterColon => exact awaits_readAfterColon rfl
  | parameters depth =>
    dsimp only [State.read, readParameters, into]
    repeat' split
    all_goals trivial
  | afterParameters =>
    dsimp only [State.read, readAfterParameters]
    split
    · trivial
    split
    · trivial
    · exact awaits_readLive ..
  | valueQuoted quote escaped =>
    cases escaped with
    | true => exact h
    | false =>
      dsimp only [State.read]
      repeat' split
      all_goals first | exact h | trivial
  | value depth escaped =>
    cases escaped with
    | true => trivial
    | false => exact awaits_readValue ..
  | opening | commentOpening => trivial

theorem awaits_after {t : Text} {k : Nat} (h : s.region.Awaits t) (hk : k ≤ t.length) :
    (s.after before k t).region.Awaits (t.drop k) := by
  induction k generalizing s before t with
  | zero => rwa [after_zero, List.drop_zero]
  | succ k ih =>
    cases t with
    | nil => cases hk
    | cons b t =>
      exact ih (awaits_read h) (Nat.le_of_succ_le_succ hk)

end State

/-- What the machine waits for in front of a byte of a text. -/
theorem awaits_start {mode : Mode} {t : Text} {i : Nat} {b : UInt8} (hb : t[i]? = some b) :
    ((State.start mode).after [] i t).region.Awaits (b :: t.drop (i + 1)) := by
  obtain ⟨hlt, rfl⟩ := List.getElem?_eq_some_iff.1 hb
  rw [← List.drop_eq_getElem_cons hlt]
  exact State.awaits_after trivial (Nat.le_of_lt hlt)

end PageLang.Mask
