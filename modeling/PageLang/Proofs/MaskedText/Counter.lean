import PageLang.Script.Locals

/-!
# Counting brackets with a counter that may fail

The scans for the end of a group, a declarator or an expression count the brackets that are open.
Here they are told with a counter that fails below zero, and a scan for the bracket that matches
another one fails unless it counts that bracket first. Where a counter does not fail, the scan finds
what the search without one finds.

* `Counting.scan`, `Counting.matching`: the scans of all groups, by what ends them.
* `MaskedText.matching_eq_ok`: from a live bracket no count fails.
* `MaskedText.scan_declaratorEnds`, `MaskedText.scan_expressionEnds`: nor does one that ends at a
  closing bracket where none is open.
-/

namespace PageLang

/-- What goes wrong where brackets are counted. -/
inductive CountFault where
  /-- No opening bracket is seen where the count starts. -/
  | unopened
  /-- A bracket is closed where none is open. -/
  | underflow
  deriving DecidableEq, Repr

namespace Counting

/-- One open bracket fewer. -/
def close : (depth : Nat) → Except CountFault Nat
  | 0 => .error .underflow
  | depth + 1 => .ok depth

section
variable {α : Type} (seen : Nat → Option UInt8) (opens closes : UInt8 → Bool)

/-- Counts the open brackets over `count` offsets from `i`, where `depth` are open already. Bytes
that are not `seen` are passed over. A byte that opens nothing may end the count, by the number of
brackets that are open in front of it. -/
def scan (ends : (depth i : Nat) → UInt8 → Option α) :
    (depth i count : Nat) → Except CountFault (Option α)
  | _, _, 0 => .ok none
  | depth, i, count + 1 =>
    match seen i with
    | none => scan ends depth (i + 1) count
    | some b =>
      if opens b then scan ends (depth + 1) (i + 1) count
      else
        match ends depth i b with
        | some x => .ok (some x)
        | none =>
          if closes b then (close depth).bind fun depth => scan ends depth (i + 1) count
          else scan ends depth (i + 1) count

/-- A group ends at the bracket that closes the last one open. -/
def groupEnds (depth i : Nat) (b : UInt8) : Option Nat :=
  if closes b ∧ depth = 1 then some i else none

/-- The bracket before `stop` that matches the one at `start`, which is the first one counted. -/
def matching (start stop : Nat) : Except CountFault (Option Nat) :=
  if start < stop ∧ (seen start).any opens then
    scan seen opens closes (groupEnds closes) 0 start (stop - start)
  else .error .unopened

end

/-- A declarator ends in front of a closing bracket, or with a comma or a semicolon. Behind a comma
another one follows. -/
def declaratorEnds (depth i : Nat) (b : UInt8) : Option (Option Nat) :=
  if depth ≠ 0 then none
  else if Byte.isClosing b ∨ b = Byte.semicolon then some none
  else if b = Byte.comma then some (some (i + 1))
  else none

/-- An expression ends in front of a closing bracket, or with a semicolon. -/
def expressionEnds (depth i : Nat) (b : UInt8) : Option Nat :=
  if depth ≠ 0 then none
  else if Byte.isClosing b then some i
  else if b = Byte.semicolon then some (i + 1)
  else none

/-! ## Counts that do not fail -/

section
variable {α : Type} {seen : Nat → Option UInt8} {opens closes : UInt8 → Bool}
  {ends : (depth i : Nat) → UInt8 → Option α} {depth i count : Nat}

theorem scan_unseen (h : seen i = none) : scan seen opens closes ends depth i (count + 1) =
    scan seen opens closes ends depth (i + 1) count := by
  rw [scan, h]

theorem scan_opening {b : UInt8} (h : seen i = some b) (ho : opens b = true) :
    scan seen opens closes ends depth i (count + 1) =
      scan seen opens closes ends (depth + 1) (i + 1) count := by
  rw [scan, h]
  exact if_pos ho

theorem scan_end {b : UInt8} {x : α} (h : seen i = some b) (ho : ¬ opens b = true)
    (hend : ends depth i b = some x) :
    scan seen opens closes ends depth i (count + 1) = .ok (some x) := by
  rw [scan, h]
  dsimp only
  rw [if_neg ho, hend]

theorem scan_closing {b : UInt8} (h : seen i = some b) (ho : ¬ opens b = true)
    (hend : ends (depth + 1) i b = none) (hc : closes b = true) :
    scan seen opens closes ends (depth + 1) i (count + 1) =
      scan seen opens closes ends depth (i + 1) count := by
  rw [scan, h]
  dsimp only
  rw [if_neg ho, hend]
  exact if_pos hc

theorem scan_other {b : UInt8} (h : seen i = some b) (ho : ¬ opens b = true)
    (hend : ends depth i b = none) (hc : ¬ closes b = true) :
    scan seen opens closes ends depth i (count + 1) =
      scan seen opens closes ends depth (i + 1) count := by
  rw [scan, h]
  dsimp only
  rw [if_neg ho, hend]
  exact if_neg hc

end

end Counting

namespace MaskedText

open Counting

variable {s : MaskedText} {opens closes : UInt8 → Bool} {depth i count start stop : Nat}

/-- Where a bracket is open, the search for the one that closes the last does not count below
zero. -/
theorem scan_groupEnds : scan s.liveByte? opens closes (groupEnds closes) (depth + 1) i count =
    .ok (s.closing? opens closes (depth + 1) i count) := by
  induction count generalizing depth i with
  | zero => rfl
  | succ count ih =>
    rw [closing?]
    cases hb : s.liveByte? i with
    | none => exact (scan_unseen hb).trans ih
    | some b =>
      dsimp only
      by_cases ho : opens b = true
      · rw [if_pos ho, scan_opening hb ho]
        exact ih
      rw [if_neg ho]
      by_cases hc : closes b = true
      · rw [if_pos hc]
        cases depth with
        | zero => exact scan_end hb ho (if_pos ⟨hc, rfl⟩)
        | succ depth =>
          rw [if_neg (by omega), scan_closing hb ho (if_neg (by simp)) hc]
          exact ih
      · rw [if_neg hc, scan_other hb ho (if_neg fun h => hc h.1) hc]
        exact ih

/-- The search for the bracket that matches a live one does not count below zero. -/
theorem matching_eq_ok {b : UInt8} (hlt : start < stop) (hb : s.liveByte? start = some b)
    (ho : opens b = true) : matching s.liveByte? opens closes start stop =
      .ok (s.closing? opens closes 0 start (stop - start)) := by
  obtain ⟨count, hcount⟩ : ∃ count, stop - start = count + 1 := ⟨stop - start - 1, by omega⟩
  rw [matching, if_pos ⟨hlt, by rw [hb]; exact ho⟩, hcount, scan_opening hb ho, scan_groupEnds,
    closing?, hb]
  exact congrArg _ (if_pos ho).symm

/-- A count that does not fail finds what the search finds. -/
theorem eq_closing?_of_matching {close? : Option Nat}
    (h : matching s.liveByte? opens closes start stop = .ok close?) :
    close? = s.closing? opens closes 0 start (stop - start) := by
  by_cases hopen : start < stop ∧ (s.liveByte? start).any opens = true
  · obtain ⟨hlt, hany⟩ := hopen
    obtain ⟨b, hb, ho⟩ := (Option.any_eq_true _ _).1 hany
    rw [matching_eq_ok hlt hb ho] at h
    exact (Except.ok.inj h).symm
  · rw [matching, if_neg hopen] at h
    cases h

theorem scan_declaratorEnds :
    (scan s.liveByte? Byte.isOpening Byte.isClosing declaratorEnds depth i count).map Option.join =
      .ok (s.nextDeclarator? depth i count) := by
  induction count generalizing depth i with
  | zero => rfl
  | succ count ih =>
    rw [nextDeclarator?]
    cases hb : s.liveByte? i with
    | none =>
      rw [scan_unseen hb]
      exact ih
    | some b =>
      dsimp only
      by_cases ho : Byte.isOpening b = true
      · rw [if_pos ho, scan_opening hb ho]
        exact ih
      rw [if_neg ho]
      cases depth with
      | succ depth =>
        have hend : declaratorEnds (depth + 1) i b = none := if_pos (Nat.succ_ne_zero depth)
        by_cases hc : Byte.isClosing b = true
        · rw [if_pos hc, if_neg (Nat.succ_ne_zero depth), scan_closing hb ho hend hc]
          exact ih
        · rw [if_neg hc, if_neg (by simp), if_neg (by simp), scan_other hb ho hend hc]
          exact ih
      | zero =>
        -- nothing is open, so the first closing bracket ends the count
        by_cases hc : Byte.isClosing b = true
        · rw [if_pos hc, if_pos rfl, scan_end hb ho (x := none) (by simp [declaratorEnds, hc])]
          rfl
        rw [if_neg hc]
        by_cases hcomma : b = Byte.comma
        · subst hcomma
          rw [if_pos ⟨rfl, rfl⟩, scan_end hb ho (x := some (i + 1)) rfl]
          rfl
        rw [if_neg (by simp [hcomma])]
        by_cases hsemicolon : b = Byte.semicolon
        · rw [if_pos ⟨hsemicolon, rfl⟩,
            scan_end hb ho (x := none) (by simp [declaratorEnds, hsemicolon])]
          rfl
        · rw [if_neg (by simp [hsemicolon]),
            scan_other hb ho (by simp [declaratorEnds, hc, hcomma, hsemicolon]) hc]
          exact ih

theorem scan_expressionEnds :
    (scan s.liveByte? Byte.isOpening Byte.isClosing expressionEnds depth i count).map
      (·.getD (i + count)) = .ok (s.expressionEnd depth i count) := by
  induction count generalizing depth i with
  | zero => rfl
  | succ count ih =>
    rw [expressionEnd, show i + (count + 1) = i + 1 + count by omega]
    cases hb : s.liveByte? i with
    | none =>
      rw [scan_unseen hb]
      exact ih
    | some b =>
      dsimp only
      by_cases ho : Byte.isOpening b = true
      · rw [if_pos ho, scan_opening hb ho]
        exact ih
      rw [if_neg ho]
      cases depth with
      | succ depth =>
        have hend : expressionEnds (depth + 1) i b = none := if_pos (Nat.succ_ne_zero depth)
        by_cases hc : Byte.isClosing b = true
        · rw [if_pos hc, if_neg (Nat.succ_ne_zero depth), scan_closing hb ho hend hc]
          exact ih
        · rw [if_neg hc, if_neg (by simp), scan_other hb ho hend hc]
          exact ih
      | zero =>
        by_cases hc : Byte.isClosing b = true
        · rw [if_pos hc, if_pos rfl, scan_end hb ho (x := i) (by simp [expressionEnds, hc])]
          rfl
        rw [if_neg hc]
        by_cases hsemicolon : b = Byte.semicolon
        · rw [if_pos ⟨hsemicolon, rfl⟩,
            scan_end hb ho (x := i + 1) (by simp [expressionEnds, hsemicolon]; decide)]
          rfl
        · rw [if_neg (by simp [hsemicolon]),
            scan_other hb ho (by simp [expressionEnds, hc, hsemicolon]) hc]
          exact ih

end MaskedText

end PageLang
