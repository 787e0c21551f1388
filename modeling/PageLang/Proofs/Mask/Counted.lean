import PageLang.Proofs.Mask.Values
import PageLang.Proofs.MaskedText.Counter

/-!
# The parentheses that the mask counts

Behind the colon of a declaration the mask machine looks ahead for the parenthesis that closes a
list of parameters, and inside the list it keeps the number of parentheses that are open. Both are
told here with counters that fail below zero. The list begins with its first parenthesis, so neither
of them fails.

* `Mask.State.countedRead`, `Mask.State.countedBits`: the machine with counters that may fail.
* `Mask.State.InList`: in a list of parameters a parenthesis is open, kept by every step.
* `Mask.State.countedBits_eq_ok`: no counter fails.
-/

namespace PageLang.Mask

open Counting

/-! ## The end of a list -/

/-- Whether the parenthesis that a text begins with is closed in it. No byte is passed over. -/
def countedParens (t : Text) : Except CountFault Bool :=
  (matching (fun k => t[k]?) (· == Byte.lparen) (· == Byte.rparen) 0 t.length).map Option.isSome

theorem scan_closesParens {seen : Nat → Option UInt8} {t : Text} {depth i : Nat}
    (h : ∀ k, seen (i + k) = t[k]?) :
    (scan seen (· == Byte.lparen) (· == Byte.rparen) (groupEnds (· == Byte.rparen)) (depth + 1) i
      t.length).map Option.isSome = .ok (closesParens (depth + 1) t) := by
  induction t generalizing depth i with
  | nil => rfl
  | cons b t ih =>
    have hb : seen i = some b := h 0
    have htail (k : Nat) : seen (i + 1 + k) = t[k]? := by
      rw [Nat.add_assoc, Nat.add_comm 1]
      exact h (k + 1)
    rw [closesParens, List.length_cons]
    by_cases hopen : b = Byte.lparen
    · rw [if_pos hopen, scan_opening hb]
      · exact ih htail
      · exact beq_iff_eq.2 hopen
    rw [if_neg hopen]
    have hno : ¬ (b == Byte.lparen) = true := fun h => hopen (beq_iff_eq.1 h)
    by_cases hclose : b = Byte.rparen
    · rw [if_pos hclose]
      have hcloses := beq_iff_eq.2 hclose
      cases depth with
      | zero =>
        rw [scan_end hb hno (x := i) (if_pos ⟨hcloses, rfl⟩)]
        rfl
      | succ depth =>
        rw [scan_closing hb hno (if_neg (by simp)) hcloses, ih htail]
        simp
    · have hnone : ¬ (b == Byte.rparen) = true := fun h => hclose (beq_iff_eq.1 h)
      rw [if_neg hclose, scan_other hb hno (if_neg fun h => hnone h.1) hnone]
      exact ih htail

theorem countedParens_eq_ok (rest : Text) :
    countedParens (Byte.lparen :: rest) = .ok (closesParens 1 rest) := by
  have hfirst : (Byte.lparen :: rest)[0]? = some Byte.lparen := rfl
  have htail (k : Nat) : (Byte.lparen :: rest)[0 + 1 + k]? = rest[k]? := by
    rw [Nat.zero_add, Nat.add_comm, List.getElem?_cons_succ]
  rw [countedParens, matching, if_pos ⟨Nat.succ_pos _, by rw [hfirst]; rfl⟩, Nat.sub_zero,
    List.length_cons, scan_opening hfirst]
  · exact scan_closesParens htail
  · rfl

namespace State

variable {s : State} {before rest : Text} {b : UInt8}

/-! ## Inside a list -/

/-- Reads a byte as `read` does. The look-ahead for the end of a list and the depth inside it fail
below zero; all other steps count no parentheses. -/
def countedRead (s : State) (before : Text) (b : UInt8) (rest : Text) :
    Except CountFault (Bool × State) :=
  match s.region with
  | .afterColon =>
    if b = Byte.lparen then
      (countedParens (b :: rest)).map fun closed =>
        (false, s.into (if closed then .parameters 1 else .live))
    else .ok (s.read before b rest)
  | .parameters depth =>
    if b = Byte.rparen then
      (close depth).map fun depth =>
        (false, s.into (if depth = 0 then .afterParameters else .parameters depth))
    else .ok (s.read before b rest)
  | _ => .ok (s.read before b rest)

/-- The bits of the bytes that follow `before` (in reverse), with counters that may fail. -/
def countedBits (s : State) (before : Text) : Text → Except CountFault (List Bool)
  | [] => .ok []
  | b :: rest =>
    (s.countedRead before b rest).bind fun r =>
      (r.2.countedBits (b :: before) rest).map (r.1 :: ·)

/-- In a list of parameters a parenthesis is open. -/
def InList (s : State) : Prop := ∀ n, s.region = .parameters n → 0 < n

theorem inList_start (mode : Mode) : (start mode).InList := fun _ => Region.noConfusion

theorem InList.read (h : s.InList) : (s.read before b rest).2.InList := by
  intro n hn
  rcases region_eq_parameters hn with ⟨k, hk, hlist⟩ | ⟨-, -, rfl⟩
  · have hpos := h k hk
    unfold readParameters at hlist
    split at hlist
    · cases hlist
      omega
    split at hlist
    · dsimp only [into] at hlist
      split at hlist
      · cases hlist
      · cases hlist
        omega
    · rw [hk] at hlist
      cases hlist
      exact hpos
  · exact Nat.one_pos

theorem countedRead_eq_ok (h : s.InList) :
    s.countedRead before b rest = .ok (s.read before b rest) := by
  unfold countedRead
  split
  · next hregion =>
    split
    · next hb =>
      subst hb
      rw [countedParens_eq_ok]
      unfold State.read
      rw [hregion]
      rfl
    · rfl
  · next depth hregion =>
    split
    · next hb =>
      subst hb
      obtain ⟨depth, rfl⟩ : ∃ n, depth = n + 1 := ⟨depth - 1, by have := h depth hregion; omega⟩
      unfold State.read
      rw [hregion]
      dsimp only [readParameters]
      rw [if_neg (by decide), if_pos rfl]
      simp [close, Except.map]
    · rfl
  · rfl

/-- The mask counts no parentheses below zero. -/
theorem countedBits_eq_ok (h : s.InList) (before t : Text) :
    s.countedBits before t = .ok (s.bits before t) := by
  induction t generalizing s before with
  | nil => rfl
  | cons b rest ih =>
    rw [countedBits, countedRead_eq_ok h]
    show (State.countedBits _ _ _).map _ = _
    rw [ih h.read]
    rfl

end State

/-- The mask of a text, with counters that may fail. -/
def counted (mode : Mode) (t : Text) : Except CountFault (List Bool) :=
  (State.start mode).countedBits [] t

theorem counted_eq_ok (mode : Mode) (t : Text) : counted mode t = .ok (ofText mode t) :=
  State.countedBits_eq_ok (State.inList_start mode) [] t

end PageLang.Mask
