import PageLang.MaskedText.Lemmas
import PageLang.Proofs.Mask.Reading

/-!
# The mask machine at an offset

`State.after s before k t` is the state in which the mask machine stands behind the first `k` bytes
of `t`. The bit of a byte is the answer in the state in front of it, so what a byte belongs to can
be read off the two states around it.

* `Mask.State.after_succ`, `Mask.State.isMasked_ofText`: one byte.
* `Mask.State.region_of_ends`: behind a live brace or semicolon stands live text, or a parameter
  list goes on.
-/

namespace PageLang

namespace Mask.State

/-- The state behind the first `k` bytes of a text that follows `before` (in reverse). -/
def after (s : State) (before : Text) : (k : Nat) → Text → State
  | 0, _ => s
  | _ + 1, [] => s
  | k + 1, b :: rest => (s.read before b rest).2.after (b :: before) k rest

theorem after_zero (s : State) (before t : Text) : s.after before 0 t = s := by
  cases t <;> rfl

theorem after_succ {t : Text} {k : Nat} {b : UInt8} (h : t[k]? = some b) (s : State)
    (before : Text) :
    s.after before (k + 1) t =
      ((s.after before k t).read ((t.take k).reverse ++ before) b (t.drop (k + 1))).2 := by
  induction t generalizing s before k with
  | nil => cases h
  | cons c t ih =>
    cases k with
    | zero =>
      cases h
      exact after_zero _ _ _
    | succ k =>
      rw [List.getElem?_cons_succ] at h
      have hreverse : ((c :: t).take (k + 1)).reverse ++ before =
          (t.take k).reverse ++ c :: before := by simp
      rw [hreverse]
      exact ih h _ _

theorem getElem?_bits {t : Text} {k : Nat} {b : UInt8} (h : t[k]? = some b) (s : State)
    (before : Text) :
    (s.bits before t)[k]? =
      some ((s.after before k t).read ((t.take k).reverse ++ before) b (t.drop (k + 1))).1 := by
  induction t generalizing s before k with
  | nil => cases h
  | cons c t ih =>
    cases k with
    | zero =>
      cases h
      rfl
    | succ k =>
      rw [List.getElem?_cons_succ] at h
      have hreverse : ((c :: t).take (k + 1)).reverse ++ before =
          (t.take k).reverse ++ c :: before := by simp
      rw [hreverse, State.bits]
      exact ih h _ _

/-- Any text is read as some cells, up to the state behind it. -/
theorem exists_reads_after (s : State) (before t ahead : Text) :
    ∃ w, Cell.bytes w = t ∧ Reads s before w ahead (s.after before t.length (t ++ ahead)) := by
  induction t generalizing s before with
  | nil =>
    refine ⟨[], rfl, ?_⟩
    rw [List.length_nil, after_zero]
    exact .nil ..
  | cons b t ih =>
    obtain ⟨w, rfl, h⟩ := ih (s.read before b (t ++ ahead)).2 (b :: before)
    exact ⟨(b, (s.read before b (Cell.bytes w ++ ahead)).1) :: w, rfl, .cons rfl h⟩

theorem after_add (s : State) (before : Text) (j k : Nat) (t : Text) :
    (s.after before j t).after ((t.take j).reverse ++ before) k (t.drop j) =
      s.after before (j + k) t := by
  induction t generalizing s before j with
  | nil => cases j <;> cases k <;> rfl
  | cons b t ih =>
    cases j with
    | zero =>
      rw [Nat.zero_add]
      rfl
    | succ j =>
      rw [List.drop_succ_cons, List.take_succ_cons, List.reverse_cons, List.append_assoc,
        Nat.succ_add]
      exact ih _ _ _

theorem drop_bits (s : State) (before : Text) (k : Nat) (t : Text) :
    (s.bits before t).drop k =
      (s.after before k t).bits ((t.take k).reverse ++ before) (t.drop k) := by
  induction t generalizing s before k with
  | nil => cases k <;> rfl
  | cons b t ih =>
    cases k with
    | zero => rfl
    | succ k =>
      rw [State.bits, List.drop_succ_cons, ih, List.drop_succ_cons, List.take_succ_cons,
        List.reverse_cons, List.append_assoc]
      rfl

/-- The bit of a byte is what the machine answers in the state in front of it. -/
theorem isMasked_ofText {mode : Mode} {t : Text} {k : Nat} {b : UInt8} (h : t[k]? = some b) :
    (MaskedText.ofText mode t).isMasked k =
      (((start mode).after [] k t).read (t.take k).reverse b (t.drop (k + 1))).1 := by
  have hbits := getElem?_bits h (start mode) []
  rw [List.append_nil] at hbits
  unfold MaskedText.isMasked
  rw [Array.getD_eq_getD_getElem?]
  simp only [MaskedText.ofText, List.getElem?_toArray, Mask.ofText]
  rw [hbits]
  rfl

/-- A closing brace leads to live text, or back to a template. -/
theorem closeBrace_region (s : State) :
    s.closeBrace.2.region = .live ∨ s.closeBrace.2.region = .template false := by
  unfold closeBrace
  split <;> simp [into]

/-- A byte that ends a statement or a block. -/
def Ends (b : UInt8) : Prop := b = Byte.semicolon ∨ b = Byte.lbrace ∨ b = Byte.rbrace

theorem Ends.ne {b : UInt8} (h : Ends b) : b ≠ Byte.backslash ∧ b ≠ Byte.newline := by
  rcases h with rfl | rfl | rfl <;> decide

theorem readLive_of_ends {s : State} (before rest : Text) {b : UInt8} (hb : Ends b)
    (hlive : (s.readLive before b rest).1 = false) :
    (s.readLive before b rest).2.region = .live := by
  obtain ⟨region, mode, depth, outer⟩ := s
  rcases hb with rfl | rfl | rfl
  · rfl
  · rfl
  · cases depth with
    | succ depth => rfl
    | zero =>
      cases outer with
      | nil => rfl
      | cons frame outer =>
        obtain ⟨enclosing, frameMode, frameDepth⟩ := frame
        cases enclosing with
        | template => cases hlive
        | block => rfl

theorem readValue_of_ends {s : State} (n : Nat) (before rest : Text) {b : UInt8} (hb : Ends b)
    (hlive : (s.readValue n before b rest).1 = false) :
    (s.readValue n before b rest).2.region = .live := by
  rcases hb with rfl | rfl | rfl
  · exact readLive_of_ends before rest (.inl rfl) hlive
  · cases hlive
  · cases n with
    | succ n => cases hlive
    | zero => exact readLive_of_ends before rest (.inr (.inr rfl)) hlive

/-- Behind a live brace or semicolon the text is live, unless a parameter list is open. -/
theorem region_of_ends {s : State} {before rest : Text} {b : UInt8} (hb : Ends b)
    (hlive : (s.read before b rest).1 = false) :
    (s.read before b rest).2.region = .live ∨
      ∃ n, (s.read before b rest).2.region = .parameters n := by
  obtain ⟨region, mode, depth, outer⟩ := s
  cases region with
  | live => exact .inl (readLive_of_ends before rest hb hlive)
  | afterColon =>
    rcases hb with rfl | rfl | rfl
    · exact .inl (readValue_of_ends 0 before rest (.inl rfl) hlive)
    · exact .inl rfl
    · exact .inl (readValue_of_ends 0 before rest (.inr (.inr rfl)) hlive)
  | afterParameters =>
    rcases hb with rfl | rfl | rfl
    · exact .inl (readLive_of_ends before rest (.inl rfl) hlive)
    · exact .inl rfl
    · exact .inl (readLive_of_ends before rest (.inr (.inr rfl)) hlive)
  | parameters n => rcases hb with rfl | rfl | rfl <;> exact .inr ⟨n, rfl⟩
  | value n escaped =>
    cases escaped with
    | true => cases hlive
    | false => exact .inl (readValue_of_ends n before rest hb hlive)
  -- in all other regions the byte is masked
  | opening => cases hlive
  | commentOpening => cases hlive
  | blockComment star => cases hlive
  | lineComment => rcases hb with rfl | rfl | rfl <;> cases hlive
  | template escaped =>
    cases escaped with
    | true => cases hlive
    | false => rcases hb with rfl | rfl | rfl <;> cases hlive
  | regex inClass escaped =>
    cases escaped with
    | true => cases hlive
    | false => rcases hb with rfl | rfl | rfl <;> cases hlive
  | quoted quote escaped =>
    cases escaped with
    | true => cases hlive
    | false =>
      obtain ⟨hbackslash, hnewline⟩ := hb.ne
      have hmasked : (readQuoted ⟨.quoted quote false, mode, depth, outer⟩ quote b).1 = true := by
        unfold readQuoted
        rw [if_neg hbackslash, if_neg hnewline]
        split <;> rfl
      exact absurd hlive (by rw [State.read, hmasked]; exact Bool.noConfusion)
  | valueQuoted quote escaped =>
    cases escaped with
    | true => cases hlive
    | false =>
      dsimp only [State.read] at hlive
      rw [if_neg hb.ne.1] at hlive
      split at hlive <;> cases hlive

/-! ## Between statements -/

section
variable {s : State} {before rest : Text}

theorem read_space {b : UInt8} (h : s.region = .live) (hb : Byte.isSpace b = true) :
    s.read before b rest = (false, s.into .live) := by
  have hspace : b = Byte.space ∨ b = Byte.tab ∨ b = Byte.newline ∨ b = Byte.formFeed ∨
      b = Byte.carriageReturn := by
    simpa [Byte.isSpace, or_assoc] using hb
  unfold State.read
  rw [h]
  rcases hspace with rfl | rfl | rfl | rfl | rfl <;> rfl

theorem read_slash_slash (h : s.region = .live) (hrest : rest.head? = some Byte.slash) :
    s.read before Byte.slash rest = (true, s.into .lineComment) := by
  unfold State.read
  rw [h]
  unfold readLive
  rw [if_neg (by decide), if_neg (by decide), if_pos ⟨rfl, hrest⟩]

theorem read_slash_star (h : s.region = .live) (hrest : rest.head? = some Byte.star) :
    s.read before Byte.slash rest = (true, s.into .commentOpening) := by
  unfold State.read
  rw [h]
  unfold readLive
  rw [if_neg (by decide), if_neg (by decide), if_neg (by rw [hrest]; decide), if_pos ⟨rfl, hrest⟩]

end

end Mask.State

end PageLang
