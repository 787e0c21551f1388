import PageLang.Proofs.Mask.Regions

/-!
# Steps of the mask machine in a declaration

What the machine does with the bytes of a declaration behind its name: a colon opens a value, the
bytes of a scalar are masked, and only a parenthesis behind a colon opens a parameter list.

* `State.region_eq_parameters`: where a parameter list is open.
* `State.region_of_colon`, `State.region_of_rparen`: the text behind a live colon or parenthesis.
* `State.StaysScalar`: a byte of a scalar.
-/

namespace PageLang

namespace Mask

/-- The regions of a scalar value. -/
def Region.isScalar : Region → Bool
  | .value .. | .valueQuoted .. => true
  | _ => false

namespace State

variable {s : State} {before rest : Text} {b : UInt8}

theorem closeBrace_region_ne (s : State) (n : Nat) : s.closeBrace.2.region ≠ .parameters n := by
  rcases s.closeBrace_region with h | h <;>
  · rw [h]
    exact Region.noConfusion

theorem readLive_region_ne (s : State) (before : Text) (b : UInt8) (rest : Text) (n : Nat) :
    (s.readLive before b rest).2.region ≠ .parameters n := by
  unfold readLive
  repeat' split
  all_goals first | exact Region.noConfusion | exact closeBrace_region_ne s n

theorem readValue_region_ne (s : State) (depth : Nat) (before : Text) (b : UInt8) (rest : Text)
    (n : Nat) : (s.readValue depth before b rest).2.region ≠ .parameters n := by
  unfold readValue
  repeat' split
  all_goals first | exact Region.noConfusion | exact readLive_region_ne s before _ rest n

/-- A parameter list goes on, or it begins behind the colon of a declaration. -/
theorem region_eq_parameters {n : Nat} (h : (s.read before b rest).2.region = .parameters n) :
    (∃ k, s.region = .parameters k ∧ (s.readParameters k b).2.region = .parameters n) ∨
      s.region = .afterColon ∧ b = Byte.lparen ∧ n = 1 := by
  obtain ⟨region, mode, depth, outer⟩ := s
  unfold State.read at h
  cases region with
  | parameters k => exact .inl ⟨k, rfl, h⟩
  | afterColon =>
    dsimp only [readAfterColon] at h
    repeat' split at h
    all_goals first
      | exact absurd h (readValue_region_ne _ _ _ _ _ _)
      | (cases h; exact .inr ⟨rfl, ‹_›, rfl⟩)
      | cases h
  | live => exact absurd h (readLive_region_ne _ _ _ _ _)
  | afterParameters =>
    dsimp only [readAfterParameters] at h
    repeat' split at h
    all_goals first | exact absurd h (readLive_region_ne _ _ _ _ _) | cases h
  | value k escaped =>
    cases escaped with
    | true => cases h
    | false => exact absurd h (readValue_region_ne _ _ _ _ _ _)
  | quoted quote escaped | template escaped | regex inClass escaped | valueQuoted quote escaped =>
    cases escaped <;> dsimp only [readQuoted, readTemplate, readRegex] at h
    all_goals
      repeat' split at h
      all_goals cases h
  | lineComment | blockComment star =>
    dsimp only [into] at h
    repeat' split at h
    all_goals cases h
  | opening | commentOpening => cases h

/-- A byte that is no blank, no end of a statement and no opening parenthesis is live in live text
and around parameter lists only. -/
theorem region_of_unmasked (hlive : (s.read before b rest).1 = false)
    (hspace : Byte.isSpace b = false)
    (hb : b ∉ [Byte.semicolon, Byte.lbrace, Byte.rbrace, Byte.lparen]) :
    s.region = .live ∨ s.region = .afterParameters ∨ ∃ n, s.region = .parameters n := by
  obtain ⟨region, mode, depth, outer⟩ := s
  simp only [List.mem_cons, List.not_mem_nil, or_false, not_or] at hb
  obtain ⟨hsemicolon, hlbrace, hrbrace, hlparen⟩ := hb
  have hnewline : b ≠ Byte.newline := by
    rintro rfl
    cases hspace
  have hvalue (n : Nat) (s : State) : (s.readValue n before b rest).1 = true := by
    simp only [readValue, hsemicolon, hlbrace, hrbrace, if_false]
    split <;> rfl
  cases region with
  | live => exact .inl rfl
  | afterParameters => exact .inr (.inl rfl)
  | parameters n => exact .inr (.inr ⟨n, rfl⟩)
  | afterColon =>
    simp only [State.read, readAfterColon, hspace, hlparen, hlbrace, Bool.false_eq_true,
      if_false] at hlive
    split at hlive
    · cases hlive
    · rw [hvalue] at hlive
      cases hlive
  | value n escaped =>
    cases escaped with
    | true => cases hlive
    | false =>
      dsimp only [State.read] at hlive
      rw [hvalue] at hlive
      cases hlive
  | quoted quote escaped | template escaped | regex inClass escaped | valueQuoted quote escaped =>
    cases escaped <;> dsimp only [State.read, readQuoted, readTemplate, readRegex] at hlive
    all_goals
      repeat' split at hlive
      all_goals cases hlive
  | lineComment =>
    simp only [State.read, hnewline, if_false] at hlive
    cases hlive
  | opening | commentOpening | blockComment => cases hlive

/-- Behind a live parenthesis outside all parameter lists the text is live. -/
theorem region_of_rparen (hlive : (s.read before Byte.rparen rest).1 = false)
    (hno : ∀ n, s.region ≠ .parameters n) :
    (s.read before Byte.rparen rest).2.region = .live := by
  rcases region_of_unmasked hlive (by decide) (by decide) with h | h | ⟨n, h⟩
  · unfold State.read
    rw [h]
    rfl
  · unfold State.read
    rw [h]
    rfl
  · exact absurd h (hno n)

/-- A colon of live text opens a value, or nothing. -/
theorem readLive_colon_cases (s : State) (before rest : Text) :
    s.readLive before Byte.colon rest = (false, s.into .afterColon) ∨
      s.readLive before Byte.colon rest = (false, s.into .live) := by
  have hslash {p : Prop} : ¬ (Byte.colon = Byte.slash ∧ p) := fun h => absurd h.1 (by decide)
  unfold readLive
  rw [if_neg (by decide), if_neg (by decide), if_neg hslash, if_neg hslash, if_neg hslash,
    if_neg (by decide), if_neg (by decide)]
  split
  · exact .inl rfl
  · exact .inr rfl

/-- Behind a live colon the mask waits for a value, or the text goes on. -/
theorem region_of_colon (hlive : (s.read before Byte.colon rest).1 = false) :
    (s.read before Byte.colon rest).2.region = .afterColon ∨
      (s.read before Byte.colon rest).2.region = .live ∨
      ∃ n, (s.read before Byte.colon rest).2.region = .parameters n := by
  have hcolon (s : State) : (s.readLive before Byte.colon rest).2.region = .afterColon ∨
      (s.readLive before Byte.colon rest).2.region = .live := by
    rcases readLive_colon_cases s before rest with h | h <;> rw [h]
    · exact .inl rfl
    · exact .inr rfl
  unfold State.read
  rcases region_of_unmasked hlive (by decide) (by decide) with h | h | ⟨n, h⟩ <;> rw [h]
  · exact (hcolon s).imp_right .inl
  · exact (hcolon s).imp_right .inl
  · exact .inr (.inr ⟨n, h⟩)

/-- The byte is masked as one of a scalar, or it may end the scalar. -/
def StaysScalar (s : State) (before : Text) (b : UInt8) (rest : Text) : Prop :=
  (∃ r : Region, r.isScalar = true ∧ s.read before b rest = (true, s.into r)) ∨
    (b = Byte.semicolon ∨ b = Byte.rbrace) ∧ s.read before b rest = s.readLive before b rest

theorem readValue_cases (s : State) (depth : Nat) (before : Text) (b : UInt8) (rest : Text) :
    (∃ r : Region, r.isScalar = true ∧ s.readValue depth before b rest = (true, s.into r)) ∨
      (b = Byte.semicolon ∨ b = Byte.rbrace) ∧
        s.readValue depth before b rest = s.readLive before b rest := by
  unfold readValue
  split
  · exact .inl ⟨_, rfl, rfl⟩
  split
  · next hb => exact .inr ⟨.inl hb, rfl⟩
  split
  · exact .inl ⟨_, rfl, rfl⟩
  split
  · next hb =>
    cases depth with
    | zero => exact .inr ⟨.inr hb, rfl⟩
    | succ depth => exact .inl ⟨_, rfl, rfl⟩
  · exact .inl ⟨_, rfl, rfl⟩

theorem staysScalar_of_isScalar (h : s.region.isScalar = true) : s.StaysScalar before b rest := by
  unfold StaysScalar State.read
  obtain ⟨region, mode, depth, outer⟩ := s
  cases region with
  | value n escaped =>
    cases escaped with
    | true => exact .inl ⟨.value n false, rfl, rfl⟩
    | false => exact readValue_cases _ n before b rest
  | valueQuoted quote escaped =>
    cases escaped with
    | true => exact .inl ⟨.valueQuoted quote false, rfl, rfl⟩
    | false =>
      dsimp only
      split
      · exact .inl ⟨_, rfl, rfl⟩
      split
      · exact .inl ⟨_, rfl, rfl⟩
      · exact .inl ⟨.valueQuoted quote false, rfl, rfl⟩
  | _ => cases h

/-- A scalar begins with the first byte behind the colon that is no blank and opens nothing. -/
theorem staysScalar_of_afterColon (h : s.region = .afterColon) (hspace : Byte.isSpace b = false)
    (hlparen : b ≠ Byte.lparen) (hlbrace : b ≠ Byte.lbrace) : s.StaysScalar before b rest := by
  unfold StaysScalar State.read
  rw [h]
  dsimp only [readAfterColon]
  rw [if_neg (by rw [hspace]; exact Bool.false_ne_true), if_neg hlparen, if_neg hlbrace]
  split
  · exact .inl ⟨_, rfl, rfl⟩
  · exact readValue_cases s 0 before b rest

end State

end Mask

end PageLang
