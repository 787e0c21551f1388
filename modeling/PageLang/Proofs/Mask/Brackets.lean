import PageLang.Proofs.Mask.Characters
import PageLang.Proofs.Mask.Values
import PageLang.Proofs.MaskedText.Ranges
import PageLang.Proofs.Text.Trim

/-!
# Live brackets

Where the mask machine stands in live text or around a parameter list, it goes on so over plain
bytes, and a bracket is live there. Blanks change nothing the other way round either: they end no
region, but a newline may end one and then it is live and ends a statement. So a bracket is live if
blanks lead from a live word or comma to it, or inside one statement from it to a live word.

* `Mask.State.masksForeign_read`, `Mask.State.masksForeign_of_read`: one byte, forward and back.
* `MaskedText.Shows`: the machine shows what stands at an offset.
* `MaskedText.Shows.liveByte?`: a bracket behind live text.
* `MaskedText.liveByte?_of_shows`: a parenthesis in front of it.
* `MaskedText.liveByte?_value`: a parenthesis behind the colon of a declaration.
-/

namespace PageLang

/-- A blank is none of the bytes that the mask machine reacts to, but for newlines. -/
theorem Byte.plain_of_not_isInk : ∀ b, isInk b = false →
    isPlain b = true ∧ b ≠ semicolon ∧ b ≠ lparen :=
  forall_of_nibbles (by decide)

theorem Byte.isInk_of_isSpace : ∀ b, isSpace b = true → isInk b = false :=
  forall_of_nibbles (by decide)

theorem Byte.plain_of_isWord : ∀ b, isWord b = true →
    isPlain b = true ∧ isSpace b = false ∧ b ∉ [semicolon, lbrace, rbrace, lparen] :=
  forall_of_nibbles (by decide)

namespace Mask.State

variable {s : State} {before rest : Text} {b : UInt8}

/-! ## One byte -/

theorem readLive_of_isPlain (hb : Byte.isPlain b = true) :
    s.readLive before b rest = (false, s.into .live) :=
  read_plain (s := s.into .live) rfl hb

/-- Live text and parameter lists go on over plain bytes. -/
theorem masksForeign_read (h : s.region.masksForeign = false) (hb : Byte.isPlain b = true) :
    (s.read before b rest).2.region.masksForeign = false := by
  obtain ⟨region, mode, depth, outer⟩ := s
  cases region with
  | live =>
    rw [read_plain rfl hb]
    rfl
  | parameters n =>
    dsimp only [State.read, readParameters, into]
    repeat' split
    all_goals rfl
  | afterParameters =>
    dsimp only [State.read, readAfterParameters]
    split
    · rfl
    split
    · rfl
    · rw [readLive_of_isPlain hb]
      rfl
  | _ => cases h

/-- Brackets open in live text and around parameter lists. -/
theorem read_of_isOpening (h : s.region.masksForeign = false) (hb : Byte.isOpening b = true) :
    (s.read before b rest).1 = false := by
  obtain ⟨region, mode, depth, outer⟩ := s
  simp only [Byte.isOpening, Bool.or_eq_true, beq_iff_eq, or_assoc] at hb
  cases region with
  | live | afterParameters => rcases hb with rfl | rfl | rfl <;> rfl
  | parameters n => rcases hb with rfl | rfl | rfl <;> rfl
  | _ => cases h

/-- A live word or comma stands in live text or around a parameter list. -/
theorem masksForeign_of_unmasked (hlive : (s.read before b rest).1 = false)
    (hspace : Byte.isSpace b = false)
    (hb : b ∉ [Byte.semicolon, Byte.lbrace, Byte.rbrace, Byte.lparen]) :
    s.region.masksForeign = false := by
  rcases region_of_unmasked hlive hspace hb with h | h | ⟨n, h⟩ <;>
  · rw [h]
    rfl

theorem masksForeign_readValue (hb : Byte.isPlain b = true) (hsemicolon : b ≠ Byte.semicolon)
    (n : Nat) : (s.readValue n before b rest).2.region.masksForeign = true := by
  simp only [Byte.isPlain, Bool.not_eq_true', Bool.or_eq_false_iff, beq_eq_false_iff_ne] at hb
  unfold readValue
  rw [if_neg hsemicolon, if_neg hb.1.1.2, if_neg hb.1.2]
  split <;> rfl

/-- A plain byte ends no region, unless it is a live newline. A parenthesis ends the wait behind a
colon. -/
theorem masksForeign_of_read (hawaits : s.region.Awaits (b :: rest))
    (hb : Byte.isPlain b = true) (hsemicolon : b ≠ Byte.semicolon)
    (hnewline : b = Byte.newline → (s.read before b rest).1 = true)
    (h : (s.read before b rest).2.region.masksForeign = false) :
    s.region.masksForeign = false ∨ s.region = .afterColon ∧ b = Byte.lparen := by
  have hplain := hb
  simp only [Byte.isPlain, Bool.not_eq_true', Bool.or_eq_false_iff, beq_eq_false_iff_ne] at hplain
  obtain ⟨⟨⟨⟨hquote, hslash⟩, hlbrace⟩, -⟩, -⟩ := hplain
  have hother {q : UInt8} (hq : Byte.isQuote q = true) : b ≠ q := by
    rintro rfl
    rw [hquote] at hq
    cases hq
  obtain ⟨region, mode, depth, outer⟩ := s
  cases region with
  | live | parameters _ | afterParameters => exact .inl rfl
  | afterColon =>
    dsimp only [State.read, readAfterColon] at h
    split at h
    · cases h
    split at h
    · next hparen => exact .inr ⟨rfl, hparen⟩
    · simp only [hquote, Bool.false_eq_true, if_false] at h
      cases (masksForeign_readValue hb hsemicolon 0).symm.trans h
  | value n escaped =>
    cases escaped with
    | true => cases h
    | false => cases (masksForeign_readValue hb hsemicolon n).symm.trans h
  | quoted quote escaped =>
    cases escaped with
    | true => cases h
    | false =>
      dsimp only [State.read, readQuoted] at h hnewline
      split at h
      · cases h
      · next hbackslash =>
        rw [if_neg hbackslash] at hnewline
        split at h
        · next hnew =>
          rw [if_pos hnew] at hnewline
          cases hnewline hnew
        · rw [if_neg (hother hawaits)] at h
          cases h
  | valueQuoted quote escaped =>
    cases escaped with
    | true => cases h
    | false =>
      dsimp only [State.read] at h
      rw [if_neg (hother hawaits)] at h
      split at h <;> cases h
  | template escaped =>
    cases escaped with
    | true => cases h
    | false =>
      dsimp only [State.read, readTemplate] at h
      simp only [hother (q := Byte.backquote) rfl, if_false] at h
      repeat' split at h
      all_goals cases h
  | opening => exact absurd (Option.some.inj hawaits) hlbrace
  | lineComment =>
    dsimp only [State.read] at h hnewline
    split at h
    · next hnew =>
      rw [if_pos hnew] at hnewline
      cases hnewline hnew
    · cases h
  | commentOpening => cases h
  | blockComment star =>
    dsimp only [State.read] at h
    rw [if_neg fun hend => hslash hend.2] at h
    cases h
  | regex inClass escaped =>
    cases escaped with
    | true => cases h
    | false =>
      dsimp only [State.read, readRegex] at h hnewline
      split at h
      · cases h
      · next hbackslash =>
        rw [if_neg hbackslash] at hnewline
        split at h
        · next hnew =>
          rw [if_pos hnew] at hnewline
          cases hnewline hnew
        · simp only [hslash, false_and, if_false] at h
          repeat' split at h
          all_goals cases h

/-- Live text, the surroundings of a parameter list, and the place of a value: here a parenthesis
is live. -/
def ShowsParen (s : State) : Prop := s.region = .afterColon ∨ s.region.masksForeign = false

theorem ShowsParen.read_lparen (h : s.ShowsParen) : (s.read before Byte.lparen rest).1 = false := by
  rcases h with h | h
  · unfold State.read
    rw [h]
    rfl
  · exact read_of_isOpening h rfl

/-- Behind a colon blank space changes nothing. -/
theorem ShowsParen.read_space (h : s.ShowsParen) (hb : Byte.isSpace b = true) :
    (s.read before b rest).2.ShowsParen := by
  rcases h with h | h
  · left
    unfold State.read
    rw [h]
    dsimp only [readAfterColon]
    rw [if_pos hb]
    exact h
  · exact .inr (masksForeign_read h (Byte.plain_of_not_isInk b (Byte.isInk_of_isSpace b hb)).1)

theorem showsParen_of_colon (hlive : (s.read before Byte.colon rest).1 = false) :
    (s.read before Byte.colon rest).2.ShowsParen := by
  unfold ShowsParen
  rcases region_of_colon hlive with h | h | ⟨n, h⟩ <;> rw [h]
  · exact .inl rfl
  · exact .inr rfl
  · exact .inr rfl

/-- A parenthesis in front of live text or of a parameter list is live. -/
theorem showsParen_of_read (hawaits : s.region.Awaits (Byte.lparen :: rest))
    (h : (s.read before Byte.lparen rest).2.region.masksForeign = false) : s.ShowsParen := by
  rcases masksForeign_of_read hawaits rfl (by decide) (fun h => absurd h (by decide)) h with
    hregion | ⟨hregion, -⟩
  · exact .inr hregion
  · exact .inl hregion

end Mask.State

namespace MaskedText

open Mask

variable {mode : Mode} {t : Text} {i k : Nat} {b : UInt8}

/-- At an offset the mask machine stands in live text or around a parameter list. -/
def Shows (mode : Mode) (t : Text) (k : Nat) : Prop :=
  ((State.start mode).after [] k t).region.masksForeign = false

/-- A byte is live if the machine answers so. -/
theorem liveByte?_eq_some_iff : (ofText mode t).liveByte? k = some b ↔ t[k]? = some b ∧
    (((State.start mode).after [] k t).read (t.take k).reverse b (t.drop (k + 1))).1 = false := by
  constructor
  · intro h
    obtain ⟨hmask, hb⟩ := liveByte?_eq_some h
    rw [byte?_ofText] at hb
    rw [State.isMasked_ofText hb] at hmask
    exact ⟨hb, hmask⟩
  · rintro ⟨hb, hmask⟩
    rw [liveByte?, State.isMasked_ofText hb, hmask, byte?_ofText]
    exact hb

/-! ## Behind live text -/

theorem Shows.succ (h : Shows mode t k) (hb : t[k]? = some b) (hplain : Byte.isPlain b = true) :
    Shows mode t (k + 1) := by
  unfold Shows
  rw [State.after_succ hb, List.append_nil]
  exact State.masksForeign_read h hplain

theorem Shows.of_plain (h : Shows mode t i) (hik : i ≤ k)
    (hplain : ∀ j, i ≤ j → j < k → (t[j]?).any Byte.isPlain = true) : Shows mode t k := by
  induction hik with
  | refl => exact h
  | @step k hik ih =>
    obtain ⟨b, hb, hplain'⟩ := (Option.any_eq_true _ _).1 (hplain k hik (Nat.lt_succ_self k))
    exact (ih fun j hj hjk => hplain j hj (Nat.lt_succ_of_lt hjk)).succ hb hplain'

/-- A bracket that opens behind live text is live. -/
theorem Shows.liveByte? (h : Shows mode t k) (hb : t[k]? = some b)
    (ho : Byte.isOpening b = true) : (ofText mode t).liveByte? k = some b :=
  liveByte?_eq_some_iff.2 ⟨hb, State.read_of_isOpening h ho⟩

/-- A live word or comma. -/
theorem shows_of_liveByte? (h : (ofText mode t).liveByte? k = some b)
    (hspace : Byte.isSpace b = false)
    (hb : b ∉ [Byte.semicolon, Byte.lbrace, Byte.rbrace, Byte.lparen]) : Shows mode t k :=
  State.masksForeign_of_unmasked (liveByte?_eq_some_iff.1 h).2 hspace hb

/-! ## In front of live text -/

theorem Shows.pred (h : Shows mode t (k + 1)) (hb : t[k]? = some b) (hink : Byte.isInk b = false)
    (hend : (ofText mode t).endsRange k = false) : Shows mode t k := by
  obtain ⟨hplain, hsemicolon, hlparen⟩ := Byte.plain_of_not_isInk b hink
  unfold Shows at h
  rw [State.after_succ hb, List.append_nil] at h
  refine (State.masksForeign_of_read (awaits_start hb) hplain hsemicolon (fun hnewline => ?_)
    h).resolve_right fun hparen => hlparen hparen.2
  -- a live newline would end the range
  refine (Bool.eq_false_or_eq_true _).resolve_right fun hlive => ?_
  rw [endsRange, liveByte?_eq_some_iff.2 ⟨hb, hlive⟩, hnewline] at hend
  cases hend

theorem Shows.of_blank (h : Shows mode t k) (hik : i ≤ k)
    (hblank : ∀ j, i ≤ j → j < k → (∃ b, t[j]? = some b ∧ Byte.isInk b = false) ∧
      (ofText mode t).endsRange j = false) : Shows mode t i := by
  induction hik with
  | refl => exact h
  | @step k hik ih =>
    obtain ⟨⟨b, hb, hink⟩, hend⟩ := hblank k hik (Nat.lt_succ_self k)
    exact ih (h.pred hb hink hend) fun j hj hjk => hblank j hj (Nat.lt_succ_of_lt hjk)

/-- A parenthesis is live if blanks lead from it to live text, and no statement ends in them. -/
theorem liveByte?_of_shows (h : Shows mode t k) (hik : i < k) (hb : t[i]? = some Byte.lparen)
    (hblank : ∀ j, i < j → j < k → (∃ b, t[j]? = some b ∧ Byte.isInk b = false) ∧
      (ofText mode t).endsRange j = false) :
    (ofText mode t).liveByte? i = some Byte.lparen := by
  have hnext : Shows mode t (i + 1) := h.of_blank hik hblank
  unfold Shows at hnext
  rw [State.after_succ hb, List.append_nil] at hnext
  have hshows := State.showsParen_of_read (awaits_start hb) hnext
  exact liveByte?_eq_some_iff.2 ⟨hb, hshows.read_lparen⟩

/-! ## Behind a colon -/

/-- Blanks lead from a live colon to a parenthesis only if it is live. -/
theorem liveByte?_value (hcolon : (ofText mode t).liveByte? i = some Byte.colon)
    (hb : t[(ofText mode t).skipSpace (i + 1)]? = some Byte.lparen) :
    (ofText mode t).liveByte? ((ofText mode t).skipSpace (i + 1)) = some Byte.lparen := by
  obtain ⟨hbyte, hlive⟩ := liveByte?_eq_some_iff.1 hcolon
  have hsize := (List.getElem?_eq_some_iff.1 hb).1
  have hshows : ∀ k, i + 1 ≤ k → k ≤ (ofText mode t).skipSpace (i + 1) →
      ((State.start mode).after [] k t).ShowsParen := by
    intro k hk
    induction hk with
    | refl =>
      intro _
      rw [State.after_succ hbyte, List.append_nil]
      exact State.showsParen_of_colon hlive
    | @step k hk ih =>
      intro hle
      have hspace := isSpace_of_lt_skipSpace (by rwa [size_ofText]) hk hle
      rw [byte?_ofText] at hspace
      obtain ⟨c, hc, hspace⟩ := (Option.any_eq_true _ _).1 hspace
      rw [State.after_succ hc]
      exact (ih (Nat.le_of_succ_le hle)).read_space hspace
  exact liveByte?_eq_some_iff.2 ⟨hb, (hshows _ (le_skipSpace _ _) (Nat.le_refl _)).read_lparen⟩

end MaskedText

end PageLang
