import PageLang.Text.Basic

/-!
# Brackets of one kind in a text

`Text.Nests`: a text closes no bracket that is not open. It is read byte by byte with a count of the
open brackets (`Text.Nesting`), and a text that does not nest has a first bracket that closes none
(`Text.nesting_or`).
-/

namespace PageLang.Text

/-- In no front of a text more brackets are closed than opened, where `depth` are open around it. -/
def Nests (opening closing : UInt8) (depth : Nat) (t : Text) : Prop :=
  ∀ p, p <+: t → p.count closing ≤ depth + p.count opening

/-- A text takes the number of open brackets from `depth` to the last number. -/
inductive Nesting (opening closing : UInt8) : (depth : Nat) → Text → Nat → Prop
  | nil (depth : Nat) : Nesting opening closing depth [] depth
  | opening {depth n : Nat} {t : Text} : Nesting opening closing (depth + 1) t n →
    Nesting opening closing depth (opening :: t) n
  | closing {depth n : Nat} {t : Text} : Nesting opening closing depth t n →
    Nesting opening closing (depth + 1) (closing :: t) n
  | plain {depth n : Nat} {b : UInt8} {t : Text} : b ≠ opening → b ≠ closing →
    Nesting opening closing depth t n → Nesting opening closing depth (b :: t) n

variable {opening closing b : UInt8} {depth n : Nat} {t u v : Text}

theorem nests_nil (opening closing : UInt8) (depth : Nat) : Nests opening closing depth [] := by
  simp [Nests]

/-- The fronts of a text are those of the text behind its first byte. -/
theorem nests_cons {depth' : Nat} (hdepth : ∀ n m, [b].count closing + n ≤
    depth + ([b].count opening + m) ↔ n ≤ depth' + m) :
    Nests opening closing depth (b :: t) ↔ Nests opening closing depth' t := by
  have hcount (p : Text) : (b :: p).count closing ≤ depth + (b :: p).count opening ↔
      p.count closing ≤ depth' + p.count opening := by
    rw [← hdepth, ← List.count_append, ← List.count_append, List.singleton_append]
  constructor
  · exact fun h p hp => (hcount p).1 (h _ (List.cons_prefix_cons.2 ⟨rfl, hp⟩))
  · intro h p hp
    rcases List.prefix_cons_iff.1 hp with rfl | ⟨p', rfl, hp'⟩
    · simp
    · exact (hcount p').2 (h p' hp')

section
variable (hne : opening ≠ closing)
include hne

theorem nests_opening_cons :
    Nests opening closing depth (opening :: t) ↔ Nests opening closing (depth + 1) t :=
  nests_cons fun n m => by
    simp [hne]
    omega

theorem nests_closing_cons :
    Nests opening closing (depth + 1) (closing :: t) ↔ Nests opening closing depth t :=
  nests_cons fun n m => by
    simp [hne.symm]
    omega

theorem not_nests_closing_cons : ¬ Nests opening closing 0 (closing :: t) := fun h => by
  have := h [closing] ⟨t, rfl⟩
  simp [hne.symm] at this

end

theorem nests_plain_cons (hopening : b ≠ opening) (hclosing : b ≠ closing) :
    Nests opening closing depth (b :: t) ↔ Nests opening closing depth t :=
  nests_cons fun n m => by simp [hopening, hclosing]

/-- A text nests, or else a first bracket in it closes none. -/
theorem nesting_or (opening closing : UInt8) (depth : Nat) (t : Text) :
    (∃ n, Nesting opening closing depth t n) ∨
      ∃ u v, t = u ++ closing :: v ∧ Nesting opening closing depth u 0 := by
  -- what is found behind a byte is found in the whole text
  have step {b : UInt8} {t : Text} {depth depth' : Nat}
      (hstep : ∀ u n, Nesting opening closing depth' u n → Nesting opening closing depth (b :: u) n) :
      ((∃ n, Nesting opening closing depth' t n) ∨
        ∃ u v, t = u ++ closing :: v ∧ Nesting opening closing depth' u 0) →
      (∃ n, Nesting opening closing depth (b :: t) n) ∨
        ∃ u v, b :: t = u ++ closing :: v ∧ Nesting opening closing depth u 0 := by
    rintro (⟨n, h⟩ | ⟨u, v, rfl, h⟩)
    · exact .inl ⟨n, hstep _ _ h⟩
    · exact .inr ⟨b :: u, v, rfl, hstep _ _ h⟩
  induction t generalizing depth with
  | nil => exact .inl ⟨depth, .nil depth⟩
  | cons b t ih =>
    by_cases hopening : b = opening
    · subst hopening
      exact step (fun _ _ => .opening) (ih (depth + 1))
    by_cases hclosing : b = closing
    · subst hclosing
      cases depth with
      | zero => exact .inr ⟨[], t, rfl, .nil 0⟩
      | succ depth => exact step (fun _ _ => .closing) (ih depth)
    · exact step (fun _ _ => .plain hopening hclosing) (ih depth)

namespace Nesting

variable (hne : opening ≠ closing)
include hne

theorem nests (h : Nesting opening closing depth t n) : Nests opening closing depth t := by
  induction h with
  | nil depth => exact nests_nil _ _ depth
  | opening _ ih => exact (nests_opening_cons hne).2 ih
  | closing _ ih => exact (nests_closing_cons hne).2 ih
  | plain hopening hclosing _ ih => exact (nests_plain_cons hopening hclosing).2 ih

theorem not_nests (h : Nesting opening closing depth u 0) :
    ¬ Nests opening closing depth (u ++ closing :: v) := by
  generalize hn : 0 = n at h
  induction h with
  | nil depth =>
    subst hn
    exact not_nests_closing_cons hne
  | opening _ ih => exact fun hnests => ih hn ((nests_opening_cons hne).1 hnests)
  | closing _ ih => exact fun hnests => ih hn ((nests_closing_cons hne).1 hnests)
  | plain hopening hclosing _ ih =>
    exact fun hnests => ih hn ((nests_plain_cons hopening hclosing).1 hnests)

end Nesting

end PageLang.Text
