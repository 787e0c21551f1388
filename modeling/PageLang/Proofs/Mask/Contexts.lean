import PageLang.Proofs.Mask.Nested

/-!
# The contexts that a block leaves behind

The mask machine counts live braces, those of its context and those that opened a context. What it
opens in a block it closes there, so behind the brace that matches the first one it stands in the
context in front of the block. Only in a parameter list are braces live and not counted.

* `State.ContextStep`: what one byte does to the context.
* `State.OpenIn`: the contexts inside a block, with so many braces open.
* `State.OpenIn.read`: one step inside a block, and the step that closes it.
-/

namespace PageLang.Mask.State

open Cell

/-! ## One step -/

/-- What reading a byte does to the context of the machine: nothing, or the byte is a brace that the
machine counts. -/
inductive ContextStep (s : State) (b : UInt8) : Bool × State → Prop
  | same (masked : Bool) (region : Region) :
    (masked = false → b = Byte.lbrace ∨ b = Byte.rbrace → ∃ n, s.region = .parameters n) →
    ContextStep s b (masked, s.into region)
  | brace : b = Byte.lbrace →
    ContextStep s b (false, { s with depth := s.depth + 1, region := .live })
  | block (mode : Mode) : b = Byte.lbrace → ContextStep s b (false, s.enter .block mode)
  | interpolation : ContextStep s b (true, s.enter .template .code)
  | close : b = Byte.rbrace → ContextStep s b s.closeBrace

section
variable {s : State} {before rest : Text} {b : UInt8}

theorem ContextStep.masked (region : Region) : ContextStep s b (true, s.into region) :=
  .same true region Bool.noConfusion

theorem ContextStep.plain (region : Region) (hb : b ≠ Byte.lbrace ∧ b ≠ Byte.rbrace) :
    ContextStep s b (false, s.into region) :=
  .same false region fun _ h => absurd h (not_or.2 hb)

theorem contextStep_readLive : ContextStep s b (s.readLive before b rest) := by
  unfold readLive
  split
  · exact .masked _
  split
  · exact .masked _
  split
  · exact .masked _
  split
  · exact .masked _
  split
  · exact .masked _
  split
  · next hb => exact .brace hb
  next hlbrace =>
  split
  · next hb => exact .close hb
  next hrbrace =>
  split
  · exact .plain _ ⟨hlbrace, hrbrace⟩
  · exact .plain _ ⟨hlbrace, hrbrace⟩

theorem contextStep_readValue (n : Nat) : ContextStep s b (s.readValue n before b rest) := by
  unfold readValue
  split
  · exact .masked _
  split
  · exact contextStep_readLive
  split
  · exact .masked _
  split
  · cases n with
    | zero => exact contextStep_readLive
    | succ n => exact .masked _
  · exact .masked _

theorem contextStep_readAfterColon : ContextStep s b (s.readAfterColon before b rest) := by
  unfold readAfterColon
  split
  · next hspace =>
    refine .plain s.region ⟨?_, ?_⟩ <;>
    · rintro rfl
      cases hspace
  split
  · next hlparen => exact .plain _ (by rw [hlparen]; decide)
  split
  · next hlbrace => exact .block _ hlbrace
  split
  · exact .masked _
  · exact contextStep_readValue 0

theorem contextStep_readAfterParameters :
    ContextStep s b (s.readAfterParameters before b rest) := by
  unfold readAfterParameters
  split
  · next hspace =>
    refine .plain s.region ⟨?_, ?_⟩ <;>
    · rintro rfl
      cases hspace
  split
  · next hlbrace => exact .block _ hlbrace
  · exact contextStep_readLive

theorem contextStep_newline (region : Region) :
    ContextStep s Byte.newline (false, s.into region) :=
  .plain region (by decide)

theorem contextStep_readQuoted (quote : UInt8) : ContextStep s b (s.readQuoted quote b) := by
  unfold readQuoted
  split
  · exact .masked _
  split
  · next hnewline => exact hnewline ▸ contextStep_newline _
  split
  · exact .masked _
  · exact .masked s.region

theorem contextStep_readTemplate : ContextStep s b (s.readTemplate b rest) := by
  unfold readTemplate
  split
  · exact .masked _
  split
  · exact .masked _
  split
  · exact .masked _
  · exact .masked s.region

theorem contextStep_readRegex (inClass : Bool) : ContextStep s b (s.readRegex inClass b) := by
  unfold readRegex
  split
  · exact .masked _
  split
  · next hnewline => exact hnewline ▸ contextStep_newline _
  split
  · exact .masked _
  split
  · exact .masked _
  split
  · exact .masked _
  · exact .masked s.region

/-- The braces of a parameter list are live and not counted. -/
theorem contextStep_readParameters {n : Nat} (hregion : s.region = .parameters n) :
    ContextStep s b (s.readParameters n b) := by
  unfold readParameters
  repeat' split
  all_goals exact .same false _ fun _ _ => ⟨n, hregion⟩

/-- One step of the machine. -/
theorem contextStep_read (s : State) (before : Text) (b : UInt8) (rest : Text) :
    ContextStep s b (s.read before b rest) := by
  unfold State.read
  split
  · exact contextStep_readLive
  · exact .masked _
  · exact contextStep_readQuoted _
  · exact .masked _
  · exact contextStep_readTemplate
  · exact .interpolation
  · split
    · next hnewline => exact hnewline ▸ contextStep_newline _
    · exact .masked s.region
  · exact .masked _
  · exact .masked _
  · exact .masked _
  · exact contextStep_readRegex _
  · exact contextStep_readAfterColon
  · next hregion => exact contextStep_readParameters hregion
  · exact contextStep_readAfterParameters
  · exact .masked _
  · split
    · exact .masked _
    split
    · exact .masked _
    · exact .masked s.region
  · exact .masked _
  · exact contextStep_readValue _

end

/-! ## Inside a block -/

/-- The machine stands, in whatever region, in a block that begins in front of the context of
`base`, with `k` live braces open in the block. The first of them is counted by that context, or it
opened one of its own. -/
inductive OpenIn (base : State) : Nat → State → Prop
  | brace (k : Nat) (region : Region) :
    OpenIn base (k + 1) ⟨region, base.mode, base.depth + k + 1, base.outer⟩
  | block (k : Nat) (region : Region) (mode : Mode) :
    OpenIn base (k + 1) ⟨region, mode, k, ⟨.block, base.mode, base.depth⟩ :: base.outer⟩
  | innerBlock {k : Nat} {s : State} (j : Nat) (region : Region) (mode : Mode) : OpenIn base k s →
    OpenIn base (k + j + 1) ⟨region, mode, j, ⟨.block, s.mode, s.depth⟩ :: s.outer⟩
  | interpolation {k : Nat} {s : State} (j : Nat) (region : Region) (mode : Mode) :
    OpenIn base k s → OpenIn base (k + j) ⟨region, mode, j, ⟨.template, s.mode, s.depth⟩ :: s.outer⟩

/-- The live braces open in all contexts, those that opened a context among them. -/
def liveBraces (s : State) : Nat :=
  s.depth + (s.outer.map fun f => f.depth + if f.enclosing = .block then 1 else 0).sum

/-- What a step inside a block leads to: braces of the block are open, or the machine has left
it. -/
def Behind (base : State) : Option Nat → State → Prop
  | some n, s => OpenIn base n s
  | none, s => s = base.into .live

namespace OpenIn

variable {base s : State} {k : Nat}

theorem pos (h : OpenIn base k s) : 0 < k := by
  induction h with
  | brace | block | innerBlock => exact Nat.succ_pos _
  | interpolation j region mode h ih => exact Nat.lt_of_lt_of_le ih (Nat.le_add_right _ j)

/-- How many braces are open shows in the context. -/
theorem liveBraces_eq (h : OpenIn base k s) : s.liveBraces = base.liveBraces + k := by
  induction h with
  | brace k region =>
    simp only [liveBraces]
    omega
  | block k region mode =>
    simp only [liveBraces, List.map_cons, List.sum_cons, if_true]
    omega
  | innerBlock j region mode h ih =>
    simp only [liveBraces, List.map_cons, List.sum_cons, if_true] at ih ⊢
    omega
  | interpolation j region mode h ih =>
    simp only [liveBraces, List.map_cons, List.sum_cons, reduceCtorEq, if_false] at ih ⊢
    omega

theorem unique {j : Nat} (h : OpenIn base k s) (h' : OpenIn base j s) : k = j := by
  have := h.liveBraces_eq
  have := h'.liveBraces_eq
  omega

theorem into (h : OpenIn base k s) (region : Region) : OpenIn base k (s.into region) := by
  cases h with
  | brace k => exact .brace k region
  | block k _ mode => exact .block k region mode
  | innerBlock j _ mode h => exact .innerBlock j region mode h
  | interpolation j _ mode h => exact .interpolation j region mode h

theorem lbrace (h : OpenIn base k s) :
    OpenIn base (k + 1) { s with depth := s.depth + 1, region := .live } := by
  cases h with
  | brace k => exact .brace (k + 1) .live
  | block k _ mode => exact .block (k + 1) .live mode
  | innerBlock j _ mode h => exact .innerBlock (j + 1) .live mode h
  | interpolation j _ mode h => exact .interpolation (j + 1) .live mode h

/-- A closing brace of live text closes one of the open braces, or an interpolation if it is
masked. The last brace that it closes is the first one of the block. -/
theorem closeBrace (h : OpenIn base k s) :
    Behind base (step? k (Byte.rbrace, s.closeBrace.1)) s.closeBrace.2 := by
  have hlast : step? 1 (Byte.rbrace, false) = none := rfl
  have hlive {k : Nat} (hk : 0 < k) : step? (k + 1) (Byte.rbrace, false) = some k := by
    cases k with
    | zero => cases hk
    | succ k => rfl
  cases h with
  | brace k region =>
    change Behind base (step? (k + 1) (Byte.rbrace, false))
      ⟨.live, base.mode, base.depth + k, base.outer⟩
    cases k with
    | zero => rw [hlast]; rfl
    | succ k => rw [hlive (Nat.succ_pos k)]; exact .brace k .live
  | block k region mode =>
    cases k with
    | zero => rfl
    | succ k =>
      change Behind base (step? (k + 1 + 1) (Byte.rbrace, false)) _
      rw [hlive (Nat.succ_pos k)]
      exact .block k .live mode
  | @innerBlock k s j region mode h =>
    have hpos := h.pos
    cases j with
    | zero =>
      change Behind base (step? (k + 1) (Byte.rbrace, false)) (s.into .live)
      rw [hlive hpos]
      exact h.into .live
    | succ j =>
      change Behind base (step? (k + j + 1 + 1) (Byte.rbrace, false)) _
      rw [hlive (Nat.succ_pos _)]
      exact .innerBlock j .live mode h
  | @interpolation k s j region mode h =>
    have hpos := h.pos
    cases j with
    | zero =>
      change Behind base (some k) (s.into (.template false))
      exact h.into (.template false)
    | succ j =>
      change Behind base (step? (k + j + 1) (Byte.rbrace, false)) _
      rw [hlive (Nat.lt_of_lt_of_le hpos (Nat.le_add_right k j))]
      exact .interpolation j .live mode h

/-- One step inside a block. A brace of a parameter list is not counted. -/
theorem read (h : OpenIn base k s) (before : Text) (b : UInt8) (rest : Text)
    (hlist : b = Byte.lbrace ∨ b = Byte.rbrace → ∀ n, s.region ≠ .parameters n) :
    Behind base (step? k (b, (s.read before b rest).1)) (s.read before b rest).2 := by
  have hstep := contextStep_read s before b rest
  generalize s.read before b rest = r at hstep
  cases hstep with
  | same masked region hsame =>
    have hsame : step? k (b, masked) = some k := by
      cases masked with
      | true => rfl
      | false =>
        have hb : ¬ (b = Byte.lbrace ∨ b = Byte.rbrace) := fun hb =>
          (hsame rfl hb).elim fun n hn => hlist hb n hn
        rw [not_or] at hb
        simp [step?, hb]
    rw [hsame]
    exact h.into region
  | brace hb =>
    subst hb
    exact h.lbrace
  | block mode hb =>
    subst hb
    exact .innerBlock 0 .live mode h
  | interpolation => exact .interpolation 0 .live .code h
  | close hb =>
    subst hb
    exact h.closeBrace

end OpenIn

/-- Behind a live brace outside all parameter lists one brace is open, and the next closing brace is
live. -/
theorem openIn_of_lbrace {s : State} {before rest : Text}
    (hlive : (s.read before Byte.lbrace rest).1 = false) (hlist : ∀ n, s.region ≠ .parameters n) :
    OpenIn s 1 (s.read before Byte.lbrace rest).2 ∧
      (s.read before Byte.lbrace rest).2.closeBrace.1 = false := by
  have hstep := contextStep_read s before Byte.lbrace rest
  generalize s.read before Byte.lbrace rest = r at hlive hstep
  cases hstep with
  | same masked region hsame =>
    exact absurd (hsame hlive (.inl rfl)) fun ⟨n, hn⟩ => hlist n hn
  | brace => exact ⟨.brace 0 .live, rfl⟩
  | block mode => exact ⟨.block 0 .live mode, rfl⟩
  | interpolation => cases hlive
  | close hb => cases hb

end PageLang.Mask.State
