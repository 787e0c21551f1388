import PageLang.Script.Scope

/-!
# Blocks in the stack of scopes

In a stack without pending and transient names (`ScopeStack.IsPlain`), a block that opens hides what
is hidden already, and when it closes nothing is left of what was declared in it.

* `ScopeStack.Models`: a plain stack that hides the given names.
* `ScopeStack.pop_declareAll_push`: a block leaves no trace.
-/

namespace PageLang.ScopeStack

/-- Names declared in the innermost block, one after another. -/
def declareAll (s : ScopeStack) (names : List Text) : ScopeStack := names.foldl declare s

@[simp] theorem declareAll_nil (s : ScopeStack) : s.declareAll [] = s := rfl

theorem declareAll_append (s : ScopeStack) (names names' : List Text) :
    s.declareAll (names ++ names') = (s.declareAll names).declareAll names' :=
  List.foldl_append

/-! ## Declarations -/

theorem declare_eq (s : ScopeStack) (name : Text) :
    (s.declare name).pending = s.pending ∧ (s.declare name).transient = s.transient ∧
      (s.declare name).pendingFunction = s.pendingFunction := by
  unfold declare
  split <;> simp

theorem isDeclared_declare (s : ScopeStack) (name n : Text) (j : Nat) :
    (s.declare name).isDeclared n j = true ↔ n = name ∨ s.isDeclared n j = true := by
  unfold declare
  split
  · next f rest hinner =>
    simp only [isDeclared, frames, hinner, Frame.declare, List.cons_append, List.any_cons,
      List.contains_cons, Bool.or_eq_true, beq_iff_eq]
    grind
  · next hinner =>
    simp only [isDeclared, frames, hinner, Frame.declare, List.nil_append, List.any_cons,
      List.any_nil, List.contains_cons, Bool.or_eq_true, beq_iff_eq]
    grind

/-! ## Plain stacks -/

/-- A stack in which no name waits for a block and none is kept up to an offset. -/
structure IsPlain (s : ScopeStack) : Prop where
  pending : s.pending = []
  transient : s.transient = []

theorem IsPlain.declareAll {s : ScopeStack} (h : s.IsPlain) (names : List Text) :
    (s.declareAll names).IsPlain := by
  induction names generalizing s with
  | nil => exact h
  | cons name names ih =>
    obtain ⟨hpending, htransient, -⟩ := s.declare_eq name
    exact ih ⟨hpending.trans h.pending, htransient.trans h.transient⟩

theorem IsPlain.push_eq {s : ScopeStack} (h : s.IsPlain) :
    s.push = { s with inner := ⟨s.top.names, false⟩ :: s.inner } := by
  simp [push, h.pending]

theorem IsPlain.push {s : ScopeStack} (h : s.IsPlain) : s.push.IsPlain := by
  rw [h.push_eq]
  exact ⟨h.pending, h.transient⟩

theorem IsPlain.pop {s : ScopeStack} (h : s.IsPlain) : s.pop.IsPlain := ⟨h.pending, h.transient⟩

theorem isDeclared_push {s : ScopeStack} (h : s.IsPlain) (n : Text) (j : Nat) :
    s.push.isDeclared n j = true ↔ s.isDeclared n j = true := by
  rw [h.push_eq]
  have htop : s.top.names.contains n = true →
      s.frames.any (fun f => f.names.contains n) = true := by
    intro hn
    refine List.any_eq_true.2 ⟨s.top, ?_, hn⟩
    unfold top frames
    cases s.inner with
    | nil => simp
    | cons f rest => simp
  simp only [isDeclared, h.pending, h.transient, frames] at htop ⊢
  grind

/-- A declaration in a block changes only the frame of the block. -/
theorem inner_declareAll_tail {s : ScopeStack} {f : Frame} {rest : List Frame}
    (h : s.inner = f :: rest) (names : List Text) :
    ∃ f', s.declareAll names = { s with inner := f' :: rest } := by
  induction names generalizing s f with
  | nil => exact ⟨f, by rw [declareAll_nil, ← h]⟩
  | cons name names ih =>
    have hdeclare : s.declare name = { s with inner := f.declare name :: rest } := by
      unfold declare
      rw [h]
    obtain ⟨f', hf'⟩ := ih (s := s.declare name) (f := f.declare name) (by rw [hdeclare])
    refine ⟨f', ?_⟩
    rw [declareAll, List.foldl_cons]
    rw [declareAll] at hf'
    rw [hf', hdeclare]

/-- Nothing is left of a block when it closes. -/
theorem pop_declareAll_push {s : ScopeStack} (h : s.IsPlain) (names : List Text) :
    (s.push.declareAll names).pop = s := by
  obtain ⟨f, hf⟩ := inner_declareAll_tail (s := s.push) (by rw [h.push_eq]) names
  rw [hf, h.push_eq]
  rfl

/-! ## Hidden names -/

/-- A plain stack in which exactly the given names are declared. -/
structure Models (s : ScopeStack) (hidden : List Text) : Prop extends s.IsPlain where
  isDeclared : ∀ n j, s.isDeclared n j = true ↔ n ∈ hidden

theorem models_start : start.Models [] where
  pending := rfl
  transient := rfl
  isDeclared n j := by simp [ScopeStack.isDeclared, start, frames]

theorem Models.push {s : ScopeStack} {hidden : List Text} (h : s.Models hidden) :
    s.push.Models hidden where
  toIsPlain := h.toIsPlain.push
  isDeclared n j := (isDeclared_push h.toIsPlain n j).trans (h.isDeclared n j)

theorem Models.declareAll {s : ScopeStack} {hidden : List Text} (h : s.Models hidden)
    (names : List Text) : (s.declareAll names).Models (names ++ hidden) where
  toIsPlain := h.toIsPlain.declareAll names
  isDeclared n j := by
    suffices ∀ s : ScopeStack, (s.declareAll names).isDeclared n j = true ↔
        n ∈ names ∨ s.isDeclared n j = true by
      rw [this, List.mem_append, h.isDeclared]
    intro s
    induction names generalizing s with
    | nil => simp
    | cons name names ih =>
      rw [ScopeStack.declareAll, List.foldl_cons]
      exact (ih _).trans (by rw [isDeclared_declare, List.mem_cons, or_left_comm, or_assoc])

end PageLang.ScopeStack
