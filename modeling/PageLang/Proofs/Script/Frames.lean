import Mathlib.Data.List.Forall2
import PageLang.Proofs.Script.Scope

/-!
# Frames in the stack of scopes

What one event does to the frames of the open blocks. A declaration takes no name from a frame, so a
name that a frame holds is held until its block closes (`Holds`). Names come from declarations only
(`Only`). And a declaration inside a function changes no frame around the function (`Inside`).

* `ScopeStack.Holds`: a name that stays until more than `depth` blocks have been closed.
* `ScopeStack.Only`: all names of a stack satisfy a predicate.
* `ScopeStack.Inside`: the frames around the function that `depth` open blocks stand in.
-/

namespace PageLang

namespace Frame

/-- A frame with at least the names of another, of the same kind. -/
def Le (f g : Frame) : Prop := f.names ⊆ g.names ∧ f.function = g.function

theorem le_rfl (f : Frame) : f.Le f := ⟨fun _ h => h, rfl⟩

theorem le_declare (f : Frame) (n : Text) : f.Le (f.declare n) :=
  ⟨fun _ h => List.mem_cons_of_mem n h, rfl⟩

theorem forall₂_le_rfl (l : List Frame) : List.Forall₂ Le l l := by
  induction l with
  | nil => exact .nil
  | cons f l ih => exact .cons f.le_rfl ih

end Frame

namespace ScopeStack

variable {s : ScopeStack} {depth : Nat} {n : Text}

/-! ## Names that wait -/

theorem mem_pending_declareIn_iff {scope : BindingScope} {m : Text} :
    n ∈ (s.declareIn scope m).pending ↔
      n ∈ s.pending ∨ n = m ∧ ∃ function, scope = .parameters function := by
  cases scope with
  | block => rw [declareIn, (s.declare_eq m).1]; simp
  | function =>
    rw [declareIn, declareFunctionScoped]
    split <;> simp
  | parameters function => simp [declareIn, declarePending, or_comm]
  | expression stop => simp [declareIn, declareUntil]

/-- Of the names of a declaration, parameters wait for a block. -/
theorem mem_pending_apply_iff {d : LocalDeclaration} : n ∈ (s.apply d).pending ↔
    n ∈ s.pending ∨ n ∈ d.names ∧ ∃ function, d.scope = .parameters function := by
  unfold apply
  induction d.names generalizing s with
  | nil => simp
  | cons m names ih =>
    rw [List.foldl_cons, ih, mem_pending_declareIn_iff, List.mem_cons]
    tauto

/-- A declaration takes no name from those that wait for a block. -/
theorem mem_pending_apply (h : n ∈ s.pending) (d : LocalDeclaration) : n ∈ (s.apply d).pending :=
  mem_pending_apply_iff.2 (.inl h)

theorem pendingFunction_declareIn_iff {scope : BindingScope} {m : Text} :
    (s.declareIn scope m).pendingFunction = true ↔
      s.pendingFunction = true ∨ scope = .parameters true := by
  cases scope with
  | block => rw [declareIn, (s.declare_eq m).2.2]; simp
  | function =>
    rw [declareIn, declareFunctionScoped]
    split <;> simp
  | parameters function => simp [declareIn, declarePending]
  | expression stop => simp [declareIn, declareUntil]

/-- The next block is that of a function if a parameter of a function is declared. -/
theorem pendingFunction_apply_iff {d : LocalDeclaration} : (s.apply d).pendingFunction = true ↔
    s.pendingFunction = true ∨ d.names ≠ [] ∧ d.scope = .parameters true := by
  unfold apply
  induction d.names generalizing s with
  | nil => simp
  | cons m names ih =>
    rw [List.foldl_cons, ih, pendingFunction_declareIn_iff]
    by_cases hscope : d.scope = .parameters true <;> simp [hscope]

theorem inner_push (s : ScopeStack) : ∃ f, s.push.inner = f :: s.inner ∧ s.push.root = s.root ∧
    s.pending ⊆ f.names ∧ (∀ m ∈ f.names, m ∈ s.pending ∨ m ∈ s.top.names) ∧
      f.function = (!s.pending.isEmpty && s.pendingFunction) := by
  unfold push
  split
  · next hpending =>
    rw [List.isEmpty_iff] at hpending
    exact ⟨_, rfl, rfl, by simp [hpending], fun _ h => .inr h, by simp [hpending]⟩
  · next hpending =>
    exact ⟨_, rfl, rfl, List.subset_append_left _ _, fun _ => List.mem_append.1, by simp [hpending]⟩

/-! ## Names that stay -/

theorem forall₂_declareInFunction? {l l' : List Frame} (h : declareInFunction? n l = some l') :
    List.Forall₂ Frame.Le l l' ∧ ∃ f ∈ l', n ∈ f.names := by
  induction l generalizing l' with
  | nil => cases h
  | cons f rest ih =>
    unfold declareInFunction? at h
    split at h
    · cases h
      exact ⟨.cons (f.le_declare n) (Frame.forall₂_le_rfl rest), _, .head _, .head _⟩
    · obtain ⟨rest', hrest, rfl⟩ := Option.map_eq_some_iff.1 h
      obtain ⟨hle, g, hg, hn⟩ := ih hrest
      exact ⟨.cons f.le_rfl hle, g, .tail _ hg, hn⟩

/-- A declaration takes no name from a frame. -/
theorem forall₂_declareIn (s : ScopeStack) (scope : BindingScope) (n : Text) :
    List.Forall₂ Frame.Le s.inner (s.declareIn scope n).inner ∧
      s.root.Le (s.declareIn scope n).root := by
  cases scope with
  | block =>
    rw [declareIn, declare]
    split
    · next f rest hinner =>
      rw [hinner]
      exact ⟨.cons (f.le_declare n) (Frame.forall₂_le_rfl rest), s.root.le_rfl⟩
    · exact ⟨Frame.forall₂_le_rfl _, s.root.le_declare n⟩
  | function =>
    rw [declareIn, declareFunctionScoped]
    split
    · next inner hinner => exact ⟨(forall₂_declareInFunction? hinner).1, s.root.le_rfl⟩
    · exact ⟨Frame.forall₂_le_rfl _, s.root.le_declare n⟩
  | parameters function => exact ⟨Frame.forall₂_le_rfl _, s.root.le_rfl⟩
  | expression stop => exact ⟨Frame.forall₂_le_rfl _, s.root.le_rfl⟩

/-- No declaration makes a block that of a function. -/
theorem map_function_declareIn (s : ScopeStack) (scope : BindingScope) (n : Text) :
    (s.declareIn scope n).inner.map Frame.function = s.inner.map Frame.function := by
  have hsame {l l' : List Frame} (h : List.Forall₂ Frame.Le l l') :
      l'.map Frame.function = l.map Frame.function := by
    induction h with
    | nil => rfl
    | cons hle _ ih => rw [List.map_cons, List.map_cons, hle.2, ih]
  exact hsame (s.forall₂_declareIn scope n).1

theorem map_function_apply (s : ScopeStack) (d : LocalDeclaration) :
    (s.apply d).inner.map Frame.function = s.inner.map Frame.function := by
  unfold apply
  induction d.names generalizing s with
  | nil => rfl
  | cons m names ih => rw [List.foldl_cons, ih, s.map_function_declareIn d.scope m]

/-- A name is declared in a frame that is left when `depth` blocks have been closed. -/
structure Holds (s : ScopeStack) (depth : Nat) (n : Text) : Prop where
  depth_le : depth ≤ s.inner.length
  mem : (∃ f ∈ s.inner.drop depth, n ∈ f.names) ∨ n ∈ s.root.names

theorem Holds.declareIn (h : s.Holds depth n) (scope : BindingScope) (m : Text) :
    (s.declareIn scope m).Holds depth n := by
  obtain ⟨hinner, hroot⟩ := s.forall₂_declareIn scope m
  refine ⟨hinner.length_eq ▸ h.depth_le, h.mem.imp ?_ (hroot.1 ·)⟩
  rintro ⟨f, hf, hn⟩
  obtain ⟨i, hi, rfl⟩ := List.getElem_of_mem hf
  have hdrop := List.forall₂_drop depth hinner
  have hlt := hdrop.length_eq ▸ hi
  exact ⟨_, List.getElem_mem hlt, ((List.forall₂_iff_get.1 hdrop).2 i hi hlt).1 hn⟩

theorem Holds.apply (h : s.Holds depth n) (d : LocalDeclaration) : (s.apply d).Holds depth n := by
  unfold ScopeStack.apply
  induction d.names generalizing s with
  | nil => exact h
  | cons m names ih => exact ih (h.declareIn d.scope m)

theorem Holds.push (h : s.Holds depth n) : s.push.Holds (depth + 1) n := by
  obtain ⟨f, hinner, hroot, -⟩ := s.inner_push
  refine ⟨?_, ?_⟩
  · rw [hinner, List.length_cons]
    exact Nat.succ_le_succ h.depth_le
  · rw [hinner, hroot, List.drop_succ_cons]
    exact h.mem

theorem Holds.pop (h : s.Holds (depth + 1) n) : s.pop.Holds depth n := by
  refine ⟨?_, ?_⟩
  · have := h.depth_le
    rw [ScopeStack.pop, List.length_tail]
    omega
  · rw [ScopeStack.pop, List.drop_tail]
    exact h.mem

/-- A name that a frame holds is declared. -/
theorem Holds.isDeclared (h : s.Holds depth n) (i : Nat) : s.isDeclared n i = true := by
  have hframe : ∃ f ∈ s.frames, n ∈ f.names := by
    rcases h.mem with ⟨f, hf, hn⟩ | hn
    · exact ⟨f, List.mem_append_left _ (List.mem_of_mem_drop hf), hn⟩
    · exact ⟨s.root, List.mem_append_right _ (.head _), hn⟩
  have : s.frames.any (fun f => f.names.contains n) = true := by simpa using hframe
  rw [ScopeStack.isDeclared, this, Bool.or_true]

theorem holds_declare (s : ScopeStack) (n : Text) : (s.declare n).Holds 0 n := by
  refine ⟨Nat.zero_le _, ?_⟩
  unfold declare
  split
  · exact .inl ⟨_, .head _, .head _⟩
  · exact .inr (.head _)

theorem holds_declareFunctionScoped (s : ScopeStack) (n : Text) :
    (s.declareFunctionScoped n).Holds 0 n := by
  refine ⟨Nat.zero_le _, ?_⟩
  unfold declareFunctionScoped
  split
  · next inner hinner =>
    rw [List.drop_zero]
    exact .inl (forall₂_declareInFunction? hinner).2
  · exact .inr (.head _)

/-- A declaration in a block or in a function holds its names. -/
theorem holds_apply {d : LocalDeclaration} (hscope : d.scope = .block ∨ d.scope = .function)
    (hn : n ∈ d.names) (s : ScopeStack) : (s.apply d).Holds 0 n := by
  obtain ⟨offset, names, scope⟩ := d
  have hdeclared (s : ScopeStack) (m : Text) : (s.declareIn scope m).Holds 0 m := by
    rcases hscope with rfl | rfl
    · exact s.holds_declare m
    · exact s.holds_declareFunctionScoped m
  induction names generalizing s with
  | nil => cases hn
  | cons m names ih =>
    rcases List.mem_cons.1 hn with rfl | hn
    · exact (hdeclared s n).apply ⟨offset, names, scope⟩
    · exact ih (s.declareIn scope m) hscope hn

/-- The innermost `depth` frames, none of a function. -/
structure Blocks (s : ScopeStack) (depth : Nat) : Prop where
  depth_le : depth ≤ s.inner.length
  function : ∀ b ∈ (s.inner.map Frame.function).take depth, b = false

theorem Blocks.declareIn (h : s.Blocks depth) (scope : BindingScope) (m : Text) :
    (s.declareIn scope m).Blocks depth := by
  have hsame := s.map_function_declareIn scope m
  have hlength := congrArg List.length hsame
  rw [List.length_map, List.length_map] at hlength
  exact ⟨hlength ▸ h.depth_le, hsame ▸ h.function⟩

theorem declareInFunction?_append {blocks : List Frame} (h : ∀ f ∈ blocks, f.function = false)
    (outer : List Frame) (n : Text) : declareInFunction? n (blocks ++ outer) =
      (declareInFunction? n outer).map (blocks ++ ·) := by
  induction blocks with
  | nil => simp
  | cons f blocks ih =>
    obtain ⟨hf, hblocks⟩ := List.forall_mem_cons.1 h
    rw [List.cons_append, declareInFunction?, hf, if_neg Bool.false_ne_true, ih hblocks, Option.map_map]
    rfl

/-- A name of a function is declared behind the blocks in the function. -/
theorem Blocks.holds (h : s.Blocks depth) (n : Text) : (s.declareFunctionScoped n).Holds depth n := by
  have hblocks : ∀ f ∈ s.inner.take depth, f.function = false := by
    intro f hf
    refine h.function _ ?_
    rw [← List.map_take]
    exact List.mem_map_of_mem hf
  have hdeclare := declareInFunction?_append hblocks (s.inner.drop depth) n
  rw [List.take_append_drop] at hdeclare
  unfold declareFunctionScoped
  rw [hdeclare]
  cases houter : declareInFunction? n (s.inner.drop depth) with
  | none => exact ⟨h.depth_le, .inr (.head _)⟩
  | some outer =>
    have hlength : (s.inner.take depth).length = depth := by
      rw [List.length_take]
      exact Nat.min_eq_left h.depth_le
    refine ⟨?_, .inl ?_⟩
    · simp only [Option.map_some, List.length_append, hlength, Nat.le_add_right]
    · simp only [Option.map_some]
      rw [List.drop_left' hlength]
      exact (forall₂_declareInFunction? houter).2

/-- So a declaration in a function holds its names when the blocks in the function are closed. -/
theorem Blocks.holds_apply (h : s.Blocks depth) {d : LocalDeclaration} (hscope : d.scope = .function)
    (hn : n ∈ d.names) : (s.apply d).Holds depth n := by
  obtain ⟨offset, names, scope⟩ := d
  obtain rfl : scope = .function := hscope
  induction names generalizing s with
  | nil => cases hn
  | cons m names ih =>
    rcases List.mem_cons.1 hn with rfl | hn
    · exact (h.holds n).apply ⟨offset, names, .function⟩
    · exact ih (h.declareIn .function m) hn

/-- A block that opens holds the names that wait for it. -/
theorem holds_push (hn : n ∈ s.pending) : s.push.Holds 0 n := by
  obtain ⟨f, hinner, -, hpending, -⟩ := s.inner_push
  refine ⟨Nat.zero_le _, .inl ⟨f, ?_, hpending hn⟩⟩
  rw [hinner]
  exact .head _

/-! ## Names that come from declarations -/

/-- All names of a stack satisfy a predicate. -/
structure Only (P : Text → Prop) (s : ScopeStack) : Prop where
  pending : ∀ n ∈ s.pending, P n
  transient : ∀ t ∈ s.transient, P t.1
  inner : ∀ f ∈ s.inner, ∀ n ∈ f.names, P n
  root : ∀ n ∈ s.root.names, P n

variable {P : Text → Prop}

theorem only_start (P : Text → Prop) : start.Only P := by
  constructor <;> simp [start]

theorem Only.push (h : s.Only P) : s.push.Only P := by
  have htop : ∀ n ∈ s.top.names, P n := by
    unfold top
    cases hinner : s.inner with
    | nil => exact h.root
    | cons f rest => exact h.inner f (hinner ▸ .head _)
  unfold ScopeStack.push
  split
  · exact ⟨h.pending, h.transient, List.forall_mem_cons.2 ⟨htop, h.inner⟩, h.root⟩
  · refine ⟨by simp, h.transient, List.forall_mem_cons.2 ⟨fun n hn => ?_, h.inner⟩, h.root⟩
    exact (List.mem_append.1 hn).elim (h.pending n) (htop n)

theorem Only.pop (h : s.Only P) : s.pop.Only P :=
  ⟨h.pending, h.transient, fun f hf => h.inner f (List.mem_of_mem_tail hf), h.root⟩

theorem forall_of_declareInFunction? {l l' : List Frame} (h : declareInFunction? n l = some l')
    (hn : P n) (hl : ∀ f ∈ l, ∀ m ∈ f.names, P m) : ∀ f ∈ l', ∀ m ∈ f.names, P m := by
  induction l generalizing l' with
  | nil => cases h
  | cons f rest ih =>
    obtain ⟨hf, hrest⟩ := List.forall_mem_cons.1 hl
    unfold declareInFunction? at h
    split at h
    · cases h
      exact List.forall_mem_cons.2 ⟨List.forall_mem_cons.2 ⟨hn, hf⟩, hrest⟩
    · obtain ⟨rest', heq, rfl⟩ := Option.map_eq_some_iff.1 h
      exact List.forall_mem_cons.2 ⟨hf, ih heq hrest⟩

theorem Only.declareIn (h : s.Only P) (scope : BindingScope) (hn : P n) :
    (s.declareIn scope n).Only P := by
  cases scope with
  | block =>
    rw [ScopeStack.declareIn, declare]
    split
    · next f rest hinner =>
      have hframes := h.inner
      rw [hinner, List.forall_mem_cons] at hframes
      exact ⟨h.pending, h.transient,
        List.forall_mem_cons.2 ⟨List.forall_mem_cons.2 ⟨hn, hframes.1⟩, hframes.2⟩, h.root⟩
    · exact ⟨h.pending, h.transient, h.inner, List.forall_mem_cons.2 ⟨hn, h.root⟩⟩
  | function =>
    rw [ScopeStack.declareIn, declareFunctionScoped]
    split
    · next inner hinner =>
      exact ⟨h.pending, h.transient, forall_of_declareInFunction? hinner hn h.inner, h.root⟩
    · exact ⟨h.pending, h.transient, h.inner, List.forall_mem_cons.2 ⟨hn, h.root⟩⟩
  | parameters function =>
    exact ⟨List.forall_mem_cons.2 ⟨hn, h.pending⟩, h.transient, h.inner, h.root⟩
  | expression stop =>
    exact ⟨h.pending, List.forall_mem_cons.2 ⟨hn, h.transient⟩, h.inner, h.root⟩

theorem Only.apply (h : s.Only P) {d : LocalDeclaration} (hd : ∀ n ∈ d.names, P n) :
    (s.apply d).Only P := by
  obtain ⟨offset, names, scope⟩ := d
  induction names generalizing s with
  | nil => exact h
  | cons m names ih =>
    obtain ⟨hm, hnames⟩ := List.forall_mem_cons.1 hd
    exact ih (h.declareIn scope hm) hnames

/-- A name that does not satisfy the predicate is not declared. -/
theorem Only.isDeclared (h : s.Only P) (hn : ¬ P n) (i : Nat) : s.isDeclared n i = false := by
  refine Bool.eq_false_iff.2 fun hdeclared => hn ?_
  simp only [ScopeStack.isDeclared, Bool.or_eq_true, List.any_eq_true, Bool.and_eq_true,
    beq_iff_eq, List.contains_iff_mem, frames, List.mem_append, List.mem_singleton] at hdeclared
  rcases hdeclared with (hpending | ⟨t, ht, rfl, -⟩) | ⟨f, hf | rfl, hmem⟩
  · exact h.pending n hpending
  · exact h.transient t ht
  · exact h.inner f hf n hmem
  · exact h.root n hmem

/-! ## Inside a function -/

/-- Behind `depth` open blocks stands the frame of a function, and behind it the frames `outer`. -/
def Inside (s : ScopeStack) (depth : Nat) (outer : List Frame) : Prop :=
  ∃ blocks f, s.inner = blocks ++ f :: outer ∧ blocks.length = depth ∧ f.function = true

section
variable {outer : List Frame}

theorem declareInFunction?_of_function {f : Frame} (hf : f.function = true) (outer : List Frame)
    (n : Text) (blocks : List Frame) : ∃ blocks' f',
      declareInFunction? n (blocks ++ f :: outer) = some (blocks' ++ f' :: outer) ∧
        blocks'.length = blocks.length ∧ f'.function = true := by
  induction blocks with
  | nil => exact ⟨[], f.declare n, by simp [declareInFunction?, hf], rfl, hf⟩
  | cons g blocks ih =>
    obtain ⟨blocks', f', heq, hlength, hf'⟩ := ih
    rw [List.cons_append, declareInFunction?]
    split
    · exact ⟨g.declare n :: blocks, f, rfl, rfl, hf⟩
    · exact ⟨g :: blocks', f', by rw [heq]; rfl, by simp [hlength], hf'⟩

/-- A declaration in a function changes no frame around it. -/
theorem Inside.declareIn (h : s.Inside depth outer) (scope : BindingScope) (n : Text) :
    (s.declareIn scope n).Inside depth outer ∧ (s.declareIn scope n).root = s.root := by
  obtain ⟨blocks, f, hinner, rfl, hf⟩ := h
  cases scope with
  | block =>
    rw [ScopeStack.declareIn, declare]
    cases blocks with
    | nil =>
      rw [hinner]
      exact ⟨⟨[], f.declare n, rfl, rfl, hf⟩, rfl⟩
    | cons g blocks =>
      rw [hinner]
      exact ⟨⟨g.declare n :: blocks, f, rfl, rfl, hf⟩, rfl⟩
  | function =>
    obtain ⟨blocks', f', heq, hlength, hf'⟩ := declareInFunction?_of_function hf outer n blocks
    rw [ScopeStack.declareIn, declareFunctionScoped, hinner, heq]
    exact ⟨⟨blocks', f', rfl, hlength, hf'⟩, rfl⟩
  | parameters function => exact ⟨⟨blocks, f, hinner, rfl, hf⟩, rfl⟩
  | expression stop => exact ⟨⟨blocks, f, hinner, rfl, hf⟩, rfl⟩

theorem Inside.apply (h : s.Inside depth outer) (d : LocalDeclaration) :
    (s.apply d).Inside depth outer ∧ (s.apply d).root = s.root := by
  unfold ScopeStack.apply
  induction d.names generalizing s with
  | nil => exact ⟨h, rfl⟩
  | cons m names ih =>
    obtain ⟨hinside, hroot⟩ := h.declareIn d.scope m
    obtain ⟨hinside', hroot'⟩ := ih hinside
    exact ⟨hinside', hroot'.trans hroot⟩

theorem Inside.push (h : s.Inside depth outer) :
    s.push.Inside (depth + 1) outer ∧ s.push.root = s.root := by
  obtain ⟨blocks, f, hinner, rfl, hf⟩ := h
  obtain ⟨g, hpush, hroot, -⟩ := s.inner_push
  exact ⟨⟨g :: blocks, f, by rw [hpush, hinner]; rfl, rfl, hf⟩, hroot⟩

theorem Inside.pop (h : s.Inside (depth + 1) outer) : s.pop.Inside depth outer := by
  obtain ⟨blocks, f, hinner, hlength, hf⟩ := h
  cases blocks with
  | nil => cases hlength
  | cons g blocks =>
    refine ⟨blocks, f, ?_, by simpa using hlength, hf⟩
    rw [ScopeStack.pop, hinner]
    rfl

end

end ScopeStack

end PageLang
