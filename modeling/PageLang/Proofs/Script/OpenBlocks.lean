import PageLang.Proofs.Script.Frames

/-!
# Scopes as open blocks

A frame of the stack of scopes holds the names of the frames around it, too, and it is copied from them
when its block opens. What the stack answers is what a plainer account of a body answers
(`OpenBlocks`), where each open block has the names declared in it and nothing is copied: a parameter
is declared in the next block that opens, a variable in the innermost block of a function, and the
names of a block are gone when it closes.

* `OpenBlocks.Covers`: frames that hold what the open blocks around them hold.
* `OpenBlocks.represents_run`: the stack and the open blocks after the same operations.
* `OpenBlocks.Around`: what is left of the blocks around a block, while operations run in it.
* `ScopeStack.isDeclared_run`: the answers agree, and a block leaves no trace of its names.
-/

namespace PageLang

/-! ## Operations on scopes -/

namespace ScopeStack

/-- An operation on the scopes of a body. -/
inductive Operation where
  | push
  | pop
  | declare (name : Text)
  | declareFunctionScoped (name : Text)
  | declarePending (name : Text) (function : Bool)
  | declareUntil (name : Text) (stop : Nat)
  | apply (d : LocalDeclaration)

namespace Operation

/-- The names that an operation declares, each with its scope. -/
def bindings : Operation → List (BindingScope × Text)
  | push | pop => []
  | declare name => [(.block, name)]
  | declareFunctionScoped name => [(.function, name)]
  | declarePending name function => [(.parameters function, name)]
  | declareUntil name stop => [(.expression stop, name)]
  | apply d => d.names.map fun name => (d.scope, name)

/-- The number of blocks that are open behind operations, if `depth` are open in front of them and
none of these is closed that was opened before. -/
def nest? : (depth : Nat) → List Operation → Option Nat
  | depth, [] => some depth
  | depth, push :: ops => nest? (depth + 1) ops
  | 0, pop :: _ => none
  | depth + 1, pop :: ops => nest? depth ops
  | depth, _ :: ops => nest? depth ops

end Operation

/-- One operation. -/
def step (s : ScopeStack) : Operation → ScopeStack
  | .push => s.push
  | .pop => s.pop
  | .declare name => s.declare name
  | .declareFunctionScoped name => s.declareFunctionScoped name
  | .declarePending name function => s.declarePending name function
  | .declareUntil name stop => s.declareUntil name stop
  | .apply d => s.apply d

/-- Operations one after another. -/
def run (s : ScopeStack) (ops : List Operation) : ScopeStack := ops.foldl step s

end ScopeStack

open ScopeStack

/-! ## Open blocks -/

/-- An open block: the names declared in it, and whether it is the body of a function. -/
structure OpenBlock where
  own : List Text
  function : Bool

/-- The block with one more name. -/
def OpenBlock.declare (b : OpenBlock) (name : Text) : OpenBlock := { b with own := name :: b.own }

/-- What is open at a place of a body. -/
structure OpenBlocks where
  /-- The open blocks, the innermost first; the last one is the body itself. -/
  blocks : List OpenBlock
  /-- The parameters of the next block, and whether they are those of a function. -/
  waiting : List (Text × Bool)
  /-- Names of an expression, with the offset it ends at. -/
  transient : List (Text × Nat)

namespace OpenBlocks

def start : OpenBlocks := ⟨[⟨[], true⟩], [], []⟩

/-- A name declared in the innermost block of a function. -/
def declareInFunction (name : Text) : List OpenBlock → List OpenBlock
  | [] => []
  | b :: bs => if b.function then b.declare name :: bs else b :: declareInFunction name bs

/-- The blocks without the innermost one. The body itself stays open. -/
def closed : List OpenBlock → List OpenBlock
  | _ :: b :: bs => b :: bs
  | bs => bs

/-- A name declared in a scope. -/
def declareIn (b : OpenBlocks) (scope : BindingScope) (name : Text) : OpenBlocks :=
  match scope with
  | .block => { b with blocks := b.blocks.modifyHead (·.declare name) }
  | .function => { b with blocks := declareInFunction name b.blocks }
  | .parameters function => { b with waiting := (name, function) :: b.waiting }
  | .expression stop => { b with transient := (name, stop) :: b.transient }

/-- One operation. -/
def step (b : OpenBlocks) (op : Operation) : OpenBlocks :=
  match op with
  | .push =>
    { b with
      blocks := ⟨b.waiting.map Prod.fst, b.waiting.any Prod.snd⟩ :: b.blocks
      waiting := [] }
  | .pop => { b with blocks := closed b.blocks }
  | op => op.bindings.foldl (fun b x => b.declareIn x.1 x.2) b

/-- Operations one after another. -/
def run (b : OpenBlocks) (ops : List Operation) : OpenBlocks := ops.foldl step b

/-- A name that waits for a block, is kept up to an offset behind this one, or is declared in an open
block. -/
def Sees (b : OpenBlocks) (n : Text) (i : Nat) : Prop :=
  (∃ w ∈ b.waiting, w.1 = n) ∨ (∃ t ∈ b.transient, t.1 = n ∧ i < t.2) ∨ ∃ c ∈ b.blocks, n ∈ c.own

variable {b : OpenBlocks} {s : ScopeStack} {frames : List Frame} {blocks outer : List OpenBlock}
  {n m : Text} {depth : Nat}

/-! ## Frames and blocks -/

/-- Frames that hold what blocks hold: a frame has the names of its block, and no others but those of
the blocks around it. -/
inductive Covers : List Frame → List OpenBlock → Prop
  | nil : Covers [] []
  | cons {f : Frame} {b : OpenBlock} {fs : List Frame} {bs : List OpenBlock}
      (function : f.function = b.function) (own : b.own ⊆ f.names)
      (names : ∀ n ∈ f.names, ∃ c ∈ b :: bs, n ∈ c.own) (outer : Covers fs bs) :
      Covers (f :: fs) (b :: bs)

namespace Covers

theorem length_eq (h : Covers frames blocks) : frames.length = blocks.length := by
  induction h with
  | nil => rfl
  | cons _ _ _ _ ih => rw [List.length_cons, List.length_cons, ih]

/-- The names of all frames are those of all blocks. -/
theorem exists_iff (h : Covers frames blocks) :
    (∃ f ∈ frames, n ∈ f.names) ↔ ∃ c ∈ blocks, n ∈ c.own := by
  induction h with
  | nil => simp
  | @cons f b fs bs _ own names _ ih =>
    constructor
    · rintro ⟨g, hg, hn⟩
      rcases List.mem_cons.1 hg with rfl | hg
      · exact names n hn
      · obtain ⟨c, hc, hn⟩ := ih.1 ⟨g, hg, hn⟩
        exact ⟨c, .tail _ hc, hn⟩
    · rintro ⟨c, hc, hn⟩
      rcases List.mem_cons.1 hc with rfl | hc
      · exact ⟨f, .head _, own hn⟩
      · obtain ⟨g, hg, hn⟩ := ih.2 ⟨c, hc, hn⟩
        exact ⟨g, .tail _ hg, hn⟩

/-- A frame and its block with one more name. -/
theorem declare (h : Covers frames blocks) (n : Text) :
    Covers (frames.modifyHead (·.declare n)) (blocks.modifyHead (·.declare n)) := by
  cases h with
  | nil => exact .nil
  | @cons f b fs bs function own names outer =>
    refine .cons function (List.cons_subset_cons n own) (fun m hm => ?_) outer
    rcases List.mem_cons.1 hm with rfl | hm
    · exact ⟨b.declare m, .head _, .head _⟩
    · obtain ⟨c, hc, hm⟩ := names m hm
      rcases List.mem_cons.1 hc with rfl | hc
      · exact ⟨c.declare n, .head _, .tail _ hm⟩
      · exact ⟨c, .tail _ hc, hm⟩

end Covers

/-- A variable takes no name from a block. -/
theorem exists_declareInFunction (h : ∃ c ∈ blocks, m ∈ c.own) (n : Text) :
    ∃ c ∈ declareInFunction n blocks, m ∈ c.own := by
  induction blocks with
  | nil => exact h
  | cons b bs ih =>
    obtain ⟨c, hc, hm⟩ := h
    rw [declareInFunction]
    split
    · rcases List.mem_cons.1 hc with rfl | hc
      · exact ⟨c.declare n, .head _, .tail _ hm⟩
      · exact ⟨c, .tail _ hc, hm⟩
    · rcases List.mem_cons.1 hc with rfl | hc
      · exact ⟨c, .head _, hm⟩
      · obtain ⟨c, hc, hm⟩ := ih ⟨c, hc, hm⟩
        exact ⟨c, .tail _ hc, hm⟩

/-- Both sides declare a variable at the same place. -/
theorem Covers.declareInFunction {fs : List Frame} (h : Covers frames blocks)
    (hdeclare : declareInFunction? n frames = some fs) :
    Covers fs (declareInFunction n blocks) := by
  induction h generalizing fs with
  | nil => cases hdeclare
  | @cons f b gs bs function own names outer ih =>
    rw [declareInFunction?] at hdeclare
    rw [OpenBlocks.declareInFunction]
    split at hdeclare
    · next hfunction =>
      cases hdeclare
      rw [if_pos (function ▸ hfunction)]
      exact (Covers.cons function own names outer).declare n
    · next hfunction =>
      obtain ⟨gs', hgs, rfl⟩ := Option.map_eq_some_iff.1 hdeclare
      rw [if_neg (function ▸ hfunction)]
      refine .cons function own (fun m hm => ?_) (ih hgs)
      obtain ⟨c, hc, hm⟩ := names m hm
      rcases List.mem_cons.1 hc with rfl | hc
      · exact ⟨c, .head _, hm⟩
      · obtain ⟨c, hc, hm⟩ := exists_declareInFunction ⟨c, hc, hm⟩ n
        exact ⟨c, .tail _ hc, hm⟩

/-! ## The frames of a stack -/

theorem frames_declare (s : ScopeStack) (n : Text) :
    (s.declare n).frames = s.frames.modifyHead (·.declare n) := by
  unfold ScopeStack.declare frames
  cases s.inner <;> rfl

theorem declareFunctionScoped_eq (s : ScopeStack) (n : Text) :
    (s.declareFunctionScoped n).pending = s.pending ∧
      (s.declareFunctionScoped n).transient = s.transient ∧
        (s.declareFunctionScoped n).pendingFunction = s.pendingFunction := by
  unfold declareFunctionScoped
  split <;> simp

theorem declareInFunction?_frames (hroot : s.root.function = true) (n : Text) :
    declareInFunction? n s.frames = some (s.declareFunctionScoped n).frames := by
  have hlast (fs : List Frame) : declareInFunction? n (fs ++ [s.root]) =
      some (((declareInFunction? n fs).map (· ++ [s.root])).getD (fs ++ [s.root.declare n])) := by
    induction fs with
    | nil => simp [declareInFunction?, hroot]
    | cons f fs ih =>
      rw [List.cons_append, declareInFunction?, declareInFunction?, ih]
      split
      · rfl
      · cases declareInFunction? n fs <;> rfl
  rw [frames, hlast]
  unfold declareFunctionScoped frames
  cases declareInFunction? n s.inner <;> rfl

/-! ## The stack and the open blocks -/

/-- A stack of scopes that holds what is open. -/
structure Represents (s : ScopeStack) (b : OpenBlocks) : Prop where
  frames : Covers s.frames b.blocks
  pending : s.pending = b.waiting.map Prod.fst
  pendingFunction : s.pendingFunction = b.waiting.any Prod.snd
  transient : s.transient = b.transient
  root : s.root.function = true

theorem represents_start : Represents .start .start where
  frames := .cons rfl (List.Subset.refl _) (fun n hn => by cases hn) .nil
  pending := rfl
  pendingFunction := rfl
  transient := rfl
  root := rfl

namespace Represents

/-- What is visible in the stack, by the blocks that its frames stand for. -/
theorem isDeclared_iff (h : Represents s b) (n : Text) (i : Nat) :
    s.isDeclared n i = true ↔ b.Sees n i := by
  have hframes : s.frames.any (fun f => f.names.contains n) = true ↔ ∃ c ∈ b.blocks, n ∈ c.own := by
    simpa using h.frames.exists_iff
  unfold isDeclared Sees
  rw [Bool.or_eq_true, Bool.or_eq_true, hframes, h.pending, h.transient, or_assoc]
  simp

theorem depth_eq (h : Represents s b) : s.depth = b.blocks.length := by
  rw [← h.frames.length_eq, ScopeStack.frames, List.length_append]
  rfl

theorem declareIn (h : Represents s b) (scope : BindingScope) (n : Text) :
    Represents (s.declareIn scope n) (b.declareIn scope n) := by
  have hroot : (s.declareIn scope n).root.function = true :=
    (s.forall₂_declareIn scope n).2.2.symm.trans h.root
  cases scope with
  | block =>
    obtain ⟨hpending, htransient, hfunction⟩ := s.declare_eq n
    refine ⟨?_, hpending.trans h.pending, hfunction.trans h.pendingFunction,
      htransient.trans h.transient, hroot⟩
    show Covers (s.declare n).frames _
    rw [frames_declare]
    exact h.frames.declare n
  | function =>
    obtain ⟨hpending, htransient, hfunction⟩ := declareFunctionScoped_eq s n
    exact ⟨h.frames.declareInFunction (declareInFunction?_frames h.root n), hpending.trans h.pending,
      hfunction.trans h.pendingFunction, htransient.trans h.transient, hroot⟩
  | parameters function =>
    refine ⟨h.frames, congrArg (n :: ·) h.pending, ?_, h.transient, hroot⟩
    show (s.pendingFunction || function) = (function || b.waiting.any Prod.snd)
    rw [h.pendingFunction, Bool.or_comm]
  | expression stop =>
    exact ⟨h.frames, h.pending, h.pendingFunction, congrArg ((n, stop) :: ·) h.transient, hroot⟩

theorem declareAll (h : Represents s b) (xs : List (BindingScope × Text)) :
    Represents (xs.foldl (fun s x => s.declareIn x.1 x.2) s)
      (xs.foldl (fun b x => b.declareIn x.1 x.2) b) := by
  induction xs generalizing s b with
  | nil => exact h
  | cons x xs ih => exact ih (h.declareIn x.1 x.2)

/-- A block opens with the names that wait for it and the names of the block around it. -/
theorem push (h : Represents s b) : Represents s.push (b.step .push) := by
  have htop : ∀ n ∈ s.top.names, ∃ c ∈ b.blocks, n ∈ c.own := by
    intro n hn
    refine h.frames.exists_iff.1 ⟨s.top, ?_, hn⟩
    unfold top ScopeStack.frames
    cases s.inner with
    | nil => exact .head _
    | cons f rest => exact .head _
  have hnames : ∀ n ∈ s.pending ++ s.top.names, ∃ c ∈ ⟨b.waiting.map Prod.fst,
      b.waiting.any Prod.snd⟩ :: b.blocks, n ∈ c.own := by
    intro n hn
    rcases List.mem_append.1 hn with hn | hn
    · exact ⟨_, .head _, h.pending ▸ hn⟩
    · obtain ⟨c, hc, hn⟩ := htop n hn
      exact ⟨c, .tail _ hc, hn⟩
  unfold ScopeStack.push
  split
  · next hpending =>
    have hwaiting : b.waiting = [] := by
      rw [List.isEmpty_iff, h.pending] at hpending
      exact List.map_eq_nil_iff.1 hpending
    refine ⟨.cons ?_ ?_ (fun n hn => hnames n (List.mem_append_right _ hn)) h.frames, ?_, ?_, h.transient,
      h.root⟩
    · simp [hwaiting]
    · simp [hwaiting]
    · rwa [List.isEmpty_iff] at hpending
    · simpa [hwaiting, OpenBlocks.step] using h.pendingFunction
  · exact ⟨.cons h.pendingFunction (h.pending ▸ List.subset_append_left _ _) hnames h.frames, rfl, rfl,
      h.transient, h.root⟩

theorem pop (h : Represents s b) : Represents s.pop (b.step .pop) := by
  refine ⟨?_, h.pending, h.pendingFunction, h.transient, h.root⟩
  have hframes := h.frames
  show Covers (s.inner.tail ++ [s.root]) (closed b.blocks)
  unfold ScopeStack.frames at hframes
  generalize b.blocks = blocks at hframes
  cases hinner : s.inner with
  | nil =>
    rw [hinner] at hframes
    cases hframes with
    | cons function own names outer =>
      cases outer
      exact .cons function own names .nil
  | cons f rest =>
    rw [hinner] at hframes
    cases hframes with
    | cons _ _ _ outer =>
      change Covers (rest ++ [s.root]) _ at outer
      cases rest with
      | nil =>
        cases outer with
        | cons function own names outer => exact .cons function own names outer
      | cons g rest =>
        cases outer with
        | cons function own names outer => exact .cons function own names outer

/-- One operation. -/
theorem step (h : Represents s b) (op : Operation) : Represents (s.step op) (b.step op) := by
  cases op with
  | push => exact h.push
  | pop => exact h.pop
  | declare n => exact h.declareIn .block n
  | declareFunctionScoped n => exact h.declareIn .function n
  | declarePending n function => exact h.declareIn (.parameters function) n
  | declareUntil n stop => exact h.declareIn (.expression stop) n
  | apply d =>
    have := h.declareAll (Operation.apply d).bindings
    rw [Operation.bindings, List.foldl_map] at this
    exact this

end Represents

/-- The stack of scopes and the open blocks, after the same operations. -/
theorem represents_run (ops : List Operation) : Represents (ScopeStack.start.run ops) (start.run ops) := by
  suffices ∀ {s : ScopeStack} {b : OpenBlocks}, Represents s b →
      Represents (s.run ops) (b.run ops) from this represents_start
  induction ops with
  | nil => exact id
  | cons op ops ih => exact fun h => ih (h.step op)

/-! ## Operations in a block -/

/-- A name that an operation in a block does not hand out of it: it is declared in blocks only, or as a
variable where the block is that of a function. -/
def Stays (function : Bool) (n : Text) (op : Operation) : Prop :=
  ∀ x ∈ op.bindings, x.2 = n → x.1 = .block ∨ x.1 = .function ∧ function = true

/-- What is open while operations run in a block, with `depth` blocks open inside of it. Of the names
that stay in the block, nothing is found around it but what was there before. -/
structure Around (function : Bool) (P : Text → Prop) (before : OpenBlocks) (depth : Nat)
    (b : OpenBlocks) : Prop where
  blocks : ∃ inner block outer, b.blocks = inner ++ block :: outer ∧ inner.length = depth ∧
    (function = true → block.function = true) ∧ outer.length = before.blocks.length ∧
      ∀ n, P n → ((∃ c ∈ outer, n ∈ c.own) ↔ ∃ c ∈ before.blocks, n ∈ c.own)
  waiting : ∀ w ∈ b.waiting, ¬ P w.1
  transient : ∀ n, P n → ∀ i,
    ((∃ t ∈ b.transient, t.1 = n ∧ i < t.2) ↔ ∃ t ∈ before.transient, t.1 = n ∧ i < t.2)

theorem around_push (before : OpenBlocks) (P : Text → Prop) :
    Around (before.waiting.any Prod.snd) P before 0 (before.step .push) where
  blocks := ⟨[], _, _, rfl, rfl, id, rfl, fun _ _ => .rfl⟩
  waiting := fun w hw => by cases hw
  transient := fun _ _ _ => .rfl

/-- A variable is declared in the block if it is that of a function, or in a block inside of it; else
perhaps in one of the blocks around. -/
theorem declareInFunction_append (n : Text) (inner outer : List OpenBlock) (block : OpenBlock) :
    ∃ inner' block' outer', declareInFunction n (inner ++ block :: outer) = inner' ++ block' :: outer' ∧
      inner'.length = inner.length ∧ block'.function = block.function ∧
        (outer' = outer ∨ block.function = false ∧ outer' = declareInFunction n outer) := by
  induction inner with
  | nil =>
    rw [List.nil_append, declareInFunction]
    split
    · exact ⟨[], _, _, rfl, rfl, rfl, .inl rfl⟩
    · next hfunction => exact ⟨[], _, _, rfl, rfl, rfl, .inr ⟨by simpa using hfunction, rfl⟩⟩
  | cons c inner ih =>
    rw [List.cons_append, declareInFunction]
    split
    · exact ⟨c.declare n :: inner, _, _, rfl, rfl, rfl, .inl rfl⟩
    · obtain ⟨inner', block', outer', heq, hlength, hrest⟩ := ih
      exact ⟨c :: inner', block', outer', by rw [heq]; rfl, congrArg (· + 1) hlength, hrest⟩

theorem length_declareInFunction (n : Text) (blocks : List OpenBlock) :
    (declareInFunction n blocks).length = blocks.length := by
  induction blocks with
  | nil => rfl
  | cons b bs ih =>
    rw [declareInFunction]
    split
    · rfl
    · rw [List.length_cons, List.length_cons, ih]

/-- A variable adds no other name. -/
theorem exists_of_declareInFunction (hne : n ≠ m) (h : ∃ c ∈ declareInFunction n blocks, m ∈ c.own) :
    ∃ c ∈ blocks, m ∈ c.own := by
  induction blocks with
  | nil => exact h
  | cons b bs ih =>
    obtain ⟨c, hc, hm⟩ := h
    rw [declareInFunction] at hc
    split at hc
    · rcases List.mem_cons.1 hc with rfl | hc
      · exact ⟨b, .head _, (List.mem_cons.1 hm).resolve_left hne.symm⟩
      · exact ⟨c, .tail _ hc, hm⟩
    · rcases List.mem_cons.1 hc with rfl | hc
      · exact ⟨c, .head _, hm⟩
      · obtain ⟨c, hc, hm⟩ := ih ⟨c, hc, hm⟩
        exact ⟨c, .tail _ hc, hm⟩

namespace Around

variable {before : OpenBlocks} {function : Bool} {P : Text → Prop}

theorem declareIn (h : Around function P before depth b) {scope : BindingScope}
    (hstays : P m → scope = .block ∨ scope = .function ∧ function = true) :
    Around function P before depth (b.declareIn scope m) := by
  obtain ⟨⟨inner, block, outer, heq, hdepth, hfunction, hlength, hnames⟩, hwaiting, htransient⟩ := h
  cases scope with
  | block =>
    refine ⟨?_, hwaiting, htransient⟩
    show ∃ _ _ _, b.blocks.modifyHead (·.declare m) = _ ∧ _
    rw [heq]
    cases inner with
    | nil => exact ⟨[], _, outer, rfl, hdepth, hfunction, hlength, hnames⟩
    | cons c inner => exact ⟨c.declare m :: inner, block, outer, rfl, hdepth, hfunction, hlength, hnames⟩
  | function =>
    refine ⟨?_, hwaiting, htransient⟩
    obtain ⟨inner', block', outer', hdeclare, hinner, hblock, houter⟩ :=
      declareInFunction_append m inner outer block
    refine ⟨inner', block', outer', (congrArg (declareInFunction m) heq).trans hdeclare,
      hinner.trans hdepth, fun hf => hblock.trans (hfunction hf), ?_⟩
    rcases houter with rfl | ⟨hplain, rfl⟩
    · exact ⟨hlength, hnames⟩
    · have hm : ¬ P m := by
        intro hm
        rcases hstays hm with hscope | ⟨-, hf⟩
        · cases hscope
        · rw [hfunction hf] at hplain
          cases hplain
      refine ⟨(length_declareInFunction m outer).trans hlength, fun n hn => ?_⟩
      have hne : m ≠ n := fun heq => hm (heq ▸ hn)
      rw [← hnames n hn]
      exact ⟨exists_of_declareInFunction hne, (exists_declareInFunction · m)⟩
  | parameters ofFunction =>
    refine ⟨⟨inner, block, outer, heq, hdepth, hfunction, hlength, hnames⟩, ?_, htransient⟩
    refine List.forall_mem_cons.2 ⟨fun hm => ?_, hwaiting⟩
    rcases hstays hm with hscope | ⟨hscope, -⟩ <;> cases hscope
  | expression stop =>
    refine ⟨⟨inner, block, outer, heq, hdepth, hfunction, hlength, hnames⟩, hwaiting, fun n hn i => ?_⟩
    have hne : m ≠ n := by
      rintro rfl
      rcases hstays hn with hscope | ⟨hscope, -⟩ <;> cases hscope
    rw [← htransient n hn i]
    simp [OpenBlocks.declareIn, hne]

theorem declareAll (h : Around function P before depth b) {xs : List (BindingScope × Text)}
    (hstays : ∀ x ∈ xs, P x.2 → x.1 = .block ∨ x.1 = .function ∧ function = true) :
    Around function P before depth (xs.foldl (fun b x => b.declareIn x.1 x.2) b) := by
  induction xs generalizing b with
  | nil => exact h
  | cons x xs ih =>
    exact ih (h.declareIn (hstays x (.head _))) fun y hy => hstays y (.tail _ hy)

theorem push (h : Around function P before depth b) :
    Around function P before (depth + 1) (b.step .push) := by
  obtain ⟨⟨inner, block, outer, heq, hdepth, hrest⟩, -, htransient⟩ := h
  refine ⟨⟨⟨b.waiting.map Prod.fst, b.waiting.any Prod.snd⟩ :: inner, block, outer, ?_,
    congrArg (· + 1) hdepth, hrest⟩, fun w hw => (by cases hw), htransient⟩
  show _ :: b.blocks = _
  rw [heq]
  rfl

theorem pop (h : Around function P before (depth + 1) b) :
    Around function P before depth (b.step .pop) := by
  obtain ⟨⟨inner, block, outer, heq, hdepth, hrest⟩, hwaiting, htransient⟩ := h
  obtain ⟨c, inner, rfl⟩ := List.exists_cons_of_length_eq_add_one hdepth
  refine ⟨⟨inner, block, outer, ?_, Nat.succ.inj hdepth, hrest⟩, hwaiting, htransient⟩
  show closed b.blocks = _
  rw [heq]
  cases inner <;> rfl

/-- Operations that open and close blocks inside the block only. -/
theorem run {ops : List Operation} {depth' : Nat} (h : Around function P before depth b)
    (hnest : Operation.nest? depth ops = some depth')
    (hstays : ∀ op ∈ ops, ∀ n, P n → Stays function n op) :
    Around function P before depth' (b.run ops) := by
  induction ops generalizing b depth with
  | nil =>
    cases hnest
    exact h
  | cons op ops ih =>
    obtain ⟨hop, hops⟩ := List.forall_mem_cons.1 hstays
    have hdeclares := h.declareAll fun x hx hn => hop x.2 hn x hx rfl
    cases op with
    | push => exact ih h.push hnest hops
    | pop =>
      cases depth with
      | zero => cases hnest
      | succ depth => exact ih h.pop hnest hops
    | declare m => exact ih hdeclares (by cases depth <;> exact hnest) hops
    | declareFunctionScoped m => exact ih hdeclares (by cases depth <;> exact hnest) hops
    | declarePending m f => exact ih hdeclares (by cases depth <;> exact hnest) hops
    | declareUntil m stop => exact ih hdeclares (by cases depth <;> exact hnest) hops
    | apply d => exact ih hdeclares (by cases depth <;> exact hnest) hops

/-- When the block closes, the blocks around it are as they were before. -/
theorem close (h : Around function P before 0 b) (hbefore : before.blocks ≠ []) :
    (b.step .pop).blocks.length = before.blocks.length ∧
      ∀ n, P n → ∀ i, ((b.step .pop).Sees n i ↔ Sees { before with waiting := [] } n i) := by
  obtain ⟨⟨inner, block, outer, heq, hdepth, -, hlength, hnames⟩, hwaiting, htransient⟩ := h
  obtain rfl := List.length_eq_zero_iff.1 hdepth
  have hclosed : closed b.blocks = outer := by
    rw [heq]
    cases outer with
    | nil => exact absurd (List.length_eq_zero_iff.1 hlength.symm) hbefore
    | cons c outer => rfl
  refine ⟨(congrArg List.length hclosed).trans hlength, fun n hn i => ?_⟩
  have hnone : ¬ ∃ w ∈ b.waiting, w.1 = n := fun ⟨w, hw, heq⟩ => hwaiting w hw (heq ▸ hn)
  show (∃ w ∈ b.waiting, w.1 = n) ∨ (∃ t ∈ b.transient, t.1 = n ∧ i < t.2) ∨
    (∃ c ∈ closed b.blocks, n ∈ c.own) ↔ (∃ w ∈ ([] : List (Text × Bool)), w.1 = n) ∨ _
  rw [hclosed, htransient n hn i, hnames n hn]
  simp [hnone]

end Around

end OpenBlocks

/-! ## The answers of the stack -/

namespace ScopeStack

open OpenBlocks

/-- After any operations the stack has the depth of the open blocks and shows the names that they show.
Behind a block the depth is that in front of it, and a name that stays in the block is visible exactly if
it was visible in front of it, apart from the parameters that were to be declared in the block. -/
theorem isDeclared_run (ops : List Operation) :
    (start.run ops).depth = (OpenBlocks.start.run ops).blocks.length ∧
    (∀ n i, (start.run ops).isDeclared n i = true ↔ (OpenBlocks.start.run ops).Sees n i) ∧
    ∀ before inside, ops = before ++ .push :: (inside ++ [.pop]) → Operation.nest? 0 inside = some 0 →
      (start.run ops).depth = (start.run before).depth ∧
      ∀ n, (∀ op ∈ inside, Stays (start.run before).pendingFunction n op) → ∀ i,
        (start.run ops).isDeclared n i = { start.run before with pending := [] }.isDeclared n i := by
  have hops := represents_run ops
  refine ⟨hops.depth_eq, hops.isDeclared_iff, ?_⟩
  rintro before inside rfl hnest
  have hbefore := represents_run before
  have hne : (OpenBlocks.start.run before).blocks ≠ [] := by
    intro hnil
    have := hbefore.depth_eq
    rw [hnil, depth] at this
    cases this
  have hrun : OpenBlocks.start.run (before ++ .push :: (inside ++ [.pop])) =
      (((OpenBlocks.start.run before).step .push).run inside).step .pop := by
    simp [OpenBlocks.run]
  have haround := around_push (OpenBlocks.start.run before)
    fun n => ∀ op ∈ inside, Stays (start.run before).pendingFunction n op
  rw [← hbefore.pendingFunction] at haround
  obtain ⟨hlength, hsees⟩ := (haround.run hnest fun op hop n hn => hn op hop).close hne
  refine ⟨?_, fun n hn i => ?_⟩
  · rw [hops.depth_eq, hbefore.depth_eq, hrun, hlength]
  · have hleft : Represents { start.run before with pending := [], pendingFunction := false }
        { OpenBlocks.start.run before with waiting := [] } :=
      ⟨hbefore.frames, rfl, rfl, hbefore.transient, hbefore.root⟩
    rw [Bool.eq_iff_iff, hops.isDeclared_iff, hrun, hsees n hn i, ← hleft.isDeclared_iff]
    rfl

/-- In front of the body of a function, with a parameter that waits for it. -/
def sampleBefore : List Operation := [.declare "a", .declarePending "p" true]

/-- A variable in a block of the function. -/
def sampleInside : List Operation := [.declare "b", .push, .declareFunctionScoped "v", .pop]

/-- Behind the function neither its parameter nor its variable is visible. -/
theorem isDeclared_run_sampleFunction :
    Operation.nest? 0 sampleInside = some 0 ∧
    (∀ n ∈ [Text.ofString "a", "p", "b", "v"], ∀ op ∈ sampleInside,
      Stays (start.run sampleBefore).pendingFunction n op) ∧
    (start.run (sampleBefore ++ .push :: (sampleInside ++ [.pop]))).depth = 1 ∧
    ∀ n ∈ [Text.ofString "a", "p", "b", "v"],
      (start.run (sampleBefore ++ .push :: (sampleInside ++ [.pop]))).isDeclared n 0 =
        (n == Text.ofString "a") := by
  have hstays (n : Text) : ∀ op ∈ sampleInside, Stays (start.run sampleBefore).pendingFunction n op := by
    intro op hop x hx _
    simp only [sampleInside, List.mem_cons, List.not_mem_nil, or_false] at hop
    rcases hop with rfl | rfl | rfl | rfl
    · exact .inl (congrArg Prod.fst (List.mem_singleton.1 hx))
    · cases hx
    · exact .inr ⟨congrArg Prod.fst (List.mem_singleton.1 hx), by decide⟩
    · cases hx
  obtain ⟨-, -, hblock⟩ := isDeclared_run (sampleBefore ++ .push :: (sampleInside ++ [.pop]))
  obtain ⟨hdepth, hdeclared⟩ := hblock _ _ rfl (by decide)
  refine ⟨by decide, fun n _ => hstays n, hdepth, fun n hn => ?_⟩
  rw [hdeclared n (hstays n) 0]
  revert n
  decide

end ScopeStack

end PageLang
