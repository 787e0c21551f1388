import PageLang.Script.Locals

/-!
# Scopes of a body

While a body is read, a stack of frames keeps the names that its blocks declare. A new frame starts
with the names of the frame around it. Parameters wait until the next block opens, and names of a
single expression are kept with the offset they reach up to.

* `ScopeStack.isDeclared`: whether a name is taken by a local declaration at an offset.
-/

namespace PageLang

/-- The names visible in an open block, and whether it is the body of a function. -/
structure Frame where
  names : List Text
  function : Bool
  deriving DecidableEq

/-- The open blocks of a body, the innermost first, inside the body itself. -/
structure ScopeStack where
  inner : List Frame
  root : Frame
  /-- Parameters of the next block. -/
  pending : List Text
  /-- Whether the next block with parameters is the body of a function. -/
  pendingFunction : Bool
  /-- Names of an expression, with the offset it ends at. -/
  transient : List (Text × Nat)
  deriving DecidableEq

namespace Frame

/-- The frame with one more name. -/
def declare (f : Frame) (name : Text) : Frame := { f with names := name :: f.names }

end Frame

namespace ScopeStack

/-- The scopes at the start of a body. -/
def start : ScopeStack := ⟨[], ⟨[], true⟩, [], false, []⟩

/-- All frames, the innermost first. -/
def frames (s : ScopeStack) : List Frame := s.inner ++ [s.root]

/-- The number of open blocks, the body included. -/
def depth (s : ScopeStack) : Nat := s.inner.length + 1

/-- The innermost frame. -/
def top (s : ScopeStack) : Frame := s.inner.headD s.root

/-- A block opens. Parameters that wait are declared in it. -/
def push (s : ScopeStack) : ScopeStack :=
  if s.pending.isEmpty then { s with inner := ⟨s.top.names, false⟩ :: s.inner }
  else
    { s with
      inner := ⟨s.pending ++ s.top.names, s.pendingFunction⟩ :: s.inner
      pending := []
      pendingFunction := false }

/-- A block closes. The body itself stays open. -/
def pop (s : ScopeStack) : ScopeStack := { s with inner := s.inner.tail }

/-- A name declared in the innermost block. -/
def declare (s : ScopeStack) (name : Text) : ScopeStack :=
  match s.inner with
  | f :: rest => { s with inner := f.declare name :: rest }
  | [] => { s with root := s.root.declare name }

/-- Declares a name in the first frame of a function, or says that there is none. -/
def declareInFunction? (name : Text) : List Frame → Option (List Frame)
  | [] => none
  | f :: rest =>
    if f.function then some (f.declare name :: rest)
    else (declareInFunction? name rest).map (f :: ·)

/-- A name declared in the innermost function. The body itself is one. -/
def declareFunctionScoped (s : ScopeStack) (name : Text) : ScopeStack :=
  match declareInFunction? name s.inner with
  | some inner => { s with inner }
  | none => { s with root := s.root.declare name }

/-- A name declared in the next block. -/
def declarePending (s : ScopeStack) (name : Text) (function : Bool) : ScopeStack :=
  { s with pending := name :: s.pending, pendingFunction := s.pendingFunction || function }

/-- A name declared up to an offset. -/
def declareUntil (s : ScopeStack) (name : Text) (stop : Nat) : ScopeStack :=
  { s with transient := (name, stop) :: s.transient }

/-- A name declared in a scope. -/
def declareIn (s : ScopeStack) (scope : BindingScope) (name : Text) : ScopeStack :=
  match scope with
  | .block => s.declare name
  | .function => s.declareFunctionScoped name
  | .parameters function => s.declarePending name function
  | .expression stop => s.declareUntil name stop

/-- All names of a local declaration, declared in its scope. -/
def apply (s : ScopeStack) (d : LocalDeclaration) : ScopeStack :=
  d.names.foldl (fun s name => s.declareIn d.scope name) s

/-- Whether a local declaration of `name` is visible at an offset. -/
def isDeclared (s : ScopeStack) (name : Text) (offset : Nat) : Bool :=
  s.pending.contains name || s.transient.any (fun t => t.1 == name && offset < t.2) ||
    s.frames.any (fun f => f.names.contains name)

end ScopeStack

end PageLang
