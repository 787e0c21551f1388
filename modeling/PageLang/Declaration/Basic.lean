import PageLang.Diagnostic.Basic
import PageLang.OrderedMap

/-!
# Declarations and members

A declaration gives a name a content: a variable, a method, an attribute and so on, each with the
one kind of value it takes. Declarations are filed into members, which hold an ordered map for
each kind of content, and for each access where the kind has accesses.
-/

namespace PageLang

/-- Who may reach a variable or a method. -/
inductive Access where
  /-- Everyone. -/
  | pub
  /-- The class and its heirs. -/
  | prot
  /-- The class alone. -/
  | priv
  deriving DecidableEq, Repr

/-- A value without structure. All but booleans are kept as written. -/
inductive Scalar where
  | string (text : Text)
  | number (text : Text)
  | boolean (value : Bool)
  /-- An array or a regular expression. -/
  | literal (text : Text)
  deriving DecidableEq

/-- A function: its parameters as written, its body with the braces, and where the body stands. -/
structure Behavior where
  parameters : List Text
  body : Text
  bodySpan : Span
  deriving DecidableEq

/-- The value of a variable. -/
inductive Value where
  | scalar (value : Scalar)
  /-- A block with its braces, as written. -/
  | object (block : Text)
  deriving DecidableEq

/-- What a declaration declares. -/
inductive Content where
  | var (access : Access) (value : Value)
  | method (access : Access) (behavior : Behavior)
  | getter (behavior : Behavior)
  | setter (behavior : Behavior)
  | eventHandler (behavior : Behavior)
  | attr (value : Scalar)
  | style (value : Scalar)
  | state (block : Text)
  deriving DecidableEq

/-- Whether the name of such a content shares one namespace with the named children of a class. -/
def Content.sharesNamespace : Content → Bool
  | .var .. | .method .. | .style .. => true
  | _ => false

/-- A named content and the span it was read from. -/
structure Declaration where
  name : Text
  content : Content
  span : Span
  deriving DecidableEq

/-- One map for each access. -/
structure ByAccess (β : Type) where
  pub : OrderedMap β
  prot : OrderedMap β
  priv : OrderedMap β
  deriving DecidableEq

namespace ByAccess

variable {β : Type}

instance : EmptyCollection (ByAccess β) := ⟨⟨∅, ∅, ∅⟩⟩

/-- The map of an access. -/
def get (m : ByAccess β) : Access → OrderedMap β
  | .pub => m.pub
  | .prot => m.prot
  | .priv => m.priv

/-- The maps with `value` under `key` in the map of an access. -/
def insert (m : ByAccess β) (access : Access) (key : Text) (value : β) : ByAccess β :=
  match access with
  | .pub => { m with pub := m.pub.insert key value }
  | .prot => { m with prot := m.prot.insert key value }
  | .priv => { m with priv := m.priv.insert key value }

/-- The entries of all three maps, the public ones first and the private ones last. -/
def entries (m : ByAccess β) : List (Text × β) := m.pub.entries ++ m.prot.entries ++ m.priv.entries

end ByAccess

/-- The role of a function body. -/
inductive BodyKind where
  | method
  | constructor
  | getter
  | setter
  | eventHandler
  deriving DecidableEq, Repr

/-- The contents of a class body, or of the block of an element. -/
structure Members where
  vars : ByAccess Value
  methods : ByAccess Behavior
  style : OrderedMap Scalar
  attributes : OrderedMap Scalar
  getters : OrderedMap Behavior
  setters : OrderedMap Behavior
  eventHandlers : OrderedMap Behavior
  states : OrderedMap Text
  deriving DecidableEq

namespace Members

instance : EmptyCollection Members := ⟨⟨∅, ∅, ∅, ∅, ∅, ∅, ∅, ∅⟩⟩

/-- The members with one more declaration. -/
def insert (m : Members) (d : Declaration) : Members :=
  match d.content with
  | .var access value => { m with vars := m.vars.insert access d.name value }
  | .method access f => { m with methods := m.methods.insert access d.name f }
  | .getter f => { m with getters := m.getters.insert d.name f }
  | .setter f => { m with setters := m.setters.insert d.name f }
  | .eventHandler f => { m with eventHandlers := m.eventHandlers.insert d.name f }
  | .attr value => { m with attributes := m.attributes.insert d.name value }
  | .style value => { m with style := m.style.insert d.name value }
  | .state block => { m with states := m.states.insert d.name block }

/-- The members of a list of declarations. -/
def ofDeclarations (ds : List Declaration) : Members := ds.foldl insert ∅

/-- Every function with its role and name: methods, getters, setters, event handlers. -/
def bodies (m : Members) : List (BodyKind × Text × Behavior) :=
  m.methods.entries.map
      (fun e => (if e.1 = Text.ofString "constructor" then .constructor else .method, e)) ++
    m.getters.entries.map (fun e => (.getter, e)) ++
    m.setters.entries.map (fun e => (.setter, e)) ++
    m.eventHandlers.entries.map (fun e => (.eventHandler, e))

end Members

end PageLang
