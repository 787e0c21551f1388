import PageLang.Inheritance.Ancestry
import PageLang.Script.Qualify

/-!
# Resolved classes

Resolving merges a class with all its ancestors. A name belongs to the first of them that declares
it: the class itself, then its first parent and the ancestors of that, then the other parents in
order. Private members are never inherited. An element resolves like a class without a name of its
own, with its class references as parents.

* `ClassTable.resolve`, `ClassTable.resolveElement`: the merged class, or the first parent at fault.
* `ResolvedClass.resolvableNames`: what the names in a body may mean.
-/

namespace PageLang

/-- Something that an instance has under a name. -/
inductive Member where
  | var (value : Value)
  | method (behavior : Behavior)
  | child (element : Element)

/-- A class merged with its ancestors. -/
structure ResolvedClass where
  name : Text
  style : OrderedMap Scalar
  attributes : OrderedMap Scalar
  getters : OrderedMap Behavior
  setters : OrderedMap Behavior
  eventHandlers : OrderedMap Behavior
  states : OrderedMap Text
  pub : OrderedMap Member
  /-- Protected members, and the named children of the class and its ancestors. -/
  prot : OrderedMap Member
  /-- Private members of the class itself. -/
  priv : OrderedMap Member
  graphicalAncestors : List Text

namespace Members

/-- The variables and methods of an access, the variables first. -/
def reachable (m : Members) (access : Access) : List (Text × Member) :=
  (m.vars.get access).entries.map (fun e => (e.1, .var e.2)) ++
    (m.methods.get access).entries.map (fun e => (e.1, .method e.2))

end Members

/-- The named elements of a list under their names. -/
def namedChildren (children : List Element) : List (Text × Member) :=
  children.filterMap (fun c => c.name.map (fun name => (name, .child c)))

namespace ResolvedClass

/-- The class with a name, its private members and its graphical ancestors, before anything else is
merged in. -/
def start (name : Text) (own : Members) (graphicalAncestors : List Text) : ResolvedClass :=
  ⟨name, ∅, ∅, ∅, ∅, ∅, ∅, ∅, ∅, OrderedMap.empty.fill (own.reachable .priv), graphicalAncestors⟩

/-- Merges members and children in, as far as their names are new. -/
def absorb (r : ResolvedClass) (m : Members) (children : List Element) : ResolvedClass :=
  { r with
    style := r.style.fill m.style.entries
    attributes := r.attributes.fill m.attributes.entries
    getters := r.getters.fill m.getters.entries
    setters := r.setters.fill m.setters.entries
    eventHandlers := r.eventHandlers.fill m.eventHandlers.entries
    states := r.states.fill m.states.entries
    pub := r.pub.fill (m.reachable .pub)
    prot := r.prot.fill (m.reachable .prot ++ namedChildren children) }

/-- Whether an instance has a node of its own. -/
def isGraphical (r : ResolvedClass) : Bool := !r.graphicalAncestors.isEmpty

/-- The names that every instance answers to without a declaration. -/
def builtins : List Text := ["text", "value", "children", "html", "trigger"]

/-- The names that stand for something public, before others hide them. -/
def openNames (r : ResolvedClass) : List Text :=
  r.style.keys ++ r.attributes.keys.map (Byte.dollar :: ·) ++ r.getters.keys ++ r.setters.keys ++
    r.eventHandlers.keys.map (Byte.atSign :: ·) ++
    r.pub.keys.filter (fun k => k != Text.ofString "constructor") ++ builtins

/-- The names that references in the bodies of the class may mean. Protected and private members
hide public ones of the same name, and private ones hide protected ones. -/
def resolvableNames (r : ResolvedClass) : ResolvableNames :=
  { pub := r.openNames.filter (fun k => !r.prot.contains k && !r.priv.contains k)
    prot := r.prot.keys.filter (fun k => !r.priv.contains k) }

end ResolvedClass

namespace ClassTable

/-- Members and children merged with the ancestors that the parents of an heir have. -/
def merge (table : ClassTable) (heir : Heir) (parents : List Text) (own : Members)
    (children : List Element) : Except Diagnostic ResolvedClass :=
  (table.ancestry [heir.name] heir parents).map fun ancestors =>
    (Ancestor.allClasses ancestors).foldl (fun r d => r.absorb d.members d.children)
      ((ResolvedClass.start heir.name own (Ancestor.graphical ancestors)).absorb own children)

/-- The class of a name, merged with its ancestors. -/
def resolve (table : ClassTable) (name : Text) : Except Diagnostic ResolvedClass :=
  match table.get? name with
  | none => .error (.ofProblem (.unknownClass name) [] 0 0)
  | some d => table.merge ⟨d.name, d.span, d.sourceFile⟩ d.parents d.members d.children

/-- An element of a file, merged with the ancestors that its class references have. -/
def resolveElement (table : ClassTable) (file : Text) (e : Element) :
    Except Diagnostic ResolvedClass :=
  table.merge ⟨e.name.getD [], e.span, file⟩ e.classRefs e.overrides e.children

/-- The graphical ancestors of a class. -/
def graphicalAncestors (table : ClassTable) (name : Text) : Except Diagnostic (List Text) :=
  (table.resolve name).map (·.graphicalAncestors)

end ClassTable

end PageLang
