import PageLang.Element.Basic
import PageLang.Vocabulary.Tag

/-!
# Ancestry

The ancestry of a class or an element is the tree of all its parents, in declared order. A parent is
a class of the table or, where no class has the name, a raw tag. There is no ancestry if a parent is
neither, or if a class is met again on the way to its own ancestors.

* `ClassTable.ancestry`: the trees of a list of parents.
* `Ancestor.graphical`: the ancestors that give an instance a node of its own, which are the raw
  tags and the classes with such ancestors. Whether a class is one is known only when its own
  ancestors are, so it goes into the slot that was the next one in front of them.
-/

namespace PageLang

/-- A parent with its own parents. -/
inductive Ancestor where
  | tag (name : Text)
  | cls (name : Text) (definition : ClassDefinition) (parents : List Ancestor)

/-- Who asks for parents: its name, where it stands and in which file. -/
structure Heir where
  name : Text
  span : Span
  file : Text

namespace Ancestor

/-- Puts a name into a slot, unless it is marked already. -/
def mark (marked : List Text) (slot : Nat) (name : Text) : List Text :=
  if name ∈ marked then marked else marked.insertIdx slot name

mutual

/-- Marks the graphical ones of an ancestor and its own ancestors. Also says whether the ancestor is
one of them. -/
def markGraphical (marked : List Text) : Ancestor → List Text × Bool
  | .tag name => (mark marked marked.length name, true)
  | .cls name _ parents =>
    let (above, graphical) := markAllGraphical marked parents
    (if graphical then mark above marked.length name else above, graphical)

/-- Marks the graphical ones of some ancestors, one after the other. Also says whether one of them
is graphical. -/
def markAllGraphical (marked : List Text) : List Ancestor → List Text × Bool
  | [] => (marked, false)
  | a :: rest =>
    let (first, graphical) := a.markGraphical marked
    let (others, graphicalRest) := markAllGraphical first rest
    (others, graphical || graphicalRest)

end

mutual

/-- The classes of a tree, each before its own ancestors. -/
def classes : Ancestor → List ClassDefinition
  | .tag _ => []
  | .cls _ d parents => d :: allClasses parents

/-- The classes of all trees. -/
def allClasses : List Ancestor → List ClassDefinition
  | [] => []
  | a :: rest => a.classes ++ allClasses rest

end

/-- The graphical ancestors, each once. -/
def graphical (ancestors : List Ancestor) : List Text := (markAllGraphical [] ancestors).1

end Ancestor

namespace ClassTable

/-- The diagnostic of a parent that is neither a class nor a tag. -/
def unknownClass (name : Text) (heir : Heir) : Diagnostic :=
  Fault.unlocated ⟨.unknownClass name, heir.span⟩ heir.file

/-- The trees of the parents of an heir. The classes on the way to the heir are its `path`. -/
def ancestry (table : ClassTable) (path : List Text) (heir : Heir) :
    (parents : List Text) → Except Diagnostic (List Ancestor)
  | [] => .ok []
  | parent :: rest =>
    match _hget : table.get? parent with
    | none =>
      if Vocabulary.isTag parent then
        (table.ancestry path heir rest).map (.tag parent :: ·)
      else .error (unknownClass parent heir)
    | some d =>
      if _hpath : parent ∈ path then
        .error (Fault.unlocated ⟨.inheritanceCycle parent heir.name, heir.span⟩ heir.file)
      else
        match table.ancestry (parent :: path) ⟨d.name, d.span, d.sourceFile⟩ d.parents with
        | .error e => .error e
        | .ok parents => (table.ancestry path heir rest).map (.cls parent d parents :: ·)
termination_by parents => (table.unseen path, parents.length)
decreasing_by
  · exact Prod.Lex.right _ (Nat.lt_succ_self _)
  · exact Prod.Lex.left _ _
      (OrderedMap.unseen_cons_lt (OrderedMap.mem_keys_of_get? _hget) _hpath)
  · exact Prod.Lex.right _ (Nat.lt_succ_self _)

end ClassTable

end PageLang
