import PageLang.Declaration.Basic

/-!
# Elements, classes and the tree

An element refers to classes and tags, overrides some of their members and holds further elements.
A class has parents, members and child elements. The hierarchy is what a source shows: its root
elements and its font faces.
-/

namespace PageLang

/-- A node of the visible tree. -/
structure Element where
  name : Option Text
  classRefs : List Text
  overrides : Members
  children : List Element
  span : Span

instance : Inhabited Element := ⟨⟨none, [], ∅, [], default⟩⟩

/-- A class as declared. -/
structure ClassDefinition where
  name : Text
  parents : List Text
  members : Members
  children : List Element
  sourceFile : Text
  span : Span

/-- The classes of a source by name. -/
abbrev ClassTable := OrderedMap ClassDefinition

/-- A font face: the style rule it stands for, and where it stands. -/
structure FontFace where
  block : Text
  span : Span
  deriving DecidableEq

/-- An import of a data file under a name. -/
structure DataImport where
  name : Text
  path : Text
  span : Span
  deriving DecidableEq

/-- The visible part of a source. -/
structure Hierarchy where
  roots : List Element
  fontFaces : List FontFace

namespace Hierarchy

instance : EmptyCollection Hierarchy := ⟨⟨[], []⟩⟩

/-- One hierarchy after another. -/
def append (a b : Hierarchy) : Hierarchy := ⟨a.roots ++ b.roots, a.fontFaces ++ b.fontFaces⟩

end Hierarchy

mutual

/-- An element and all its descendants, each before its own children. -/
def Element.preorder : Element → List Element
  | ⟨name, classRefs, overrides, children, span⟩ =>
    ⟨name, classRefs, overrides, children, span⟩ :: Element.preorderAll children

/-- The elements of a forest in preorder. -/
def Element.preorderAll : List Element → List Element
  | [] => []
  | e :: rest => e.preorder ++ Element.preorderAll rest

end

/-- What a parser had read when it met a fault, and where reading may go on. -/
structure ParseFailure (α : Type) where
  fault : Fault
  partialResult : α
  resumeAt : Nat

end PageLang
