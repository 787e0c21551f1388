import PageLang.Element.Basic

/-!
# Global names

Every name given to an element of the visible tree is global. The first element in preorder keeps
its name, and every later one with the same name is a fault.
-/

namespace PageLang

/-- The elements by name, and the faults of the later ones with a name already taken. -/
structure GlobalNames where
  table : OrderedMap Element
  faults : List Fault

namespace GlobalNames

/-- Adds an element, if it has a name. -/
def add (names : GlobalNames) (e : Element) : GlobalNames :=
  match e.name with
  | none => names
  | some name =>
    if names.table.contains name then
      { names with faults := names.faults ++ [⟨.duplicateGlobal, e.span⟩] }
    else { names with table := names.table.insert name e }

/-- The global names of a forest. -/
def ofRoots (roots : List Element) : GlobalNames :=
  (Element.preorderAll roots).foldl add ⟨∅, []⟩

end GlobalNames

end PageLang
