import PageLang.Text.Basic

/-!
# Paths

A path is a list of components from the root or from where the reader stands. Empty components and
`.` mean nothing and are dropped when a path is read. Normalising resolves `..` by the text alone,
so that a file reached in two ways has one name.

* `Path.normalize`: every `..` takes the last component before it away, whatever that is.
-/

namespace PageLang

/-- A path as its components. -/
structure Path where
  absolute : Bool
  components : List Text
  deriving DecidableEq

namespace Path

/-- The component that names the directory above. -/
def up : Text := ".."

/-- The path that a text writes. -/
def ofText (t : Text) : Path :=
  { absolute := t.head? = some Byte.slash
    components := (t.splitOn Byte.slash).filter (fun c => !c.isEmpty && c != Text.ofString ".") }

/-- The text of a path. -/
def toText (p : Path) : Text :=
  (if p.absolute then [Byte.slash] else []) ++ Text.join [Byte.slash] p.components

/-- The components after one more. With nothing to take away, `..` stays. -/
def resolve (components : List Text) (c : Text) : List Text :=
  if c = up ∧ components ≠ [] then components.dropLast else components ++ [c]

/-- The path with every `..` resolved that has a component before it. -/
def normalize (p : Path) : Path := { p with components := p.components.foldl resolve [] }

/-- The directory of a file. A path without components has the place of the reader. -/
def directory (p : Path) : Path :=
  if p.components = [] then ⟨false, []⟩ else { p with components := p.components.dropLast }

/-- A path taken from a directory. -/
def join (directory p : Path) : Path :=
  if p.absolute then p else { directory with components := directory.components ++ p.components }

/-- The one name of a file that a path leads to. -/
def key (p : Path) : Text := p.normalize.toText

end Path

end PageLang
