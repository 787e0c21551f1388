import PageLang.Text.Basic

/-!
# Lines and columns

The place of an offset as people count it: lines from 1, split at newlines only, and columns from
1 in characters. An offset inside a character stands for the start of that character, and one past
the end for the end.
-/

namespace PageLang

/-- A line and a column, both counted from 1. -/
structure Place where
  line : Nat
  column : Nat
  deriving DecidableEq, Repr

/-- The place that follows one byte: a newline opens a line, and only the first byte of a character
moves the column. -/
def Place.after (p : Place) (b : UInt8) : Place :=
  if b == Byte.newline then ⟨p.line + 1, 1⟩
  else if Byte.isContinuation b then p
  else ⟨p.line, p.column + 1⟩

namespace Text

/-- The start of the character that holds `offset`, or the end of the text. -/
def floorBoundary (t : Text) (offset : Nat) : Nat :=
  if t.length ≤ offset then t.length
  else offset - ((t.take (offset + 1)).reverse.takeWhile Byte.isContinuation).length

/-- The number of newlines. -/
def newlines (t : Text) : Nat := t.count Byte.newline

/-- The place of an offset. -/
def place (t : Text) (offset : Nat) : Place :=
  (t.take (t.floorBoundary offset)).foldl Place.after ⟨1, 1⟩

end Text

end PageLang
