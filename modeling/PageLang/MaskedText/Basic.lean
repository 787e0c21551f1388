import PageLang.Mask.Basic
import PageLang.Text.Unicode

/-!
# Searching masked text

A masked text is a text with its mask, held in arrays so that offsets are looked up at once. All
searches go upward from an offset and see live bytes only: patterns, sets of bytes, the brace that
closes a block, the ends of statements. Blank space and comments between statements are skipped by
their spelling alone.
-/

namespace PageLang

/-- A text with its mask. -/
structure MaskedText where
  bytes : Array UInt8
  mask : Array Bool
  size_mask : mask.size = bytes.size

namespace MaskedText

/-- A text masked with the grammar `mode`. -/
def ofText (mode : Mode) (t : Text) : MaskedText :=
  ⟨t.toArray, (Mask.ofText mode t).toArray, by simp⟩

/-- The bytes as a text. -/
def text (s : MaskedText) : Text := s.bytes.toList
/-- The number of bytes. -/
def size (s : MaskedText) : Nat := s.bytes.size
/-- The byte at an offset. -/
def byte? (s : MaskedText) (i : Nat) : Option UInt8 := s.bytes[i]?
/-- The bytes from `start` up to `stop`. -/
def slice (s : MaskedText) (start stop : Nat) : Text := (s.bytes.extract start stop).toList
/-- Whether the byte at an offset is masked. Past the end nothing is. -/
def isMasked (s : MaskedText) (i : Nat) : Bool := s.mask.getD i false
/-- Whether a live byte stands at an offset. -/
def isLive (s : MaskedText) (i : Nat) : Bool := i < s.size && !s.isMasked i
/-- The byte at an offset, if it is live. -/
def liveByte? (s : MaskedText) (i : Nat) : Option UInt8 := if s.isMasked i then none else s.byte? i

/-! ## First offsets -/

/-- The first of the `count` offsets from `start` that satisfies `p`. -/
def firstFrom? (p : Nat → Bool) : (start count : Nat) → Option Nat
  | _, 0 => none
  | i, count + 1 => if p i then some i else firstFrom? p (i + 1) count

/-- The first byte at or after `from` that satisfies `p`, masked or not. -/
def findRaw? (s : MaskedText) (p : UInt8 → Bool) (start : Nat) : Option Nat :=
  firstFrom? (fun i => (s.byte? i).any p) start (s.size - start)

/-- The first live byte at or after `start` out of `set`, with its offset. -/
def findAny? (s : MaskedText) (set : Text) (start : Nat) : Option (Nat × UInt8) := do
  let i ← firstFrom? (fun i => (s.liveByte? i).any set.contains) start (s.size - start)
  let b ← s.byte? i
  return (i, b)

/-- The first offset at or after `start` that holds no ASCII whitespace. -/
def skipSpace (s : MaskedText) (start : Nat) : Nat :=
  (s.findRaw? (fun b => !Byte.isSpace b) start).getD (max start s.size)

/-! ## Patterns -/

/-- Whether a character starts at an offset, or the text ends there. -/
def isBoundary (s : MaskedText) (i : Nat) : Bool :=
  match s.byte? i with
  | some b => !Byte.isContinuation b
  | none => i == s.size

/-- The first character boundary at or after an offset, at most the end. -/
def ceilBoundary (s : MaskedText) (i : Nat) : Nat :=
  (s.findRaw? (fun b => !Byte.isContinuation b) i).getD s.size

/-- Whether `pattern` stands at an offset. -/
def startsAt (s : MaskedText) (pattern : Text) (i : Nat) : Bool :=
  s.slice i (i + pattern.length) == pattern

/-- Looks for `pattern` at the `count` offsets from `i` on. An occurrence whose first byte is
masked is passed over as a whole: the next `passed` offsets are not looked at. -/
def searchFrom? (s : MaskedText) (pattern : Text) : (passed i count : Nat) → Option Nat
  | _, _, 0 => none
  | passed + 1, i, count + 1 => s.searchFrom? pattern passed (i + 1) count
  | 0, i, count + 1 =>
    if s.isBoundary i && s.startsAt pattern i then
      if s.isMasked i then s.searchFrom? pattern (pattern.length - 1) (i + 1) count else some i
    else s.searchFrom? pattern 0 (i + 1) count

/-- The first live occurrence of `pattern` at or after `start`. -/
def indexOf? (s : MaskedText) (pattern : Text) (start : Nat) : Option Nat :=
  let i := s.ceilBoundary start
  s.searchFrom? pattern 0 i (s.size + 1 - i)

/-! ## Gaps between statements -/

/-- What a byte between two statements belongs to. -/
inductive Gap where
  /-- Blank space. -/
  | blank
  /-- A comment up to the end of its line. -/
  | line
  /-- Between the slash and the star that open a block comment. -/
  | opening
  /-- A block comment; `star` says that a star stands right before. -/
  | block (star : Bool)
  deriving DecidableEq, Repr

/-- The end of a gap that reaches over the next `count` bytes at most. -/
def gapEnd (s : MaskedText) : Gap → (i count : Nat) → Nat
  | _, i, 0 => i
  | .blank, i, count + 1 =>
    if (s.byte? i).any Byte.isSpace then s.gapEnd .blank (i + 1) count
    else if s.startsAt "//" i then s.gapEnd .line (i + 1) count
    else if s.startsAt "/*" i then s.gapEnd .opening (i + 1) count
    else i
  | .line, i, count + 1 =>
    s.gapEnd (if s.byte? i = some Byte.newline then .blank else .line) (i + 1) count
  | .opening, i, count + 1 => s.gapEnd (.block false) (i + 1) count
  | .block star, i, count + 1 =>
    s.gapEnd (if star ∧ s.byte? i = some Byte.slash then .blank
      else .block (s.byte? i = some Byte.star)) (i + 1) count

/-- The start of the next statement: whitespace and comments from `start` on are skipped. -/
def skipTrivia (s : MaskedText) (start : Nat) : Nat :=
  s.gapEnd .blank (min start s.size) (s.size - start)

/-! ## Brackets -/

/-- The live bracket that closes the last of `depth` open ones, among `count` bytes from `i`. -/
def closing? (s : MaskedText) (opens closes : UInt8 → Bool) : (depth i count : Nat) → Option Nat
  | _, _, 0 => none
  | depth, i, count + 1 =>
    match s.liveByte? i with
    | none => s.closing? opens closes depth (i + 1) count
    | some b =>
      if opens b then s.closing? opens closes (depth + 1) (i + 1) count
      else if closes b then
        if depth ≤ 1 then some i else s.closing? opens closes (depth - 1) (i + 1) count
      else s.closing? opens closes depth (i + 1) count

/-- The live brace that matches the opening brace at `opening`. -/
def closingBrace? (s : MaskedText) (opening : Nat) : Option Nat :=
  s.closing? (· == Byte.lbrace) (· == Byte.rbrace) 1 (opening + 1) (s.size - (opening + 1))

/-- The live parenthesis that matches the one at `opening`. -/
def closingParen? (s : MaskedText) (opening : Nat) : Option Nat :=
  s.closing? (· == Byte.lparen) (· == Byte.rparen) 0 opening (s.size - opening)

/-- The live bracket before `stop` that closes the bracket at `opening`, of whatever kind. -/
def closingBracket? (s : MaskedText) (opening stop : Nat) : Option Nat :=
  s.closing? Byte.isOpening Byte.isClosing 0 opening (stop - opening)

/-! ## Statements -/

/-- The ranges of the statements among the `count` bytes from `i`, where the statement being read
began at `start`. -/
def rangesFrom (s : MaskedText) (start : Nat) : (i count : Nat) → List (Nat × Nat)
  | i, 0 => if start < i then [(start, i)] else []
  | i, count + 1 =>
    if (s.liveByte? i).any (fun b => b == Byte.semicolon || b == Byte.newline) then
      (start, i + 1) :: s.rangesFrom (i + 1) (i + 1) count
    else s.rangesFrom start (i + 1) count

/-- The ranges that make up the text, each ending just after a live `;` or newline. The last one
may end without. -/
def statementRanges (s : MaskedText) : List (Nat × Nat) := s.rangesFrom 0 0 s.size

/-- The statements that are not blank. -/
def statements (s : MaskedText) : List Text :=
  (s.statementRanges.map (fun r => s.slice r.1 r.2)).filter (fun t => !t.isBlank)

end MaskedText

namespace Text

/-- Reads on from `offset` with `depth` braces open. -/
def closingBraceFrom? : (depth offset : Nat) → Text → Option Nat
  | _, _, [] => none
  | depth, i, b :: rest =>
    if b = Byte.lbrace then closingBraceFrom? (depth + 1) (i + 1) rest
    else if b = Byte.rbrace then
      if depth ≤ 1 then some i else closingBraceFrom? (depth - 1) (i + 1) rest
    else closingBraceFrom? depth (i + 1) rest

/-- The brace that matches the brace at `opening`, where every brace of the text counts. -/
def closingBrace? (t : Text) (opening : Nat) : Option Nat :=
  closingBraceFrom? 1 (opening + 1) (t.drop (opening + 1))

end Text

end PageLang
