import PageLang.Text.Basic

/-!
# The literal mask

A mask says of every byte of a text whether it belongs to a literal or a comment (masked) or is
live. It is computed in one pass by a machine that reads one byte at a time and answers one bit
for it. The machine sees the bytes before (a slash is a regular expression or a division by what
stands before it) and the bytes after (two bytes open a comment or an interpolation).

* `Mode.code` reads embedded behavior: strings, templates with interpolations, comments and
  regular expressions.
* `Mode.declarations` also reads `name: value`: a scalar value is masked up to its `;`, a function
  body is read as code, and an object value as declarations again.
* `Mask.length_ofText`: one bit for each byte.
-/

namespace PageLang

/-- The grammar a text is read with. -/
inductive Mode where
  /-- Declarations, where a colon opens a value. -/
  | declarations
  /-- Embedded behavior. -/
  | code
  deriving DecidableEq, Repr

namespace Mask

/-- What the byte being read belongs to. -/
inductive Region where
  /-- Live text. -/
  | live
  /-- A string; `escaped` says that a backslash stands right before. -/
  | quoted (quote : UInt8) (escaped : Bool)
  /-- The text of a template literal. -/
  | template (escaped : Bool)
  /-- Between the dollar sign and the brace that open an interpolation. -/
  | opening
  /-- A comment up to the end of its line. -/
  | lineComment
  /-- Between the slash and the star that open a block comment. -/
  | commentOpening
  /-- A block comment; `star` says that a star stands right before. -/
  | blockComment (star : Bool)
  /-- A regular expression, inside or outside a character class. -/
  | regex (inClass escaped : Bool)
  /-- After the colon of a declaration, before its value. -/
  | afterColon
  /-- A parameter list with so many parentheses open. -/
  | parameters (depth : Nat)
  /-- After a parameter list, before what follows it. -/
  | afterParameters
  /-- The quoted text a scalar value begins with. -/
  | valueQuoted (quote : UInt8) (escaped : Bool)
  /-- A scalar value, with so many braces open. -/
  | value (depth : Nat) (escaped : Bool)
  deriving DecidableEq, Repr

/-- What an unmatched closing brace returns to. -/
inductive Enclosing where
  /-- The template literal around an interpolation. -/
  | template
  /-- The live text around the block of a declaration. -/
  | block
  deriving DecidableEq, Repr

/-- A context that waits for a closing brace: what it is, its grammar, and its open braces. -/
structure Frame where
  enclosing : Enclosing
  mode : Mode
  depth : Nat
  deriving DecidableEq, Repr

/-- What the machine remembers between two bytes. -/
structure State where
  region : Region
  mode : Mode
  depth : Nat
  outer : List Frame
  deriving DecidableEq, Repr

/-- The state before the first byte. -/
def State.start (mode : Mode) : State := ⟨.live, mode, 0, []⟩

/-- The words after which a slash opens a regular expression. -/
def regexWords : List Text :=
  ["return", "typeof", "case", "do", "else", "in", "of", "new", "delete", "void", "throw",
    "instanceof", "yield", "await"]

/-- The bytes after which a slash opens a regular expression. -/
def regexMarks : Text := "(,=:[!&|?\x7b\x7d;+-*%<>~^"

/-- Whether a slash opens a regular expression, by what stands before it (in reverse). -/
def regexAllowed (before : Text) : Bool :=
  let near := before.dropWhile Byte.isSpace
  match near with
  | [] => true
  | b :: _ =>
    regexMarks.contains b ||
      (Byte.isWord b && regexWords.contains (near.takeWhile Byte.isWord).reverse)

/-- Whether a colon here is the sigil of a name, because a statement starts at it. -/
def startsStatement (before : Text) : Bool :=
  match before.dropWhile Byte.isSpace with
  | [] => true
  | b :: _ => b == Byte.semicolon || b == Byte.lbrace || b == Byte.rbrace

/-- Whether `depth` open parentheses are closed in the bytes that follow. -/
def closesParens : (depth : Nat) → Text → Bool
  | _, [] => false
  | depth, b :: rest =>
    if b = Byte.lparen then closesParens (depth + 1) rest
    else if b = Byte.rparen then depth ≤ 1 || closesParens (depth - 1) rest
    else closesParens depth rest

namespace State

/-- The same context in another region. -/
def into (s : State) (region : Region) : State := { s with region }

/-- A context opened by a brace inside this one. -/
def enter (s : State) (enclosing : Enclosing) (mode : Mode) : State :=
  ⟨.live, mode, 0, ⟨enclosing, s.mode, s.depth⟩ :: s.outer⟩

/-- A closing brace in live text: it closes a brace of this context, or the context itself. The
brace that closes an interpolation belongs to the template. -/
def closeBrace (s : State) : Bool × State :=
  match s.depth, s.outer with
  | depth + 1, _ => (false, { s with depth, region := .live })
  | 0, [] => (false, s.into .live)
  | 0, ⟨.template, mode, depth⟩ :: outer => (true, ⟨.template false, mode, depth, outer⟩)
  | 0, ⟨.block, mode, depth⟩ :: outer => (false, ⟨.live, mode, depth, outer⟩)

/-- A byte of live text. -/
def readLive (s : State) (before : Text) (b : UInt8) (rest : Text) : Bool × State :=
  if b = Byte.singleQuote ∨ b = Byte.doubleQuote then (true, s.into (.quoted b false))
  else if b = Byte.backquote then (true, s.into (.template false))
  else if b = Byte.slash ∧ rest.head? = some Byte.slash then (true, s.into .lineComment)
  else if b = Byte.slash ∧ rest.head? = some Byte.star then (true, s.into .commentOpening)
  else if b = Byte.slash ∧ regexAllowed before then (true, s.into (.regex false false))
  else if b = Byte.lbrace then (false, { s with depth := s.depth + 1, region := .live })
  else if b = Byte.rbrace then s.closeBrace
  else if b = Byte.colon ∧ s.mode = .declarations ∧ ¬ startsStatement before then
    (false, s.into .afterColon)
  else (false, s.into .live)

/-- A byte of a scalar value outside its leading quotes. The `;` or the unmatched brace that ends
the value is live. -/
def readValue (s : State) (depth : Nat) (before : Text) (b : UInt8) (rest : Text) : Bool × State :=
  if b = Byte.backslash then (true, s.into (.value depth true))
  else if b = Byte.semicolon then s.readLive before b rest
  else if b = Byte.lbrace then (true, s.into (.value (depth + 1) false))
  else if b = Byte.rbrace then
    match depth with
    | 0 => s.readLive before b rest
    | depth + 1 => (true, s.into (.value depth false))
  else (true, s.into (.value depth false))

/-- The first byte after a colon that is not blank decides what kind of value follows. Parentheses
that are never closed are live text. -/
def readAfterColon (s : State) (before : Text) (b : UInt8) (rest : Text) : Bool × State :=
  if Byte.isSpace b then (false, s)
  else if b = Byte.lparen then
    (false, s.into (if closesParens 1 rest then .parameters 1 else .live))
  else if b = Byte.lbrace then (false, s.enter .block .declarations)
  else if Byte.isQuote b then (true, s.into (.valueQuoted b false))
  else s.readValue 0 before b rest

/-- A byte of a parameter list. -/
def readParameters (s : State) (depth : Nat) (b : UInt8) : Bool × State :=
  if b = Byte.lparen then (false, s.into (.parameters (depth + 1)))
  else if b = Byte.rparen then
    (false, s.into (if depth ≤ 1 then .afterParameters else .parameters (depth - 1)))
  else (false, s)

/-- A byte after a parameter list: only a brace opens a body. -/
def readAfterParameters (s : State) (before : Text) (b : UInt8) (rest : Text) : Bool × State :=
  if Byte.isSpace b then (false, s)
  else if b = Byte.lbrace then (false, s.enter .block .code)
  else s.readLive before b rest

/-- A byte of a string. A newline ends it and is live. -/
def readQuoted (s : State) (quote b : UInt8) : Bool × State :=
  if b = Byte.backslash then (true, s.into (.quoted quote true))
  else if b = Byte.newline then (false, s.into .live)
  else if b = quote then (true, s.into .live)
  else (true, s)

/-- A byte of the text of a template literal. -/
def readTemplate (s : State) (b : UInt8) (rest : Text) : Bool × State :=
  if b = Byte.backslash then (true, s.into (.template true))
  else if b = Byte.backquote then (true, s.into .live)
  else if b = Byte.dollar ∧ rest.head? = some Byte.lbrace then (true, s.into .opening)
  else (true, s)

/-- A byte of a regular expression. A newline ends it and is live; a slash ends it outside
character classes. -/
def readRegex (s : State) (inClass : Bool) (b : UInt8) : Bool × State :=
  if b = Byte.backslash then (true, s.into (.regex inClass true))
  else if b = Byte.newline then (false, s.into .live)
  else if b = Byte.lbracket then (true, s.into (.regex true false))
  else if b = Byte.rbracket then (true, s.into (.regex false false))
  else if b = Byte.slash ∧ ¬ inClass then (true, s.into .live)
  else (true, s)

/-- Reads the byte `b` that stands between `before` (in reverse) and `rest`: whether it is masked,
and the next state. -/
def read (s : State) (before : Text) (b : UInt8) (rest : Text) : Bool × State :=
  match s.region with
  | .live => s.readLive before b rest
  | .quoted quote true => (true, s.into (.quoted quote false))
  | .quoted quote false => s.readQuoted quote b
  | .template true => (true, s.into (.template false))
  | .template false => s.readTemplate b rest
  | .opening => (true, s.enter .template .code)
  | .lineComment => if b = Byte.newline then (false, s.into .live) else (true, s)
  | .commentOpening => (true, s.into (.blockComment false))
  | .blockComment star =>
    (true, s.into (if star ∧ b = Byte.slash then .live else .blockComment (b = Byte.star)))
  | .regex inClass true => (true, s.into (.regex inClass false))
  | .regex inClass false => s.readRegex inClass b
  | .afterColon => s.readAfterColon before b rest
  | .parameters depth => s.readParameters depth b
  | .afterParameters => s.readAfterParameters before b rest
  | .valueQuoted quote true => (true, s.into (.valueQuoted quote false))
  | .valueQuoted quote false =>
    if b = Byte.backslash then (true, s.into (.valueQuoted quote true))
    else if b = quote then (true, s.into (.value 0 false))
    else (true, s)
  | .value depth true => (true, s.into (.value depth false))
  | .value depth false => s.readValue depth before b rest

/-- The bits of the bytes that follow `before` (in reverse), read from this state. -/
def bits (s : State) (before : Text) : Text → List Bool
  | [] => []
  | b :: rest =>
    let r := s.read before b rest
    r.1 :: r.2.bits (b :: before) rest

@[simp] theorem length_bits (s : State) (before t : Text) :
    (s.bits before t).length = t.length := by
  induction t generalizing s before with
  | nil => rfl
  | cons b rest ih => simp [bits, ih]

end State

/-- The mask of a text: for each byte, whether it is masked. -/
def ofText (mode : Mode) (t : Text) : List Bool := (State.start mode).bits [] t

@[simp] theorem length_ofText (mode : Mode) (t : Text) : (ofText mode t).length = t.length :=
  State.length_bits ..

/-- Whether the byte at `offset` is masked. Past the end nothing is. -/
def isMasked (mask : List Bool) (offset : Nat) : Bool := mask.getD offset false

end Mask

end PageLang
