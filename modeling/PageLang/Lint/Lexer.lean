import PageLang.Lint.Reader
import PageLang.Text.Unicode

/-!
# The tokens of scripts

Splits a script into tokens, one byte at a time, and hands each token to a reader. The reader in
turn says whether a slash begins a regular expression, and where an expression inside a template
ends.

* `Lexer.offsets`: where the `debugger` statements of a script start.
-/

namespace PageLang.Lint

/-- The token that a byte belongs to. -/
inductive Lexeme where
  | between
  /-- A word or a number that began at `start`; its bytes so far, in reverse. -/
  | word (start : Nat) (reversed : Text)
  | quoted (quote : UInt8) (escaped : Bool)
  | template (escaped : Bool)
  | lineComment
  | blockComment (star : Bool)
  | regex (inClass escaped : Bool)
  /-- The letters behind a regular expression. -/
  | flags
  /-- A byte that was read together with the one before it. -/
  | passed (next : Lexeme)
  deriving DecidableEq, Repr

/-- What is known in front of a byte. -/
structure Lexer where
  lexeme : Lexeme
  reader : Reader

/-! ## Bytes -/

/-- The characters that are blank in scripts and nowhere else: a byte order mark, and a space of no
width. -/
def scriptBlanks : List Text := [[0xef, 0xbb, 0xbf], [0xe2, 0x80, 0x8b]]

/-- Whether a blank starts here. -/
def isBlank (b : UInt8) (rest : Text) : Bool :=
  Text.startsBlank (b :: rest) || scriptBlanks.any (·.isPrefixOf (b :: rest))

/-- Whether a line ends here. -/
def isLineEnd (b : UInt8) (rest : Text) : Bool :=
  b == Byte.newline || b == Byte.carriageReturn ||
    b == 0xe2 && (rest.take 2 == [0x80, 0xa8] || rest.take 2 == [0x80, 0xa9])

/-- Whether a character of a word starts here. Beyond ASCII these are all but blanks. -/
def isWordByte (b : UInt8) (rest : Text) : Bool :=
  Byte.isWord b || b == Byte.backslash || (0x80 ≤ b && !isBlank b rest)

/-- What follows the first byte of a character between two tokens. -/
def afterFirst (b : UInt8) : Lexeme :=
  match Text.charWidth b with
  | 3 => .passed (.passed .between)
  | 2 => .passed .between
  | _ => .between

/-- A digit of a number, or one of the marks inside it. -/
def isNumeral (b : UInt8) : Bool := Byte.isDigit b || b == Byte.underscore || b == Byte.dot

/-- A byte that a number, and no name, starts with. -/
def startsNumber (b : UInt8) : Bool := Byte.isDigit b || b == Byte.dot

/-- Whether a number goes on with a mark: with the point behind its whole part, unless that is
octal, or with the sign of its exponent. The number so far is in reverse. -/
def continuesNumber (reversed : Text) (b : UInt8) : Bool :=
  if b = Byte.dot then
    reversed.all (fun d => isNumeral d && d != Byte.dot) &&
      match reversed.reverse with
      | 0x30 :: second :: rest => !(second :: rest).all (fun d => 0x30 ≤ d && d ≤ 0x37)
      | first :: _ => Byte.isDigit first
      | [] => false
  else if b = Byte.plus ∨ b = Byte.hyphen then
    match reversed with
    | last :: digits =>
      (last == 0x65 || last == 0x45) && digits.all isNumeral &&
        digits.getLast?.any startsNumber
    | [] => false
  else false

/-- Whether a name goes on with a brace: of a character that is written by its number. -/
def continuesEscape (reversed : Text) (b : UInt8) : Bool :=
  b == Byte.lbrace && reversed.take 2 == [0x75, Byte.backslash] ||
    b == Byte.rbrace &&
      reversed.find? (fun d => d == Byte.lbrace || d == Byte.rbrace) == some Byte.lbrace

namespace Lexer

/-- The lexer in front of a script. -/
def start : Lexer := ⟨.between, .start⟩

/-- The lexer inside or behind a token. -/
def read (l : Lexer) (t : Token) (lexeme : Lexeme) : Lexer := ⟨lexeme, l.reader.read t⟩

/-- A line ends between two tokens. -/
def endLine (l : Lexer) : Lexer := { l with reader := l.reader.endLine }

/-- The lexer behind a word or a number. -/
def endWord (l : Lexer) (offset : Nat) (word : Text) : Lexer :=
  l.read (if word.head?.any startsNumber then .literal else .word offset word) .between

/-- A slash. -/
def readSlash (l : Lexer) (rest : Text) : Lexer :=
  if rest.head? = some Byte.slash then { l with lexeme := .lineComment }
  else if rest.head? = some Byte.star then { l with lexeme := .passed (.blockComment false) }
  else if l.reader.expectsRegex then l.read .literal (.regex false false)
  else l.read .other .between

/-- A question mark, which may be the first byte of an operator. -/
def readQuestion (l : Lexer) (rest : Text) : Lexer :=
  if rest.head? = some Byte.question then l.read .other (.passed .between)
  else if rest.head? = some Byte.dot ∧ !(rest.drop 1).head?.any Byte.isDigit then
    l.read (.mark Byte.dot) (.passed .between)
  else l.read (.mark Byte.question) .between

/-- A closing brace. Behind one that ends an expression inside a template, the template goes on. -/
def readCloseBrace (l : Lexer) : Lexer :=
  l.read (.mark Byte.rbrace)
    (if l.reader.top.kind = .interpolation then .template false else .between)

/-- Whether a comment starts here in the manner of markup: anywhere, or only on a new line. -/
def startsMarkupComment (l : Lexer) (b : UInt8) (rest : Text) : Bool :=
  b == Byte.less && (Text.ofString "!--").isPrefixOf rest ||
    b == Byte.hyphen && l.reader.atLineStart && (Text.ofString "->").isPrefixOf rest

/-- The tilde. -/
def tilde : UInt8 := 0x7e

/-- The marks that a reader tells apart, beyond those of longer tokens. -/
def marks : Text := "()[]\x7b,;:.#=*"

/-- The first byte of a token that is no word. -/
def readMark (l : Lexer) (b : UInt8) (rest : Text) : Lexer :=
  let next := rest.head?
  if b = Byte.singleQuote ∨ b = Byte.doubleQuote then l.read .literal (.quoted b false)
  else if b = Byte.backquote then l.read .template (.template false)
  else if b = Byte.slash then l.readSlash rest
  else if l.startsMarkupComment b rest then { l with lexeme := .lineComment }
  else if b = Byte.question then l.readQuestion rest
  else if b = Byte.rbrace then l.readCloseBrace
  else if (b = Byte.plus ∨ b = Byte.hyphen) ∧ next = some b then
    l.read .increment (.passed .between)
  else if b = Byte.dot ∧ (Text.ofString "..").isPrefixOf rest then
    l.read .spread (.passed (.passed .between))
  else if b = Byte.equals ∧ next = some Byte.greater then l.read .arrow (.passed .between)
  else if b = tilde ∨ b = Byte.bang ∧ next ≠ some Byte.equals then l.read .negation .between
  else if marks.contains b then l.read (.mark b) .between
  else l.read .other .between

/-- A byte between two tokens, or the first one of a token. -/
def readBetween (l : Lexer) (offset : Nat) (b : UInt8) (rest : Text) : Lexer :=
  if isLineEnd b rest then { l.endLine with lexeme := afterFirst b }
  else if isBlank b rest then { l with lexeme := afterFirst b }
  else if isWordByte b rest ∨ b = Byte.dot ∧ rest.head?.any Byte.isDigit then
    { l with lexeme := .word offset [b] }
  else l.readMark b rest

/-- A byte of a regular expression. -/
def readRegex (inClass : Bool) (b : UInt8) : Lexeme :=
  if b = Byte.backslash then .regex inClass true
  else if b = Byte.lbracket then .regex true false
  else if b = Byte.rbracket then .regex false false
  else if b = Byte.slash ∧ ¬ inClass then .flags
  else .regex inClass false

/-- Reads the byte `b` at `offset`, in front of `rest`. -/
def readByte (l : Lexer) (offset : Nat) (b : UInt8) (rest : Text) : Lexer :=
  match l.lexeme with
  | .between => l.readBetween offset b rest
  | .word start reversed =>
    if isWordByte b rest ∨ Byte.isContinuation b ∨ continuesNumber reversed b ∨
        continuesEscape reversed b then
      { l with lexeme := .word start (b :: reversed) }
    else (l.endWord start reversed.reverse).readBetween offset b rest
  | .quoted quote true => { l with lexeme := .quoted quote false }
  | .quoted quote false =>
    { l with
      lexeme := if b = Byte.backslash then .quoted quote true
        else if b = quote then .between
        else .quoted quote false }
  | .template true => { l with lexeme := .template false }
  | .template false =>
    if b = Byte.backslash then { l with lexeme := .template true }
    else if b = Byte.backquote then { l with lexeme := .between }
    else if b = Byte.dollar ∧ rest.head? = some Byte.lbrace then
      ⟨.passed .between, l.reader.openInterpolation⟩
    else l
  | .lineComment => if isLineEnd b rest then { l.endLine with lexeme := afterFirst b } else l
  | .blockComment star =>
    { (if isLineEnd b rest then l.endLine else l) with
      lexeme := if star ∧ b = Byte.slash then .between else .blockComment (b = Byte.star) }
  | .regex inClass true => { l with lexeme := .regex inClass false }
  | .regex inClass false => { l with lexeme := readRegex inClass b }
  | .flags =>
    if isWordByte b rest ∨ Byte.isContinuation b then l
    else { l with lexeme := .between }.readBetween offset b rest
  | .passed lexeme => { l with lexeme }

/-- The lexer behind a text that starts at `offset`. -/
def readAll (l : Lexer) (offset : Nat) : Text → Lexer
  | [] => l
  | b :: rest => (l.readByte offset b rest).readAll (offset + 1) rest

/-- The offsets of the `debugger` statements of a script, in order. -/
def offsets (script : Text) : List Nat := (start.readAll 0 script).reader.found.reverse

end Lexer

end PageLang.Lint
