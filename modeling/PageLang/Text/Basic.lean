/-!
# Text as bytes

Sources, names, values and messages are texts: lists of bytes holding UTF-8. Every offset of the
library is an index into such a list, so a span can be cut out of a text by its two ends. The
characters the language reacts to are all ASCII, which `Byte` names one by one; a byte of a
longer character is never equal to one of them.
-/

namespace PageLang

/-- A text, as its UTF-8 bytes. -/
abbrev Text := List UInt8

instance : LawfulBEq Text := inferInstanceAs (LawfulBEq (List UInt8))

/-- What all bytes of a text have is checked byte by byte, not for every byte there is. -/
instance (priority := high) Text.decidableForallMem {p : UInt8 → Prop} [DecidablePred p]
    (t : Text) : Decidable (∀ b ∈ t, p b) :=
  List.decidableBAll p t

namespace Byte

@[match_pattern] abbrev tab : UInt8 := 0x09
@[match_pattern] abbrev newline : UInt8 := 0x0a
@[match_pattern] abbrev formFeed : UInt8 := 0x0c
@[match_pattern] abbrev carriageReturn : UInt8 := 0x0d
@[match_pattern] abbrev space : UInt8 := 0x20
@[match_pattern] abbrev bang : UInt8 := 0x21
@[match_pattern] abbrev doubleQuote : UInt8 := 0x22
@[match_pattern] abbrev hash : UInt8 := 0x23
@[match_pattern] abbrev dollar : UInt8 := 0x24
@[match_pattern] abbrev singleQuote : UInt8 := 0x27
@[match_pattern] abbrev lparen : UInt8 := 0x28
@[match_pattern] abbrev rparen : UInt8 := 0x29
@[match_pattern] abbrev star : UInt8 := 0x2a
@[match_pattern] abbrev plus : UInt8 := 0x2b
@[match_pattern] abbrev comma : UInt8 := 0x2c
@[match_pattern] abbrev hyphen : UInt8 := 0x2d
@[match_pattern] abbrev dot : UInt8 := 0x2e
@[match_pattern] abbrev slash : UInt8 := 0x2f
@[match_pattern] abbrev colon : UInt8 := 0x3a
@[match_pattern] abbrev semicolon : UInt8 := 0x3b
@[match_pattern] abbrev less : UInt8 := 0x3c
@[match_pattern] abbrev equals : UInt8 := 0x3d
@[match_pattern] abbrev greater : UInt8 := 0x3e
@[match_pattern] abbrev question : UInt8 := 0x3f
@[match_pattern] abbrev atSign : UInt8 := 0x40
@[match_pattern] abbrev lbracket : UInt8 := 0x5b
@[match_pattern] abbrev backslash : UInt8 := 0x5c
@[match_pattern] abbrev rbracket : UInt8 := 0x5d
@[match_pattern] abbrev underscore : UInt8 := 0x5f
@[match_pattern] abbrev backquote : UInt8 := 0x60
@[match_pattern] abbrev lbrace : UInt8 := 0x7b
@[match_pattern] abbrev rbrace : UInt8 := 0x7d

/-- ASCII whitespace: space, tab, newline, form feed and carriage return. -/
def isSpace (b : UInt8) : Bool :=
  b == space || b == tab || b == newline || b == formFeed || b == carriageReturn

/-- An ASCII digit. -/
def isDigit (b : UInt8) : Bool := 0x30 ≤ b && b ≤ 0x39

/-- An ASCII letter. -/
def isLetter (b : UInt8) : Bool := (0x41 ≤ b && b ≤ 0x5a) || (0x61 ≤ b && b ≤ 0x7a)

/-- A byte that may begin an ASCII identifier. -/
def isWordStart (b : UInt8) : Bool := isLetter b || b == underscore || b == dollar

/-- A byte that may stand in an ASCII identifier. -/
def isWord (b : UInt8) : Bool := isWordStart b || isDigit b

/-- A byte of a hyphenated member name. -/
def isNamePart (b : UInt8) : Bool := isWord b || b == hyphen

/-- A byte that continues a character instead of starting one. -/
def isContinuation (b : UInt8) : Bool := 0x80 ≤ b && b ≤ 0xbf

/-- One of the three quotes. -/
def isQuote (b : UInt8) : Bool := b == singleQuote || b == doubleQuote || b == backquote

/-- An opening bracket of any kind. -/
def isOpening (b : UInt8) : Bool := b == lparen || b == lbracket || b == lbrace

/-- A closing bracket of any kind. -/
def isClosing (b : UInt8) : Bool := b == rparen || b == rbracket || b == rbrace

end Byte

namespace Text

/-- The bytes of a string. -/
def ofString (s : String) : Text := s.toByteArray.data.toList

instance : Coe String Text := ⟨ofString⟩

/-- The bytes from `start` up to `stop`. -/
def slice (t : Text) (start stop : Nat) : Text := (t.drop start).take (stop - start)

/-- An offset at which a character starts, or the end. -/
def isBoundary (t : Text) (offset : Nat) : Bool :=
  match t[offset]? with
  | some b => !Byte.isContinuation b
  | none => offset == t.length

/-- Whether `pattern` stands somewhere in `t`. -/
def hasInfix (t pattern : Text) : Bool :=
  pattern.isPrefixOf t || match t with
    | [] => false
    | _ :: rest => hasInfix rest pattern

/-- The pieces of `t` between the occurrences of `separator`, one more than there are of it. -/
def splitOn (separator : UInt8) : Text → List Text
  | [] => [[]]
  | b :: rest =>
    if b == separator then [] :: splitOn separator rest
    else match splitOn separator rest with
      | [] => [[b]]
      | piece :: pieces => (b :: piece) :: pieces

/-- The pieces of `t` joined by `separator`. -/
def join (separator : Text) (pieces : List Text) : Text := separator.intercalate pieces

/-- What is left of `t` after `start`, if `t` begins with it. -/
def stripStart? (start t : Text) : Option Text :=
  if start.isPrefixOf t then some (t.drop start.length) else none

/-- `t` without the bytes at both ends that satisfy `p`. -/
def stripBytes (p : UInt8 → Bool) (t : Text) : Text :=
  ((t.dropWhile p).reverse.dropWhile p).reverse

/-- `t` without the bytes at its end that satisfy `p`. -/
def stripEndBytes (p : UInt8 → Bool) (t : Text) : Text := (t.reverse.dropWhile p).reverse

/-- A letter, `_` or `$`, then letters, digits, `_` and `$`, all ASCII. -/
def isIdentifier : Text → Bool
  | [] => false
  | b :: rest => Byte.isWordStart b && rest.all Byte.isWord

/-- The identifier at the start of a text, and the rest. -/
def identifier? : Text → Option (Text × Text)
  | [] => none
  | b :: rest =>
    if Byte.isWordStart b then some (b :: rest.takeWhile Byte.isWord, rest.dropWhile Byte.isWord)
    else none

/-- An identifier that may also hold hyphens after its first character. -/
def isMemberName : Text → Bool
  | [] => false
  | b :: rest => Byte.isWordStart b && rest.all Byte.isNamePart

/-- The texts in byte order, each once. -/
def sorted (texts : List Text) : List Text := texts.eraseDups.mergeSort (fun a b => decide (a ≤ b))

end Text

end PageLang
