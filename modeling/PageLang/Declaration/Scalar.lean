import PageLang.Declaration.Basic
import PageLang.Text.Unicode

/-!
# The type of a scalar

One layer of matching quotes makes a string of what is between them. Text without quotes is typed
by its shape: a boolean, a decimal number, an array or regular expression kept verbatim, or else a
string again.
-/

namespace PageLang.Scalar

/-- The code points after an optional sign out of `signs`. -/
def afterSign (signs : List Nat) : List Nat → List Nat
  | [] => []
  | c :: rest => if signs.contains c then rest else c :: rest

/-- The code points after the digits of a number: digits with an optional point behind or among
them, or a point and digits. -/
def afterDigits? (cs : List Nat) : Option (List Nat) :=
  let isDigit := Text.isDigitChar
  let point := Byte.dot.toNat
  match cs.takeWhile isDigit, cs.dropWhile isDigit with
  | _ :: _, c :: rest => some (if c = point then rest.dropWhile isDigit else c :: rest)
  | _ :: _, [] => some []
  | [], c :: rest =>
    if c = point ∧ rest.head?.any isDigit then some (rest.dropWhile isDigit) else none
  | [], [] => none

/-- Nothing, or an exponent: the letter `e`, an optional sign and digits. -/
def isExponent : List Nat → Bool
  | [] => true
  | c :: rest =>
    let digits := afterSign [0x2b, 0x2d] rest
    (c == 0x65 || c == 0x45) && !digits.isEmpty && digits.all Text.isDigitChar

/-- Whether a text is a decimal number. -/
def isNumber (t : Text) : Bool := (afterDigits? (afterSign [0x2d] t.codePoints)).any isExponent

/-- What stands between matching quotes at both ends. -/
def unquoted? (t : Text) : Option Text :=
  match t with
  | quote :: rest =>
    if Byte.isQuote quote && rest.getLast? == some quote then some rest.dropLast else none
  | [] => none

/-- The scalar that a trimmed text writes. -/
def ofText (t : Text) : Scalar :=
  match unquoted? t with
  | some inner => .string inner
  | none =>
    if t = Text.ofString "true" then .boolean true
    else if t = Text.ofString "false" then .boolean false
    else if isNumber t then .number t
    else if t.head? = some Byte.lbracket ∨ (t.head? = some Byte.slash ∧ 1 < t.length) then
      .literal t
    else .string t

end PageLang.Scalar
