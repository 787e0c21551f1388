import PageLang.Text.Basic
import PageLang.Text.WordTable

/-!
# Characters beyond ASCII

The language counts three things of Unicode: what is blank (trimming, and the gaps inside headers
and local declarations), what is a word character (the edges of keywords) and what is a decimal
digit (numbers). Blanks are recognised by their encodings, so trimming needs no decoding; the other
two look up the code point of the first or the last character.
-/

namespace PageLang.Text

/-- The encodings of the blank characters, the `White_Space` property of Unicode. -/
def blanks : List Text := [
  [0x09], [0x0a], [0x0b], [0x0c], [0x0d], [0x20], [0xc2, 0x85], [0xc2, 0xa0], [0xe1, 0x9a, 0x80],
  [0xe2, 0x80, 0x80], [0xe2, 0x80, 0x81], [0xe2, 0x80, 0x82], [0xe2, 0x80, 0x83],
  [0xe2, 0x80, 0x84], [0xe2, 0x80, 0x85], [0xe2, 0x80, 0x86], [0xe2, 0x80, 0x87],
  [0xe2, 0x80, 0x88], [0xe2, 0x80, 0x89], [0xe2, 0x80, 0x8a], [0xe2, 0x80, 0xa8],
  [0xe2, 0x80, 0xa9], [0xe2, 0x80, 0xaf], [0xe2, 0x81, 0x9f], [0xe3, 0x80, 0x80]]

/-- What is left after the marks at the start, where the first `inside` bytes belong to a mark
that was already recognised. -/
def stripMarks (marks : List Text) : (inside : Nat) → Text → Text
  | _, [] => []
  | inside + 1, _ :: rest => stripMarks marks inside rest
  | 0, b :: rest =>
    match marks.find? (fun m => m.isPrefixOf (b :: rest)) with
    | some m => stripMarks marks (m.length - 1) rest
    | none => b :: rest

/-- `t` without the blanks at its start. -/
def trimStart (t : Text) : Text := stripMarks blanks 0 t

/-- `t` without the blanks at its end. -/
def trimEnd (t : Text) : Text := (stripMarks (blanks.map List.reverse) 0 t.reverse).reverse

/-- `t` without the blanks at both ends. -/
def trim (t : Text) : Text := trimEnd (trimStart t)

theorem length_stripMarks_le (marks : List Text) (inside : Nat) (t : Text) :
    (stripMarks marks inside t).length ≤ t.length := by
  induction t generalizing inside with
  | nil => cases inside <;> simp [stripMarks]
  | cons b rest ih =>
    cases inside with
    | succ n => exact Nat.le_succ_of_le (ih n)
    | zero =>
      unfold stripMarks
      split
      · exact Nat.le_succ_of_le (ih _)
      · exact Nat.le_refl _

theorem length_trimStart_le (t : Text) : (trimStart t).length ≤ t.length :=
  length_stripMarks_le ..

theorem length_trimEnd_le (t : Text) : (trimEnd t).length ≤ t.length := by
  have := length_stripMarks_le (blanks.map List.reverse) 0 t.reverse
  simpa [trimEnd] using this

theorem length_trim_le (t : Text) : (trim t).length ≤ t.length :=
  Nat.le_trans (length_trimEnd_le _) (length_trimStart_le t)

/-- Whether `t` holds nothing but blanks. -/
def isBlank (t : Text) : Bool := (trimStart t).isEmpty

/-- Whether `t` begins with a blank. -/
def startsBlank (t : Text) : Bool := blanks.any (fun m => m.isPrefixOf t)

/-- Whether a blank stands somewhere in `t`. -/
def hasBlank (t : Text) : Bool := blanks.any (fun m => t.hasInfix m)

/-- The number of bytes of the blanks at the start of `t`. -/
def blankWidth (t : Text) : Nat := t.length - (trimStart t).length

/-- The number of bytes of a character, by its first byte. -/
def charWidth (lead : UInt8) : Nat :=
  if lead < 0xc0 then 1 else if lead < 0xe0 then 2 else if lead < 0xf0 then 3 else 4

/-- The code point of the first character. -/
def codePoint? : Text → Option Nat
  | [] => none
  | lead :: rest =>
    let more := charWidth lead - 1
    let head := if more = 0 then lead.toNat else lead.toNat % (64 >>> more)
    some ((rest.take more).foldl (fun sum b => sum * 64 + b.toNat % 64) head)

/-- The code points of all characters. -/
def codePoints : Text → List Nat
  | [] => []
  | lead :: rest =>
    if Byte.isContinuation lead then codePoints rest
    else (codePoint? (lead :: rest)).toList ++ codePoints rest

/-- The last character of a text that is given in reverse. -/
def lastChar (reversed : Text) : Text :=
  ((reversed.dropWhile Byte.isContinuation).take 1) ++
    (reversed.takeWhile Byte.isContinuation).reverse

/-- A code point inside one of the ranges. -/
def inRanges (ranges : List (Nat × Nat)) (c : Nat) : Bool :=
  ranges.any (fun r => r.1 ≤ c && c ≤ r.2)

/-- A decimal digit. -/
def isDigitChar (c : Nat) : Bool := inRanges digitRanges c

/-- Whether the first character of `t` is a word character. -/
def startsWord (t : Text) : Bool := (codePoint? t).any (inRanges wordRanges)

/-- Whether a text given in reverse ends with a word character. -/
def endsWord (reversed : Text) : Bool := startsWord (lastChar reversed)

end PageLang.Text
