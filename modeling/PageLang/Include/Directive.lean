import PageLang.MaskedText.Lemmas
import PageLang.Diagnostic.Basic
import PageLang.Path

/-!
# Include directives

A directive is written `*include: path;` and may stand anywhere in live text. The path may be
quoted and is taken from the directory of the file that holds the directive.

* `MaskedText.directives`: the directives of a file, and the faults of those that break the form.
-/

namespace PageLang

/-- A directive: where it stands, and the name of the file it asks for. -/
structure Directive where
  span : Span
  target : Text
  deriving DecidableEq

namespace MaskedText

/-- A directive or its fault, and the offset to look on from. -/
structure DirectiveRead where
  result : Except Fault Directive
  next : Nat

/-- The directive whose keyword stands at `start`, in a file of `directory`. -/
def directiveAt (s : MaskedText) (directory : Path) (start : Nat) : DirectiveRead :=
  let colon := s.skipTrivia (start + 8)
  match s.byte? colon, s.findAny? [Byte.semicolon] colon with
  | some Byte.colon, some (stop, _) =>
    let path := (s.slice (colon + 1) stop).trim.stripBytes
      (fun b => b == Byte.singleQuote || b == Byte.doubleQuote)
    let span := ⟨start, stop + 1⟩
    if path.isEmpty then ⟨.error ⟨.invalidInclude, span⟩, stop + 1⟩
    else ⟨.ok ⟨span, (directory.join (.ofText path)).key⟩, stop + 1⟩
  | _, _ =>
    let stop := ((s.findAny? [Byte.semicolon, Byte.newline] start).map (·.1)).getD s.size
    ⟨.error ⟨.invalidInclude, ⟨start, stop⟩⟩, start + 1⟩

/-- Looking for directives goes on behind the start of the last one. -/
theorem lt_next_directiveAt (s : MaskedText) (directory : Path) (start : Nat) :
    start < (s.directiveAt directory start).next := by
  unfold directiveAt
  dsimp only
  split
  · next stop b hcolon hfind =>
    have h1 := le_skipTrivia_of_lt (byte?_eq_some_lt hcolon)
    have h2 := (findAny?_eq_some hfind).1
    split <;> dsimp only <;> omega
  · dsimp only
    omega

/-- The directives from `pos` on, faulty ones included, in order. -/
def directivesFrom (s : MaskedText) (directory : Path) (pos : Nat) :
    List (Except Fault Directive) :=
  match _hfind : s.indexOf? "*include" pos with
  | none => []
  | some start =>
    (s.directiveAt directory start).result ::
      s.directivesFrom directory (s.directiveAt directory start).next
termination_by s.size - pos
decreasing_by
  have h := indexOf?_eq_some _hfind (by decide)
  have h1 : (Text.ofString "*include").length = 8 := by decide
  have h2 := s.lt_next_directiveAt directory start
  omega

/-- The directives of a file in order, and the faults of the faulty ones in order. -/
def directives (s : MaskedText) (directory : Path) : List Directive × List Fault :=
  let found := s.directivesFrom directory 0
  (found.filterMap (fun r => r.toOption),
    found.filterMap (fun r => match r with | .error fault => some fault | .ok _ => none))

end MaskedText

end PageLang
