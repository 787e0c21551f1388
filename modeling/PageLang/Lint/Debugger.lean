import PageLang.Lint.Basic
import PageLang.Lint.Lexer

/-!
# Forgotten debugger statements

The linter that finds `debugger` statements in function bodies. A body is read as the body of a
function with the given parameters, by a script parser that answers with offsets of what it was
given.

* `Debugger.linterOf`: the linter with some script parser.
* `Debugger.linter`: the linter.
-/

namespace PageLang.Debugger

/-- What a script parser makes of a script. -/
structure Parse where
  /-- The messages of the syntax errors, with their offsets where they have one. -/
  errors : List (Text × Option Nat)
  /-- The offsets of the `debugger` statements. -/
  debuggers : List Nat
  deriving DecidableEq

/-- What stands in front of a body when it is read as a function. -/
def head (parameters : List Text) : Text :=
  "(function (" ++ Text.join ", " parameters ++ ") "

/-- A body as the script that is parsed. -/
def script (parameters : List Text) (body : Text) : Text := head parameters ++ body ++ ");"

/-- The message about a `debugger` statement. -/
def message : Text := "Forgotten 'debugger' statement?"

/-- Reports the syntax errors of a body and, if there are none, its `debugger` statements. One in
the parameters is placed at the start of the body, and so is an error without an offset. -/
def linterOf (parse : Text → Parse) : Linter := fun r =>
  let head := head r.parameters
  let found := parse (script r.parameters r.body)
  found.errors.map (fun e => r.findingAt e.1 (e.2.getD head.length - head.length)) ++
    if found.errors.isEmpty then
      found.debuggers.map (fun offset => r.findingAt message (offset - head.length))
    else []

/-- Finds the `debugger` statements of a body by its tokens. Syntax errors go unnoticed. -/
def linter : Linter := linterOf fun script => ⟨[], Lint.Lexer.offsets script⟩

end PageLang.Debugger
