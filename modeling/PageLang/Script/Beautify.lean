import PageLang.Diagnostic.Basic

/-!
# Beautifying scripts

A generated script is left as it is, or printed again by a printer that the host supplies, without
blank space or with it. The configuration gives the degree as a number.
-/

namespace PageLang

/-- How a script is printed. -/
inductive Beautify where
  | minify
  /-- As it was generated. -/
  | asIs
  | pretty
  deriving DecidableEq, Repr

namespace Beautify

/-- The number of a degree. -/
def toInt : Beautify → Int
  | minify => -1
  | asIs => 0
  | pretty => 1

/-- The degree of a number. -/
def ofInt? (n : Int) : Option Beautify :=
  if n = -1 then some minify else if n = 0 then some asIs else if n = 1 then some pretty else none

/-- The degree that a configuration file sets. -/
def ofConfig (n : Int) (file : Text) : Except Diagnostic Beautify :=
  match ofInt? n with
  | some b => .ok b
  | none => .error (.ofProblem .beautifyDegree file 1 1)

theorem ofInt?_toInt (b : Beautify) : ofInt? b.toInt = some b := by cases b <;> rfl

end Beautify

/-- Prints a script again, without blank space if asked to, or says why it cannot. -/
abbrev ScriptPrinter := (minify : Bool) → Text → Except Text Text

/-- A script printed to a degree. -/
def Beautify.format (b : Beautify) (print : ScriptPrinter) (script : Text) :
    Except Diagnostic Text :=
  match b with
  | .asIs => .ok script
  | _ =>
    match print (b = .minify) script with
    | .ok printed => .ok printed
    | .error reason => .error (.ofProblem (.unprintable reason) [] 1 1)

end PageLang
