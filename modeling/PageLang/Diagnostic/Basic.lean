import PageLang.Diagnostic.Problem
import PageLang.Text.Position

/-!
# Diagnostics

A diagnostic reports a problem at a place of a file. Parsers answer with faults, a problem and the
span of the text it concerns; a fault becomes a diagnostic once the file and the text are known. A
diagnostic that has a span can be located later, and stands at line and column 0 until then.
-/

namespace PageLang

/-- Whether a diagnostic stops a build. -/
inductive Severity where
  | error
  | warning
  deriving DecidableEq, Repr

/-- A pair of offsets: the first byte, and the first byte after. -/
structure Span where
  start : Nat
  stop : Nat
  deriving DecidableEq, Repr, Inhabited

/-- A line or column, or a range of them with both ends included. -/
inductive Extent where
  | point (n : Nat)
  | range (first last : Nat)
  deriving DecidableEq, Repr

namespace Extent

/-- The extent from `first` to `last`. -/
def spanning (first last : Nat) : Extent := if first = last then point first else range first last

/-- The first line or column of an extent. -/
def first : Extent → Nat
  | point n => n
  | range first _ => first

/-- The last line or column of an extent. -/
def last : Extent → Nat
  | point n => n
  | range _ last => last

@[simp] theorem first_spanning (a b : Nat) : (spanning a b).first = a := by
  unfold spanning
  split <;> rfl

@[simp] theorem last_spanning (a b : Nat) : (spanning a b).last = b := by
  unfold spanning
  split
  · assumption
  · rfl

end Extent

/-- A message for the author of a source. -/
structure Diagnostic where
  message : Text
  line : Extent
  column : Extent
  file : Text
  severity : Severity
  code : Option Code
  span : Option Span
  deriving DecidableEq

namespace Diagnostic

/-- A message under a code at a line and a column. Advice is a warning, all else an error. -/
def new (code : Code) (message file : Text) (line column : Nat) : Diagnostic :=
  { message, file, line := .point line, column := .point column
    severity := if code.category = .advisory then .warning else .error
    code := some code, span := none }

/-- The diagnostic of a problem at a line and a column. -/
def ofProblem (problem : Problem) (file : Text) (line column : Nat) : Diagnostic :=
  new problem.code problem.message file line column

/-- The lines and columns of the recorded span within `text`. -/
def located (d : Diagnostic) (text : Text) : Diagnostic :=
  match d.span with
  | none => d
  | some span =>
    let first := text.place span.start
    let last := text.place (max span.stop span.start)
    { d with
      line := .spanning first.line last.line
      column := .spanning first.column last.column }

/-- A message under a code about a span of `text`. -/
def spanning (code : Code) (message file text : Text) (span : Span) : Diagnostic :=
  { new code message file 0 0 with span := some span }.located text

/-- Whether a diagnostic stops a build. -/
def isError (d : Diagnostic) : Bool := d.severity = .error

/-- The category of the code. Without a code it is structural. -/
def category (d : Diagnostic) : Category := (d.code.map Code.category).getD .structural

end Diagnostic

/-- A problem and the span it concerns. -/
structure Fault where
  problem : Problem
  span : Span
  deriving DecidableEq

namespace Fault

/-- The diagnostic of a fault whose place is not looked up yet. -/
def unlocated (f : Fault) (file : Text) : Diagnostic :=
  { Diagnostic.ofProblem f.problem file 0 0 with span := some f.span }

/-- The diagnostic of a fault in `text`, which stands in `file`. -/
def diagnostic (f : Fault) (file text : Text) : Diagnostic := (f.unlocated file).located text

end Fault

end PageLang
