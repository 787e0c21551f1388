import PageLang.Diagnostic.Basic

/-!
# Linters

A linter looks at one function body at a time and answers with findings, placed in the file that
the body comes from.
-/

namespace PageLang

/-- A function body to look at. -/
structure LintRequest where
  body : Text
  parameters : List Text
  /-- The line of the file on which the body starts. -/
  lineOffset : Nat
  deriving DecidableEq

/-- Something a linter found. -/
structure LintFinding where
  message : Text
  line : Nat
  character : Nat
  deriving DecidableEq

/-- A judge of function bodies. -/
abbrev Linter := LintRequest → List LintFinding

/-- The finding at an offset of a body. -/
def LintRequest.findingAt (r : LintRequest) (message : Text) (offset : Nat) : LintFinding :=
  let place := r.body.place offset
  ⟨message, r.lineOffset + (place.line - 1), place.column⟩

end PageLang
