import PageLang.Document
import PageLang.Lint.Basic

/-!
# Analysis

The analysis of a root file reports all that is wrong with it, and what a linter finds in the
function bodies, without making anything of the document.

* `Analysis.run`: the analysis of a root file.
-/

namespace PageLang

/-- What an analysis takes into account. -/
structure AnalysisOptions where
  /-- Report diagnostics of included files too. -/
  includeNested : Bool
  /-- Ask the linter. -/
  lint : Bool
  deriving DecidableEq, Repr

namespace AnalysisOptions

/-- The options where none are given. -/
def default : AnalysisOptions := ⟨false, true⟩

end AnalysisOptions

/-- What an analysis found. -/
structure Analysis where
  classes : ClassTable
  hierarchy : Hierarchy
  globals : OrderedMap Element
  dataImports : List DataImport
  warnings : List Diagnostic
  errors : List Diagnostic

namespace Document

/-- The function bodies of elements and of all their descendants. -/
def elementBodies (elements : List Element) : List Behavior :=
  (Element.preorderAll elements).flatMap (fun e => e.overrides.bodies.map (·.2.2))

/-- All function bodies: those of each class and the elements in it, then those of the tree. -/
def bodies (d : Document) : List Behavior :=
  d.classes.values.flatMap
      (fun c => c.members.bodies.map (·.2.2) ++ elementBodies c.children) ++
    elementBodies d.hierarchy.roots

/-- What a linter finds in one function body. -/
def lintBody (d : Document) (linter : Linter) (nested : Bool) (f : Behavior) : List Diagnostic :=
  let (file, line) := d.origin f.bodySpan.start
  if !nested && !d.isRootFile file then []
  else
    (linter ⟨f.body, f.parameters, line⟩).map
      (fun finding => .ofProblem (.lint finding.message) file finding.line finding.character)

end Document

namespace Analysis

/-- Whether nothing is wrong. -/
def isClean (a : Analysis) : Bool := a.errors.isEmpty

/-- The analysis of a document. -/
def ofDocument (d : Document) (linter : Option Linter) (options : AnalysisOptions) : Analysis :=
  let findings := match options.lint, linter with
    | true, some linter => d.bodies.flatMap (d.lintBody linter options.includeNested)
    | _, _ => []
  let diagnostics := d.report options.includeNested ++ findings
  { classes := d.classes, hierarchy := d.hierarchy, globals := d.globals
    dataImports := d.dataImports
    warnings := diagnostics.filter (fun g => !g.isError)
    errors := diagnostics.filter (·.isError) }

/-- The analysis of a root file. Only a root that cannot be read is a failure. -/
def run (sources : Sources) (root : Text) (linter : Option Linter) (options : AnalysisOptions) :
    Except Diagnostic Analysis :=
  (Document.load sources root).map (fun d => ofDocument d linter options)

end Analysis

end PageLang
