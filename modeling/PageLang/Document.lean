import PageLang.ClassTable.Parser
import PageLang.Hierarchy.DataImport
import PageLang.Hierarchy.GlobalNames
import PageLang.Include.Expansion
import PageLang.Inheritance.Resolved

/-!
# Documents

A document is all that is known of a root file and the files it includes: the flattened text, its
classes and its tree, what the classes resolve to, and every diagnostic, moved to the file that
caused it.

* `Document.load`: the document of a root file.
* `Document.report`: the diagnostics as the author of the root file sees them.
-/

namespace PageLang

/-- A root file with all that it includes. -/
structure Document where
  root : Text
  expansion : Expansion
  classes : ClassTable
  resolved : OrderedMap ResolvedClass
  hierarchy : Hierarchy
  globals : OrderedMap Element
  dataImports : List DataImport
  diagnostics : List Diagnostic

namespace Document

/-- The error of a result. -/
def error? {α : Type} : Except Diagnostic α → Option Diagnostic
  | .error d => some d
  | .ok _ => none

/-- The diagnostics of references that elements and their descendants make to unknown classes. -/
def referenceErrors (table : ClassTable) (file text : Text) (elements : List Element) :
    List Diagnostic :=
  (Element.preorderAll elements).filterMap
    (fun e => (error? (table.resolveElement file e)).map (·.located text))

/-- The diagnostics of a class that does not resolve, and of the elements in it. -/
def classErrors (table : ClassTable) (file text : Text) (name : Text) (d : ClassDefinition) :
    List Diagnostic :=
  (error? (table.resolve name)).toList.map (·.located text) ++
    referenceErrors table file text d.children

/-- What the classes of a table resolve to, as far as they do. -/
def resolveAll (table : ClassTable) : OrderedMap ResolvedClass :=
  OrderedMap.ofList (table.keys.filterMap
    (fun name => (table.resolve name).toOption.map (fun r => (name, r))))

/-- The document of an expanded root file. -/
def ofExpansion (root : Text) (expansion : Expansion) : Document :=
  let text := expansion.text
  let code := MaskedText.ofText .declarations text
  let (found, classFaults) := code.classesRecovering root
  let classes : ClassTable := found.map fun d =>
    { d with sourceFile := (expansion.positionMap.fileAt? text d.span.start).getD d.sourceFile }
  let (hierarchy, treeFaults) := code.hierarchyRecovering
  let (dataImports, importFaults) := code.dataImports
  let globals := GlobalNames.ofRoots hierarchy.roots
  let flat :=
    (classFaults ++ treeFaults ++ importFaults ++ globals.faults).map (·.diagnostic root text) ++
      classes.entries.flatMap (fun e => classErrors classes root text e.1 e.2) ++
      referenceErrors classes root text hierarchy.roots
  { root, expansion, classes, hierarchy, dataImports
    resolved := resolveAll classes
    globals := globals.table
    diagnostics := expansion.diagnostics ++ flat.map expansion.positionMap.relocate }

/-- The document of a root file. Only a root that cannot be read is a failure. -/
def load (sources : Sources) (root : Text) : Except Diagnostic Document :=
  (sources.expand root).map (ofExpansion root)

/-- The file and the line that an offset of the flattened text comes from. -/
def origin (d : Document) (offset : Nat) : Text × Nat :=
  let line := (d.expansion.text.place offset).line
  (d.expansion.positionMap.sourceLine? line).getD (d.root, line)

/-- Whether a file is the root file. -/
def isRootFile (d : Document) (file : Text) : Bool := file == d.root

/-- Whether one of the diagnostics stops a build. -/
def hasErrors (d : Document) : Bool := d.diagnostics.any (·.isError)

/-- The included files that hold errors. -/
def failingFiles (d : Document) : List Text :=
  (d.diagnostics.filter (fun g => g.isError && !d.isRootFile g.file)).map (·.file)

/-- Whether an include brought errors in: its own lines hold the lines of an include whose file
holds errors. -/
def isFailing (d : Document) (r : IncludeRecord) : Bool :=
  d.expansion.includes.any (fun inner =>
    r.flatStart ≤ inner.flatStart && inner.flatStop ≤ r.flatStop &&
      d.failingFiles.contains inner.includedFile)

/-- The diagnostics, with those of included files if `nested` is set. Without them, each include of
the root file that brought errors in is reported itself. -/
def report (d : Document) (nested : Bool) : List Diagnostic :=
  if nested then d.diagnostics
  else
    d.diagnostics.filter (fun g => d.isRootFile g.file) ++
      (d.expansion.includes.filter (fun r => r.depth == 0 && d.isFailing r)).map
        (fun r => .ofProblem .erroredInclude r.includingFile r.place.line r.place.column)

end Document

end PageLang
