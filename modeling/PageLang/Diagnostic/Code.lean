import PageLang.Text.Basic

/-!
# Diagnostic codes

Every problem belongs to a code, which has an identifier, a category and a sentence about the rule
that was broken. Identifiers that name none of the known codes are kept as they are and count as
structural.
-/

namespace PageLang

/-- What kind of rule a code stands for. -/
inductive Category where
  | structural
  | semantic
  | resource
  | advisory
  deriving DecidableEq, Repr

/-- The codes of diagnostics. -/
inductive Code where
  | classOpen
  | classHeader
  | classClose
  | duplicateMember
  | unknownClass
  | inheritanceCycle
  | propertyName
  | invalidProperty
  | styleOverride
  | missingTerminator
  | memberValue
  | unrecognizedStatement
  | elementBlock
  | duplicateGlobal
  | documentRoot
  | dataImport
  | missingInclude
  | invalidInclude
  | circularInclude
  | erroredInclude
  | sourceUnreadable
  | format
  | config
  | lint
  | other (id : Text)
  deriving DecidableEq

namespace Code

/-- The known codes. -/
def known : List Code :=
  [classOpen, classHeader, classClose, duplicateMember, unknownClass, inheritanceCycle,
    propertyName, invalidProperty, styleOverride, missingTerminator, memberValue,
    unrecognizedStatement, elementBlock, duplicateGlobal, documentRoot, dataImport,
    missingInclude, invalidInclude, circularInclude, erroredInclude, sourceUnreadable, format,
    config, lint]

/-- The identifier of a code. -/
def id : Code → Text
  | classOpen => "NZ-ERR-CLASS-001"
  | classHeader => "NZ-ERR-CLASS-002"
  | classClose => "NZ-ERR-CLASS-003"
  | duplicateMember => "NZ-ERR-CLASS-004"
  | unknownClass => "NZ-ERR-CLASS-005"
  | inheritanceCycle => "NZ-ERR-CLASS-006"
  | propertyName => "NZ-ERR-DECL-001"
  | invalidProperty => "NZ-ERR-DECL-002"
  | styleOverride => "NZ-ERR-DECL-003"
  | missingTerminator => "NZ-ERR-DECL-004"
  | memberValue => "NZ-ERR-DECL-005"
  | unrecognizedStatement => "NZ-ERR-TREE-001"
  | elementBlock => "NZ-ERR-TREE-002"
  | duplicateGlobal => "NZ-ERR-TREE-003"
  | documentRoot => "NZ-ERR-TREE-004"
  | dataImport => "NZ-ERR-JSON-001"
  | missingInclude => "NZ-ERR-INCLUDE-001"
  | invalidInclude => "NZ-ERR-INCLUDE-002"
  | circularInclude => "NZ-ERR-INCLUDE-003"
  | erroredInclude => "NZ-ERR-INCLUDE-004"
  | sourceUnreadable => "NZ-ERR-INCLUDE-005"
  | format => "NZ-ERR-FORMAT-001"
  | config => "NZ-ERR-CONFIG-001"
  | lint => "NZ-WARN-LINT-001"
  | other id => id

/-- The code with an identifier. -/
def ofId (id : Text) : Code := (known.find? (fun c => c.id == id)).getD (other id)

/-- The category of a code. -/
def category : Code → Category
  | duplicateMember | unknownClass | inheritanceCycle | styleOverride | memberValue
  | duplicateGlobal | documentRoot | dataImport | config => .semantic
  | missingInclude | invalidInclude | circularInclude | erroredInclude | sourceUnreadable =>
    .resource
  | lint => .advisory
  | _ => .structural

/-- The rule a code stands for. -/
def describe : Code → Text
  | classOpen => "A class header must be followed by '\x7b'."
  | classHeader => "A class header reads 'class Name < Parent < ...'."
  | classClose => "Every class block is closed by a matching '\x7d'."
  | duplicateMember =>
    "Variables, methods, style properties and named children share one namespace per class."
  | unknownClass => "Every parent is a declared class or a raw tag name."
  | inheritanceCycle => "A class never inherits from itself."
  | propertyName => "Property names are identifiers with an optional sigil."
  | invalidProperty => "Class bodies contain declarations and element references only."
  | styleOverride => "Style properties only take scalar values."
  | missingTerminator => "Scalar declarations end with ';'."
  | memberValue => "Getters, setters and event handlers are functions; attributes are scalars."
  | unrecognizedStatement =>
    "Top-level statements are *include, *json, *font-face, class or hierarchy."
  | elementBlock => "An element reference ends with ';' or a '\x7b ... \x7d' block."
  | duplicateGlobal => "Named elements are unique across the visible tree."
  | documentRoot => "A compiled document has an html root element."
  | dataImport => "*json directives read '*json: objectName=path/to/file.json;'."
  | missingInclude => "Included files exist relative to the including file."
  | invalidInclude => "*include directives read '*include: path;'."
  | circularInclude => "The include graph has no cycles."
  | erroredInclude => "Included files parse without errors."
  | sourceUnreadable => "The root source file is readable."
  | format => "Generated behavior code parses before formatting."
  | config => "Configuration values are within their allowed range."
  | lint => "Embedded behavior code passes the linter."
  | other _ => "Unknown diagnostic."

end Code

end PageLang
