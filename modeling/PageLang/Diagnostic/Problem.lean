import PageLang.Diagnostic.Code

/-!
# Problems

What can be wrong with a source, one constructor for each cause. The code and the wording of a
problem are fixed here and nowhere else.
-/

namespace PageLang

/-- A cause of a diagnostic. -/
inductive Problem where
  /-- A class header without a block, met while reading classes. -/
  | classWithoutBlock
  /-- A class header without a block, met while reading the element tree. -/
  | classWithoutBracket
  /-- A class whose block is never closed. -/
  | classUnclosed
  /-- A class header that does not name the class and its parents. -/
  | classHeader
  /-- A member name that a class uses twice. -/
  | duplicateMember (className member : Text)
  /-- A name that is neither a class nor a tag. -/
  | unknownClass (name : Text)
  /-- A class met again on the way to its own ancestors. -/
  | inheritanceCycle (name through : Text)
  /-- A name before a colon that is no member name. -/
  | propertyName (written : Text)
  /-- An object value that is never closed. -/
  | valueUnclosed (member : Text)
  /-- A parameter list that is never closed. -/
  | parametersUnclosed (member : Text)
  /-- A parameter list without a body. -/
  | bodyMissing (member : Text)
  /-- A body that is never closed. -/
  | bodyUnclosed (member : Text)
  /-- A statement of a class body that is neither a declaration nor an element. -/
  | classStatement
  /-- A style property with a value that is no scalar. -/
  | styleValue (name : Text)
  /-- A scalar value that is never ended. -/
  | unterminated (member : Text)
  /-- A getter, setter or event handler that is no function. -/
  | functionExpected (member : Text)
  /-- An attribute that is no scalar. -/
  | scalarExpected (member : Text)
  /-- A state that is no block. -/
  | blockExpected (member : Text)
  /-- A top-level statement of no known kind. -/
  | topLevelStatement
  /-- A statement of an element body that is neither a declaration nor an element. -/
  | elementStatement
  /-- An element header that breaks the grammar of headers. -/
  | elementHeader (header : Text)
  /-- A font face without a block. -/
  | fontFaceWithoutBlock
  /-- A font face whose block is never closed. -/
  | fontFaceUnclosed
  /-- An element that is never ended. -/
  | elementUnended
  /-- An element whose block is never closed. -/
  | elementUnclosed (header : Text)
  /-- An element name used twice in the tree. -/
  | duplicateGlobal
  /-- A document without a root element. -/
  | documentRoot
  /-- A data import that breaks the grammar of imports. -/
  | dataImport
  /-- An include of a file that cannot be read. -/
  | missingInclude
  /-- An include that breaks the grammar of includes. -/
  | invalidInclude
  /-- An include of a file that is being included. -/
  | circularInclude (target : Text)
  /-- An include that brought errors in. -/
  | erroredInclude
  /-- A root file that cannot be read. -/
  | unreadableRoot (root reason : Text)
  /-- A generated script that cannot be printed again. -/
  | unprintable (reason : Text)
  /-- A degree of beautification that does not exist. -/
  | beautifyDegree
  /-- What a linter found. -/
  | lint (finding : Text)
  deriving DecidableEq

namespace Problem

/-- The code a problem belongs to. -/
def code : Problem → Code
  | classWithoutBlock | classWithoutBracket => .classOpen
  | classUnclosed => .classClose
  | classHeader => .classHeader
  | duplicateMember .. => .duplicateMember
  | unknownClass .. => .unknownClass
  | inheritanceCycle .. => .inheritanceCycle
  | propertyName .. => .propertyName
  | valueUnclosed .. | parametersUnclosed .. | bodyMissing .. | bodyUnclosed ..
  | classStatement => .invalidProperty
  | styleValue .. => .styleOverride
  | unterminated .. => .missingTerminator
  | functionExpected .. | scalarExpected .. | blockExpected .. => .memberValue
  | topLevelStatement | elementStatement | elementHeader .. | fontFaceWithoutBlock
  | fontFaceUnclosed => .unrecognizedStatement
  | elementUnended | elementUnclosed .. => .elementBlock
  | duplicateGlobal => .duplicateGlobal
  | documentRoot => .documentRoot
  | dataImport => .dataImport
  | missingInclude => .missingInclude
  | invalidInclude => .invalidInclude
  | circularInclude .. => .circularInclude
  | erroredInclude => .erroredInclude
  | unreadableRoot .. => .sourceUnreadable
  | unprintable .. => .format
  | beautifyDegree => .config
  | lint .. => .lint

/-- The wording of a problem. -/
def message : Problem → Text
  | classWithoutBlock => "Missing \x7b for class definition"
  | classWithoutBracket => "Class should have an opening bracket"
  | classUnclosed => "Missing \x7d for class definition"
  | classHeader => "Class declaration is invalid"
  | duplicateMember className member =>
    "Class '" ++ className ++ "' has a duplicate member '" ++ member ++
      "'. Variables, methods, style properties and named children should have unique names"
  | unknownClass name =>
    "The class '" ++ name ++ "' is not found. Probably it is not included."
  | inheritanceCycle name through =>
    "Class '" ++ name ++ "' inherits from itself through '" ++ through ++ "'"
  | propertyName written => "Invalid property name '" ++ written ++ "'"
  | valueUnclosed member => "Missing \x7d for the value of '" ++ member ++ "'"
  | parametersUnclosed member => "Missing ) for the parameters of '" ++ member ++ "'"
  | bodyMissing member => "Missing \x7b after the parameters of '" ++ member ++ "'"
  | bodyUnclosed member => "Missing \x7d for the body of '" ++ member ++ "'"
  | classStatement => "The property is invalid"
  | styleValue name =>
    "Style property '" ++ name ++ "' cannot be overridden with a structural value"
  | unterminated member => "Missing ';' after '" ++ member ++ "'"
  | functionExpected member =>
    "'" ++ member ++ "' should be declared as a function: " ++ member ++
      ": (parameters) \x7b ... \x7d"
  | scalarExpected member => "Attribute '" ++ member ++ "' should have a scalar value"
  | blockExpected member => "State '" ++ member ++ "' should be a block of style properties"
  | topLevelStatement =>
    Text.ofString "The statement is not recognized. Should be *include, *json, *font-face, " ++
      "class or hierarchy"
  | elementStatement =>
    "The statement is not recognized. Should be a property or a child element"
  | elementHeader header => "Invalid element reference '" ++ header ++ "'"
  | fontFaceWithoutBlock =>
    "*font-face should be followed by a \x7b ... \x7d block"
  | fontFaceUnclosed => "Missing \x7d for *font-face"
  | elementUnended => "An element should end with ; or have a \x7b ... \x7d body"
  | elementUnclosed header => "Missing \x7d for element '" ++ header ++ "'"
  | duplicateGlobal => "Duplicate global name is found"
  | documentRoot => "Your hierarchy should have html as a parent node"
  | dataImport =>
    Text.ofString "*json directive is invalid. Should be in format of " ++
      "'*json: objectName=path/to/file.json;'"
  | missingInclude => "Included file does not exist"
  | invalidInclude =>
    Text.ofString "*include directive is invalid. Should be in format of " ++
      "'*include: path/to/file.nazca;'"
  | circularInclude target => "Circular include of '" ++ target ++ "'"
  | erroredInclude => "Included file contains errors"
  | unreadableRoot root reason => "Cannot read '" ++ root ++ "': " ++ reason
  | unprintable reason => "Generated script could not be formatted: " ++ reason
  | beautifyDegree => "'beautify' should be one of these values [-1;0;1]"
  | lint finding => finding

end Problem

end PageLang
