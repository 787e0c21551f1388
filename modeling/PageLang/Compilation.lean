import PageLang.Document
import PageLang.Inheritance.Tag
import PageLang.Script.Beautify

/-!
# Compilation

Compiling a root file resolves its tree and qualifies the references in every function body, once
each. Any error stops the compilation before that.

* `Compilation.run`: the unit that a root file compiles to, or its diagnostics.
-/

namespace PageLang

/-- What a compilation takes into account. -/
structure CompileOptions where
  beautify : Beautify
  /-- Report diagnostics of included files too. -/
  includeNested : Bool
  deriving DecidableEq, Repr

namespace CompileOptions

/-- The options where none are given. -/
def default : CompileOptions := ⟨.asIs, false⟩

end CompileOptions

/-- A function body before and after its references are qualified. -/
structure QualifiedBody where
  /-- The name of a class, or the way to an element. -/
  owner : Text
  member : Text
  kind : BodyKind
  context : BodyContext
  parameters : List Text
  source : Text
  qualified : Text

/-- An element with all that it resolves to. -/
structure CompiledElement where
  name : Option Text
  tag : Text
  classRefs : List Text
  text : Option Value
  resolved : ResolvedClass
  children : List CompiledElement

/-- What a root file compiles to. -/
structure Compilation where
  classes : ClassTable
  resolved : OrderedMap ResolvedClass
  tree : List CompiledElement
  fontFaces : List FontFace
  dataImports : List DataImport
  bodies : List QualifiedBody
  beautify : Beautify
  warnings : List Diagnostic

namespace Compilation

/-- How an element is written in the way to it. -/
def elementLabel (name : Option Text) (classRefs : List Text) : Text :=
  name.getD [] ++ classRefs.flatMap (fun r => Byte.dot :: r)

/-- The function bodies of members, with the references to `names` qualified. -/
def qualifyMembers (owner : Text) (m : Members) (names : ResolvableNames)
    (context : BodyContext) : List QualifiedBody :=
  m.bodies.map fun (kind, member, f) =>
    { owner, member, kind, context
      parameters := f.parameters
      source := f.body
      qualified := Qualify.qualify f.body names f.parameters context }

mutual

/-- An element and its descendants compiled, and their function bodies. The elements around it are
written in front of its name. -/
def element (d : Document) (around : Text) (context : BodyContext) :
    Element → Except Diagnostic (CompiledElement × List QualifiedBody)
  | ⟨name, classRefs, overrides, children, span⟩ =>
    let e : Element := ⟨name, classRefs, overrides, children, span⟩
    match d.classes.resolveElement d.root e with
    | .error g => .error (g.located d.expansion.text)
    | .ok resolved =>
      let owner := around ++ elementLabel name classRefs
      let own := qualifyMembers owner overrides resolved.resolvableNames context
      (elements d (owner ++ [Byte.greater]) context children).map fun (compiled, bodies) =>
        ({ name, classRefs, resolved
           tag := d.classes.elementTag classRefs
           text := d.classes.elementText? e
           children := compiled }, own ++ bodies)

/-- The elements of a list compiled one after the other. -/
def elements (d : Document) (around : Text) (context : BodyContext) :
    List Element → Except Diagnostic (List CompiledElement × List QualifiedBody)
  | [] => .ok ([], [])
  | e :: rest =>
    match element d around context e with
    | .error g => .error g
    | .ok (compiled, bodies) =>
      (elements d around context rest).map (fun r => (compiled :: r.1, bodies ++ r.2))

end

/-- The function bodies of classes and of the elements in them. -/
def classBodies (d : Document) :
    List (Text × ClassDefinition) → Except Diagnostic (List QualifiedBody)
  | [] => .ok []
  | (name, c) :: rest =>
    let own := match d.resolved.get? name with
      | some r => qualifyMembers name c.members r.resolvableNames .instanced
      | none => []
    match elements d (name ++ [Byte.greater]) .instanced c.children with
    | .error g => .error g
    | .ok (_, bodies) => (classBodies d rest).map (own ++ bodies ++ ·)

/-- The diagnostics of a document as a compilation sees them: a document without errors has to
have a root element. -/
def diagnostics (d : Document) (nested : Bool) : List Diagnostic :=
  d.report nested ++
    if !d.hasErrors && !d.classes.hasDocumentRoot d.hierarchy.roots then
      [.ofProblem .documentRoot d.root 1 1]
    else []

/-- What a document compiles to, or else its diagnostics. -/
def ofDocument (d : Document) (options : CompileOptions) :
    Except (List Diagnostic) Compilation :=
  let found := diagnostics d options.includeNested
  if found.any (·.isError) || d.hasErrors then .error found
  else
    match classBodies d d.classes.entries, elements d [] .freeStanding d.hierarchy.roots with
    | .error g, _ => .error [g]
    | _, .error g => .error [g]
    | .ok inClasses, .ok (tree, inTree) =>
      .ok
        { classes := d.classes, resolved := d.resolved, tree
          fontFaces := d.hierarchy.fontFaces
          dataImports := d.dataImports
          bodies := inClasses ++ inTree
          beautify := options.beautify
          warnings := found }

/-- What a root file compiles to, or else its diagnostics. -/
def run (sources : Sources) (root : Text) (options : CompileOptions) :
    Except (List Diagnostic) Compilation :=
  match Document.load sources root with
  | .error g => .error [g]
  | .ok d => ofDocument d options

end Compilation

end PageLang
