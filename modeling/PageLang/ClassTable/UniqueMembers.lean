import PageLang.Element.Basic

/-!
# One namespace per class

The variables, methods, style properties and named children of a class share one namespace. Of the
names that come in again, the one whose second use stands earliest is reported.
-/

namespace PageLang.UniqueMembers

/-- The names of the shared namespace with their spans, in order of declaration and the children
last. -/
def named (declarations : List Declaration) (children : List Element) : List (Text × Span) :=
  (declarations.filter (fun d => d.content.sharesNamespace)).map (fun d => (d.name, d.span)) ++
    children.filterMap (fun e => e.name.map (fun name => (name, e.span)))

/-- The entries whose name is among `seen` or stands earlier in the list. -/
def repeated (seen : List Text) : List (Text × Span) → List (Text × Span)
  | [] => []
  | (name, span) :: rest =>
    if seen.contains name then (name, span) :: repeated seen rest
    else repeated (name :: seen) rest

/-- The entry that starts first, and of several the first one. -/
def earliest? : List (Text × Span) → Option (Text × Span)
  | [] => none
  | e :: rest =>
    match earliest? rest with
    | none => some e
    | some other => some (if other.2.start < e.2.start then other else e)

/-- The fault of a class that uses a name twice. -/
def fault? (className : Text) (declarations : List Declaration) (children : List Element) :
    Option Fault :=
  (earliest? (repeated [] (named declarations children))).map
    (fun e => ⟨.duplicateMember className e.1, e.2⟩)

end PageLang.UniqueMembers
