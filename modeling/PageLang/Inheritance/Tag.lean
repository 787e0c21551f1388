import PageLang.Inheritance.Ancestry

/-!
# The tag of an element

An element is rendered with a tag that its class references name or inherit, and shows the text of
its own or of its classes. The walks over the parents of classes end on every table, also where
classes inherit from themselves.

* `ClassTable.isGraphical`: whether a name is a raw tag or inherits from one.
* `ClassTable.elementTag`: the tag of an element.
-/

namespace PageLang.ClassTable

mutual

/-- Whether `name` is a raw tag or inherits from one, where the classes of `path` are passed over.
-/
def isGraphicalFrom (table : ClassTable) (path : List Text) (name : Text) :
    Except Diagnostic Bool :=
  match _hget : table.get? name with
  | none =>
    if Vocabulary.isTag name then .ok true else .error (unknownClass name ⟨[], ⟨0, 0⟩, []⟩)
  | some d =>
    if _hpath : name ∈ path then .ok false
    else table.anyGraphicalFrom (name :: path) d.parents
termination_by (table.unseen path, 0)
decreasing_by
  exact Prod.Lex.left _ _ (OrderedMap.unseen_cons_lt (OrderedMap.mem_keys_of_get? _hget) _hpath)

/-- Whether one of the names is a raw tag or inherits from one. The names behind the first such
name are not looked at. -/
def anyGraphicalFrom (table : ClassTable) (path : List Text) :
    (names : List Text) → Except Diagnostic Bool
  | [] => .ok false
  | name :: rest =>
    match table.isGraphicalFrom path name with
    | .error e => .error e
    | .ok true => .ok true
    | .ok false => table.anyGraphicalFrom path rest
termination_by names => (table.unseen path, names.length + 1)
decreasing_by
  · exact Prod.Lex.right _ (Nat.succ_pos _)
  · exact Prod.Lex.right _ (by simp)

end

/-- Whether a name is a raw tag or inherits from one. -/
def isGraphical (table : ClassTable) (name : Text) : Except Diagnostic Bool :=
  table.isGraphicalFrom [] name

/-- The number of classes whose own names are not in `path`. -/
def unpassed (table : ClassTable) (path : List Text) : Nat :=
  ((table.values.map (·.name)).filter (fun n => !path.contains n)).length

/-- Passing a class for the first time leaves fewer. -/
theorem unpassed_cons_lt {table : ClassTable} {path : List Text} {d : ClassDefinition}
    (hd : d ∈ table.values) (hpath : d.name ∉ path) :
    table.unpassed (d.name :: path) < table.unpassed path :=
  OrderedMap.length_filter_unseen_lt (List.mem_map_of_mem hd) hpath

/-- The first raw tag among the parents, or reached through them, where the classes that have a name
of `path` are passed over. -/
def inheritedTag? (table : ClassTable) (path : List Text) : (parents : List Text) → Option Text
  | [] => none
  | parent :: rest =>
    let found := match _hget : table.get? parent with
      | some d =>
        if _hpath : d.name ∈ path then none else table.inheritedTag? (d.name :: path) d.parents
      | none => if Vocabulary.isTag parent then some parent else none
    match found with
    | some tag => some tag
    | none => table.inheritedTag? path rest
termination_by parents => (table.unpassed path, parents.length)
decreasing_by
  · exact Prod.Lex.left _ _ (unpassed_cons_lt (OrderedMap.mem_values_of_get? _hget) _hpath)
  · exact Prod.Lex.right _ (Nat.lt_succ_self _)

/-- The tag that a class reference gives: one that a class of the name inherits, or else the name
itself. -/
def referenceTag? (table : ClassTable) (reference : Text) : Option Text :=
  let inherited := (table.get? reference).bind (fun d => table.inheritedTag? [d.name] d.parents)
  match inherited with
  | some tag => some tag
  | none => if Vocabulary.isTag reference then some reference else none

/-- The tag of an element with these class references. The last reference that gives a tag
decides. -/
def elementTag (table : ClassTable) (classRefs : List Text) : Text :=
  (classRefs.reverse.findSome? table.referenceTag?).getD Vocabulary.defaultTag

/-- The public variable that holds the text of members. -/
def shownText? (m : Members) : Option Value :=
  (m.vars.pub.get? "text").or (m.vars.pub.get? "html")

/-- The text an element shows: its own, or that of its last class that has one. -/
def elementText? (table : ClassTable) (e : Element) : Option Value :=
  (shownText? e.overrides).or
    (e.classRefs.reverse.findSome? (fun r => (table.get? r).bind (fun d => shownText? d.members)))

/-- Whether one of the roots is rendered as the root of a document. -/
def hasDocumentRoot (table : ClassTable) (roots : List Element) : Bool :=
  roots.any (fun e => table.elementTag e.classRefs == Vocabulary.rootTag)

end PageLang.ClassTable
