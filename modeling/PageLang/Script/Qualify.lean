import PageLang.Script.Scope

/-!
# Qualified references

In the body of a behavior the names of members are written bare, and also as a quoted subscript.
Each such reference that no local declaration hides is qualified: it is replaced by a property of
the receiver, or of the namespace of the protected members. Everything else is copied byte for byte.

* `Qualify.replacements`: what is replaced, in order.
* `Text.replaceAll`: the text that replacements make.
* `Qualify.qualify`: the body with its references qualified.
-/

namespace PageLang

/-- Where a body runs. -/
inductive BodyContext where
  /-- Inside an instance, which holds its protected members. -/
  | instanced
  /-- Outside of instances, where protected members are global. -/
  | freeStanding
  deriving DecidableEq, Repr

/-- The names that references may mean. A name that is both counts as protected. -/
structure ResolvableNames where
  pub : List Text
  prot : List Text

/-- A range of a text, and what takes its place. -/
structure Replacement where
  start : Nat
  width : Nat
  text : Text
  deriving DecidableEq

namespace Text

/-- The text that starts at `offset`, with replacements made that lie in it in increasing order. -/
def replaceFrom (offset : Nat) (t : Text) : List Replacement → Text
  | [] => t
  | r :: rest =>
    t.take (r.start - offset) ++ r.text ++
      replaceFrom (r.start + r.width) (t.drop (r.start + r.width - offset)) rest

/-- A text with replacements made, which are disjoint and in increasing order. -/
def replaceAll (t : Text) (rs : List Replacement) : Text := t.replaceFrom 0 rs

end Text

namespace Qualify

/-- The variable that holds the instance. -/
def receiver : Text := "__nazcaThis"
/-- The property of the instance that holds its protected members. -/
def protectedNamespace : Text := "__nazcaProtected"
/-- The object that holds what is global. -/
def globalNamespace : Text := "window"

/-- How a reference is written. -/
inductive Form where
  /-- The bare name. -/
  | bare
  /-- The name in quotes and brackets. -/
  | subscript
  deriving DecidableEq, Repr

/-- A name written in the body. -/
structure Reference where
  offset : Nat
  width : Nat
  name : Text
  form : Form
  deriving DecidableEq

/-- The spellings of a name. -/
def spellings (name : Text) : List (Text × Form) :=
  [(name, .bare), ("['" ++ name ++ "']", .subscript), ("[\"" ++ name ++ "\"]", .subscript),
    ([Byte.lbracket, Byte.backquote] ++ name ++ [Byte.backquote, Byte.rbracket], .subscript)]

/-- What takes the place of a reference that is written `occurrence`. -/
def qualified (context : BodyContext) (isProtected : Bool) (r : Reference) (occurrence : Text) :
    Text :=
  let base := match isProtected, context with
    | false, _ => receiver
    | true, .instanced => receiver ++ "." ++ protectedNamespace
    | true, .freeStanding => globalNamespace
  match r.form with
  | .subscript => base ++ occurrence
  | .bare => if r.name.isIdentifier then base ++ "." ++ r.name else base ++ "['" ++ r.name ++ "']"

/-- Something met while a body is read. -/
inductive Event where
  | opens
  | closes
  | declares (d : LocalDeclaration)
  | refers (r : Reference)

/-- What is known and done after a part of a body. -/
structure Progress where
  scopes : ScopeStack
  /-- The offset after the last replacement. -/
  covered : Nat
  /-- The replacements made, the last one first. -/
  made : List Replacement

end Qualify

namespace MaskedText

open Qualify

/-- The last byte before `i` that is not ASCII whitespace. -/
def inkBefore? (s : MaskedText) : (i : Nat) → Option UInt8
  | 0 => none
  | i + 1 =>
    match s.byte? i with
    | some b => if Byte.isSpace b then s.inkBefore? i else some b
    | none => none

/-- Whether what starts at `i` is the end of a longer word or a property that is read. The dots of
a spread read no property. -/
def joinsBefore (s : MaskedText) (i : Nat) : Bool :=
  if i = 0 then false
  else match s.byte? (i - 1) with
    | some b =>
      if b = Byte.dot then !(3 ≤ i && s.slice (i - 3) i == Text.ofString "...") else Byte.isWord b
    | none => false

/-- Whether what ends at `stop` is the start of a longer word, or from `start` on a key of an
object. -/
def joinsAfter (s : MaskedText) (start stop : Nat) : Bool :=
  match s.byte? stop with
  | none => false
  | some b =>
    Byte.isWord b ||
      (s.byte? (s.skipSpace stop) == some Byte.colon &&
        (s.inkBefore? start).any (fun p => p == Byte.lbrace || p == Byte.comma))

/-- The live occurrences of a pattern at or after `start`, none overlapping another. An empty
pattern occurs nowhere. -/
def occurrences (s : MaskedText) (pattern : Text) (start : Nat) : List Nat :=
  if _hp : pattern = [] then []
  else match _h : s.indexOf? pattern start with
    | none => []
    | some i => i :: s.occurrences pattern (i + pattern.length)
termination_by s.size - start
decreasing_by
  have h1 := indexOf?_eq_some _h _hp
  have h2 := List.length_pos_iff.2 _hp
  omega

/-- The references that spell a name in one form. -/
def referencesAs (s : MaskedText) (name pattern : Text) (form : Form) : List Reference :=
  ((s.occurrences pattern 0).filter
      (fun i => !(s.joinsBefore i || s.joinsAfter i (i + pattern.length)))).map
    (fun i => ⟨i, pattern.length, name, form⟩)

/-- The references to a name, in all its spellings. -/
def references (s : MaskedText) (name : Text) : List Reference :=
  (spellings name).flatMap (fun p => s.referencesAs name p.1 p.2)

/-- The live braces among `count` bytes from `i`. -/
def braces (s : MaskedText) : (i count : Nat) → List (Nat × Event)
  | _, 0 => []
  | i, count + 1 =>
    match s.liveByte? i with
    | some Byte.lbrace => (i, .opens) :: s.braces (i + 1) count
    | some Byte.rbrace => (i, .closes) :: s.braces (i + 1) count
    | _ => s.braces (i + 1) count

/-- All events of a body by their offsets. At one offset a declaration comes before the references
to the names, and those in the order of `names`. -/
def events (s : MaskedText) (names : List Text) : List (Nat × Event) :=
  let declarations := s.statementRanges.flatMap (fun r => s.locals r.1 r.2)
  let found := s.braces 0 s.size ++ declarations.map (fun d => (d.offset, .declares d)) ++
    (names.flatMap s.references).map (fun r => (r.offset, .refers r))
  found.mergeSort (fun a b => a.1 ≤ b.1)

end MaskedText

namespace Qualify

/-- The names that references may mean where parameters hide some of them, in byte order. -/
def candidates (names : ResolvableNames) (parameters : List Text) : List Text :=
  let bound := parameters.flatMap Pattern.names
  Text.sorted ((names.pub ++ names.prot).filter (fun n => !bound.contains n && !n.isEmpty))

/-- One event. A reference is replaced unless it lies in the last replacement or means a local. -/
def Progress.step (body : MaskedText) (prot : List Text) (context : BodyContext) (p : Progress)
    (event : Nat × Event) : Progress :=
  match event.2 with
  | .opens => { p with scopes := p.scopes.push }
  | .closes => { p with scopes := p.scopes.pop }
  | .declares d => { p with scopes := p.scopes.apply d }
  | .refers r =>
    if r.offset < p.covered || p.scopes.isDeclared r.name r.offset then p
    else
      let occurrence := body.slice r.offset (r.offset + r.width)
      { p with
        covered := r.offset + r.width
        made := ⟨r.offset, r.width, qualified context (prot.contains r.name) r occurrence⟩ ::
          p.made }

/-- The replacements that qualify the references of a body, in increasing order. -/
def replacements (body : MaskedText) (names : ResolvableNames) (parameters : List Text)
    (context : BodyContext) : List Replacement :=
  ((body.events (candidates names parameters)).foldl (Progress.step body names.prot context)
    ⟨.start, 0, []⟩).made.reverse

/-- A body with its references qualified. The names that its parameters bind mean no member. -/
def qualify (body : Text) (names : ResolvableNames) (parameters : List Text)
    (context : BodyContext) : Text :=
  body.replaceAll (replacements (.ofText .code body) names parameters context)

end Qualify

end PageLang
