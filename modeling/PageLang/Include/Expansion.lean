import PageLang.Include.Directive
import PageLang.Include.PositionMap
import PageLang.OrderedMap

/-!
# Expanding includes

The text of a file is flattened by putting the flattened text of the file asked for in the place of
each directive. A directive stays where it stands, with a diagnostic, if its file cannot be read or
is being flattened already. The position map is built along with the text.

* `Sources.expand`: the flattened text of a root file.
* `Sources.expandFrom`: the recursion ends, because the names of the files being flattened are
  distinct names of sources.
-/

namespace PageLang

/-- The files that can be read, by their normalised names. -/
abbrev Sources := OrderedMap Text

/-- An include that was made. -/
structure IncludeRecord where
  includingFile : Text
  includedFile : Text
  /-- Where the directive stands in the including file. -/
  place : Place
  /-- The first flattened line of the included text, and the first line behind it. -/
  flatStart : Nat
  flatStop : Nat
  /-- How many includes are around this one. -/
  depth : Nat
  deriving DecidableEq

/-- A flattened text, and what is known about it. -/
structure Expansion where
  text : Text
  positionMap : PositionMap
  diagnostics : List Diagnostic
  includes : List IncludeRecord

/-- A file being flattened. -/
structure OpenFile where
  name : Text
  source : Text
  /-- The position of the file among the files of the position map. -/
  index : Nat
  depth : Nat

namespace OpenFile

/-- The line of an offset of the source, counted from 0. -/
def lineIndex (f : OpenFile) (offset : Nat) : Nat := (f.source.place offset).line - 1

end OpenFile

namespace Expansion

/-- The expansion without text. -/
def empty : Expansion := ⟨[], ⟨[], []⟩, [], []⟩

/-- The number of newlines written so far. -/
def lines (e : Expansion) : Nat := e.text.newlines

/-- Whether the next byte starts a line. -/
def atLineStart (e : Expansion) : Bool := e.text.getLast?.all (· == Byte.newline)

/-- Adds a piece of the source that starts on a line of `file`. It opens a region at its first byte
that starts a line. -/
def pushPiece (e : Expansion) (piece : Text) (file line : Nat) : Expansion :=
  if piece.isEmpty then e
  else
    let map :=
      if e.atLineStart then e.positionMap.addRegion ⟨e.lines, file, line⟩
      else if piece.contains Byte.newline then
        e.positionMap.addRegion ⟨e.lines + 1, file, line + 1⟩
      else e.positionMap
    { e with text := e.text ++ piece, positionMap := map }

/-- Adds the bytes of an open file from `start` up to `stop`. -/
def pushSlice (e : Expansion) (f : OpenFile) (start stop : Nat) : Expansion :=
  e.pushPiece (f.source.slice start stop) f.index (f.lineIndex start)

/-- Reports a directive that is not expanded, and keeps its text. -/
def reject (e : Expansion) (f : OpenFile) (d : Directive) (problem : Problem) : Expansion :=
  let diagnostic := Fault.diagnostic ⟨problem, d.span⟩ f.name f.source
  { e with diagnostics := e.diagnostics ++ [diagnostic] }.pushSlice f d.span.start d.span.stop

/-- Records that the file of a directive was included in the lines from `flatStart` on. -/
def record (e : Expansion) (f : OpenFile) (d : Directive) (flatStart : Nat) : Expansion :=
  let r : IncludeRecord :=
    ⟨f.name, d.target, f.source.place d.span.start, flatStart, e.lines + 2, f.depth⟩
  { e with includes := e.includes ++ [r] }

/-- Starts a file: it is registered, and its faulty directives are reported. Answers with the
directives to follow. -/
def openFile (e : Expansion) (name source : Text) (depth : Nat) :
    OpenFile × List Directive × Expansion :=
  let (directives, faults) :=
    (MaskedText.ofText .declarations source).directives (Path.ofText name).directory
  (⟨name, source, e.positionMap.files.length, depth⟩, directives,
    { e with
      positionMap := { e.positionMap with files := e.positionMap.files ++ [name] }
      diagnostics := e.diagnostics ++ faults.map (fun fault => fault.diagnostic name source) })

end Expansion

namespace Sources

/-- The sources of a list of files, where a later file takes the place of one with the same name. -/
def ofFiles (files : List (Text × Text)) : Sources :=
  OrderedMap.ofList (files.map (fun f => ((Path.ofText f.1).key, f.2)))

/-- The source at a path. -/
def read? (s : Sources) (path : Text) : Option Text := s.get? (Path.ofText path).key

/-- Flattens an open file from `cursor` on, where `directives` are still to follow and `stack`
holds the names of the files being flattened. -/
def expandFrom (s : Sources) (stack : List Text) (f : OpenFile) (cursor : Nat) :
    (directives : List Directive) → Expansion → Expansion
  | [], e => e.pushSlice f cursor f.source.length
  | d :: rest, e =>
    let e := e.pushSlice f cursor d.span.start
    let e :=
      if _hstack : d.target ∈ stack then e.reject f d (.circularInclude d.target)
      else match _hread : s.get? d.target with
        | none => e.reject f d .missingInclude
        | some source =>
          let opened := e.openFile d.target source (f.depth + 1)
          (s.expandFrom (d.target :: stack) opened.1 0 opened.2.1 opened.2.2).record f d
            (e.lines + 1)
    s.expandFrom stack f d.span.stop rest e
termination_by directives => (s.unseen stack, directives.length)
decreasing_by
  · exact Prod.Lex.left _ _ (OrderedMap.unseen_cons_lt (OrderedMap.mem_keys_of_get? _hread) _hstack)
  · exact Prod.Lex.right _ (Nat.lt_succ_self _)

/-- The flattened text of a root file whose source is known. -/
def expandSource (s : Sources) (root source : Text) : Expansion :=
  let opened := Expansion.empty.openFile root source 0
  s.expandFrom [(Path.ofText root).key] opened.1 0 opened.2.1 opened.2.2

/-- The flattened text of a root file. Only a root that cannot be read is a failure. -/
def expand (s : Sources) (root : Text) : Except Diagnostic Expansion :=
  match s.read? root with
  | some source => .ok (s.expandSource root source)
  | none => .error (.ofProblem (.unreadableRoot root root) root 1 1)

end Sources

end PageLang
