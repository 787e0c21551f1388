import PageLang.ClassTable.UniqueMembers
import PageLang.Element.Parser

/-!
# Reading classes

A class is written `class Name < Parent < Parent { … }`. Classes are looked for outside all blocks,
whatever else stands between them. A faulty class stays in the table with what was read of it, and
reading can go on behind it.

* `MaskedText.classes`: the classes up to the first fault.
* `MaskedText.classesRecovering`: all classes, with all faults.
-/

namespace PageLang

namespace ClassHeader

/-- The names of the parents, each written behind a `<` and all of it after the class name. -/
def parents? (t : Text) : Option (List Text) :=
  match t.splitOn Byte.less with
  | [] => none
  | first :: pieces =>
    let names := pieces.map Text.trim
    if first.isBlank && names.all Text.isIdentifier then some names else none

/-- The name and the parents that a trimmed class header gives. -/
def parse? (header : Text) : Option (Text × List Text) := do
  let rest ← Text.stripStart? "class" header
  if rest.startsBlank then
    let (name, rest) ← rest.trimStart.identifier?
    let parents ← parents? rest
    return (name, parents)
  else none

end ClassHeader

/-- What stands at a class keyword: the class as far as it was read, a fault, and the offset behind
the class. -/
structure ClassRead where
  definition : Option ClassDefinition
  fault : Option Fault
  next : Nat

namespace MaskedText

/-- Whether the keyword of a class stands at an offset: set off by whitespace, or before it by the
end of a statement or the start of the text. -/
def isClassKeyword (s : MaskedText) (i : Nat) : Bool :=
  s.startsAt "class" i && (s.byte? (i + 5)).any Byte.isSpace &&
    (i == 0 || (s.byte? (i - 1)).any
      (fun b => b == Byte.semicolon || b == Byte.rbrace || Byte.isSpace b))

/-- The first live class keyword outside all blocks among `count` bytes from `i`, where `depth`
blocks are open. -/
def classKeywordFrom? (s : MaskedText) : (depth i count : Nat) → Option Nat
  | _, _, 0 => none
  | depth, i, count + 1 =>
    match s.liveByte? i with
    | some Byte.lbrace => s.classKeywordFrom? (depth + 1) (i + 1) count
    | some Byte.rbrace => s.classKeywordFrom? (depth - 1) (i + 1) count
    | some _ =>
      if depth = 0 ∧ s.isClassKeyword i then some i
      else s.classKeywordFrom? depth (i + 1) count
    | none => s.classKeywordFrom? depth (i + 1) count

/-- The first class keyword at or after `start`. -/
def classKeyword? (s : MaskedText) (start : Nat) : Option Nat :=
  s.classKeywordFrom? 0 start (s.size - start)

/-- The class whose keyword stands at `start`, its header ending at `opening` and its block at
`close`. -/
def classWithin (s : MaskedText) (file : Text) (start opening close : Nat) : ClassRead :=
  match ClassHeader.parse? (s.slice start opening).trim with
  | none => ⟨none, some ⟨.classHeader, ⟨start, opening⟩⟩, close + 1⟩
  | some (name, parents) =>
    let body := s.body .classStatement close (opening + 1)
    let fault := match body.fault with
      | some fault => some fault
      | none => UniqueMembers.fault? name body.declarations body.children
    ⟨some ⟨name, parents, .ofDeclarations body.declarations, body.children, file,
      ⟨start, close + 1⟩⟩, fault, close + 1⟩

/-- The class whose keyword stands at `start`. -/
def classAt (s : MaskedText) (file : Text) (start : Nat) : ClassRead :=
  match s.findAny? [Byte.lbrace, Byte.semicolon, Byte.rbrace] start with
  | none => ⟨none, some ⟨.classWithoutBlock, ⟨start, start + 5⟩⟩, s.size⟩
  | some (opening, b) =>
    if b = Byte.lbrace then
      match s.closingBrace? opening with
      | none => ⟨none, some ⟨.classUnclosed, ⟨start, opening + 1⟩⟩, s.size⟩
      | some close => s.classWithin file start opening close
    else ⟨none, some ⟨.classWithoutBlock, ⟨start, start + 5⟩⟩, opening + 1⟩

/-! ## Progress -/

theorem classKeywordFrom?_eq_some {s : MaskedText} {depth i count j : Nat}
    (h : s.classKeywordFrom? depth i count = some j) : i ≤ j ∧ j < i + count := by
  induction count generalizing depth i with
  | zero => simp [classKeywordFrom?] at h
  | succ count ih =>
    unfold classKeywordFrom? at h
    split at h
    · have := ih h; omega
    · have := ih h; omega
    · split at h
      · injection h with h
        omega
      · have := ih h; omega
    · have := ih h; omega

theorem classKeyword?_eq_some {s : MaskedText} {start j : Nat}
    (h : s.classKeyword? start = some j) : start ≤ j ∧ j < s.size := by
  have := classKeywordFrom?_eq_some h
  omega

theorem next_classWithin (s : MaskedText) (file : Text) (start opening close : Nat) :
    (s.classWithin file start opening close).next = close + 1 := by
  unfold classWithin
  split <;> rfl

/-- Reading goes on behind the keyword. -/
theorem lt_next_classAt {s : MaskedText} {file : Text} {start : Nat} (h : start < s.size) :
    start < (s.classAt file start).next := by
  unfold classAt
  split
  · exact h
  · next opening b hfind =>
    have h1 := (findAny?_eq_some hfind).1
    split
    · split
      · exact h
      · next close hclose =>
        have h2 := closingBrace?_eq_some hclose
        rw [next_classWithin]
        omega
    · dsimp only
      omega

/-! ## Tables -/

/-- The classes from `pos` on, added to a table. -/
def classesFrom (s : MaskedText) (file : Text) (table : ClassTable) (pos : Nat) :
    Except (ParseFailure ClassTable) ClassTable :=
  match _hat : s.classKeyword? pos with
  | none => .ok table
  | some start =>
    let read := s.classAt file start
    let table := match read.definition with
      | some d => table.insert d.name d
      | none => table
    match read.fault with
    | some fault => .error ⟨fault, table, read.next⟩
    | none => s.classesFrom file table read.next
termination_by s.size - pos
decreasing_by
  have h1 := classKeyword?_eq_some _hat
  have h2 : start < (s.classAt file start).next := lt_next_classAt h1.2
  omega

/-- The classes from `start` on, up to the first fault. -/
def classes (s : MaskedText) (file : Text) (start : Nat) :
    Except (ParseFailure ClassTable) ClassTable :=
  s.classesFrom file ∅ start

/-- Reads classes from `pos` on, and after each fault goes on where the failure says, as long as
that is further on and inside the text. -/
def recoverClasses (s : MaskedText) (file : Text) (table : ClassTable) (faults : List Fault)
    (pos : Nat) : ClassTable × List Fault :=
  match s.classes file pos with
  | .ok found => (table.insertAll found, faults)
  | .error failure =>
    let table := table.insertAll failure.partialResult
    let faults := faults ++ [failure.fault]
    if pos < failure.resumeAt ∧ failure.resumeAt < s.size then
      s.recoverClasses file table faults failure.resumeAt
    else (table, faults)
termination_by s.size - pos

/-- All classes of a text, and all faults met on the way. -/
def classesRecovering (s : MaskedText) (file : Text) : ClassTable × List Fault :=
  s.recoverClasses file ∅ [] 0

end MaskedText

end PageLang
