import PageLang.Element.Parser

/-!
# Reading the visible tree

Outside classes a source holds elements, font faces and directives. Directives and whole classes
are passed over; elements and font faces are kept in order. After a faulty statement reading can go
on behind it.

* `MaskedText.hierarchy`: the tree up to the first fault.
* `MaskedText.hierarchyRecovering`: all of the tree, with all faults.
-/

namespace PageLang

/-- What one top-level statement amounts to. -/
inductive TopLevel where
  /-- The tree ends here. -/
  | ended
  /-- A statement that adds to the tree, perhaps nothing, and the offset after it. -/
  | found (piece : Hierarchy) (next : Nat)
  /-- A faulty statement, and the offset to go on at. -/
  | failed (fault : Fault) (resumeAt : Nat)

namespace MaskedText

/-- Whether a word stands at an offset and ends there. -/
def hasWord (s : MaskedText) (word : Text) (i : Nat) : Bool :=
  s.startsAt word i && !(s.slice (i + word.length) (i + word.length + 4)).startsWord

/-- Whether an include or a data import stands at an offset. -/
def isDirective (s : MaskedText) (i : Nat) : Bool := s.hasWord "*include" i || s.hasWord "*json" i

/-- Whether a statement reads as a class: the keyword and a blank. -/
def startsClass (s : MaskedText) (i : Nat) : Bool :=
  s.startsAt "class" i && (s.slice (i + 5) (i + 8)).startsBlank

/-- The offset behind the whole element at `start`, whatever is wrong inside. -/
def elementExtent (s : MaskedText) (start : Nat) : Nat :=
  match s.findAny? [Byte.lbrace, Byte.semicolon] start with
  | some (i, b) =>
    if b = Byte.lbrace then
      match s.closingBrace? i with
      | some close => s.skipSemicolon (close + 1)
      | none => s.size
    else i + 1
  | none => s.size

/-- The font face at `start`. -/
def fontFaceAt (s : MaskedText) (start : Nat) : TopLevel :=
  let stop := s.statementEnd start
  match s.findAny? [Byte.lbrace, Byte.semicolon] start with
  | some (opening, Byte.lbrace) =>
    match s.closingBrace? opening with
    | some close =>
      .found ⟨[], [⟨"@font-face " ++ s.slice opening (close + 1), ⟨start, close + 1⟩⟩]⟩
        (s.skipSemicolon (close + 1))
    | none => .failed ⟨.fontFaceUnclosed, ⟨start, stop⟩⟩ stop
  | _ => .failed ⟨.fontFaceWithoutBlock, ⟨start, stop⟩⟩ stop

/-- The class at `start`, which is passed over. One that is never closed ends the tree. -/
def passClass (s : MaskedText) (start : Nat) : TopLevel :=
  match s.findAny? [Byte.lbrace, Byte.semicolon, Byte.rbrace] start with
  | none => .failed ⟨.classWithoutBracket, ⟨start, start + 5⟩⟩ s.size
  | some (i, b) =>
    if b = Byte.lbrace then
      match s.closingBrace? i with
      | some close => .found ∅ (s.skipSemicolon (close + 1))
      | none => .ended
    else .failed ⟨.classWithoutBracket, ⟨start, start + 5⟩⟩ (i + 1)

/-- The element at `start`. -/
def rootAt (s : MaskedText) (start : Nat) : TopLevel :=
  match s.element start with
  | .ok (e, next) => .found ⟨[e], []⟩ next
  | .error fault => .failed fault (s.elementExtent start)

/-- The top-level statement that starts at an offset. -/
def topLevelAt (s : MaskedText) (i : Nat) : TopLevel :=
  if s.byte? i = some Byte.semicolon then .found ∅ (i + 1)
  else if s.isDirective i then .found ∅ (s.statementEnd i)
  else if s.hasWord "*font-face" i then s.fontFaceAt i
  else if s.startsClass i then s.passClass i
  else if s.statementKind i = .element then s.rootAt i
  else .failed ⟨.topLevelStatement, ⟨i, s.statementEnd i⟩⟩ (s.statementEnd i)

/-! ## Progress -/

theorem lt_of_fontFaceAt {s : MaskedText} {start next : Nat} {piece : Hierarchy}
    (h : s.fontFaceAt start = .found piece next) : start < next := by
  unfold fontFaceAt at h
  dsimp only at h
  split at h
  · next opening hfind =>
    split at h
    · next close hclose =>
      injection h with _ h
      have h1 := (findAny?_eq_some hfind).1
      have h2 := lt_skipSemicolon_of_closingBrace? hclose
      omega
    · simp at h
  · simp at h

theorem lt_of_passClass {s : MaskedText} {start next : Nat} {piece : Hierarchy}
    (h : s.passClass start = .found piece next) : start < next := by
  unfold passClass at h
  split at h
  · simp at h
  · next i b hfind =>
    split at h
    · split at h
      · next close hclose =>
        injection h with _ h
        have h1 := (findAny?_eq_some hfind).1
        have h2 := lt_skipSemicolon_of_closingBrace? hclose
        omega
      · simp at h
    · simp at h

/-- A statement that adds to the tree ends behind its start. -/
theorem lt_of_topLevelAt {s : MaskedText} {i next : Nat} {piece : Hierarchy} (hi : i < s.size)
    (h : s.topLevelAt i = .found piece next) : i < next := by
  unfold topLevelAt at h
  split at h
  · injection h with _ h
    omega
  split at h
  · injection h with _ h
    have := s.lt_statementEnd hi
    omega
  split at h
  · exact lt_of_fontFaceAt h
  split at h
  · exact lt_of_passClass h
  split at h
  · unfold rootAt at h
    split at h
    · next e n he =>
      injection h with _ h
      have := lt_of_element he
      omega
    · simp at h
  · simp at h

/-! ## Trees -/

/-- The tree from `pos` on, added to `tree`. -/
def hierarchyFrom (s : MaskedText) (tree : Hierarchy) (pos : Nat) :
    Except (ParseFailure Hierarchy) Hierarchy :=
  let i := s.skipTrivia pos
  if _hi : i < s.size then
    match _hstep : s.topLevelAt i with
    | .ended => .ok tree
    | .found piece next => s.hierarchyFrom (tree.append piece) next
    | .failed fault resumeAt => .error ⟨fault, tree, resumeAt⟩
  else .ok tree
termination_by s.size - pos
decreasing_by
  have h1 : pos ≤ i := le_skipTrivia_of_lt _hi
  have h2 := lt_of_topLevelAt _hi _hstep
  omega

/-- The tree from `start` on, up to the first fault. -/
def hierarchy (s : MaskedText) (start : Nat) : Except (ParseFailure Hierarchy) Hierarchy :=
  s.hierarchyFrom ∅ start

/-- Reads the tree from `pos` on, and after each fault goes on where the failure says, as long as
that is further on and inside the text. -/
def recoverHierarchy (s : MaskedText) (tree : Hierarchy) (faults : List Fault) (pos : Nat) :
    Hierarchy × List Fault :=
  match s.hierarchy pos with
  | .ok found => (tree.append found, faults)
  | .error failure =>
    let tree := tree.append failure.partialResult
    let faults := faults ++ [failure.fault]
    if pos < failure.resumeAt ∧ failure.resumeAt < s.size then
      s.recoverHierarchy tree faults failure.resumeAt
    else (tree, faults)
termination_by s.size - pos

/-- All of the tree of a text, and all faults met on the way. -/
def hierarchyRecovering (s : MaskedText) : Hierarchy × List Fault := s.recoverHierarchy ∅ [] 0

end MaskedText

end PageLang
