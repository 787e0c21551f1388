import PageLang.Declaration.Parser
import PageLang.Element.Basic

/-!
# Reading elements and bodies

An element is written `name.Ref.Ref;` or `name.Ref { … }`. The body of an element and the body of
a class have the same statements: declarations, elements and stray semicolons. A body is read up
to the offset of its closing brace, or to its first fault.

* `MaskedText.body`: the statements between two braces.
* `MaskedText.element`: an element with all that is in it.
-/

namespace PageLang

/-! ## Statements -/

/-- What the first bytes of a statement announce. -/
inductive StatementKind where
  /-- There is no statement, but a closing brace or the end. -/
  | ended
  /-- A semicolon. -/
  | empty
  | declaration
  | element
  | unknown
  deriving DecidableEq, Repr

/-- Whether a text is a name and class references, all joined by points, and not empty. The name
may be missing and may begin with a digit or a hyphen. -/
def isElementHeader (header : Text) : Bool :=
  match header.trim, header.trim.splitOn Byte.dot with
  | [], _ => false
  | _, name :: refs => name.all Byte.isNamePart && refs.all Text.isMemberName
  | _, [] => false

namespace MaskedText

/-- The kind of the statement that starts at an offset. -/
def statementKind (s : MaskedText) (i : Nat) : StatementKind :=
  match s.byte? i with
  | none => .ended
  | some Byte.rbrace => .ended
  | some Byte.semicolon => .empty
  | some b =>
    let start := if b = Byte.colon then i + 1 else i
    match s.findAny? [Byte.colon, Byte.semicolon, Byte.lbrace, Byte.rbrace] start with
    | some (stop, c) =>
      if c = Byte.colon then .declaration
      else if (c = Byte.semicolon ∨ c = Byte.lbrace) ∧ isElementHeader (s.slice i stop) then
        .element
      else .unknown
    | none => .unknown

/-- The offset after the statement at `i`, as far as a message about it should reach. -/
def statementEnd (s : MaskedText) (i : Nat) : Nat :=
  match s.findAny? [Byte.semicolon, Byte.lbrace, Byte.rbrace] i with
  | some (stop, _) => stop + 1
  | none => s.size

/-- The offset after the semicolon that follows, or else the offset itself. -/
def skipSemicolon (s : MaskedText) (i : Nat) : Nat :=
  let next := s.skipTrivia i
  if s.byte? next = some Byte.semicolon then next + 1 else i

end MaskedText

/-! ## Elements -/

/-- What is known of an element before its body is read. -/
structure ElementHead where
  name : Option Text
  classRefs : List Text
  span : Span
  /-- The offsets of the braces around the body. -/
  block : Option (Nat × Nat)
  /-- The offset after the element. -/
  next : Nat

/-- What was read of a body. -/
structure Body where
  declarations : List Declaration
  children : List Element
  /-- What ended the reading early. -/
  fault : Option Fault
  /-- Where the reading ended. -/
  stop : Nat

namespace Body

/-- A body without statements. -/
def ended (stop : Nat) : Body := ⟨[], [], none, stop⟩
/-- A body that starts with a fault. -/
def failed (fault : Fault) (stop : Nat) : Body := ⟨[], [], some fault, stop⟩
/-- A body with a declaration in front. -/
def consDeclaration (d : Declaration) (b : Body) : Body :=
  { b with declarations := d :: b.declarations }
/-- A body with an element in front. -/
def consChild (e : Element) (b : Body) : Body := { b with children := e :: b.children }

end Body

/-- The element with a head and a body. A fault in the body is one of the element. -/
def ElementHead.element (head : ElementHead) (body : Body) : Except Fault Element :=
  match body.fault with
  | some fault => .error fault
  | none =>
    .ok ⟨head.name, head.classRefs, .ofDeclarations body.declarations, body.children, head.span⟩

namespace MaskedText

/-- The head of the element that starts at `start`. -/
def elementHead (s : MaskedText) (start : Nat) : Except Fault ElementHead :=
  match s.findAny? [Byte.semicolon, Byte.lbrace] start with
  | none => .error ⟨.elementUnended, ⟨start, s.size⟩⟩
  | some (stop, b) =>
    let header := (s.slice start stop).trim
    if isElementHeader header then
      let segments := header.splitOn Byte.dot
      let name := segments.head?.filter (fun n => !n.isEmpty)
      if b = Byte.semicolon then
        .ok ⟨name, segments.tail, ⟨start, stop + 1⟩, none, stop + 1⟩
      else match s.closingBrace? stop with
        | none => .error ⟨.elementUnclosed header, ⟨start, stop + 1⟩⟩
        | some close =>
          .ok ⟨name, segments.tail, ⟨start, close + 1⟩, some (stop, close),
            s.skipSemicolon (close + 1)⟩
    else .error ⟨.elementHeader header, ⟨start, stop⟩⟩

/-! ## Progress -/

theorem le_skipSemicolon {s : MaskedText} {i : Nat} : i ≤ s.skipSemicolon i := by
  unfold skipSemicolon
  dsimp only
  split
  · next h =>
    have := le_skipTrivia_of_lt (byte?_eq_some_lt h)
    omega
  · exact Nat.le_refl _

theorem skipSemicolon_le_size {s : MaskedText} {i : Nat} (h : i ≤ s.size) : s.skipSemicolon i ≤ s.size := by
  unfold skipSemicolon
  dsimp only
  split
  · next hbyte => exact byte?_eq_some_lt hbyte
  · exact h

/-- What follows a block stands behind its opening brace. -/
theorem lt_skipSemicolon_of_closingBrace? {s : MaskedText} {opening close : Nat}
    (h : s.closingBrace? opening = some close) : opening < s.skipSemicolon (close + 1) := by
  have hlt := (closingBrace?_eq_some h).1
  have hskip := s.le_skipSemicolon (i := close + 1)
  omega

theorem lt_statementEnd {s : MaskedText} {i : Nat} (h : i < s.size) : i < s.statementEnd i := by
  unfold statementEnd
  split
  · next hf => have := (findAny?_eq_some hf).1; omega
  · exact h

theorem lt_size_of_statementKind {s : MaskedText} {i : Nat} (h : s.statementKind i ≠ .ended) :
    i < s.size := by
  cases hb : s.byte? i with
  | none => simp [statementKind, hb] at h
  | some b => exact byte?_eq_some_lt hb

/-- The head of an element ends in a semicolon, or in a brace that is closed. -/
theorem elementHead_cases {s : MaskedText} {i : Nat} {head : ElementHead}
    (hhead : s.elementHead i = .ok head) :
    (∃ stop, s.findAny? [Byte.semicolon, Byte.lbrace] i = some (stop, Byte.semicolon) ∧
      head.block = none ∧ head.next = stop + 1) ∨
    ∃ opening last, s.findAny? [Byte.semicolon, Byte.lbrace] i = some (opening, Byte.lbrace) ∧
      s.closingBrace? opening = some last ∧ head.block = some (opening, last) ∧
      head.next = s.skipSemicolon (last + 1) := by
  unfold elementHead at hhead
  split at hhead
  · cases hhead
  next stop b hfind =>
  dsimp only at hhead
  split at hhead
  · split at hhead
    · next hb =>
      cases hhead
      exact .inl ⟨stop, by rw [hfind, hb], rfl, rfl⟩
    · next hb =>
      split at hhead
      · cases hhead
      · next last hlast =>
        cases hhead
        have hset := (findAny?_eq_some hfind).2.2.2
        have hbrace : b = Byte.lbrace := by simpa [hb] using hset
        exact .inr ⟨stop, last, by rw [hfind, hbrace], hlast, rfl, rfl⟩
  · cases hhead

/-- An element ends behind its start, and the body of its block starts behind it too. -/
theorem elementHead_eq_ok {s : MaskedText} {start : Nat} {head : ElementHead}
    (h : s.elementHead start = .ok head) :
    start < head.next ∧ ∀ b ∈ head.block, start ≤ b.1 ∧ b.1 < s.size := by
  rcases elementHead_cases h with
    ⟨stop, hfind, hblock, hnext⟩ | ⟨opening, last, hfind, hlast, hblock, hnext⟩
  · have hle := (findAny?_eq_some hfind).1
    rw [hblock, hnext]
    exact ⟨by omega, fun b hb => nomatch hb⟩
  · obtain ⟨hle, hlt, -⟩ := findAny?_eq_some hfind
    rw [hblock, hnext]
    refine ⟨Nat.lt_of_le_of_lt hle (lt_skipSemicolon_of_closingBrace? hlast), fun b hb => ?_⟩
    cases hb
    exact ⟨hle, hlt⟩

/-! ## Bodies -/

/-- The statements from `pos` up to `close`. A statement of no known kind is the problem
`unknown`. -/
def body (s : MaskedText) (unknown : Problem) (close pos : Nat) : Body :=
  let i := s.skipTrivia pos
  if close ≤ i then .ended i
  else match hkind : s.statementKind i with
    | .ended => .ended i
    | .empty => s.body unknown close (i + 1)
    | .declaration =>
      match _hd : s.declaration? i with
      | .error fault => .failed fault i
      | .ok none => .ended i
      | .ok (some (d, next)) => (s.body unknown close next).consDeclaration d
    | .element =>
      match _hhead : s.elementHead i with
      | .error fault => .failed fault i
      | .ok head =>
        let inner := match hblock : head.block with
          | none => .ended head.next
          | some (opening, stop) => s.body .elementStatement stop (opening + 1)
        match head.element inner with
        | .error fault => .failed fault i
        | .ok e => (s.body unknown close head.next).consChild e
    | .unknown => .failed ⟨unknown, ⟨i, s.statementEnd i⟩⟩ i
termination_by s.size - pos
decreasing_by
  all_goals
    have hi : i < s.size := lt_size_of_statementKind (by simp [hkind])
    have hpos : pos ≤ i := le_skipTrivia_of_lt hi
  · omega
  · have := lt_of_declaration? _hd
    omega
  · have := (elementHead_eq_ok _hhead).2 (opening, stop) (by simp [hblock])
    omega
  · have := (elementHead_eq_ok _hhead).1
    omega

/-- The element that starts at `start`, and the offset after it. -/
def element (s : MaskedText) (start : Nat) : Except Fault (Element × Nat) :=
  match s.elementHead start with
  | .error fault => .error fault
  | .ok head =>
    let inner := match head.block with
      | none => .ended head.next
      | some (opening, stop) => s.body .elementStatement stop (opening + 1)
    (head.element inner).map (fun e => (e, head.next))

theorem lt_of_element {s : MaskedText} {start next : Nat} {e : Element}
    (h : s.element start = .ok (e, next)) : start < next := by
  unfold element at h
  split at h
  · simp at h
  · next head hhead =>
    have h1 := (elementHead_eq_ok hhead).1
    dsimp only at h
    cases he : head.element (match head.block with
      | none => .ended head.next
      | some (opening, stop) => s.body .elementStatement stop (opening + 1)) with
    | error e => simp [he, Except.map] at h
    | ok r =>
      simp only [he, Except.map, Except.ok.injEq, Prod.mk.injEq] at h
      omega

end MaskedText

end PageLang
