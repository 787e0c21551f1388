import PageLang.MaskedText.Lemmas
import PageLang.Script.Pattern

/-!
# Local declarations of a body

The names that a body declares itself are found by the spelling of its statements, one range of the
body at a time: `let`, `const` and `var`, functions and their parameters, caught errors, classes,
and arrow functions. Each form has a recogniser that looks at one position of the range, at what
stands before it (in reverse) and at what follows. A form is kept only where it begins in live
text.

* `MaskedText.locals`: the local declarations in a range, in order of their offsets.
-/

namespace PageLang

/-- Where a declared name is visible. -/
inductive BindingScope where
  /-- In the block around the declaration. -/
  | block
  /-- In the innermost function around the declaration. -/
  | function
  /-- In the next block opened, which may be the body of a function. -/
  | parameters (function : Bool)
  /-- From the declaration up to an offset. -/
  | expression (stop : Nat)
  deriving DecidableEq, Repr

/-- Names declared at an offset. -/
structure LocalDeclaration where
  offset : Nat
  names : List Text
  scope : BindingScope
  deriving DecidableEq

namespace Recogniser

/-- A recogniser answers with the text behind what it found, and with what it says. This is all that
one finds from left to right, none overlapping another: the offsets of its first byte and of the
byte behind it, and what it says. The next `passed` bytes belong to the last one found. -/
def all {α : Type} (recognise : Text → Text → Option (Text × α)) :
    (passed offset : Nat) → (before rest : Text) → List (Nat × Nat × α)
  | _, _, _, [] => []
  | passed + 1, i, before, b :: rest => all recognise passed (i + 1) (b :: before) rest
  | 0, i, before, b :: rest =>
    match recognise before (b :: rest) with
    | some (behind, x) =>
      let width := rest.length + 1 - behind.length
      (i, i + width, x) :: all recognise (width - 1) (i + 1) (b :: before) rest
    | none => all recognise 0 (i + 1) (b :: before) rest

/-- What follows `word`, if it stands here and begins here. -/
def word? (word before rest : Text) : Option Text :=
  if Text.endsWord before then none else Text.stripStart? word rest

/-- What follows a parenthesis without parentheses inside, and its inside. -/
def group? (rest : Text) : Option (Text × Text) := do
  let rest ← Text.stripStart? [Byte.lparen] rest
  let isParen := fun b => b == Byte.lparen || b == Byte.rparen
  let behind ← Text.stripStart? [Byte.rparen] (rest.dropWhile (fun b => !isParen b))
  return (behind, rest.takeWhile (fun b => !isParen b))

/-- A text in reverse without the blanks at its end. -/
def trimBefore (before : Text) : Text := before.stripMarks (Text.blanks.map List.reverse) 0

/-- The offset of the parenthesis, if `before` ends with the head of a loop up to it. -/
def loopParen? (before : Text) : Option Nat :=
  match trimBefore before with
  | Byte.lparen :: outside =>
    let outside' := trimBefore outside
    let ahead := match Text.stripStart? (Text.ofString "await").reverse outside' with
      | some ahead => trimBefore ahead
      | none => outside'
    match Text.stripStart? (Text.ofString "for").reverse ahead with
    | some ahead => if Text.endsWord ahead then none else some outside.length
    | none => none
  | _ => none

/-- A declaring keyword and the blanks behind it: whether it is `var`, and the parenthesis of the
loop it stands in the head of. -/
def keyword (before rest : Text) : Option (Text × Bool × Option Nat) :=
  let found := ["let", "const", "var"].findSome? (fun (w : String) =>
    (word? w before rest).map (fun behind => (behind, w == "var")))
  match found with
  | some (behind, isVar) =>
    if behind.startsBlank then some (behind.trimStart, isVar, loopParen? before) else none
  | none => none

/-- The head of a function: its name, and its parameters. -/
def function (before rest : Text) : Option (Text × Option Text × Text) := do
  let rest ← word? "function" before rest
  if rest.startsWord then none
  else
    let rest := rest.trimStart
    let rest := ((Text.stripStart? [Byte.star] rest).getD rest).trimStart
    let (name, rest) := match rest.identifier? with
      | some (name, rest) => (some name, rest)
      | none => (none, rest)
    let (behind, parameters) ← group? rest.trimStart
    return (behind, name, parameters)

/-- The head of a handler of errors: its parameters. -/
def catchHead (before rest : Text) : Option (Text × Text) := do
  let rest ← word? "catch" before rest
  group? rest.trimStart

/-- The head of a class: its name. -/
def classHead (before rest : Text) : Option (Text × Text) := do
  let rest ← word? "class" before rest
  if rest.startsBlank then
    let (name, behind) ← rest.trimStart.identifier?
    return (behind, name)
  else none

/-- The parameters of an arrow function, in parentheses or a single name, and the arrow: the list
of patterns, or the name. -/
def arrow (_before rest : Text) : Option (Text × (Text ⊕ Text)) := do
  let (rest, parameters) ← match group? rest with
    | some (rest, patterns) => some (rest, Sum.inl patterns)
    | none => rest.identifier?.map (fun r => (r.2, Sum.inr r.1))
  let behind ← Text.stripStart? "=>" rest.trimStart
  return (behind, parameters)

end Recogniser

namespace MaskedText

/-! ## Declarators -/

/-- The offset after the comma that ends a declarator, among `count` bytes from `i`, where `depth`
brackets are open. There is none if the declaration ends first. -/
def nextDeclarator? (s : MaskedText) : (depth i count : Nat) → Option Nat
  | _, _, 0 => none
  | depth, i, count + 1 =>
    match s.liveByte? i with
    | none => s.nextDeclarator? depth (i + 1) count
    | some b =>
      if Byte.isOpening b then s.nextDeclarator? (depth + 1) (i + 1) count
      else if Byte.isClosing b then
        if depth = 0 then none else s.nextDeclarator? (depth - 1) (i + 1) count
      else if b = Byte.comma ∧ depth = 0 then some (i + 1)
      else if b = Byte.semicolon ∧ depth = 0 then none
      else s.nextDeclarator? depth (i + 1) count

/-- The first offset from `start` up to `stop` whose byte does not satisfy `p`, or else `stop`. -/
def skipWhile (s : MaskedText) (p : UInt8 → Bool) (start stop : Nat) : Nat :=
  (firstFrom? (fun i => !(s.byte? i).any p) start (stop - start)).getD stop

/-- The names that one declarator at `i` binds, and the offset after it. -/
def declarator? (s : MaskedText) (i stop : Nat) : Option (List Text × Nat) :=
  match s.byte? i with
  | none => none
  | some b =>
    if b = Byte.lbrace ∨ b = Byte.lbracket then
      (s.closingBracket? i stop).map
        (fun close => (Pattern.names (s.slice (i + 1) close), close + 1))
    else if Byte.isWordStart b then
      let j := s.skipWhile Byte.isWord (i + 1) stop
      some ([s.slice i j], j)
    else none

theorem nextDeclarator?_eq_some {s : MaskedText} {depth i count j : Nat}
    (h : s.nextDeclarator? depth i count = some j) : i < j ∧ j ≤ i + count := by
  induction count generalizing depth i with
  | zero => simp [nextDeclarator?] at h
  | succ count ih =>
    unfold nextDeclarator? at h
    split at h
    · have := ih h; omega
    · split at h
      · have := ih h; omega
      split at h
      · split at h
        · simp at h
        · have := ih h; omega
      split at h
      · injection h with h
        omega
      split at h
      · simp at h
      · have := ih h; omega

theorem le_skipWhile {s : MaskedText} {p : UInt8 → Bool} {start stop : Nat} (h : start ≤ stop) :
    start ≤ s.skipWhile p start stop := by
  unfold skipWhile
  cases hf : firstFrom? (fun i => !(s.byte? i).any p) start (stop - start) with
  | none => simpa using h
  | some j => simpa using (firstFrom?_eq_some hf).1

theorem le_skipWhile_of_lt {s : MaskedText} {p : UInt8 → Bool} {start stop : Nat}
    (h : s.skipWhile p start stop < stop) : start ≤ s.skipWhile p start stop := by
  rcases Nat.lt_or_ge stop start with hlt | hle
  · have hcount : stop - start = 0 := by omega
    simp [skipWhile, hcount, firstFrom?] at h
  · exact le_skipWhile hle

/-- What is skipped satisfies `p`. -/
theorem of_lt_skipWhile {s : MaskedText} {p : UInt8 → Bool} {start stop k : Nat} (hk : start ≤ k)
    (hlt : k < s.skipWhile p start stop) (hstop : k < stop) : (s.byte? k).any p = true := by
  unfold skipWhile at hlt
  cases hf : firstFrom? (fun i => !(s.byte? i).any p) start (stop - start) with
  | none => simpa using firstFrom?_eq_none.1 hf k hk (by omega)
  | some j =>
    rw [hf] at hlt
    simpa using (firstFrom?_eq_some hf).2.2.2 k hk hlt

theorem lt_of_declarator? {s : MaskedText} {i stop j : Nat} {names : List Text} (hi : i < stop)
    (h : s.declarator? i stop = some (names, j)) : i < j := by
  unfold declarator? at h
  split at h
  · simp at h
  · split at h
    · simp only [Option.map_eq_some_iff, Prod.mk.injEq] at h
      obtain ⟨close, hclose, _, rfl⟩ := h
      have := closing?_eq_some hclose
      omega
    · split at h
      · simp only [Option.some.injEq, Prod.mk.injEq] at h
        obtain ⟨_, rfl⟩ := h
        have := s.le_skipWhile (p := Byte.isWord) (show i + 1 ≤ stop by omega)
        omega
      · simp at h

/-- The names bound by the declarators from `start` up to `stop`. -/
def declaratorNames (s : MaskedText) (start stop : Nat) : List Text :=
  let i := s.skipWhile Byte.isSpace start stop
  if _hi : i < stop then
    match _hd : s.declarator? i stop with
    | none => []
    | some (names, j) =>
      match _hn : s.nextDeclarator? 0 j (stop - j) with
      | none => names
      | some next => names ++ s.declaratorNames next stop
  else []
termination_by stop - start
decreasing_by
  have h1 := lt_of_declarator? _hi _hd
  have h2 := nextDeclarator?_eq_some _hn
  have h3 : start ≤ i := le_skipWhile_of_lt _hi
  omega

/-! ## Scopes -/

/-- The end of an expression among `count` bytes from `i`: just after a `;`, or at a bracket that
was opened before it. -/
def expressionEnd (s : MaskedText) : (depth i count : Nat) → Nat
  | _, i, 0 => i
  | depth, i, count + 1 =>
    match s.liveByte? i with
    | none => s.expressionEnd depth (i + 1) count
    | some b =>
      if Byte.isOpening b then s.expressionEnd (depth + 1) (i + 1) count
      else if Byte.isClosing b then
        if depth = 0 then i else s.expressionEnd (depth - 1) (i + 1) count
      else if b = Byte.semicolon ∧ depth = 0 then i + 1
      else s.expressionEnd depth (i + 1) count

/-- Where the names declared in the head of a loop are visible: in its block, or up to the end of
its only statement. -/
def loopScope (s : MaskedText) (paren : Nat) : BindingScope :=
  match s.closingBracket? paren s.size with
  | none => .parameters false
  | some close =>
    let body := s.skipTrivia (close + 1)
    if s.byte? body = some Byte.lbrace then .parameters false
    else .expression (s.expressionEnd 0 body (s.size - body))

/-! ## Declarations of a range -/

/-- The declarations by keyword between `start` and `stop`. -/
def keywordLocals (s : MaskedText) (start stop : Nat) : List LocalDeclaration :=
  (Recogniser.all Recogniser.keyword 0 start [] (s.slice start stop)).map
    fun (first, behind, isVar, paren) =>
      { offset := first
        names := s.declaratorNames behind stop
        scope := if isVar then .function else match paren with
          | some paren => s.loopScope (start + paren)
          | none => .block }

/-- The functions between `start` and `stop`: first the name, then the parameters. -/
def functionLocals (s : MaskedText) (start stop : Nat) : List LocalDeclaration :=
  (Recogniser.all Recogniser.function 0 start [] (s.slice start stop)).flatMap
    fun (first, _, name, parameters) =>
      [⟨first, name.toList, .block⟩, ⟨first, Pattern.names parameters, .parameters true⟩]

/-- The handlers of errors between `start` and `stop`. -/
def catchLocals (s : MaskedText) (start stop : Nat) : List LocalDeclaration :=
  (Recogniser.all Recogniser.catchHead 0 start [] (s.slice start stop)).map
    fun (first, _, parameters) => ⟨first, Pattern.names parameters, .parameters false⟩

/-- The classes between `start` and `stop`. -/
def classLocals (s : MaskedText) (start stop : Nat) : List LocalDeclaration :=
  (Recogniser.all Recogniser.classHead 0 start [] (s.slice start stop)).map
    fun (first, _, name) => ⟨first, [name], .block⟩

/-- The arrow functions between `start` and `stop` whose arrow is live. -/
def arrowLocals (s : MaskedText) (start stop : Nat) : List LocalDeclaration :=
  ((Recogniser.all Recogniser.arrow 0 start [] (s.slice start stop)).filter
      (fun r => s.isLive (r.2.1 - 2))).map
    fun (first, behind, parameters) =>
      { offset := first
        names := match parameters with
          | .inl patterns => Pattern.names patterns
          | .inr name => [name]
        scope := if s.byte? (s.skipTrivia behind) = some Byte.lbrace then .parameters true
          else .expression stop }

/-- The local declarations that begin in live text between `start` and `stop` and bind a name, in
order of their offsets. -/
def locals (s : MaskedText) (start stop : Nat) : List LocalDeclaration :=
  ((s.keywordLocals start stop ++ s.functionLocals start stop ++ s.catchLocals start stop ++
      s.classLocals start stop ++ s.arrowLocals start stop).filter
    (fun d => s.isLive d.offset && !d.names.isEmpty)).mergeSort (fun a b => a.offset ≤ b.offset)

end MaskedText

end PageLang
