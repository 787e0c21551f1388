import PageLang.Declaration.Scalar
import PageLang.MaskedText.Lemmas
import PageLang.Script.Pattern
import PageLang.Vocabulary.Style

/-!
# Reading a declaration

A declaration reads `name: value;`, `name: (parameters) { body }` or `name: { block }`. The byte in
front of the name, its sigil, says what is declared; without one it is a style property if the
name is that of one, and a variable or a method otherwise.

* `MaskedText.declaration?`: the declaration at an offset, and the offset after it.
* `MaskedText.lt_of_declaration?`: the offset after a declaration lies behind the one before.
-/

namespace PageLang

/-- A value whose role is not known yet. -/
inductive RawValue where
  | scalar (value : Scalar)
  | object (block : Text)
  | behavior (f : Behavior)
  deriving DecidableEq

namespace Declaration

/-- The bytes that may stand in front of a name. -/
def sigils : Text := "#-<>$@:"

/-- A name as written, cut into its sigil and the rest. -/
def splitSigil (written : Text) : Option UInt8 × Text :=
  match written with
  | b :: rest => if sigils.contains b then (some b, rest) else (none, written)
  | [] => (none, [])

end Declaration

namespace Content

/-- A variable or a method, by the value. -/
def reachable (access : Access) : RawValue → Content
  | .scalar value => .var access (.scalar value)
  | .object block => .var access (.object block)
  | .behavior f => .method access f

/-- The content that a sigil, a name and a value declare. `written` is the name with its sigil. -/
def ofValue (sigil : Option UInt8) (name written : Text) (value : RawValue) :
    Except Problem Content :=
  match sigil, value with
  | some Byte.hash, value => .ok (reachable .prot value)
  | some Byte.hyphen, value => .ok (reachable .priv value)
  | some Byte.less, .behavior f => .ok (.getter f)
  | some Byte.less, _ => .error (.functionExpected written)
  | some Byte.greater, .behavior f => .ok (.setter f)
  | some Byte.greater, _ => .error (.functionExpected written)
  | some Byte.atSign, .behavior f => .ok (.eventHandler f)
  | some Byte.atSign, _ => .error (.functionExpected written)
  | some Byte.dollar, .scalar s => .ok (.attr s)
  | some Byte.dollar, _ => .error (.scalarExpected written)
  | some _, .object block => .ok (.state block)
  | some _, _ => .error (.blockExpected written)
  | none, value =>
    if Vocabulary.isStyleProperty name then
      match value with
      | .scalar s => .ok (.style s)
      | _ => .error (.styleValue name)
    else .ok (reachable .pub value)

end Content

namespace MaskedText

/-- The offset after a block that ends at `stop`: a `;` after whitespace belongs to the block. -/
def afterBlock (s : MaskedText) (stop : Nat) : Nat :=
  let i := s.skipSpace stop
  if s.byte? i = some Byte.semicolon then i + 1 else stop

/-- The function whose parameter list opens at `paren`, and the offset after it. -/
def behavior (s : MaskedText) (paren : Nat) (written : Text) : Except Fault (Behavior × Nat) :=
  match s.closingParen? paren with
  | none => .error ⟨.parametersUnclosed written, ⟨paren, paren + 1⟩⟩
  | some close =>
    let parameters := ((s.slice (paren + 1) close).splitTopLevel Byte.comma 0).map Text.trim
    let brace := s.skipTrivia (close + 1)
    if s.byte? brace = some Byte.lbrace then
      match s.closingBrace? brace with
      | none => .error ⟨.bodyUnclosed written, ⟨brace, brace + 1⟩⟩
      | some stop =>
        .ok (⟨parameters.filter (fun p => !p.isEmpty), s.slice brace (stop + 1),
          ⟨brace, stop + 1⟩⟩, s.afterBlock (stop + 1))
    else .error ⟨.bodyMissing written, ⟨close, close + 1⟩⟩

/-- The value at `i` of the declaration that starts at `start`, and the offset after it. -/
def value (s : MaskedText) (start i : Nat) (written : Text) : Except Fault (RawValue × Nat) :=
  match s.byte? i with
  | some Byte.lparen => (s.behavior i written).map (fun r => (.behavior r.1, r.2))
  | some Byte.lbrace =>
    match s.closingBrace? i with
    | none => .error ⟨.valueUnclosed written, ⟨start, i⟩⟩
    | some stop => .ok (.object (s.slice i (stop + 1)), s.afterBlock (stop + 1))
  | _ =>
    match s.findAny? [Byte.semicolon, Byte.rbrace] i with
    | none => .error ⟨.unterminated written, ⟨start, s.size⟩⟩
    | some (stop, b) =>
      .ok (.scalar (Scalar.ofText (s.slice i stop).trim),
        if b = Byte.semicolon then stop + 1 else stop)

/-- The offset of the colon that ends the name which starts at `start`. The colon of a state's
sigil ends no name. -/
def nameEnd? (s : MaskedText) (start : Nat) : Option Nat :=
  let i := if s.byte? start = some Byte.colon then start + 1 else start
  match s.findAny? [Byte.colon, Byte.semicolon, Byte.lbrace, Byte.rbrace] i with
  | some (i, b) => if b = Byte.colon then some i else none
  | none => none

/-- The declaration that starts at `start` and whose name ends at `colon`. -/
def declarationAt (s : MaskedText) (start colon : Nat) : Except Fault (Declaration × Nat) :=
  let written := (s.slice start colon).trim
  let (sigil, name) := Declaration.splitSigil written
  if name.isMemberName then
    match s.value start (s.skipSpace (colon + 1)) written with
    | .error fault => .error fault
    | .ok (value, stop) =>
      match Content.ofValue sigil name written value with
      | .error problem => .error ⟨problem, ⟨start, stop⟩⟩
      | .ok content => .ok (⟨name, content, ⟨start, stop⟩⟩, stop)
  else .error ⟨.propertyName written, ⟨start, colon⟩⟩

/-- The declaration at `start`, or after blank space and comments from there, and the offset after
it. There is none at a closing brace, at the end, and where no colon ends a name. -/
def declaration? (s : MaskedText) (start : Nat) : Except Fault (Option (Declaration × Nat)) :=
  let i := s.skipTrivia start
  match s.byte? i with
  | none => .ok none
  | some Byte.rbrace => .ok none
  | some _ =>
    match s.nameEnd? i with
    | none => .ok none
    | some colon => (s.declarationAt i colon).map some

/-! ## Progress -/

theorem le_afterBlock (s : MaskedText) (stop : Nat) : stop ≤ s.afterBlock stop := by
  have := s.le_skipSpace stop
  unfold afterBlock
  dsimp only
  split <;> omega

/-- A function that is read has a parameter list, and its body is the block that follows. -/
theorem behavior_eq_ok {s : MaskedText} {paren next : Nat} {written : Text} {f : Behavior}
    (h : s.behavior paren written = .ok (f, next)) :
    ∃ close last, s.closingParen? paren = some close ∧
      s.byte? (s.skipTrivia (close + 1)) = some Byte.lbrace ∧
      s.closingBrace? (s.skipTrivia (close + 1)) = some last ∧
      f.bodySpan = ⟨s.skipTrivia (close + 1), last + 1⟩ ∧
      f.body = s.slice (s.skipTrivia (close + 1)) (last + 1) ∧ next = s.afterBlock (last + 1) := by
  unfold behavior at h
  split at h
  · cases h
  next close hclose =>
  dsimp only at h
  split at h
  · next hbrace =>
    split at h
    · cases h
    next last hlast =>
      cases h
      exact ⟨close, last, hclose, hbrace, hlast, rfl, rfl, rfl⟩
  · cases h

/-- A value that is read is a function, a block, or a scalar up to a semicolon or a brace. -/
theorem value_cases {s : MaskedText} {start i next : Nat} {written : Text} {v : RawValue}
    (h : s.value start i written = .ok (v, next)) :
    (∃ f, s.byte? i = some Byte.lparen ∧ v = .behavior f ∧ s.behavior i written = .ok (f, next)) ∨
    (∃ last, s.byte? i = some Byte.lbrace ∧ s.closingBrace? i = some last ∧
      v = .object (s.slice i (last + 1)) ∧ next = s.afterBlock (last + 1)) ∨
    ∃ stop b, s.byte? i ≠ some Byte.lparen ∧ s.byte? i ≠ some Byte.lbrace ∧
      s.findAny? [Byte.semicolon, Byte.rbrace] i = some (stop, b) ∧
      v = .scalar (Scalar.ofText (s.slice i stop).trim) ∧
      next = if b = Byte.semicolon then stop + 1 else stop := by
  unfold value at h
  split at h
  · next hparen =>
    cases hread : s.behavior i written with
    | error fault =>
      rw [hread] at h
      cases h
    | ok r =>
      rw [hread] at h
      cases h
      exact .inl ⟨r.1, hparen, rfl, rfl⟩
  · next hbrace =>
    split at h
    · cases h
    next last hlast =>
      cases h
      exact .inr (.inl ⟨last, hbrace, hlast, rfl, rfl⟩)
  · next hparen hbrace =>
    split at h
    · cases h
    next stop b hfind =>
      cases h
      exact .inr (.inr ⟨stop, b, hparen, hbrace, hfind, rfl, rfl⟩)

theorem lt_of_behavior {s : MaskedText} {paren next : Nat} {written : Text} {f : Behavior}
    (h : s.behavior paren written = .ok (f, next)) : paren < next := by
  obtain ⟨close, last, hclose, hbrace, hlast, -, -, rfl⟩ := behavior_eq_ok h
  have hin := (closingParen?_eq_some hclose).1
  have hgap := le_skipTrivia_of_lt (byte?_eq_some_lt hbrace)
  have hblock := (closingBrace?_eq_some hlast).1
  have hafter := s.le_afterBlock (last + 1)
  omega

theorem le_of_value {s : MaskedText} {start i next : Nat} {written : Text} {v : RawValue}
    (h : s.value start i written = .ok (v, next)) : i ≤ next := by
  rcases value_cases h with ⟨f, -, -, hread⟩ | ⟨last, -, hlast, -, rfl⟩ | ⟨stop, b, -, -, hfind, -, rfl⟩
  · exact Nat.le_of_lt (lt_of_behavior hread)
  · have hin := (closingBrace?_eq_some hlast).1
    have hafter := s.le_afterBlock (last + 1)
    omega
  · have hin := (findAny?_eq_some hfind).1
    split <;> omega

theorem nameEnd?_eq_some {s : MaskedText} {start colon : Nat} (h : s.nameEnd? start = some colon) :
    start ≤ colon ∧ s.liveByte? colon = some Byte.colon := by
  unfold nameEnd? at h
  dsimp only at h
  split at h
  · next i b hfind =>
    obtain ⟨h1, _, h2, _⟩ := findAny?_eq_some hfind
    split at h
    · next hb =>
      injection h with h
      subst h hb
      refine ⟨?_, h2⟩
      split at h1 <;> omega
    · simp at h
  · simp at h

/-- A declaration that is read has a name that ends in a colon, and its content is that of the value
behind the colon. -/
theorem value_of_declaration? {s : MaskedText} {start next : Nat} {d : Declaration}
    (h : s.declaration? start = .ok (some (d, next))) :
    s.skipTrivia start < s.size ∧ ∃ colon sigil name written v,
      s.nameEnd? (s.skipTrivia start) = some colon ∧
      s.value (s.skipTrivia start) (s.skipSpace (colon + 1)) written = .ok (v, next) ∧
      Content.ofValue sigil name written v = .ok d.content := by
  unfold declaration? at h
  dsimp only at h
  split at h
  · cases h
  · cases h
  next b hbyte =>
  split at h
  · cases h
  next colon hcolon =>
  cases hat : s.declarationAt (s.skipTrivia start) colon with
  | error fault =>
    rw [hat] at h
    cases h
  | ok r =>
    rw [hat] at h
    cases h
    unfold declarationAt at hat
    dsimp only at hat
    split at hat
    · split at hat
      · cases hat
      next v stop hvalue =>
        split at hat
        · cases hat
        next content hcontent =>
          cases hat
          exact ⟨byte?_eq_some_lt hbyte, colon, _, _, _, v, hcolon, hvalue, hcontent⟩
    · cases hat

/-- A declaration ends behind the offset it was looked for at. -/
theorem lt_of_declaration? {s : MaskedText} {start next : Nat} {d : Declaration}
    (h : s.declaration? start = .ok (some (d, next))) : start < next := by
  obtain ⟨hlt, colon, -, -, written, v, hcolon, hvalue, -⟩ := value_of_declaration? h
  have hskip := le_skipTrivia_of_lt hlt
  have hname := (nameEnd?_eq_some hcolon).1
  have hspace := s.le_skipSpace (colon + 1)
  have hle : s.skipSpace (colon + 1) ≤ next := le_of_value hvalue
  omega

end MaskedText

end PageLang
