import PageLang.Lint.Bracket

/-!
# Reading scripts token by token

A reader passes the tokens of a script one by one and keeps what it needs to tell statements from
operands: where a slash begins a regular expression, what a brace opens, and which words are
keywords. A statement that no semicolon ends is over where a token cannot go on with it.

The reader is meant for scripts that are valid. In others it may find too much or too little.

* `Reader.read`: the reader behind a token.
* `Reader.found`: the `debugger` statements among the tokens.
-/

namespace PageLang.Lint

/-- A token of a script. -/
inductive Token where
  /-- A word that starts at `offset`. -/
  | word (offset : Nat) (text : Text)
  /-- A number, a quoted text or a regular expression. -/
  | literal
  /-- The start of a template. -/
  | template
  /-- A bracket, or one of `,` `;` `:` `.` `#` `?` `=` `*`. -/
  | mark (b : UInt8)
  /-- The mark between the parameters and the body of an arrow function. -/
  | arrow
  /-- The three dots of a spread or a rest. -/
  | spread
  /-- A doubled plus or minus. -/
  | increment
  /-- An operator that only stands in front of an operand. -/
  | negation
  /-- Any other operator, or a part of one. -/
  | other
  deriving DecidableEq, Repr

/-- What is known in front of a token. -/
structure Reader where
  position : Position
  /-- The position in front of the last token. -/
  earlier : Position
  /-- A property has to follow. -/
  afterDot : Bool
  /-- A line has ended since the last token. -/
  atLineStart : Bool
  /-- Parameters have just ended that are those of an asynchronous function if an arrow follows. -/
  arrowIsAsync : Bool
  /-- The last token, if later tokens look back at it. -/
  last : Option Keyword
  /-- The innermost bracket, and those around it. -/
  top : Bracket
  outer : List Bracket
  /-- The offsets of the `debugger` statements, the last one first. -/
  found : List Nat

namespace Reader

/-- The reader in front of a script. -/
def start : Reader where
  position := .statement false
  earlier := .statement false
  afterDot := false
  atLineStart := false
  arrowIsAsync := false
  last := none
  top := { kind := .block (.statement false) }
  outer := []
  found := []

/-- The reader behind a token. -/
def behind (r : Reader) (position : Position) : Reader :=
  { r with
    position, earlier := r.position, afterDot := false, atLineStart := false
    arrowIsAsync := false, last := none }

/-- A bracket opens. Unless it belongs to a function, it is a part of the function around it. -/
def push (r : Reader) (bracket : Bracket) (position : Position) : Reader :=
  { r.behind position with top := bracket, outer := r.top :: r.outer }

/-- The innermost bracket closes. -/
def pop (r : Reader) (position : Position) : Reader :=
  match r.outer with
  | [] => r.behind position
  | top :: outer => { r.behind position with top, outer }

/-- What the function around the next token is. -/
def context (r : Reader) : Context := r.top.innerContext

/-- A line ends between two tokens. -/
def endLine (r : Reader) : Reader :=
  { r with
    position := if r.last.any Keyword.endsWithLine then .complete else r.position
    atLineStart := true }

/-- Whether a slash begins a regular expression here. -/
def expectsRegex (r : Reader) : Bool := r.position != .operator

/-- Whether the last token makes a function asynchronous that follows it. -/
def joinsAsync (r : Reader) : Bool := r.last == some .asynchronous && !r.atLineStart

/-- Whether the last token declares the name or the pattern that follows it. Where no declaration
can stand, the line may end between the two. -/
def joinsLet (r : Reader) : Bool :=
  r.last == some .letDeclaration && !(r.atLineStart && r.earlier == .statement true)

/-- Whether a word behind an operand is an operator. -/
def isOperatorWord (r : Reader) (word : Text) : Bool :=
  match Keyword.ofWord? word with
  | some .relation => true
  | some .membership =>
    match r.top.kind with
    | .loopHead awaits => awaits || !r.joinsAsync
    | _ => false
  | _ => false

/-- Whether a token goes on with the statement or the member in front of it. -/
def continues (r : Reader) (t : Token) : Bool :=
  r.top.inHead || match r.position with
  | .statement _ => false
  | .operand | .binding | .arrowBody => true
  | .operator =>
    match t with
    | .word _ word => r.isOperatorWord word || r.joinsAsync || r.joinsLet
    | .literal | .negation => false
    | .increment => !r.atLineStart
    | .mark b => b != Byte.hash && (b != Byte.lbrace || r.joinsLet)
    | _ => true
  | .complete =>
    match t with
    | .word _ word => r.isOperatorWord word || (r.last == some .jump && !r.atLineStart)
    | .mark b =>
      b == Byte.comma || b == Byte.semicolon || b == Byte.colon || b == Byte.equals ||
        Byte.isClosing b
    | _ => false

/-- A new statement or a new member of a class begins. -/
def begin (r : Reader) : Reader :=
  match r.top.kind with
  | .block _ =>
    { r with
      top := r.top.settled
      position := match r.position with
        | .statement nested => .statement nested
        | _ => .statement false }
  | .classBody _ =>
    if r.top.key.isSome then r
    else { r with top := { r.top.settled with key := some {} }, position := .statement false }
  | _ => r

/-- Whether a token stands in the name of a member. -/
def isInKey : Token → Bool
  | .word .. | .literal => true
  | .mark b => b == Byte.lbracket || b == Byte.star || b == Byte.hash
  | _ => false

/-- A method becomes asynchronous where the word for it is not its name. -/
def markAsync (r : Reader) (t : Token) : Reader :=
  match r.top.key with
  | some key =>
    if r.joinsAsync && isInKey t then
      { r with top := { r.top with key := some { key with isAsync := true } } }
    else r
  | none => r

/-! ## Words -/

/-- The position behind a function or a class that begins at a position: a declaration is over, an
operand may be gone on with. -/
def afterBody (r : Reader) (position : Position) : Position :=
  if r.top.isBlock && position != .operand && position != .arrowBody then .statement false
  else .operator

/-- The reader behind a name. -/
def readName (r : Reader) : Reader := { r.behind .operator with arrowIsAsync := r.joinsAsync }

/-- The reader behind a word that may be a keyword. -/
def readKeyword (r : Reader) (offset : Nat) (keyword : Keyword) : Reader :=
  match keyword with
  | .debuggerStatement =>
    if r.top.isBlock then { r.behind .complete with found := offset :: r.found } else r.readName
  | .functionHead =>
    let after := r.afterBody (if r.joinsAsync then r.earlier else r.position)
    let head : FunctionHead := ⟨{ isAsync := r.joinsAsync }, after⟩
    { r.behind .operator with top := { r.top with functionHead := some head } }
  | .classHead =>
    { r.behind .operator with
      last := some keyword
      top := { r.top with classHeads := r.afterBody r.position :: r.top.classHeads } }
  | .declaration => { r.behind .binding with top := { r.top with declares := true } }
  | .letDeclaration =>
    match r.position with
    | .statement _ => { r.behind .operator with last := some keyword }
    | _ => r.readName
  | .jump => { r.behind .complete with last := some keyword }
  | .result => { r.behind .operand with last := some keyword }
  | .yielding =>
    if r.context.isGenerator then { r.behind .operand with last := some keyword } else r.readName
  | .awaiting =>
    if r.last = some .loop then { r.behind .operator with last := some keyword }
    else if r.context.isAsync then r.behind .operand
    else r.readName
  | .asynchronous =>
    { r.behind .operator with last := some keyword, arrowIsAsync := r.joinsAsync }
  | .caseLabel => { r.behind .operand with top := { r.top with inCase := true } }
  | .defaultLabel => { r.behind .operator with top := { r.top with inCase := true } }
  | .otherwise => r.behind (.statement true)
  | .repetition =>
    { r.behind (.statement true) with
      top := { r.top with repetitions := r.top.repetitions + 1 } }
  | .loopCondition | .condition | .loop => { r.behind .operator with last := some keyword }
  | .heritage | .operation | .relation => r.behind .operand
  | .membership =>
    let isOperator := (r.position == .operator || r.position == .complete) &&
      r.isOperatorWord "of"
    if isOperator then r.behind .operand else r.readName

/-- The reader behind a word that starts at `offset`. -/
def readWord (r : Reader) (offset : Nat) (word : Text) : Reader :=
  let keyword := Keyword.ofWord? word
  if r.afterDot then r.behind .operator
  else if r.top.key.isSome then
    { r.behind .operator with last := keyword.filter (· == .asynchronous) }
  else if r.top.functionHead.isSome then r.behind .operator
  else if r.last = some .classHead ∧ keyword ≠ some .heritage then r.behind .operator
  else if r.last = some .jump ∧ ¬ r.atLineStart ∨ r.position = .binding then r.behind .complete
  else if r.joinsLet ∧ keyword ≠ some .relation then
    { r.behind .complete with top := { r.top with declares := true } }
  else
    match keyword with
    | some keyword => r.readKeyword offset keyword
    | none => r.readName

/-! ## Brackets -/

/-- A bracket of the function around it. -/
def inner (r : Reader) (kind : BracketKind) : Bracket := { kind, context := r.context }

/-- An opening brace. -/
def openBrace (r : Reader) : Reader :=
  let object : Bracket := { r.inner .object with key := some {} }
  match r.top.functionBody, r.top.classHeads with
  | some head, _ =>
    { r with top := { r.top with functionBody := none } }.push
      { kind := .block head.after, context := head.context } (.statement false)
  | none, after :: classHeads =>
    if r.position = .operand then r.push object .operand
    else
      { r with top := { r.top with classHeads } }.push
        { r.inner (.classBody after) with key := some {} } (.statement false)
  | none, [] =>
    if r.top.key.isSome then r.push { kind := .block .complete } (.statement false)
    else if r.joinsLet then
      { r with top := { r.top with declares := true } }.push object .operand
    else if r.position = .arrowBody then
      { r with top := { r.top with arrows := r.top.arrows.tail } }.push
        (r.inner (.block .complete)) (.statement false)
    else if r.top.isBlock ∧ r.position ≠ .operand ∧ r.position ≠ .binding then
      r.push (r.inner (.block (.statement false))) (.statement false)
    else r.push object .operand

/-- A closing brace. Behind a method, the next member may begin. -/
def closeBrace (r : Reader) : Reader :=
  match r.top.kind with
  | .block after =>
    let r := r.pop after
    { r with top := { r.top with key := r.top.key.map fun _ => {} } }
  | .classBody after => r.pop after
  | _ => r.pop .operator

/-- The condition of a loop opens. It is that of a repetition if the repeated statement is over. -/
def openCondition (r : Reader) : Reader :=
  if 0 < r.top.repetitions ∧ r.earlier = .statement false then
    { r with top := { r.top with repetitions := r.top.repetitions - 1 } }.push
      (r.inner (.condition false)) .operand
  else r.push (r.inner (.condition true)) .operand

/-- An opening parenthesis: of the parameters of a function or of a method, or behind a word. -/
def openParen (r : Reader) : Reader :=
  match r.top.functionHead, r.top.key with
  | some head, _ =>
    { r with top := { r.top with functionHead := none } }.push
      { kind := .parameters head, context := head.context } .operand
  | none, some key =>
    r.push { kind := .parameters ⟨key, .complete⟩, context := key } .operand
  | none, none =>
    match r.last with
    | some .loopCondition => r.openCondition
    | some .condition => r.push (r.inner (.condition true)) .operand
    | some .loop => r.push (r.inner (.loopHead false)) (.statement false)
    | some .awaiting => r.push (r.inner (.loopHead true)) (.statement false)
    | _ => r.push (r.inner (.group r.joinsAsync)) .operand

/-- A closing parenthesis. -/
def closeParen (r : Reader) : Reader :=
  match r.top.kind with
  | .condition nested => r.pop (.statement nested)
  | .loopHead _ => r.pop (.statement true)
  | .parameters head =>
    let r := r.pop .operator
    { r with top := { r.top with functionBody := some head } }
  | .group isAsync => { r.pop .operator with arrowIsAsync := isAsync }
  | _ => r.pop .operator

/-- An opening square bracket. -/
def openBracket (r : Reader) : Reader :=
  { r with top := { r.top with declares := r.top.declares || r.joinsLet } }.push
    (r.inner (.group false)) .operand

/-! ## Other marks -/

/-- A colon: of a conditional expression, behind a label, or behind the name of a property. It ends
the arrow functions that began inside the conditional expression. -/
def colon (r : Reader) : Reader :=
  if 0 < r.top.conditionals then
    { r.behind .operand with
      top := { r.top with
        conditionals := r.top.conditionals - 1
        arrows := r.top.arrows.dropWhile (r.top.conditionals ≤ ·.conditionals) } }
  else if r.top.isBlock then
    { r.behind (.statement !r.top.inCase) with top := r.top.settled }
  else { r.behind .operand with top := { r.top with key := none } }

/-- A comma. -/
def comma (r : Reader) : Reader :=
  { r.behind (if r.top.declares then .binding else .operand) with
    top := { r.top with arrows := [], key := if r.top.kind = .object then some {} else none } }

/-- A semicolon. -/
def semicolon (r : Reader) : Reader :=
  match r.top.kind with
  | .loopHead _ => { r.behind .operand with top := r.top.settled }
  | .classBody _ =>
    { r.behind (.statement false) with top := { r.top.settled with key := some {} } }
  | _ => { r.behind (.statement false) with top := r.top.settled }

/-- A star: of a generator, or an operator. -/
def star (r : Reader) : Reader :=
  let generator (c : Context) : Context := { c with isGenerator := true }
  { r.behind .operand with
    top := { r.top with
      functionHead := r.top.functionHead.map fun h => { h with context := generator h.context }
      key := r.top.key.map generator } }

/-- The reader behind a mark. -/
def readMark (r : Reader) (b : UInt8) : Reader :=
  if b = Byte.lbrace then r.openBrace
  else if b = Byte.rbrace then r.closeBrace
  else if b = Byte.lparen then r.openParen
  else if b = Byte.rparen then r.closeParen
  else if b = Byte.lbracket then r.openBracket
  else if b = Byte.rbracket then r.pop .operator
  else if b = Byte.colon then r.colon
  else if b = Byte.comma then r.comma
  else if b = Byte.semicolon then r.semicolon
  else if b = Byte.star then r.star
  else if b = Byte.dot ∨ b = Byte.hash then { r.behind .operand with afterDot := true }
  else if b = Byte.question then
    { r.behind .operand with top := { r.top with conditionals := r.top.conditionals + 1 } }
  else if b = Byte.equals then { r.behind .operand with top := { r.top with key := none } }
  else r.behind .operand

/-- The reader behind the mark of an arrow function. -/
def readArrow (r : Reader) : Reader :=
  let arrow : Arrow := ⟨{ isAsync := r.arrowIsAsync }, r.top.conditionals⟩
  { r.behind .arrowBody with top := { r.top with arrows := arrow :: r.top.arrows } }

/-- The reader behind a token. -/
def read (r : Reader) (t : Token) : Reader :=
  let r := (if r.continues t then r else r.begin).markAsync t
  match t with
  | .word offset word => r.readWord offset word
  | .literal | .template => r.behind .operator
  | .mark b => r.readMark b
  | .arrow => r.readArrow
  | .spread => { r.behind .operand with top := { r.top with key := none } }
  | .increment =>
    r.behind (if r.position = .operator ∧ ¬ r.atLineStart then .operator else .operand)
  | .negation | .other => r.behind .operand

/-- An expression begins inside a template. -/
def openInterpolation (r : Reader) : Reader := r.push (r.inner .interpolation) .operand

end Reader

end PageLang.Lint
