import PageLang.Text.Basic

/-!
# Brackets of scripts

What a reader of scripts keeps of the tokens it has passed: the position in front of the next token,
and the brackets around it, each with the constructs that are open directly in it.

* `Position`: what the next token begins or follows.
* `Keyword`: the words that are more than names.
* `Bracket`: an open bracket.
-/

namespace PageLang.Lint

/-- What the next token begins or follows. -/
inductive Position where
  /-- A statement may begin. One that is nested is the body of another, and declares nothing. -/
  | statement (nested : Bool)
  /-- An operand has to follow. -/
  | operand
  /-- A name or a pattern to declare has to follow. -/
  | binding
  /-- The body of an arrow function has to follow. -/
  | arrowBody
  /-- An operand has just ended. -/
  | operator
  /-- Something has just ended that no operator goes on with. -/
  | complete
  deriving DecidableEq, Repr

/-- The words that are more than names, at least in some places. -/
inductive Keyword where
  | debuggerStatement
  | functionHead
  | classHead
  /-- The word in front of the class that a class extends. -/
  | heritage
  /-- A word that declares names. -/
  | declaration
  /-- The word that declares names if a name or a pattern follows. -/
  | letDeclaration
  /-- A word that leaves a statement, with or without a label. -/
  | jump
  /-- The word that returns a value, or none. -/
  | result
  /-- The word that hands out a value in a generator. -/
  | yielding
  /-- The word that waits for a value in an asynchronous function. -/
  | awaiting
  | asynchronous
  /-- A word of a label in a switch, with an operand behind it or none. -/
  | caseLabel
  | defaultLabel
  /-- The word in front of the statement for any other case. -/
  | otherwise
  /-- The word in front of a statement that is repeated while a condition behind it holds. -/
  | repetition
  /-- The word in front of the condition of a repetition, or of a statement. -/
  | loopCondition
  /-- A word in front of the condition of a statement. -/
  | condition
  | loop
  /-- An operator in front of an operand. -/
  | operation
  /-- An operator between two operands. -/
  | relation
  /-- The operator in the head of a loop over values. -/
  | membership
  deriving DecidableEq, Repr

namespace Keyword

/-- The words with what they are. -/
def table : List (Text × Keyword) := [
  ("debugger", debuggerStatement), ("function", functionHead), ("class", classHead),
  ("extends", heritage), ("var", declaration), ("const", declaration), ("let", letDeclaration),
  ("break", jump), ("continue", jump), ("return", result), ("yield", yielding),
  ("await", awaiting), ("async", asynchronous), ("case", caseLabel), ("default", defaultLabel),
  ("else", otherwise), ("do", repetition), ("while", loopCondition), ("if", condition),
  ("with", condition), ("for", loop), ("typeof", operation), ("void", operation),
  ("delete", operation), ("new", operation), ("throw", operation), ("in", relation),
  ("instanceof", relation), ("of", membership)]

/-- The keyword that a word may be. -/
def ofWord? (word : Text) : Option Keyword := table.lookup word

/-- Whether a line that ends behind the keyword ends its operand too. -/
def endsWithLine : Keyword → Bool
  | jump | result | yielding => true
  | _ => false

end Keyword

/-- What the function around a token is. -/
structure Context where
  isGenerator : Bool := false
  isAsync : Bool := false
  deriving DecidableEq, Repr

/-- The head of a function: what the function is, and the position behind its body. -/
structure FunctionHead where
  context : Context
  after : Position
  deriving DecidableEq, Repr

/-- An arrow function whose body is an expression. -/
structure Arrow where
  context : Context
  /-- The conditional expressions around it that wait for their colon. -/
  conditionals : Nat
  deriving DecidableEq, Repr

/-- What a bracket opens. -/
inductive BracketKind where
  /-- A condition, behind which a statement begins, nested or not. -/
  | condition (nested : Bool)
  /-- The head of a loop. One that awaits goes over values as they arrive. -/
  | loopHead (awaits : Bool)
  | parameters (head : FunctionHead)
  /-- Any other parentheses, and square brackets. Parentheses may hold the parameters of an
  asynchronous arrow function. -/
  | group (isAsync : Bool)
  /-- Statements, and the position behind them. -/
  | block (after : Position)
  | object
  /-- The members of a class, and the position behind them. -/
  | classBody (after : Position)
  /-- An expression inside a template. -/
  | interpolation
  deriving DecidableEq, Repr

/-- An open bracket, and what is open directly in it. -/
structure Bracket where
  kind : BracketKind
  context : Context := {}
  /-- If the name of a member has to follow: what the member is, as far as it is a method. -/
  key : Option Context := none
  /-- The conditional expressions that wait for their colon. -/
  conditionals : Nat := 0
  /-- The arrow functions whose bodies are expressions, the innermost one first. -/
  arrows : List Arrow := []
  /-- The repetitions that wait for their conditions. -/
  repetitions : Nat := 0
  /-- Names are being declared. -/
  declares : Bool := false
  /-- A label of a switch waits for its colon. -/
  inCase : Bool := false
  /-- A function that waits for its parameters. -/
  functionHead : Option FunctionHead := none
  /-- A function that waits for its body. -/
  functionBody : Option FunctionHead := none
  /-- The classes that wait for their bodies, the innermost one first: the positions behind them. -/
  classHeads : List Position := []
  deriving DecidableEq, Repr

namespace Bracket

def isBlock (b : Bracket) : Bool :=
  match b.kind with
  | .block _ => true
  | _ => false

def isLoopHead (b : Bracket) : Bool :=
  match b.kind with
  | .loopHead _ => true
  | _ => false

/-- Whether a function or a class waits for more than an expression. -/
def inHead (b : Bracket) : Bool :=
  b.functionHead.isSome || b.functionBody.isSome || !b.classHeads.isEmpty

/-- The bracket where a statement or a member ends. -/
def settled (b : Bracket) : Bracket :=
  { b with conditionals := 0, arrows := [], declares := false, inCase := false }

/-- What the function around a token directly in the bracket is. -/
def innerContext (b : Bracket) : Context := (b.arrows.head?.map (·.context)).getD b.context

end Bracket

end PageLang.Lint
