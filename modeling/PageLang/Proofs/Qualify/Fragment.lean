import PageLang.Script.Qualify

/-!
# A fragment of behaviors

Blocks, conditions on blocks, declarations by `let` and `const` on one line, and expressions as
statements; an expression is a path of names, an integer, a string in single quotes, a sum or a
call. Blank space may stand wherever two words or marks do not touch by their meaning.

A tree is written with a function that says how each reference is spelled. The names of properties,
declared names and everything else are written as they are.

* `Expr.written`, `Declarators.written`, `Statements.written`: a tree, with its references spelled
  by a function. Under statements the function is told which names are declared.
* `Body.text`: a body as it stands in a source.
-/

namespace PageLang.Script

/-- The words by which statements and local declarations are recognised. -/
def reserved : List Text := ["if", "let", "const", "var", "function", "catch", "class"]

/-- An ASCII identifier that is not reserved. -/
def IsName (t : Text) : Prop := t.isIdentifier = true ∧ t ∉ reserved

instance (t : Text) : Decidable (IsName t) := inferInstanceAs (Decidable (_ ∧ _))

/-- Whether a name is taken for the head of a function or of a handler of errors when it is called:
the word `function` stands between dollar signs in it, or `catch` behind the last one. -/
def readsAsHead (n : Text) : Bool :=
  (n.splitOn Byte.dollar).contains (Text.ofString "function") ||
    (n.splitOn Byte.dollar).getLast? == some (Text.ofString "catch")

/-- A name in a body. -/
structure Name where
  text : Text
  fits : IsName text

/-- The digits of an integer. -/
structure Digits where
  text : Text
  nonempty : text ≠ []
  digits : ∀ b ∈ text, Byte.isDigit b = true

/-- The inside of a string in single quotes. -/
structure Quoted where
  text : Text
  fits : ∀ b ∈ text, b ≠ Byte.singleQuote ∧ b ≠ Byte.backslash ∧ b ≠ Byte.newline

/-- Blank space, or nothing. -/
structure Blank where
  text : Text
  blank : ∀ b ∈ text, Byte.isSpace b = true

/-- The blank space on both sides of a mark. -/
structure Spacing where
  before : Blank
  after : Blank

/-- A mark with the space around it. -/
def Spacing.around (sp : Spacing) (b : UInt8) : Text := sp.before.text ++ [b] ++ sp.after.text

/-- No blank space. -/
def Blank.nothing : Blank := ⟨[], by simp⟩

/-- No blank space on either side. -/
def Spacing.tight : Spacing := ⟨.nothing, .nothing⟩

/-! ## Expressions -/

/-- A name, and the properties that are read from it. -/
structure Path where
  root : Name
  properties : List Name

/-- A path, with its root spelled by `f`. -/
def Path.written (f : Text → Text) (p : Path) : Text :=
  f p.root.text ++ p.properties.flatMap (fun n => Byte.dot :: n.text)

/-- The name that stands at the end of a path. -/
def Path.final (p : Path) : Text := ((p.root :: p.properties).getLastD p.root).text

/-- Whether a tree is one expression, or the arguments of a call. -/
inductive Arity where
  | one
  | arguments

/-- Expressions, and the arguments of calls up to the closing parenthesis. -/
inductive Expr : Arity → Type where
  | path (p : Path) : Expr .one
  | integer (d : Digits) : Expr .one
  | string (q : Quoted) : Expr .one
  | sum (l : Expr .one) (sp : Spacing) (r : Expr .one) : Expr .one
  | call (f : Path) (sp : Spacing) (args : Expr .arguments) : Expr .one
  | noArgument : Expr .arguments
  | lastArgument (e : Expr .one) (gap : Blank) : Expr .arguments
  | argument (e : Expr .one) (sp : Spacing) (args : Expr .arguments) : Expr .arguments

namespace Expr

/-- An expression, with its references spelled by `f`. -/
def written (f : Text → Text) {k : Arity} : Expr k → Text
  | path p => p.written f
  | integer d => d.text
  | string q => [Byte.singleQuote] ++ q.text ++ [Byte.singleQuote]
  | sum l sp r => l.written f ++ sp.around Byte.plus ++ r.written f
  | call g sp args => g.written f ++ sp.around Byte.lparen ++ args.written f
  | noArgument => [Byte.rparen]
  | lastArgument e gap => e.written f ++ gap.text ++ [Byte.rparen]
  | argument e sp args => e.written f ++ sp.around Byte.comma ++ args.written f

/-- What is called somewhere in an expression: the name before each parenthesis. -/
def called {k : Arity} : Expr k → List Text
  | path _ | integer _ | string _ | noArgument => []
  | sum l _ r => l.called ++ r.called
  | call f _ args => f.final :: args.called
  | lastArgument e _ => e.called
  | argument e _ args => e.called ++ args.called

end Expr

/-! ## Statements -/

/-- What stands between a declaring keyword and its semicolon. -/
inductive Declarators where
  | last (n : Name) (sp : Spacing) (e : Expr .one) (gap : Blank)
  | more (n : Name) (sp : Spacing) (e : Expr .one) (sp' : Spacing) (rest : Declarators)

namespace Declarators

/-- The names declared, in order. -/
def names : Declarators → List Text
  | last n _ _ _ => [n.text]
  | more n _ _ _ rest => n.text :: rest.names

/-- Declarators, with the references of their initial values spelled by `f`. -/
def written (f : Text → Text) : Declarators → Text
  | last n sp e gap => n.text ++ sp.around Byte.equals ++ e.written f ++ gap.text
  | more n sp e sp' rest =>
    n.text ++ sp.around Byte.equals ++ e.written f ++ sp'.around Byte.comma ++ rest.written f

/-- What is called in an initial value. -/
def called : Declarators → List Text
  | last _ _ e _ => e.called
  | more _ _ e _ rest => e.called ++ rest.called

end Declarators

/-- A declaration by keyword, written on one line. -/
structure Line where
  isConst : Bool
  space : Blank
  declarators : Declarators
  apart : space.text ≠ []
  oneLine : Byte.newline ∉ space.text ++ declarators.written id

/-- The keyword of a declaration. -/
def Line.keyword (l : Line) : Text := if l.isConst then "const" else "let"

/-- Statements, one after another. -/
inductive Statements where
  | done
  | block (opening : Blank) (inner : Statements) (closing : Blank) (rest : Statements)
  | branch (sp : Spacing) (condition : Expr .one) (sp' : Spacing) (opening : Blank)
      (inner : Statements) (closing : Blank) (rest : Statements)
  | declare (l : Line) (gap : Blank) (rest : Statements)
  | run (e : Expr .one) (sp : Spacing) (rest : Statements)

namespace Statements

/-- Statements with their references spelled by `f`, which is told the names declared before in
the blocks around a reference, and those of the declaration it stands in; `hidden` are declared
around the statements. -/
def written (f : List Text → Text → Text) (hidden : List Text) : Statements → Text
  | done => []
  | block opening inner closing rest =>
    [Byte.lbrace] ++ opening.text ++ inner.written f hidden ++ [Byte.rbrace] ++ closing.text ++
      rest.written f hidden
  | branch sp e sp' opening inner closing rest =>
    Text.ofString "if" ++ sp.around Byte.lparen ++ e.written (f hidden) ++
      sp'.around Byte.rparen ++ [Byte.lbrace] ++ opening.text ++ inner.written f hidden ++
      [Byte.rbrace] ++ closing.text ++ rest.written f hidden
  | declare l gap rest =>
    l.keyword ++ l.space.text ++ l.declarators.written (f (l.declarators.names ++ hidden)) ++
      [Byte.semicolon] ++ gap.text ++ rest.written f (l.declarators.names ++ hidden)
  | run e sp rest =>
    e.written (f hidden) ++ sp.around Byte.semicolon ++ rest.written f hidden

/-- What is called somewhere in statements. -/
def called : Statements → List Text
  | done => []
  | block _ inner _ rest => inner.called ++ rest.called
  | branch _ e _ _ inner _ rest => e.called ++ inner.called ++ rest.called
  | declare l _ rest => l.declarators.called ++ rest.called
  | run e _ rest => e.called ++ rest.called

end Statements

/-! ## What is called -/

theorem Expr.isName_of_mem_called {k : Arity} {e : Expr k} {n : Text} (h : n ∈ e.called) :
    IsName n := by
  induction e with
  | path | integer | string | noArgument => simp [called] at h
  | sum l sp r ihl ihr => exact (List.mem_append.1 h).elim ihl ihr
  | call f sp args ih =>
    rcases List.mem_cons.1 h with rfl | h
    · exact Name.fits _
    · exact ih h
  | lastArgument e gap ih => exact ih h
  | argument e sp args ihe ihargs => exact (List.mem_append.1 h).elim ihe ihargs

theorem Declarators.isName_of_mem_called {d : Declarators} {n : Text} (h : n ∈ d.called) :
    IsName n := by
  induction d with
  | last m sp e gap => exact e.isName_of_mem_called h
  | more m sp e sp' rest ih => exact (List.mem_append.1 h).elim e.isName_of_mem_called ih

/-- What is called is a name. -/
theorem Statements.isName_of_mem_called {S : Statements} {n : Text} (h : n ∈ S.called) :
    IsName n := by
  induction S with
  | done => simp [called] at h
  | block opening inner closing rest ihinner ihrest =>
    exact (List.mem_append.1 h).elim ihinner ihrest
  | branch sp e sp' opening inner closing rest ihinner ihrest =>
    rcases List.mem_append.1 h with h | h
    · exact (List.mem_append.1 h).elim e.isName_of_mem_called ihinner
    · exact ihrest h
  | declare l gap rest ih =>
    exact (List.mem_append.1 h).elim Declarators.isName_of_mem_called ih
  | run e sp rest ih => exact (List.mem_append.1 h).elim e.isName_of_mem_called ih

/-- A body: statements, with blank space in front. -/
structure Body where
  lead : Blank
  statements : Statements

namespace Body

/-- A body with its references spelled by `f`. -/
def written (f : List Text → Text → Text) (b : Body) : Text :=
  b.lead.text ++ b.statements.written f []

/-- A body as it stands in a source. -/
def text (b : Body) : Text := b.written fun _ n => n

end Body

end PageLang.Script
