import PageLang.Proofs.Declaration.ScalarText
import PageLang.Proofs.Script.Inert

/-!
# Expressions as default values

A default value that is an expression keeps what it holds in brackets, but for the colon of a
conditional: the colon stands where a key would end, and the name in front of it is lost.

* `Expression`: names and numbers, strings, calls, array and object literals, and conditionals.
* `Expression.inert_iff`: the expressions that are inert.
-/

namespace PageLang

open Script
open Binding (Kind Separates)

/-- A name, a number, or names with dots between them. -/
structure Atom where
  text : Text
  ne : text ≠ []
  fits : ∀ b ∈ text, Byte.isWord b = true ∨ b = Byte.dot

/-- A string without brackets, commas and colons. -/
def Literal.Calm (l : Literal) : Prop :=
  ∀ b ∈ l.inside, Byte.isOpening b = false ∧ Byte.isClosing b = false ∧ b ≠ Byte.comma ∧ b ≠ Byte.colon

/-! ## Trees -/

/-- The parts of an expression. -/
inductive Expression.Level where
  | primary
  | value
  | item (k : Kind)
  | items (k : Kind)

/-- An expression, an item of a list in it, or the rest of a list. -/
inductive Expression : Expression.Level → Type where
  | atom (a : Atom) : Expression .primary
  | string (l : Literal) : Expression .primary
  | call (f : Expression .primary) (gap opening : Blank)
      (arguments : Expression (.items .elements)) : Expression .primary
  | array (opening : Blank) (inside : Expression (.items .elements)) : Expression .primary
  | object (opening : Blank) (inside : Expression (.items .properties)) : Expression .primary
  | plain (e : Expression .primary) : Expression .value
  | conditional (test : Expression .primary) (mark : Spacing) (yes : Expression .value)
      (colon : Spacing) (no : Expression .value) : Expression .value
  /-- Nothing: an empty list, or the end behind a comma. -/
  | hole {k : Kind} : Expression (.item k)
  | element (e : Expression .value) : Expression (.item .elements)
  | shorthand (a : Atom) : Expression (.item .properties)
  | keyed (key : Atom) (sp : Spacing) (e : Expression .value) : Expression (.item .properties)
  | last {k : Kind} (i : Expression (.item k)) (gap : Blank) : Expression (.items k)
  | more {k : Kind} (i : Expression (.item k)) (sp : Spacing) (others : Expression (.items k)) :
      Expression (.items k)

namespace Expression

/-- An expression as it is written. -/
def text {l : Level} : Expression l → Text
  | atom a => a.text
  | string l => l.text
  | call f gap opening arguments =>
    f.text ++ gap.text ++ (Byte.lparen :: (opening.text ++ arguments.text ++ [Byte.rparen]))
  | array opening inside => Byte.lbracket :: (opening.text ++ inside.text ++ [Byte.rbracket])
  | object opening inside => Byte.lbrace :: (opening.text ++ inside.text ++ [Byte.rbrace])
  | plain e => e.text
  | conditional test mark yes colon no =>
    test.text ++ mark.around Byte.question ++ yes.text ++ colon.around Byte.colon ++ no.text
  | hole => []
  | element e => e.text
  | shorthand a => a.text
  | keyed key sp e => key.text ++ sp.around Byte.colon ++ e.text
  | last i gap => i.text ++ gap.text
  | more i sp others => i.text ++ sp.around Byte.comma ++ others.text

/-- The strings in an expression. -/
def strings {l : Level} : Expression l → List Literal
  | atom _ | hole | shorthand _ => []
  | string l => [l]
  | call f _ _ arguments => f.strings ++ arguments.strings
  | array _ inside | object _ inside => inside.strings
  | plain e => e.strings
  | conditional test _ yes _ no => test.strings ++ yes.strings ++ no.strings
  | element e | keyed _ _ e => e.strings
  | last i _ => i.strings
  | more i _ others => i.strings ++ others.strings

def isConditional : Expression .value → Bool
  | plain _ => false
  | conditional .. => true

end Expression

/-! ## Where an expression is cut -/

namespace Expression

/-- How many brackets are open around a part of an expression that is not cut there. -/
def Level.floor (separator : UInt8) : Level → Int
  | .primary => if separator = Byte.equals then 1 else 0
  | .value => if separator = Byte.comma then 0 else 1
  | .item _ | .items _ => 1

theorem held_atom {separator : UInt8} (h : Separates separator) (floor : Int) (a : Atom) :
    Text.Held separator floor a.text := by
  refine Text.held_of_unbracketed h fun b hb => ?_
  rcases a.fits b hb with hword | rfl
  · obtain ⟨hopening, hclosing, -⟩ := Byte.not_bracket_of_isWord b hword
    refine ⟨hopening, hclosing, ?_⟩
    rintro rfl
    rw [h.plain.2.2.1] at hword
    cases hword
  · exact ⟨by decide, by decide, fun heq => absurd heq.symm h.plain.2.2.2.2⟩

theorem held_string {separator : UInt8} (h : Separates separator) {l : Literal} (hl : l.Calm) :
    Text.Held separator (Level.floor separator .primary) l.text := by
  have hquote : Byte.isOpening l.quote = false ∧ Byte.isClosing l.quote = false ∧
      l.quote ≠ Byte.comma ∧ l.quote ≠ Byte.colon := by
    rcases l.quote_cases with hquote | hquote | hquote <;> rw [hquote] <;> decide
  refine Text.held_of_unbracketed h fun b hb => ?_
  have hcalm : Byte.isOpening b = false ∧ Byte.isClosing b = false ∧
      b ≠ Byte.comma ∧ b ≠ Byte.colon := by
    simp only [Literal.text, List.mem_cons, List.mem_append, List.not_mem_nil, or_false] at hb
    rcases hb with rfl | hb | rfl
    · exact hquote
    · exact hl b hb
    · exact hquote
  refine ⟨hcalm.1, hcalm.2.1, ?_⟩
  rintro rfl
  rcases h with heq | heq | heq
  · exact absurd heq hcalm.2.2.1
  · exact absurd heq hcalm.2.2.2
  · rw [Level.floor, if_pos heq]
    decide

theorem Level.floor_le (separator : UInt8) (l : Level) : l.floor separator ≤ 1 := by
  cases l <;> simp only [floor] <;> (try split) <;> decide

/-- No separator cuts a part of an expression with that many brackets open around it. -/
theorem held {separator : UInt8} (h : Separates separator) {l : Level} (e : Expression l)
    (he : ∀ s ∈ e.strings, s.Calm) : Text.Held separator (l.floor separator) e.text := by
  have hblank (floor : Int) (g : Blank) := h.held_blank floor g
  have hinside {l : Level} {t : Text} (ht : Text.Held separator (l.floor separator) t) :
      Text.Held separator 1 t := ht.mono (l.floor_le separator)
  have hprimary : 0 ≤ Level.floor separator .primary := by
    simp only [Level.floor]
    split <;> decide
  have hvalue : Level.floor separator .primary ≤ Level.floor separator .value := by
    rcases h with rfl | rfl | rfl <;> decide
  induction e with
  | atom a => exact held_atom h _ a
  | string l => exact held_string h (he l (by simp [strings]))
  | call f gap opening arguments ihf ih =>
    obtain ⟨hf, harguments⟩ := List.forall_mem_append.1 he
    exact ((ihf hf).append (hblank _ gap)).append
      ((Text.Held.brackets ((hblank 1 opening).append (hinside (ih harguments))) (by decide)
        (by decide)).mono hprimary)
  | array opening inside ih =>
    exact (Text.Held.brackets ((hblank 1 opening).append (hinside (ih he))) (by decide)
      (by decide)).mono hprimary
  | object opening inside ih =>
    exact (Text.Held.brackets ((hblank 1 opening).append (hinside (ih he))) (by decide)
      (by decide)).mono hprimary
  | plain e ih => exact (ih he).mono hvalue
  | conditional test mark yes colon no ihtest ihyes ihno =>
    obtain ⟨hboth, hno⟩ := List.forall_mem_append.1 he
    obtain ⟨htest, hyes⟩ := List.forall_mem_append.1 hboth
    have hquestion : Byte.question ≠ separator := by
      rcases h with rfl | rfl | rfl <;> decide
    have hcolon : Byte.colon = separator → 0 < Level.floor separator .value := by
      rintro rfl
      decide
    exact (((((ihtest htest).mono hvalue).append
      (h.held_around (by decide) (fun heq => absurd heq hquestion) mark)).append (ihyes hyes)).append
        (h.held_around (by decide) hcolon colon)).append (ihno hno)
  | hole => exact Text.held_nil _ _
  | element e ih => exact hinside (ih he)
  | shorthand a => exact held_atom h _ a
  | keyed key sp e ih =>
    exact ((held_atom h 1 key).append (h.held_around (by decide) (fun _ => Int.zero_lt_one) sp)).append
      (hinside (ih he))
  | last i gap ih => exact (ih he).append (hblank 1 gap)
  | more i sp others ih ihothers =>
    obtain ⟨hi, hothers⟩ := List.forall_mem_append.1 he
    exact ((ih hi).append (h.held_around (by decide) (fun _ => Int.zero_lt_one) sp)).append
      (ihothers hothers)

/-! ## Expressions that do no harm -/

/-- An expression in brackets. -/
theorem inert_of_held {t : Text}
    (hbrackets : ∀ separator, Separates separator → Text.Held separator 1 t)
    (hcomma : Text.Held Byte.comma 0 t) (hcolon : Text.Held Byte.colon 0 t) : Pattern.Inert t where
  closes := hcomma.balance_eq_zero (.inl rfl)
  inBrackets separator h depth hdepth := (hbrackets separator h).whole (by omega)
  colon := by
    rw [Text.firstPiece_eq hcomma.split]
    exact hcolon.split
  names := by
    rw [hcomma.split]
    rfl

/-- An expression with calm strings is inert if and only if it is no conditional. -/
theorem inert_iff (e : Expression .value) (he : ∀ s ∈ e.strings, s.Calm) :
    Pattern.Inert e.text ↔ e.isConditional = false := by
  cases e with
  | plain e =>
    refine iff_of_true (inert_of_held (fun separator h => ?_) (held (.inl rfl) e he)
      (held (.inr (.inl rfl)) e he)) rfl
    exact (held h e he).mono (Level.floor_le separator _)
  | conditional test mark yes colon no =>
    refine iff_of_false (fun hinert => ?_) (by simp [isConditional])
    have hcomma : Separates Byte.comma := .inl rfl
    have hcolon := hinert.colon
    rw [Text.firstPiece_eq (held hcomma (.conditional test mark yes colon no) he).split] at hcolon
    obtain ⟨hboth, -⟩ := List.forall_mem_append.1 he
    obtain ⟨htest, hyes⟩ := List.forall_mem_append.1 hboth
    have hfront : Text.Held Byte.comma 0
        (test.text ++ mark.around Byte.question ++ yes.text ++ colon.before.text) :=
      (((held hcomma test htest).append (hcomma.held_around (by decide) (by decide) mark)).append
        (held hcomma yes hyes)).append (hcomma.held_blank 0 colon.before)
    have htext : (conditional test mark yes colon no).text =
        test.text ++ mark.around Byte.question ++ yes.text ++ colon.before.text ++
          Byte.colon :: (colon.after.text ++ no.text) := by
      simp [text, Spacing.around]
    rw [htext, Text.split_append_separator (.inr (.inl rfl)) (by decide)
      (by rw [hfront.balance_eq_zero hcomma]; rfl)] at hcolon
    -- a colon outside brackets leaves two pieces at least
    rcases List.append_eq_singleton_iff.1 hcolon with ⟨hnil, -⟩ | ⟨-, hnil⟩
    · exact Text.splitTopLevel_ne_nil _ _ _ hnil
    · exact Text.splitTopLevel_ne_nil _ _ _ hnil

end Expression

/-- A conditional is taken for a renamed key: the name in front of it is lost, and the last name in it
is bound. -/
example : Pattern.names "a = x ? y : z" = [Text.ofString "z"] := by
  rw [Pattern.names_eq]
  decide

/-- The names that are read from a list of patterns are those of the tree, if the default values are
expressions with calm strings and no conditionals. -/
theorem Defaulted.names_text_of_expressions {k : Kind} (t : Defaulted (.items k))
    (ht : ∀ d ∈ t.defaults, ∃ e : Expression .value,
      e.text = d.value ∧ (∀ s ∈ e.strings, s.Calm) ∧ e.isConditional = false) (gap : Blank) :
    Pattern.names (gap.text ++ t.text) = t.names := by
  refine t.names_text (fun d hd => ?_) gap
  obtain ⟨e, htext, hcalm, hplain⟩ := ht d hd
  rw [← htext]
  exact (e.inert_iff hcalm).2 hplain

end PageLang
