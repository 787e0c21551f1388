import PageLang.Declaration.Parser
import PageLang.Proofs.Mask.Counted
import PageLang.Proofs.Script.Counted

/-!
# No count of brackets goes below zero

Brackets are counted where the mask looks for the end of a parameter list, where the parser reads a
function, and where the declarations of a body are looked for. Told with counters that may fail, all
three find what they find without, in every text and in both grammars. For the parser this holds
from every offset: blank space leads from a live colon to the parenthesis, so that one is live. For
the declarations of a body it holds in the ranges of statements, and need not hold in others.

* `MaskedText.countedDeclaration?`: the parser, with counters that may fail.
* `MaskedText.countedDeclaration?_eq_ok`: none does.
* `MaskedText.counts_eq_ok`: nor does one of the mask or of the declarations of a body.
-/

namespace PageLang.MaskedText

open Counting Mask

/-- The live parenthesis that closes the one at `opening`. -/
def countedParen? (s : MaskedText) (opening : Nat) : Except CountFault (Option Nat) :=
  matching s.liveByte? (· == Byte.lparen) (· == Byte.rparen) opening s.size

/-- The function whose parameter list opens at `paren`, and the offset after it. -/
def countedBehavior (s : MaskedText) (paren : Nat) (written : Text) :
    Except CountFault (Except Fault (Behavior × Nat)) :=
  (s.countedParen? paren).map fun close? =>
    match close? with
    | none => .error ⟨.parametersUnclosed written, ⟨paren, paren + 1⟩⟩
    | some close =>
      let parameters := ((s.slice (paren + 1) close).splitTopLevel Byte.comma 0).map Text.trim
      let brace := s.skipTrivia (close + 1)
      if s.byte? brace = some Byte.lbrace then
        match s.closingBrace? brace with
        | none => .error ⟨.bodyUnclosed written, ⟨brace, brace + 1⟩⟩
        | some stop =>
          .ok (⟨parameters.filter (fun p => !p.isEmpty), s.slice brace (stop + 1),
            ⟨brace, stop + 1⟩⟩, s.afterBlock (stop + 1))
      else .error ⟨.bodyMissing written, ⟨close, close + 1⟩⟩

/-- The value at `i` of the declaration that starts at `start`, and the offset after it. Only the
value of a function counts parentheses. -/
def countedValue (s : MaskedText) (start i : Nat) (written : Text) :
    Except CountFault (Except Fault (RawValue × Nat)) :=
  if s.byte? i = some Byte.lparen then
    (s.countedBehavior i written).map (·.map fun r => (.behavior r.1, r.2))
  else .ok (s.value start i written)

/-- The declaration that starts at `start` and whose name ends at `colon`. -/
def countedDeclarationAt (s : MaskedText) (start colon : Nat) :
    Except CountFault (Except Fault (Declaration × Nat)) :=
  let written := (s.slice start colon).trim
  let (sigil, name) := Declaration.splitSigil written
  if name.isMemberName then
    (s.countedValue start (s.skipSpace (colon + 1)) written).map fun v =>
      match v with
      | .error fault => .error fault
      | .ok (value, stop) =>
        match Content.ofValue sigil name written value with
        | .error problem => .error ⟨problem, ⟨start, stop⟩⟩
        | .ok content => .ok (⟨name, content, ⟨start, stop⟩⟩, stop)
  else .ok (.error ⟨.propertyName written, ⟨start, colon⟩⟩)

/-- The declaration at `start`, or after blank space and comments from there, and the offset after
it. -/
def countedDeclaration? (s : MaskedText) (start : Nat) :
    Except CountFault (Except Fault (Option (Declaration × Nat))) :=
  let i := s.skipTrivia start
  if s.byte? i = none ∨ s.byte? i = some Byte.rbrace then .ok (.ok none)
  else
    match s.nameEnd? i with
    | none => .ok (.ok none)
    | some colon => (s.countedDeclarationAt i colon).map (·.map some)

section
variable {s : MaskedText} {paren : Nat} {written : Text}

theorem countedParen?_eq_ok (h : s.liveByte? paren = some Byte.lparen) :
    s.countedParen? paren = .ok (s.closingParen? paren) :=
  matching_eq_ok (byte?_eq_some_lt (liveByte?_eq_some h).2) h rfl

theorem countedBehavior_eq_ok (h : s.liveByte? paren = some Byte.lparen) :
    s.countedBehavior paren written = .ok (s.behavior paren written) := by
  unfold countedBehavior behavior
  rw [countedParen?_eq_ok h]
  rfl

end

section
variable {mode : Mode} {t : Text} {start colon : Nat}

/-- The value behind a live colon is read without a fault of the counter. -/
theorem countedValue_eq_ok {written : Text}
    (h : (ofText mode t).liveByte? colon = some Byte.colon) :
    (ofText mode t).countedValue start ((ofText mode t).skipSpace (colon + 1)) written =
      .ok ((ofText mode t).value start ((ofText mode t).skipSpace (colon + 1)) written) := by
  unfold countedValue
  split
  · next hparen =>
    rw [countedBehavior_eq_ok (liveByte?_value h (by rwa [byte?_ofText] at hparen)), value, hparen]
    rfl
  · rfl

theorem countedDeclarationAt_eq_ok (h : (ofText mode t).liveByte? colon = some Byte.colon) :
    (ofText mode t).countedDeclarationAt start colon =
      .ok ((ofText mode t).declarationAt start colon) := by
  unfold countedDeclarationAt declarationAt
  dsimp only
  split
  · rw [countedValue_eq_ok h]
    rfl
  · rfl

theorem countedDeclaration?_eq_ok (mode : Mode) (t : Text) (start : Nat) :
    (ofText mode t).countedDeclaration? start = .ok ((ofText mode t).declaration? start) := by
  unfold countedDeclaration?
  dsimp only
  by_cases hend : (ofText mode t).byte? ((ofText mode t).skipTrivia start) = none ∨
      (ofText mode t).byte? ((ofText mode t).skipTrivia start) = some Byte.rbrace
  · rw [if_pos hend, declaration?]
    rcases hend with hend | hend
    · rw [hend]
    · rw [hend]
      rfl
  rw [if_neg hend]
  cases hcolon : (ofText mode t).nameEnd? ((ofText mode t).skipTrivia start) with
  | none =>
    dsimp only
    rw [declaration?, hcolon]
    split <;> rfl
  | some colon =>
    dsimp only
    rw [countedDeclarationAt_eq_ok (nameEnd?_eq_some hcolon).2, declaration?, hcolon]
    split
    · next hnone => exact absurd (.inl hnone) hend
    · next hbrace => exact absurd (.inr hbrace) hend
    · rfl

end

/-- In every text and both grammars no count of brackets starts without one or goes below zero:
while the mask is made, in the range of a statement while its declarations are looked for, and from
any offset while a declaration is parsed. -/
theorem counts_eq_ok (mode : Mode) (t : Text) :
    Mask.counted mode t = .ok (Mask.ofText mode t) ∧
    (∀ r ∈ (ofText mode t).statementRanges,
      (ofText mode t).countedLocals r.1 r.2 = .ok ((ofText mode t).locals r.1 r.2)) ∧
    ∀ start, (ofText mode t).countedDeclaration? start = .ok ((ofText mode t).declaration? start) :=
  ⟨counted_eq_ok mode t, fun _ => countedLocals_eq_ok, countedDeclaration?_eq_ok mode t⟩

/-- A loop without a block, in the body of a method with a default value. -/
def sampleLoop : Text := "f:(a=(1))\x7bfor(let \x7bb\x7d of a)b;\x7d"

/-- The method that `sampleLoop` declares. -/
def sampleMethod : Declaration where
  name := "f"
  content := .method .pub ⟨[Text.ofString "a=(1)"], "\x7bfor(let \x7bb\x7d of a)b;\x7d", ⟨9, 30⟩⟩
  span := ⟨0, 30⟩

/-- The local declaration in `sampleLoop`. -/
def sampleLocal : LocalDeclaration where
  offset := 14
  names := [Text.ofString "b"]
  scope := .expression 29

theorem locals_sampleLoop : (ofText .declarations sampleLoop).locals 0 29 = [sampleLocal] := by
  have hfound : Recogniser.all Recogniser.keyword 0 0 []
      ((ofText .declarations sampleLoop).slice 0 29) = [(14, 18, false, some 13)] := by
    decide +kernel
  have hdeclarator : (ofText .declarations sampleLoop).declarator? 18 29 =
      some ([Text.ofString "b"], 21) := by
    decide +kernel
  have hlast : (ofText .declarations sampleLoop).nextDeclarator? 0 21 (29 - 21) = none := by
    decide +kernel
  have hnames : (ofText .declarations sampleLoop).declaratorNames 18 29 = [Text.ofString "b"] := by
    rw [declaratorNames_eq (k := 18) (by decide +kernel) (by decide) hdeclarator, hlast]
  have hscope : (ofText .declarations sampleLoop).loopScope (0 + 13) = .expression 29 := by
    decide +kernel
  have hlive : (ofText .declarations sampleLoop).isLive 14 = true := by decide +kernel
  have hothers : (ofText .declarations sampleLoop).functionLocals 0 29 = [] ∧
      (ofText .declarations sampleLoop).catchLocals 0 29 = [] ∧
      (ofText .declarations sampleLoop).classLocals 0 29 = [] ∧
      (ofText .declarations sampleLoop).arrowLocals 0 29 = [] := by
    decide +kernel
  obtain ⟨hfunctions, hhandlers, hclasses, harrows⟩ := hothers
  rw [locals, keywordLocals, hfound, hfunctions, hhandlers, hclasses, harrows]
  simp [hnames, hscope, hlive, sampleLocal]

theorem counts_eq_ok_sampleLoop :
    (0, 29) ∈ (ofText .declarations sampleLoop).statementRanges ∧
    (ofText .declarations sampleLoop).countedLocals 0 29 = .ok [sampleLocal] ∧
    (ofText .declarations sampleLoop).countedDeclaration? 0 =
      .ok (.ok (some (sampleMethod, 30))) := by
  have hrange : (0, 29) ∈ (ofText .declarations sampleLoop).statementRanges := by decide +kernel
  obtain ⟨-, hlocals, hdeclarations⟩ := counts_eq_ok .declarations sampleLoop
  refine ⟨hrange, (hlocals _ hrange).trans (congrArg _ locals_sampleLoop), ?_⟩
  exact (hdeclarations 0).trans (congrArg _ (by decide +kernel))

end PageLang.MaskedText
