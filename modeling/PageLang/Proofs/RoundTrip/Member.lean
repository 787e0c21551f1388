import PageLang.Proofs.RoundTrip.Gap
import PageLang.Proofs.Text.Trim

/-!
# One member of a class or an element

A member is written `name: 'text';` or `name: (parameters) {body}`, with its sigil in front of the
name. It is read back with its name, its kind and its value, and reading ends right behind it.

* `Member.reads`: the mask of a member. The text and the body mask themselves.
* `Member.Declares`: the declaration that a member stands for.
-/

namespace PageLang

namespace Byte

theorem isNamePart_of_isWordStart {b : UInt8} (h : isWordStart b = true) : isNamePart b = true := by
  simp [isNamePart, isWord, h]

theorem isInk_of_isNamePart : ∀ b, isNamePart b = true → isInk b = true :=
  forall_of_nibbles (by decide)

theorem isPlain_of_isNamePart : ∀ b, isNamePart b = true → isPlain b = true :=
  forall_of_nibbles (by decide)

theorem not_bracket_of_isNamePart :
    ∀ b, isNamePart b = true → isOpening b = false ∧ isClosing b = false :=
  forall_of_nibbles (by decide)

/-- The bytes that no name holds. -/
def marks : Text := [space, slash, dot, comma, less, colon, semicolon, lparen, rparen, lbrace, rbrace]

theorem notMem_marks_of_isNamePart : ∀ b, isNamePart b = true → b ∉ marks :=
  forall_of_nibbles (by decide)

end Byte

namespace Written

open Cell

/-! ## What a member is -/

/-- A kind of member whose value is a string. -/
inductive StringSlot where
  | var (access : Access)
  | attr
  | style
  deriving DecidableEq

/-- A kind of member whose value is a function. -/
inductive FunctionSlot where
  | method (access : Access)
  | getter
  | setter
  | eventHandler
  deriving DecidableEq

/-- The sigil of an access. -/
def accessSigil : Access → Option UInt8
  | .pub => none
  | .prot => some Byte.hash
  | .priv => some Byte.hyphen

namespace StringSlot

/-- What stands in front of the name. -/
def sigil : StringSlot → Option UInt8
  | var access => accessSigil access
  | attr => some Byte.dollar
  | style => none

/-- The content of a declaration of this kind. -/
def content : StringSlot → Scalar → Content
  | var access, value => .var access (.scalar value)
  | attr, value => .attr value
  | style, value => .style value

end StringSlot

namespace FunctionSlot

/-- What stands in front of the name. -/
def sigil : FunctionSlot → Option UInt8
  | method access => accessSigil access
  | getter => some Byte.less
  | setter => some Byte.greater
  | eventHandler => some Byte.atSign

/-- The content of a declaration of this kind. -/
def content : FunctionSlot → Behavior → Content
  | method access, f => .method access f
  | getter, f => .getter f
  | setter, f => .setter f
  | eventHandler, f => .eventHandler f

end FunctionSlot

/-- A name that may stand behind a sigil. Without a sigil it must not begin with one, and it is a
style property where one is declared, and only there. -/
structure NameFits (sigil : Option UInt8) (isStyle : Bool) (name : Text) : Prop where
  isMemberName : name.isMemberName = true
  bare : sigil = none →
    name.head? ≠ some Byte.dollar ∧ Vocabulary.isStyleProperty name = isStyle

/-- A body as code alone: it begins with a brace and ends with the brace matching it. -/
structure IsBody (body : Text) : Prop where
  opens : body.head? = some Byte.lbrace
  closes : (MaskedText.ofText .code body).closingBrace? 0 = some (body.length - 1)

/-- A member: a text in single quotes or a function under a name. A `;` may follow a function. -/
inductive Member where
  | string (slot : StringSlot) (name value : Text)
    (hname : NameFits slot.sigil (slot == .style) name)
    (hvalue : ∀ b ∈ value, b ≠ Byte.singleQuote ∧ b ≠ Byte.backslash)
  | function (slot : FunctionSlot) (name : Text) (parameters : List Text) (body : Text)
    (semicolon : Bool) (hname : NameFits slot.sigil false name)
    (hparameters : ∀ p ∈ parameters, p.isIdentifier = true) (hbody : IsBody body)

/-- Parameters as written between parentheses. -/
def parameterList : List Text → Text
  | [] => []
  | p :: ps => p ++ ps.flatMap ([Byte.comma, Byte.space] ++ ·)

namespace Member

/-- A member as written. -/
def text : Member → Text
  | string slot name value _ _ => slot.sigil.toList ++ name ++ [Byte.colon, Byte.space] ++
      [Byte.singleQuote] ++ value ++ [Byte.singleQuote] ++ [Byte.semicolon]
  | function slot name parameters body semicolon _ _ _ => slot.sigil.toList ++ name ++
      [Byte.colon, Byte.space, Byte.lparen] ++ parameterList parameters ++
      [Byte.rparen, Byte.space] ++ body ++ Gap.ending semicolon

/-- A member with its mask. -/
def cells : Member → List Cell
  | string slot name value _ _ => live (slot.sigil.toList ++ name) ++
      (live [Byte.colon, Byte.space] ++ masked ([Byte.singleQuote] ++ value ++ [Byte.singleQuote]) ++
        live [Byte.semicolon])
  | function slot name parameters body semicolon _ _ _ => live (slot.sigil.toList ++ name) ++
      (live ([Byte.colon, Byte.space, Byte.lparen] ++ parameterList parameters ++
        [Byte.rparen, Byte.space]) ++ body.zip (Mask.ofText .code body)) ++ live (Gap.ending semicolon)

/-- The kind of a member. -/
def slot : Member → StringSlot ⊕ FunctionSlot
  | string slot .. => .inl slot
  | function slot .. => .inr slot

/-- Whether the name shares one namespace with the named elements of a class. -/
def sharesNamespace : Member → Bool
  | string slot .. => slot != .attr
  | function slot .. => match slot with
    | .method _ => true
    | _ => false

/-- The name without its sigil. -/
def name : Member → Text
  | string _ name .. => name
  | function _ name .. => name

@[simp] theorem bytes_cells (m : Member) : bytes m.cells = m.text := by
  cases m <;> simp [cells, text, bytes_zip]

/-- The declaration that a member is read as: its name and content. Where the body of a function
stands is left open. -/
def Declares : Member → Declaration → Prop
  | string slot name value _ _, d => d.name = name ∧ d.content = slot.content (.string value)
  | function slot name parameters body _ _ _ _, d =>
      d.name = name ∧ ∃ span, d.content = slot.content ⟨parameters, body, span⟩

end Member

/-! ## Names -/

/-- A sigil of a member. The colon of a state is none. -/
def IsSigil (sigil : Option UInt8) : Prop :=
  ∀ b ∈ sigil, Declaration.sigils.contains b = true ∧ b ≠ Byte.colon

theorem StringSlot.isSigil (slot : StringSlot) : IsSigil slot.sigil := by
  rcases slot with (_ | _ | _) | _ | _ <;> unfold IsSigil <;> decide +kernel

theorem FunctionSlot.isSigil (slot : FunctionSlot) : IsSigil slot.sigil := by
  rcases slot with (_ | _ | _) | _ | _ | _ <;> unfold IsSigil <;> decide +kernel

theorem isMemberName_iff {name : Text} : name.isMemberName = true ↔
    ∃ b rest, name = b :: rest ∧ Byte.isWordStart b = true ∧
      ∀ c ∈ b :: rest, Byte.isNamePart c = true := by
  cases name with
  | nil => simp [Text.isMemberName]
  | cons b rest =>
    simp only [Text.isMemberName, Bool.and_eq_true, List.all_eq_true, List.cons.injEq,
      List.mem_cons, forall_eq_or_imp]
    constructor
    · rintro ⟨hb, hrest⟩
      exact ⟨b, rest, ⟨rfl, rfl⟩, hb, Byte.isNamePart_of_isWordStart hb, hrest⟩
    · rintro ⟨_, _, ⟨rfl, rfl⟩, hb, -, hrest⟩
      exact ⟨hb, hrest⟩

namespace NameFits

variable {sigil : Option UInt8} {isStyle : Bool} {name : Text}

theorem isNamePart (h : NameFits sigil isStyle name) : ∀ b ∈ name, Byte.isNamePart b = true := by
  obtain ⟨_, _, rfl, -, hall⟩ := isMemberName_iff.1 h.isMemberName
  exact hall

/-- The bytes of a name and of its sigil are visible, and no rule of the mask looks at them. -/
theorem forall_mem_written (h : NameFits sigil isStyle name) (hs : IsSigil sigil) :
    ∀ b ∈ sigil.toList ++ name, Byte.isInk b = true ∧ Byte.isPlain b = true ∧
      b ≠ Byte.colon ∧ b ≠ Byte.semicolon ∧ b ≠ Byte.lbrace ∧ b ≠ Byte.rbrace := by
  intro b hb
  rcases List.mem_append.1 hb with hb | hb
  · have hsigil : ∀ b ∈ Declaration.sigils, b ≠ Byte.colon → Byte.isInk b = true ∧
        Byte.isPlain b = true ∧ b ≠ Byte.colon ∧ b ≠ Byte.semicolon ∧ b ≠ Byte.lbrace ∧
          b ≠ Byte.rbrace := by decide
    have := hs b (by simpa using hb)
    exact hsigil b (by simpa using this.1) this.2
  · have hb := h.isNamePart b hb
    have hmarks := Byte.notMem_marks_of_isNamePart b hb
    simp only [Byte.marks, List.mem_cons, not_or] at hmarks
    exact ⟨Byte.isInk_of_isNamePart b hb, Byte.isPlain_of_isNamePart b hb, by simp [hmarks]⟩

theorem written_ne_nil (h : NameFits sigil isStyle name) : sigil.toList ++ name ≠ [] := by
  obtain ⟨_, _, rfl, -⟩ := isMemberName_iff.1 h.isMemberName
  simp

theorem isInk (h : NameFits sigil isStyle name) (hs : IsSigil sigil) :
    Text.IsInk (sigil.toList ++ name) :=
  Text.isInk_of_all h.written_ne_nil fun b hb => (h.forall_mem_written hs b hb).1

/-- A colon behind a name is the colon of a declaration. -/
theorem startsStatement_eq (h : NameFits sigil isStyle name) (hs : IsSigil sigil) (before : Text) :
    Mask.startsStatement ((sigil.toList ++ name).reverse ++ before) = false := by
  obtain ⟨b, rest, heq, hink⟩ := (h.isInk hs).last
  have hb := h.forall_mem_written hs b (by simp [heq])
  rw [heq, List.reverse_append, List.reverse_singleton, List.singleton_append, List.cons_append,
    Mask.startsStatement, List.dropWhile_cons, if_neg (by simp [Byte.isSpace_of_isInk b hink])]
  simp [hb]

theorem splitSigil_eq (h : NameFits sigil isStyle name) (hs : IsSigil sigil) :
    Declaration.splitSigil (sigil.toList ++ name) = (sigil, name) := by
  cases sigil with
  | some c =>
    rw [Option.toList_some, List.singleton_append, Declaration.splitSigil, if_pos (hs c rfl).1]
  | none =>
    obtain ⟨b, rest, rfl, hb, -⟩ := isMemberName_iff.1 h.isMemberName
    have hsigil : ∀ b ∈ Declaration.sigils, Byte.isWordStart b = true → b = Byte.dollar := by
      decide
    have hne : Declaration.sigils.contains b = false := by
      rw [List.contains_eq_mem, decide_eq_false_iff_not]
      intro hmem
      have hdollar := hsigil b hmem hb
      exact (h.bare rfl).1 (by rw [hdollar]; rfl)
    rw [Option.toList_none, List.nil_append, Declaration.splitSigil, hne]
    rfl

end NameFits

/-! ## The mask of a member -/

namespace IsBody

variable {body : Text}

/-- A body with its mask: the braces are live, and what is between them is balanced. -/
theorem exists_cells (h : IsBody body) : ∃ w, depth? 1 w = some 1 ∧
    body.zip (Mask.ofText .code body) = live [Byte.lbrace] ++ w ++ live [Byte.rbrace] := by
  cases body with
  | nil => simpa using h.opens
  | cons b rest =>
    obtain rfl : b = Byte.lbrace := by simpa using h.opens
    let bits := (Mask.ofText .code (Byte.lbrace :: rest)).tail
    have hcells : (MaskedText.ofText .code (Byte.lbrace :: rest)).Rest 0
        ((Byte.lbrace, false) :: rest.zip bits) := MaskedText.rest_zero _
    have hlength : (rest.zip bits).length = rest.length := by simp [bits]
    have hclose : (MaskedText.ofText .code (Byte.lbrace :: rest)).closing? (· == Byte.lbrace)
        (· == Byte.rbrace) 1 (0 + 1) (rest.zip bits).length =
          some (0 + 1 + (rest.zip bits).length - 1) := by
      rw [hlength]
      simpa [MaskedText.closingBrace?, MaskedText.size, MaskedText.ofText] using h.closes
    obtain ⟨w, hw, hdepth⟩ := hcells.tail.exists_of_closing? Nat.one_pos hclose
    exact ⟨w, hdepth, congrArg ((Byte.lbrace, false) :: ·) hw⟩

end IsBody

theorem isNamePart_of_isIdentifier {p : Text} (h : p.isIdentifier = true) :
    p ≠ [] ∧ ∀ b ∈ p, Byte.isNamePart b = true := by
  cases p with
  | nil => simp [Text.isIdentifier] at h
  | cons c p =>
    simp only [Text.isIdentifier, Bool.and_eq_true, List.all_eq_true] at h
    refine ⟨by simp, fun b hb => ?_⟩
    rcases List.mem_cons.1 hb with rfl | hb
    · exact Byte.isNamePart_of_isWordStart h.1
    · simp [Byte.isNamePart, h.2 b hb]

theorem forall_mem_parameterList {parameters : List Text}
    (h : ∀ p ∈ parameters, p.isIdentifier = true) :
    ∀ b ∈ parameterList parameters,
      Byte.isNamePart b = true ∨ b = Byte.comma ∨ b = Byte.space := by
  have hword : ∀ p ∈ parameters, ∀ b ∈ p, Byte.isNamePart b = true :=
    fun p hp => (isNamePart_of_isIdentifier (h p hp)).2
  cases parameters with
  | nil => simp [parameterList]
  | cons p ps =>
    intro b hb
    simp only [parameterList, List.mem_append, List.mem_flatMap] at hb
    rcases hb with hb | ⟨q, hq, hb | hb⟩
    · exact .inl (hword p (.head _) b hb)
    · exact .inr (by simpa using hb)
    · exact .inl (hword q (.tail _ hq) b hb)

theorem notMem_parameterList {parameters : List Text}
    (h : ∀ p ∈ parameters, p.isIdentifier = true) :
    ∀ b ∈ parameterList parameters,
      b ≠ Byte.lparen ∧ b ≠ Byte.rparen ∧ b ≠ Byte.lbrace ∧ b ≠ Byte.rbrace := by
  intro b hb
  rcases forall_mem_parameterList h b hb with hb | rfl | rfl
  · have hmarks := Byte.notMem_marks_of_isNamePart b hb
    simp only [Byte.marks, List.mem_cons, not_or] at hmarks
    simp [hmarks]
  · decide
  · decide

namespace Member

theorem reads (m : Member) {depth : Nat} {outer : List Mask.Frame} (before ahead : Text) :
    Mask.State.Reads ⟨.live, .declarations, depth, outer⟩ before m.cells ahead
      ⟨.live, .declarations, depth, outer⟩ := by
  cases m with
  | string slot name value hname hvalue =>
    refine .append (Mask.State.reads_plain (fun b hb => ?_) _ _)
      (Mask.State.reads_stringValue hvalue ?_ _)
    · exact (hname.forall_mem_written slot.isSigil b hb).2.1
    · rw [bytes_live]
      exact hname.startsStatement_eq slot.isSigil before
  | function slot name parameters body semicolon hname hparameters hbody =>
    obtain ⟨w, hdepth, hw⟩ := hbody.exists_cells
    have hnotMem := notMem_parameterList hparameters
    refine .append (.append (Mask.State.reads_plain (fun b hb => ?_) _ _)
      (.append (Mask.State.reads_parameters (fun b hb => ?_) ?_ _) ?_))
      (Mask.State.reads_plain ?_ _ _)
    · exact (hname.forall_mem_written slot.isSigil b hb).2.1
    · exact ⟨(hnotMem b hb).1, (hnotMem b hb).2.1⟩
    · rw [bytes_live]
      exact hname.startsStatement_eq slot.isSigil before
    · rw [hw]
      exact Mask.reads_body hw hdepth _ _
    · cases semicolon <;> decide

theorem balanced (m : Member) : Balanced m.cells := by
  have name {sigil : Option UInt8} {isStyle : Bool} {name : Text}
      (h : NameFits sigil isStyle name) (hs : IsSigil sigil) :
      Balanced (live (sigil.toList ++ name)) := by
    refine balanced_live fun b hb => ?_
    have := h.forall_mem_written hs b hb
    exact ⟨this.2.2.2.2.1, this.2.2.2.2.2⟩
  cases m with
  | string slot _ value hname _ =>
    exact (name hname slot.isSigil).append
      (((balanced_live (by decide)).append (balanced_masked _)).append
        (balanced_live (by decide)))
  | function slot _ parameters body semicolon hname hparameters hbody =>
    obtain ⟨w, hdepth, hw⟩ := hbody.exists_cells
    have hnotMem := notMem_parameterList hparameters
    rw [cells, hw]
    refine ((name hname slot.isSigil).append (.append (balanced_live ?_)
      (balanced_of_depth? hdepth).braces)).append (balanced_live ?_)
    · intro b hb
      simp only [List.mem_append] at hb
      rcases hb with (hb | hb) | hb
      · revert b; decide
      · exact ⟨(hnotMem b hb).2.2.1, (hnotMem b hb).2.2.2⟩
      · revert b; decide
    · cases semicolon <;> decide

end Member

end Written

end PageLang
