import PageLang.Proofs.Mask.Insertion
import PageLang.Proofs.Qualify.Ranges

/-!
# Qualifying keeps the lexical structure

A reference whose name is an identifier is qualified by what is put in front of it, so a qualified
body is the body with insertions. They are made of words and dots in front of live words and
brackets, and the mask of the body is the mask of the qualified one where the body is copied.

* `Qualify.qualified_eq`: a qualified reference is its qualifier and the reference.
* `Qualify.Replaced.qualify_eq`: a qualified body is the body with qualifiers inserted.
* `Qualify.qualify_lexical`: and so is its mask.
-/

namespace PageLang.Qualify

open MaskedText

/-! ## Qualifiers -/

/-- What stands in front of a reference that is qualified. -/
def qualifier (context : BodyContext) (isProtected : Bool) (form : Form) : Text :=
  let base : Text := match isProtected, context with
    | false, _ => receiver
    | true, .instanced => receiver ++ "." ++ protectedNamespace
    | true, .freeStanding => globalNamespace
  match form with
  | .subscript => base
  | .bare => base ++ "."

theorem qualified_eq {r : Reference} {occurrence : Text} (hname : r.name.isIdentifier = true)
    (hbare : r.form = .bare → occurrence = r.name) (context : BodyContext) (isProtected : Bool) :
    qualified context isProtected r occurrence =
      qualifier context isProtected r.form ++ occurrence := by
  unfold qualified qualifier
  cases hform : r.form with
  | subscript => rfl
  | bare =>
    obtain rfl := hbare hform
    exact if_pos hname

theorem tame_qualifier (context : BodyContext) (isProtected : Bool) (form : Form) :
    ∀ c ∈ qualifier context isProtected form, Byte.isWord c = true ∨ c = Byte.dot := by
  refine Text.forall_mem_of_all ?_
  cases context <;> cases isProtected <;> cases form <;> decide

theorem qualifier_ne_nil (context : BodyContext) (isProtected : Bool) (form : Form) :
    qualifier context isProtected form ≠ [] := by
  cases context <;> cases isProtected <;> cases form <;> decide

theorem getLast?_qualifier_bare (context : BodyContext) (isProtected : Bool) :
    (qualifier context isProtected .bare).getLast? = some Byte.dot := by
  cases context <;> cases isProtected <;> decide

/-- A name is spelled bare, or in quotes and brackets. -/
theorem mem_spellings {name t : Text} {form : Form} : (t, form) ∈ spellings name ↔
    form = .bare ∧ t = name ∨ form = .subscript ∧ ∃ q, Byte.isQuote q = true ∧
      t = Byte.lbracket :: q :: (name ++ [q, Byte.rbracket]) := by
  have hquotes (q : UInt8) : Byte.isQuote q = true ↔
      q = Byte.singleQuote ∨ q = Byte.doubleQuote ∨ q = Byte.backquote := by
    simp [Byte.isQuote, or_assoc]
  have hsingle : Text.ofString "['" = [Byte.lbracket, Byte.singleQuote] ∧
      Text.ofString "']" = [Byte.singleQuote, Byte.rbracket] := by decide
  have hdouble : Text.ofString "[\"" = [Byte.lbracket, Byte.doubleQuote] ∧
      Text.ofString "\"]" = [Byte.doubleQuote, Byte.rbracket] := by decide
  simp only [spellings, hsingle, hdouble, List.mem_cons, Prod.mk.injEq, List.not_mem_nil, or_false,
    hquotes]
  constructor
  · rintro (⟨rfl, rfl⟩ | ⟨rfl, rfl⟩ | ⟨rfl, rfl⟩ | ⟨rfl, rfl⟩)
    · exact .inl ⟨rfl, rfl⟩
    · exact .inr ⟨rfl, _, .inl rfl, rfl⟩
    · exact .inr ⟨rfl, _, .inr (.inl rfl), rfl⟩
    · exact .inr ⟨rfl, _, .inr (.inr rfl), rfl⟩
  · rintro (⟨rfl, rfl⟩ | ⟨rfl, q, rfl | rfl | rfl, rfl⟩)
    · exact .inl ⟨rfl, rfl⟩
    · exact .inr (.inl ⟨rfl, rfl⟩)
    · exact .inr (.inr (.inl ⟨rfl, rfl⟩))
    · exact .inr (.inr (.inr ⟨rfl, rfl⟩))

/-! ## The first byte of a reference -/

section
variable {body : MaskedText} {r : Reference}

/-- A reference begins with a word that begins there, or with a bracket. -/
theorem Reference.Stands.first (h : r.Stands body) (hname : r.name.isIdentifier = true) :
    ∃ b, body.byte? r.offset = some b ∧
      (r.form = .bare ∧ Byte.isWordStart b = true ∨ r.form = .subscript ∧ b = Byte.lbracket) := by
  have hbyte : body.byte? r.offset = (body.slice r.offset (r.offset + r.width))[0]? :=
    (getElem?_slice (Nat.add_lt_add_left h.pos _)).symm
  rcases mem_spellings.1 h.spelled with ⟨hform, ht⟩ | ⟨hform, q, -, ht⟩
  · obtain ⟨b, rest, hcons, hb, -⟩ := Text.exists_of_isIdentifier hname
    rw [ht, hcons] at hbyte
    exact ⟨b, hbyte, .inl ⟨hform, hb⟩⟩
  · rw [ht] at hbyte
    exact ⟨_, hbyte, .inr ⟨hform, rfl⟩⟩

theorem not_word_of_joinsBefore {k : Nat} (h : body.joinsBefore (k + 1) = false) :
    ∀ c ∈ body.byte? k, Byte.isWord c = false := by
  intro c hc
  refine Bool.eq_false_iff.2 fun hword => ?_
  rw [Script.joinsBefore_of_word (Nat.succ_ne_zero k) hc hword] at h
  cases h

end

theorem getElem?_mask_of_isLive {mode : Mode} {t : Text} {i : Nat}
    (h : (ofText mode t).isLive i = true) : (Mask.ofText mode t)[i]? = some false := by
  simp only [isLive, Bool.and_eq_true, decide_eq_true_eq, Bool.not_eq_true', size_ofText] at h
  obtain ⟨hlt, hmask⟩ := h
  rw [← Mask.length_ofText mode] at hlt
  simpa [isMasked, ofText, List.getElem?_eq_getElem hlt] using hmask

/-! ## What is inserted -/

/-- What is put in front of offset `i` where the references `rs` are qualified. -/
def insertion (prot : List Text) (context : BodyContext) (rs : List Reference) (i : Nat) : Text :=
  match rs.find? (fun r => r.offset == i) with
  | some r => qualifier context (prot.contains r.name) r.form
  | none => []

theorem exists_of_insertion {prot : List Text} {context : BodyContext} {rs : List Reference}
    {i : Nat} (h : insertion prot context rs i ≠ []) : ∃ r ∈ rs, r.offset = i ∧
      insertion prot context rs i = qualifier context (prot.contains r.name) r.form := by
  unfold insertion at h ⊢
  cases hfind : rs.find? (fun r => r.offset == i) with
  | none => simp [hfind] at h
  | some r => exact ⟨r, List.mem_of_find?_eq_some hfind, by simpa using List.find?_some hfind, rfl⟩

namespace Replaced

variable {body : MaskedText} {names : ResolvableNames} {parameters : List Text}
  {context : BodyContext} {rs : List Reference}

theorem insertion_eq (h : Replaced body names parameters context rs) {r : Reference}
    (hr : r ∈ rs) : insertion names.prot context rs r.offset =
      qualifier context (names.prot.contains r.name) r.form := by
  unfold insertion
  cases hfind : rs.find? (fun r' => r'.offset == r.offset) with
  | none => simpa using List.find?_eq_none.1 hfind r hr
  | some r' =>
    have hoffset : r'.offset = r.offset := by simpa using List.find?_some hfind
    rw [h.eq_of_offset (List.mem_of_find?_eq_some hfind) hr hoffset]

end Replaced

/-! ## Qualified bodies -/

section
variable {body : Text} {names : ResolvableNames} {parameters : List Text} {context : BodyContext}
  {rs : List Reference}

/-- Qualifiers are inserted where the mask allows it. -/
theorem Replaced.insertable (h : Replaced (.ofText .code body) names parameters context rs)
    (hnames : ∀ n, n ∈ names.pub ∨ n ∈ names.prot → n.isIdentifier = true) :
    Mask.Insertable (insertion names.prot context rs) 0 (Mask.ofText .code body) [] body := by
  have hfirst {k : Nat} {b : UInt8} (hb : body[k]? = some b)
      (hins : insertion names.prot context rs (0 + k) ≠ []) :
      ∃ r : Reference, r.offset = k ∧ r.Stands (.ofText .code body) ∧
        insertion names.prot context rs (0 + k) =
          qualifier context (names.prot.contains r.name) r.form ∧
        (r.form = .bare ∧ Byte.isWordStart b = true ∨ r.form = .subscript ∧ b = Byte.lbracket) := by
    obtain ⟨r, hr, hoffset, heq⟩ := exists_of_insertion hins
    obtain ⟨hstands, hname⟩ := h.stands hr
    obtain ⟨c, hc, hform⟩ := hstands.first (hnames _ (mem_candidates_iff.1 hname).1)
    rw [Nat.zero_add] at hoffset
    rw [byte?_ofText, hoffset, hb] at hc
    cases hc
    exact ⟨r, hoffset, hstands, heq, hform⟩
  refine ⟨fun j c hc => ?_, fun k b hb hins => ?_, fun k b hb hins => ?_, fun k b hb hins hword => ?_⟩
  · obtain ⟨r, -, -, heq⟩ := exists_of_insertion (List.ne_nil_of_mem hc)
    rw [heq] at hc
    exact tame_qualifier _ _ _ c hc
  · obtain ⟨r, rfl, hstands, -⟩ := hfirst hb hins
    exact getElem?_mask_of_isLive hstands.live
  · obtain ⟨r, -, -, -, ⟨-, hb⟩ | ⟨-, rfl⟩⟩ := hfirst hb hins
    · exact .inl (by simp [Byte.isWord, hb])
    · exact .inr rfl
  · obtain ⟨r, rfl, hstands, heq, ⟨hform, -⟩ | ⟨-, rfl⟩⟩ := hfirst hb hins
    · refine ⟨fun c hc => ?_, fun c hc => ?_⟩
      · rw [heq, hform, getLast?_qualifier_bare] at hc
        cases hc
        decide
      · cases hoffset : r.offset with
        | zero => simp [hoffset] at hc
        | succ k =>
          have hbefore := hstands.before
          rw [hoffset] at hbefore
          refine not_word_of_joinsBefore hbefore c ?_
          have hlt := (List.getElem?_eq_some_iff.1 hb).1
          rw [hoffset, List.append_nil, List.head?_reverse, List.getLast?_take] at hc
          rw [byte?_ofText]
          simpa [List.getElem?_eq_getElem (show k < body.length by omega)] using hc
    · simp +decide at hword

/-- A qualified body is the body with the qualifiers of its references in front of them. -/
theorem Replaced.qualify_eq (h : Replaced (.ofText .code body) names parameters context rs)
    (hnames : ∀ n, n ∈ names.pub ∨ n ∈ names.prot → n.isIdentifier = true) :
    qualify body names parameters context = weave (insertion names.prot context rs) 0 body := by
  rw [qualify, h.made]
  refine Text.replaceAll_eq_weave (List.pairwise_map.2 h.apart) ?_ fun j hj => ?_
  · intro r' hr'
    obtain ⟨r, hr, rfl⟩ := List.mem_map.1 hr'
    obtain ⟨hstands, hname⟩ := h.stands hr
    have hname := hnames _ (mem_candidates_iff.1 hname).1
    have hbare : r.form = .bare →
        (MaskedText.ofText .code body).slice r.offset (r.offset + r.width) = r.name := by
      intro hform
      rcases mem_spellings.1 hstands.spelled with ⟨-, ht⟩ | ⟨hsubscript, -⟩
      · exact ht
      · rw [hform] at hsubscript
        cases hsubscript
    refine ⟨hstands.pos, ?_, ?_⟩
    · have := hstands.le
      rwa [size_ofText] at this
    · rw [Reference.replacement, qualified_eq hname hbare, h.insertion_eq hr, slice_ofText]
      rfl
  · obtain ⟨r, hr, hoffset, -⟩ := exists_of_insertion hj
    exact ⟨_, List.mem_map_of_mem hr, hoffset⟩

end

/-- Qualifying keeps the lexical structure. -/
theorem qualify_lexical (body : Text) {names : ResolvableNames}
    (hnames : ∀ n, n ∈ names.pub ∨ n ∈ names.prot → n.isIdentifier = true)
    (parameters : List Text) (context : BodyContext) :
    ∃ ins : Nat → Text,
      (∀ i, ins i ≠ [] → ∃ r ∈ (candidates names parameters).flatMap
          (MaskedText.ofText .code body).references, r.offset = i ∧
        ins i = qualifier context (r.name ∈ names.prot) r.form) ∧
      qualify body names parameters context = weave ins 0 body ∧
      Mask.ofText .code (qualify body names parameters context) =
        weave (fun i => List.replicate (ins i).length false) 0 (Mask.ofText .code body) := by
  obtain ⟨rs, h⟩ := exists_replaced (.ofText .code body) names parameters context
  refine ⟨insertion names.prot context rs, fun i hi => ?_, h.qualify_eq hnames, ?_⟩
  · obtain ⟨r, hr, hoffset, hins⟩ := exists_of_insertion hi
    exact ⟨r, h.found r hr, hoffset, by simpa using hins⟩
  · rw [h.qualify_eq hnames]
    exact Mask.ofText_weave (h.insertable hnames)

/-- A template with an interpolation. -/
def sampleTemplate : Text := "`$\x7bx\x7d`"

/-- What is inserted in the interpolation is live like the name. -/
theorem qualify_lexical_sampleTemplate :
    let names : ResolvableNames := ⟨["x"], []⟩
    (∀ n, n ∈ names.pub ∨ n ∈ names.prot → n.isIdentifier = true) ∧
    Mask.ofText .code sampleTemplate = [true, true, true, false, true, true] ∧
    ∃ ins : Nat → Text, qualify sampleTemplate names [] .instanced = weave ins 0 sampleTemplate ∧
      Mask.ofText .code (qualify sampleTemplate names [] .instanced) =
        weave (fun i => List.replicate (ins i).length false) 0
          [true, true, true, false, true, true] := by
  intro names
  have hnames (n : Text) (hn : n ∈ names.pub ∨ n ∈ names.prot) : n.isIdentifier = true := by
    obtain rfl : n = Text.ofString "x" := by simpa [names] using hn
    decide
  have hmask : Mask.ofText .code sampleTemplate = [true, true, true, false, true, true] := by decide
  obtain ⟨ins, -, hqualify, hresult⟩ := qualify_lexical sampleTemplate hnames [] .instanced
  rw [hmask] at hresult
  exact ⟨hnames, hmask, ins, hqualify, hresult⟩

end PageLang.Qualify
