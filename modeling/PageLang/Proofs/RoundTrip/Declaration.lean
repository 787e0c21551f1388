import PageLang.Proofs.RoundTrip.Member

/-!
# Reading a member

A member is read back with its name, its kind and its value, and reading ends right behind it: the
name ends at the colon, a text at the live semicolon, a function at the brace that matches the
first one of its body.

* `value_string`, `value_function`: the two kinds of value.
* `Member.declaration?`: the declaration that a member is read as.
-/

namespace PageLang.Written

open Cell

/-! ## Reading values -/

/-- A text in single quotes is a string, whatever it holds. -/
theorem scalarOfText_quoted (t : Text) :
    Scalar.ofText ([Byte.singleQuote] ++ t ++ [Byte.singleQuote]) = .string t := by
  have hquoted : Scalar.unquoted? ([Byte.singleQuote] ++ t ++ [Byte.singleQuote]) = some t := by
    rw [List.append_assoc, List.singleton_append, Scalar.unquoted?]
    simp [Byte.isQuote]
  rw [Scalar.ofText, hquoted]

/-- The names in a parameter list are cut out of it. -/
theorem splitTopLevel_parameterList {parameters : List Text}
    (h : ∀ p ∈ parameters, p.isIdentifier = true) :
    (((parameterList parameters).splitTopLevel Byte.comma 0).map Text.trim).filter
      (fun p => !p.isEmpty) = parameters := by
  have hink : ∀ p ∈ parameters, Text.IsInk p := fun p hp => by
    obtain ⟨hne, hp⟩ := isNamePart_of_isIdentifier (h p hp)
    exact Text.isInk_of_all hne fun b hb => Byte.isInk_of_isNamePart b (hp b hb)
  cases parameters with
  | nil => rfl
  | cons p ps =>
    have htext : parameterList (p :: ps) =
        p ++ (ps.map (Byte.space :: ·)).flatMap (Byte.comma :: ·) := by
      simp [parameterList, List.flatMap_map]
    have hpieces : ∀ q ∈ p :: ps.map (Byte.space :: ·), ∀ b ∈ q,
        b ≠ Byte.comma ∧ Byte.isOpening b = false ∧ Byte.isClosing b = false := by
      have hname {b : UInt8} (hb : Byte.isNamePart b = true) :
          b ≠ Byte.comma ∧ Byte.isOpening b = false ∧ Byte.isClosing b = false :=
        ⟨fun he => Byte.notMem_marks_of_isNamePart b hb (by rw [he]; decide),
          Byte.not_bracket_of_isNamePart b hb⟩
      intro q hq b hb
      rcases List.mem_cons.1 hq with rfl | hq
      · exact hname ((isNamePart_of_isIdentifier (h q (.head _))).2 b hb)
      · obtain ⟨r, hr, rfl⟩ := List.mem_map.1 hq
        rcases List.mem_cons.1 hb with rfl | hb
        · decide
        · exact hname ((isNamePart_of_isIdentifier (h r (.tail _ hr))).2 b hb)
    rw [htext, Text.splitTopLevel_flatMap (by decide) (by decide) hpieces]
    have htrim : (p :: ps.map (Byte.space :: ·)).map Text.trim = p :: ps := by
      rw [List.map_cons, List.map_map, Text.trim_of_ink (hink p (.head _))]
      congr 1
      refine (List.map_congr_left fun q hq => ?_).trans (List.map_id ps)
      exact (Text.trim_cons_space q).trans (Text.trim_of_ink (hink q (.tail _ hq)))
    rw [htrim]
    refine List.filter_eq_self.2 fun q hq => ?_
    obtain ⟨b, rest, rfl, -⟩ := (hink q hq).first
    rfl

section
variable {s : MaskedText} {i : Nat} {v : List Cell} (start : Nat)

theorem value_string (t written : Text)
    (h : s.Rest i (masked ([Byte.singleQuote] ++ t ++ [Byte.singleQuote]) ++
      (live [Byte.semicolon] ++ v))) :
    s.value start i written = .ok (.scalar (.string t), i + t.length + 3) := by
  have hbyte : s.byte? i = some Byte.singleQuote := h.byte?_zero
  have hfind : s.findAny? [Byte.semicolon, Byte.rbrace] i = some (_, Byte.semicolon) :=
    h.findAny? _ (fun d hd hlive => absurd hlive (ne_false_of_mem_masked hd)) (by decide)
  have htrim : Text.trim ([Byte.singleQuote] ++ t ++ [Byte.singleQuote]) =
      [Byte.singleQuote] ++ t ++ [Byte.singleQuote] :=
    Text.trim_of_ink ⟨⟨_, _, rfl, by decide⟩, ⟨_, _, rfl, by decide⟩⟩
  rw [MaskedText.value, hbyte]
  simp only [hfind, h.slice, bytes_masked, htrim, if_true]
  show Except.ok (RawValue.scalar (Scalar.ofText _), _) = _
  rw [scalarOfText_quoted, length_masked]
  simp
  omega

/-- The body of a function ends with the brace that matches its first one. -/
theorem IsBody.closingBrace? {body : Text} (hbody : IsBody body)
    (h : s.Rest i (body.zip (Mask.ofText .code body) ++ v)) :
    s.byte? i = some Byte.lbrace ∧ ∃ stop, stop + 1 = i + body.length ∧
      s.closingBrace? i = some stop ∧ s.slice i (stop + 1) = body ∧ s.Rest (stop + 1) v := by
  obtain ⟨w, hdepth, hw⟩ := hbody.exists_cells
  have hlength : (body.zip (Mask.ofText .code body)).length = body.length := by simp
  have hslice := h.slice
  have hrest := h.skip
  rw [hlength] at hslice hrest
  rw [bytes_zip (by simp)] at hslice
  have hstop : i + 1 + w.length + 1 = i + body.length := by
    rw [← hlength, hw]
    simp
    omega
  have hcells : s.Rest i ((Byte.lbrace, false) :: w ++ (Byte.rbrace, false) :: v) := by
    rw [hw] at h
    simpa using h
  refine ⟨hcells.byte?_zero, i + 1 + w.length, hstop,
    hcells.closingBrace? (balanced_of_depth? hdepth), ?_, ?_⟩
  · rwa [hstop]
  · rwa [hstop]

theorem value_function {parameters : List Text} {body : Text} {semicolon : Bool} (written : Text)
    (hparameters : ∀ p ∈ parameters, p.isIdentifier = true) (hbody : IsBody body)
    (hv : semicolon = false → Gap.Continues v)
    (h : s.Rest i (live ([Byte.lparen] ++ parameterList parameters ++ [Byte.rparen, Byte.space]) ++
      (body.zip (Mask.ofText .code body) ++ (live (Gap.ending semicolon) ++ v)))) :
    ∃ span, s.value start i written = .ok (.behavior ⟨parameters, body, span⟩,
      i + (parameterList parameters).length + 3 + body.length +
        (Gap.ending semicolon).length) := by
  have hfirst : s.byte? i = some Byte.lparen := h.byte?_zero
  have hlist : s.Rest i ((Byte.lparen, false) :: live (parameterList parameters) ++
      (Byte.rparen, false) :: (live [Byte.space] ++ (body.zip (Mask.ofText .code body) ++
        (live (Gap.ending semicolon) ++ v)))) := by
    simpa using h
  have hclose := hlist.closingParen? fun d hd _ => by
    obtain ⟨b, hb, rfl⟩ := List.mem_map.1 hd
    exact ⟨(notMem_parameterList hparameters b hb).1, (notMem_parameterList hparameters b hb).2.1⟩
  have hslice := hlist.tail.slice
  have hspace := hlist.tail.skip.tail
  rw [length_live] at hclose hslice hspace
  rw [bytes_live] at hslice
  obtain ⟨hbyte, stop, hstop, hbrace, hbodySlice, hafter⟩ := hbody.closingBrace? hspace.skip
  have hskip : s.skipTrivia (i + 1 + (parameterList parameters).length + 1) = _ :=
    Gap.skipTrivia [.space Byte.space rfl] hspace fun b hb => by
      obtain rfl : Byte.lbrace = b := Option.some.inj (hbyte.symm.trans hb)
      decide
  have hnext := Gap.afterBlock_eq hafter hv
  have hbehavior : ∃ span, s.behavior i written =
      .ok (⟨parameters, body, span⟩, stop + 1 + (Gap.ending semicolon).length) := by
    rw [MaskedText.behavior, hclose]
    simp only [hslice, splitTopLevel_parameterList hparameters, hskip]
    rw [show Gap.cells _ = live [Byte.space] from rfl, if_pos hbyte]
    simp only [hbrace, hbodySlice, hnext]
    exact ⟨_, rfl⟩
  obtain ⟨span, hbehavior⟩ := hbehavior
  refine ⟨span, ?_⟩
  rw [MaskedText.value, hfirst]
  show (s.behavior i written).map _ = _
  rw [hbehavior, hstop]
  simp only [Except.map, length_live, List.length_singleton]
  congr 2
  omega

end

/-! ## Reading a member -/

theorem StringSlot.ofValue (slot : StringSlot) {name : Text} (value : Scalar) (written : Text)
    (h : NameFits slot.sigil (slot == .style) name) :
    Content.ofValue slot.sigil name written (.scalar value) = .ok (slot.content value) := by
  rcases slot with (_ | _ | _) | _ | _
  · have := (h.bare rfl).2
    simp [Content.ofValue, sigil, accessSigil, this, Content.reachable, content]
  · rfl
  · rfl
  · rfl
  · have := (h.bare rfl).2
    simp [Content.ofValue, sigil, this, content]

theorem FunctionSlot.ofValue (slot : FunctionSlot) {name : Text} (f : Behavior) (written : Text)
    (h : NameFits slot.sigil false name) :
    Content.ofValue slot.sigil name written (.behavior f) = .ok (slot.content f) := by
  rcases slot with (_ | _ | _) | _ | _ | _
  · have := (h.bare rfl).2
    simp [Content.ofValue, sigil, accessSigil, this, Content.reachable, content]
  all_goals rfl

section
variable {s : MaskedText} {i : Nat} {v : List Cell} {sigil : Option UInt8} {isStyle : Bool}
  {name : Text}

/-- The first byte of a member, and the colon behind its name. -/
theorem findAny?_colon (hname : NameFits sigil isStyle name) (hs : IsSigil sigil)
    (h : s.Rest i (live (sigil.toList ++ name) ++ (Byte.colon, false) :: v)) :
    (∃ b, s.byte? i = some b ∧ Byte.isInk b = true ∧ b ≠ Byte.colon ∧ b ≠ Byte.semicolon ∧
        b ≠ Byte.slash ∧ b ≠ Byte.rbrace) ∧
      s.findAny? [Byte.colon, Byte.semicolon, Byte.lbrace, Byte.rbrace] i =
        some (i + (sigil.toList ++ name).length, Byte.colon) := by
  refine ⟨?_, ?_⟩
  · obtain ⟨b, rest, heq, hink⟩ := (hname.isInk hs).first
    obtain ⟨-, hplain, hb⟩ := hname.forall_mem_written hs b (by simp [heq])
    refine ⟨b, ?_, hink, hb.1, hb.2.1, ?_, hb.2.2.2⟩
    · rw [h.byte?_zero, heq]
      rfl
    · rintro rfl
      exact absurd hplain (by decide)
  · have := h.findAny? [Byte.colon, Byte.semicolon, Byte.lbrace, Byte.rbrace]
      (fun d hd _ => ?_) (by decide)
    · rwa [length_live] at this
    · obtain ⟨b, hb, rfl⟩ := List.mem_map.1 hd
      have := hname.forall_mem_written hs b hb
      simp [this]

theorem statementKind_eq_declaration (hname : NameFits sigil isStyle name) (hs : IsSigil sigil)
    (h : s.Rest i (live (sigil.toList ++ name) ++ (Byte.colon, false) :: v)) :
    s.statementKind i = .declaration := by
  obtain ⟨⟨b, hbyte, -, hcolon, hsemicolon, -, hrbrace⟩, hfind⟩ := findAny?_colon hname hs h
  rw [MaskedText.statementKind, hbyte]
  split
  · simp at *
  · simp_all
  · simp_all
  · next c _ _ heq =>
    obtain rfl : b = c := by simpa using heq
    simp [hcolon, hfind]

section
variable {gap : Text} (hname : NameFits sigil isStyle name) (hs : IsSigil sigil)
  (hgap : ∀ b ∈ gap, Byte.isSpace b = true)
  (h : s.Rest i (live (sigil.toList ++ name) ++ (Byte.colon, false) :: (live gap ++ v)))
  (hv : ∀ c ∈ v.head?, Byte.isSpace c.1 = false)
include hname hs hgap h hv

/-- A declaration is what its value declares, behind the colon and any blanks. -/
theorem declaration?_eq_bind : s.declaration? i =
    (s.value i (i + (sigil.toList ++ name).length + 1 + gap.length) (sigil.toList ++ name)).bind
      fun r => ((Content.ofValue sigil name (sigil.toList ++ name) r.1).mapError
        (Fault.mk · ⟨i, r.2⟩)).map fun content => some (⟨name, content, ⟨i, r.2⟩⟩, r.2) := by
  obtain ⟨⟨b, hbyte, hink, hcolon, hsemicolon, hslash, hrbrace⟩, hfind⟩ := findAny?_colon hname hs h
  have hskip : s.skipTrivia i = i := Gap.skipTrivia [] h fun c hc => by
    obtain rfl : b = c := Option.some.inj (hbyte.symm.trans hc)
    exact ⟨Byte.isSpace_of_isInk b hink, hslash⟩
  have hend : s.nameEnd? i = some (i + (sigil.toList ++ name).length) := by
    simp [MaskedText.nameEnd?, hbyte, hcolon, hfind]
  have hslice := h.slice
  have hspace := h.skip.tail
  rw [length_live] at hslice hspace
  have hblank : ∀ d ∈ live gap, Byte.isSpace d.1 = true := fun d hd => by
    obtain ⟨c, hc, rfl⟩ := List.mem_map.1 hd
    exact hgap c hc
  have hvalueAt := hspace.skipSpace hblank hv
  rw [length_live] at hvalueAt
  have hdeclaration : s.declaration? i =
      (s.declarationAt i (i + (sigil.toList ++ name).length)).map some := by
    rw [MaskedText.declaration?, hskip, hbyte]
    split
    · simp at *
    · simp_all
    · simp only [hend]
  rw [hdeclaration, MaskedText.declarationAt, hslice, bytes_live, Text.trim_of_ink (hname.isInk hs),
    hname.splitSigil_eq hs, hvalueAt]
  simp only [hname.isMemberName, if_true]
  cases s.value i (i + (sigil.toList ++ name).length + 1 + gap.length) (sigil.toList ++ name) with
  | error fault => rfl
  | ok r =>
    simp only [Except.bind]
    cases Content.ofValue sigil name (sigil.toList ++ name) r.1 <;> rfl

theorem declaration?_of_value {value : RawValue} {stop : Nat} {content : Content}
    (hvalue : s.value i (i + (sigil.toList ++ name).length + 1 + gap.length)
      (sigil.toList ++ name) = .ok (value, stop))
    (hcontent : Content.ofValue sigil name (sigil.toList ++ name) value = .ok content) :
    s.declaration? i = .ok (some (⟨name, content, ⟨i, stop⟩⟩, stop)) := by
  rw [declaration?_eq_bind hname hs hgap h hv, hvalue]
  show Except.map _ (Except.mapError _ (Content.ofValue _ _ _ value)) = _
  rw [hcontent]
  rfl

end

theorem declaration?_eq (hname : NameFits sigil isStyle name) (hs : IsSigil sigil)
    (h : s.Rest i (live (sigil.toList ++ name) ++ (Byte.colon, false) ::
      (live [Byte.space] ++ v)))
    (hv : ∀ c ∈ v.head?, Byte.isSpace c.1 = false)
    {value : RawValue} {stop : Nat} {content : Content}
    (hvalue : s.value i (i + (sigil.toList ++ name).length + 2) (sigil.toList ++ name) =
      .ok (value, stop))
    (hcontent : Content.ofValue sigil name (sigil.toList ++ name) value = .ok content) :
    s.declaration? i = .ok (some (⟨name, content, ⟨i, stop⟩⟩, stop)) :=
  declaration?_of_value hname hs (by decide) h hv hvalue hcontent

end

namespace Member

variable {s : MaskedText} {i : Nat} {v : List Cell}

/-- Whether a member ends without a semicolon. -/
def isOpenEnded : Member → Bool
  | string .. => false
  | function _ _ _ _ semicolon .. => !semicolon

theorem statementKind (m : Member) (h : s.Rest i (m.cells ++ v)) :
    s.statementKind i = .declaration := by
  cases m with
  | string slot name value hname hvalue =>
    simp only [cells, live_cons, List.cons_append, List.append_assoc] at h
    exact statementKind_eq_declaration hname slot.isSigil h
  | function slot name parameters body semicolon hname hparameters hbody =>
    simp only [cells, live_cons, List.cons_append, List.append_assoc] at h
    exact statementKind_eq_declaration hname slot.isSigil h

/-- A member is read as what it declares, and reading ends behind it. -/
theorem declaration? (m : Member) (h : s.Rest i (m.cells ++ v))
    (hv : m.isOpenEnded = true → Gap.Continues v) :
    ∃ d, s.declaration? i = .ok (some (d, i + m.cells.length)) ∧ m.Declares d := by
  cases m with
  | string slot name value hname hvalue =>
    have hrest : s.Rest i (live (slot.sigil.toList ++ name) ++ (Byte.colon, false) ::
        (live [Byte.space] ++ (masked ([Byte.singleQuote] ++ value ++ [Byte.singleQuote]) ++
          (live [Byte.semicolon] ++ v)))) := by
      simpa [cells] using h
    have hread := value_string i value (slot.sigil.toList ++ name) hrest.skip.tail.skip
    rw [length_live] at hread
    have hd := declaration?_eq hname slot.isSigil hrest (by simp +decide) hread
      (slot.ofValue _ _ hname)
    have hstop : i + (slot.sigil.toList ++ name).length + 1 + 1 + value.length + 3 =
        i + (string slot name value hname hvalue).cells.length := by
      simp [cells]
      omega
    exact ⟨_, hstop ▸ hd, rfl, rfl⟩
  | function slot name parameters body semicolon hname hparameters hbody =>
    have hrest : s.Rest i (live (slot.sigil.toList ++ name) ++ (Byte.colon, false) ::
        (live [Byte.space] ++ (live ([Byte.lparen] ++ parameterList parameters ++
          [Byte.rparen, Byte.space]) ++ (body.zip (Mask.ofText .code body) ++
            (live (Gap.ending semicolon) ++ v))))) := by
      simpa [cells] using h
    obtain ⟨span, hread⟩ := value_function i (slot.sigil.toList ++ name) hparameters
      hbody (fun hs => hv (by simp [isOpenEnded, hs])) hrest.skip.tail.skip
    rw [length_live] at hread
    have hd := declaration?_eq hname slot.isSigil hrest (by simp +decide) hread
      (slot.ofValue _ _ hname)
    have hstop : i + (slot.sigil.toList ++ name).length + 1 + 1 +
        (parameterList parameters).length + 3 + body.length + (Gap.ending semicolon).length =
          i + (function slot name parameters body semicolon hname hparameters hbody).cells.length := by
      simp [cells]
      omega
    exact ⟨_, hstop ▸ hd, rfl, span, rfl⟩

end Member

end PageLang.Written
