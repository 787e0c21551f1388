import PageLang.Proofs.Qualify.Hidden

/-!
# What is qualified

A reference is qualified if the replacement that qualifies it is made. The replacement says which
reference it is of: the texts that replace a bare name and a quoted one differ in their lengths. So,
whatever the names that are looked for, a reference that is qualified is hidden by no local
declaration (`hides_of_isQualified`); and where the names are identifiers, a reference to one of them
is qualified if and only if nothing hides it (`isQualified_iff`).
-/

namespace PageLang.Qualify

open MaskedText

/-! ## The reference of a replacement -/

/-- The text that replaces a quoted name is what stands in front of it, and itself. The text that
replaces a bare name is longer by a dot, or by quotes and brackets. -/
theorem length_qualified (context : BodyContext) (isProtected : Bool) (r : Reference)
    (occurrence : Text) :
    (r.form = .subscript → (qualified context isProtected r occurrence).length =
      (qualifier context isProtected .subscript).length + occurrence.length) ∧
    (r.form = .bare → ∃ k, (k = 1 ∨ k = 4) ∧ (qualified context isProtected r occurrence).length =
      (qualifier context isProtected .subscript).length + (k + r.name.length)) := by
  have hdot : (Text.ofString ".").length = 1 := by decide
  have hquotes : (Text.ofString "['").length = 2 ∧ (Text.ofString "']").length = 2 := by decide
  unfold qualified qualifier
  refine ⟨fun h => ?_, fun h => ?_⟩ <;> rw [h]
  · cases context <;> cases isProtected <;> simp [Nat.add_assoc]
  · by_cases hname : r.name.isIdentifier = true
    · refine ⟨1, .inl rfl, ?_⟩
      cases context <;> cases isProtected <;> simp [hname, hdot, Nat.add_assoc]
    · refine ⟨4, .inr rfl, ?_⟩
      cases context <;> cases isProtected <;> simp [hname, hquotes] <;> omega

/-- What stands in front of a quoted name is never longer by as much as what a bare one takes. -/
theorem length_qualifier_ne (context : BodyContext) (isProtected isProtected' : Bool) {k : Nat}
    (hk : k = 1 ∨ k = 4) : (qualifier context isProtected .subscript).length + k ≠
      (qualifier context isProtected' .subscript).length := by
  rcases hk with rfl | rfl <;> cases context <;> cases isProtected <;> cases isProtected' <;> decide

section
variable {body : MaskedText} {prot : List Text} {context : BodyContext} {r r' : Reference}

theorem Reference.Stands.length_slice (h : r.Stands body) :
    (body.slice r.offset (r.offset + r.width)).length = r.width := by
  have := h.le
  rw [MaskedText.length_slice]
  omega

theorem Reference.Stands.slice_of_bare (h : r.Stands body) (hform : r.form = .bare) :
    body.slice r.offset (r.offset + r.width) = r.name := by
  rcases mem_spellings.1 h.spelled with ⟨-, heq⟩ | ⟨hsubscript, -⟩
  · exact heq
  · rw [hform] at hsubscript
    cases hsubscript

/-- A bare name and a quoted one at one place are not replaced by one text. -/
theorem Reference.Stands.not_bare (h : r.Stands body) (h' : r'.Stands body)
    (heq : r.replacement body prot context = r'.replacement body prot context)
    (hsubscript : r'.form = .subscript) : r.form ≠ .bare := by
  intro hbare
  obtain ⟨hoffset, hwidth, htext⟩ := Replacement.mk.inj heq
  obtain ⟨k, hk, hlength⟩ := (length_qualified context (prot.contains r.name) r
    (body.slice r.offset (r.offset + r.width))).2 hbare
  have hlength' := (length_qualified context (prot.contains r'.name) r'
    (body.slice r'.offset (r'.offset + r'.width))).1 hsubscript
  have hname := h.length_slice
  rw [h.slice_of_bare hbare] at hname
  rw [htext, hlength', h'.length_slice, hname] at hlength
  have := length_qualifier_ne context (prot.contains r.name) (prot.contains r'.name) hk
  omega

/-- A replacement is made for one reference. -/
theorem Reference.Stands.eq_of_replacement (h : r.Stands body) (h' : r'.Stands body)
    (heq : r.replacement body prot context = r'.replacement body prot context) : r = r' := by
  obtain ⟨hoffset, hwidth, -⟩ := Replacement.mk.inj heq
  have hform : r.form = r'.form := by
    cases hr : r.form <;> cases hr' : r'.form
    · rfl
    · exact absurd hr (h.not_bare h' heq hr')
    · exact absurd hr' (h'.not_bare h heq.symm hr)
    · rfl
  have hname : r.name = r'.name := by
    have hspelled := h.spelled
    have hspelled' := h'.spelled
    rw [← hoffset, ← hwidth, ← hform] at hspelled'
    rcases mem_spellings.1 hspelled with ⟨hbare, hname⟩ | ⟨hsubscript, q, -, hname⟩
    · rcases mem_spellings.1 hspelled' with ⟨-, hname'⟩ | ⟨hsubscript, -⟩
      · rw [← hname, hname']
      · rw [hbare] at hsubscript
        cases hsubscript
    · rcases mem_spellings.1 hspelled' with ⟨hbare, -⟩ | ⟨-, q', -, hname'⟩
      · rw [hsubscript] at hbare
        cases hbare
      · rw [hname, List.cons.injEq, List.cons.injEq] at hname'
        exact (List.append_inj' hname'.2.2 rfl).1
  obtain ⟨offset, width, name, form⟩ := r
  cases r'
  simp_all

end

/-! ## What is replaced -/

section
variable {body : MaskedText} {prot : List Text} {context : BodyContext}

theorem scopes_step (p : Progress) (x : Nat × Event) :
    (p.step body prot context x).scopes = x.2.scopes p.scopes := by
  obtain ⟨i, e⟩ := x
  cases e with
  | refers r =>
    unfold Progress.step
    dsimp only
    split <;> rfl
  | opens | closes | declares d => rfl

/-- A replacement is made for a reference that is not declared when it is read. -/
theorem exists_of_mem_made (events : List (Nat × Event)) :
    ∀ {p : Progress} {pre : List (Nat × Event)} {m : Replacement}, p.scopes = scopesOf pre →
    m ∈ (events.foldl (Progress.step body prot context) p).made → m ∈ p.made ∨
      ∃ before i r after, events = before ++ (i, .refers r) :: after ∧
        m = r.replacement body prot context ∧
        (scopesOf (pre ++ before)).isDeclared r.name r.offset = false := by
  induction events with
  | nil => exact fun _ hm => .inl hm
  | cons x events ih =>
    intro p pre m hscopes hm
    have hscopes' : (p.step body prot context x).scopes = scopesOf (pre ++ [x]) := by
      rw [scopes_step, scopesOf_append, hscopes]
    rcases ih hscopes' hm with hm | ⟨before, i, r, after, rfl, hm, hdeclared⟩
    · obtain ⟨i, e⟩ := x
      cases e with
      | opens | closes | declares => exact .inl hm
      | refers r =>
        unfold Progress.step at hm
        dsimp only at hm
        split at hm
        · exact .inl hm
        · next hmade =>
          rcases List.mem_cons.1 hm with rfl | hm
          · refine .inr ⟨[], i, r, events, rfl, rfl, ?_⟩
            rw [List.append_nil, ← hscopes]
            simpa using (not_or.1 (fun h => hmade (Bool.or_eq_true_iff.2 h))).2
          · exact .inl hm
    · exact .inr ⟨x :: before, i, r, after, rfl, hm, by simpa using hdeclared⟩

end

/-- A reference of a body that is qualified: the replacement that qualifies it is made. -/
structure IsQualified (body : Text) (names : ResolvableNames) (parameters : List Text)
    (context : BodyContext) (r : Reference) : Prop where
  found : r ∈ (candidates names parameters).flatMap (MaskedText.ofText .code body).references
  made : r.replacement (.ofText .code body) names.prot context ∈
    replacements (.ofText .code body) names parameters context

section
variable {body : Text} {names : ResolvableNames} {parameters : List Text} {context : BodyContext}
  {r : Reference}

theorem IsQualified.stands (h : IsQualified body names parameters context r) :
    r.Stands (.ofText .code body) ∧ r.name ∈ candidates names parameters := by
  obtain ⟨n, hn, hr⟩ := List.mem_flatMap.1 h.found
  obtain ⟨hstands, rfl⟩ := stands_of_mem_references hr
  exact ⟨hstands, hn⟩

/-- Whatever names are looked for, no local declaration hides a reference that is qualified. -/
theorem hides_of_isQualified (h : IsQualified body names parameters context r) :
    (MaskedText.ofText .code body).hides r = false := by
  have hmade := h.made
  rw [replacements, List.mem_reverse] at hmade
  rcases exists_of_mem_made _ (show _ = scopesOf [] from rfl) hmade with
    hmade | ⟨before, i, r', after, hevents, heq, hdeclared⟩
  · cases hmade
  obtain ⟨rfl, hfound⟩ := mem_events_reference.1 (hevents ▸ List.mem_append_right _ (.head _))
  obtain ⟨n, -, hr'⟩ := List.mem_flatMap.1 hfound
  obtain rfl := h.stands.1.eq_of_replacement (stands_of_mem_references hr').1 heq
  rwa [List.nil_append, scopesOf_eq_scopesAt hevents] at hdeclared

/-- Where the names are identifiers, what is qualified are the references to them that no local
declaration hides. -/
theorem isQualified_iff (hnames : ∀ n ∈ candidates names parameters, n.isIdentifier = true) :
    IsQualified body names parameters context r ↔ r.Stands (.ofText .code body) ∧
      r.name ∈ candidates names parameters ∧ (MaskedText.ofText .code body).hides r = false := by
  constructor
  · exact fun h => ⟨h.stands.1, h.stands.2, hides_of_isQualified h⟩
  · rintro ⟨hstands, hname, hvisible⟩
    have hfound : r ∈ (candidates names parameters).flatMap (MaskedText.ofText .code body).references :=
      List.mem_flatMap.2 ⟨_, hname, (mem_references_iff (hnames _ hname)).2 ⟨hstands, rfl⟩⟩
    obtain ⟨rs, hrs, hmem⟩ := exists_replaced_iff body parameters hnames context
    refine ⟨hfound, ?_⟩
    rw [hrs.made]
    exact List.mem_map_of_mem ((hmem r).2 ⟨hfound, hvisible⟩)

/-- A reference to an identifier that nothing hides is qualified where its name is looked for. -/
theorem isQualified_of_visible (hr : r.Stands (.ofText .code body))
    (hname : r.name.isIdentifier = true) (hvisible : (MaskedText.ofText .code body).hides r = false) :
    IsQualified body ⟨[r.name], []⟩ [] .instanced r := by
  have hne : r.name ≠ [] := by
    intro heq
    rw [heq] at hname
    cases hname
  refine (isQualified_iff fun n hn => ?_).2
    ⟨hr, mem_candidates_iff.2 ⟨.inl (.head _), by simp, hne⟩, hvisible⟩
  obtain rfl : n = r.name := by simpa using (mem_candidates_iff.1 hn).1
  exact hname

end

end PageLang.Qualify
