import PageLang.Element.Parser

/-!
# One statement of a body

The equation of `MaskedText.body` without the facts that its recursion is justified by: which
statement stands first, and what is read behind it.

* `MaskedText.innerBody`: the body of an element.
* `MaskedText.body_eq`, `MaskedText.element_eq_innerBody`: one statement of a body, and one element.
* `MaskedText.body_ended`, `MaskedText.body_declaration`, `MaskedText.body_of_element`: a body at its
  end, and bodies that start with a declaration and with an element.
-/

namespace PageLang.MaskedText

/-- The body of the element with this head. An element without a block has an empty one. -/
def innerBody (s : MaskedText) (head : ElementHead) : Body :=
  match head.block with
  | none => .ended head.next
  | some (opening, stop) => s.body .elementStatement stop (opening + 1)

theorem innerBody_eq (s : MaskedText) (head : ElementHead) :
    s.innerBody head = match _hblock : head.block with
      | none => .ended head.next
      | some (opening, stop) => s.body .elementStatement stop (opening + 1) := by
  obtain ⟨name, classRefs, span, block, next⟩ := head
  cases block <;> rfl

theorem body_eq (s : MaskedText) (unknown : Problem) (close pos : Nat) :
    s.body unknown close pos =
      let i := s.skipTrivia pos
      if close ≤ i then .ended i
      else match s.statementKind i with
        | .ended => .ended i
        | .empty => s.body unknown close (i + 1)
        | .declaration =>
          match s.declaration? i with
          | .error fault => .failed fault i
          | .ok none => .ended i
          | .ok (some (d, next)) => (s.body unknown close next).consDeclaration d
        | .element =>
          match s.elementHead i with
          | .error fault => .failed fault i
          | .ok head =>
            match head.element (s.innerBody head) with
            | .error fault => .failed fault i
            | .ok e => (s.body unknown close head.next).consChild e
        | .unknown => .failed ⟨unknown, ⟨i, s.statementEnd i⟩⟩ i := by
  conv => lhs; rw [body]
  dsimp only
  split
  · rfl
  split
  · next hkind => rw [hkind]
  · next hkind => rw [hkind]
  · next hkind =>
    rw [hkind]
    dsimp only
    split
    · next hd => rw [hd]
    · next hd => rw [hd]
    · next hd => rw [hd]
  · next hkind =>
    rw [hkind]
    dsimp only
    split
    · next hhead => rw [hhead]
    · next head hhead =>
      rw [hhead]
      obtain ⟨name, classRefs, span, block, next⟩ := head
      cases block <;> rfl
  · next hkind => rw [hkind]

theorem body_ended {s : MaskedText} {unknown : Problem} {close pos i : Nat}
    (hi : s.skipTrivia pos = i) (hclose : close ≤ i) : s.body unknown close pos = .ended i := by
  subst hi
  rw [body_eq]
  exact if_pos hclose

theorem body_declaration {s : MaskedText} {unknown : Problem} {close pos i : Nat}
    (hi : s.skipTrivia pos = i) (hclose : i < close)
    (hkind : s.statementKind i = .declaration) {d : Declaration} {next : Nat}
    (hd : s.declaration? i = .ok (some (d, next))) :
    s.body unknown close pos = (s.body unknown close next).consDeclaration d := by
  subst hi
  rw [body_eq]
  simp only [if_neg (Nat.not_le.2 hclose), hkind, hd]

theorem element_eq_innerBody (s : MaskedText) (start : Nat) :
    s.element start =
      match s.elementHead start with
      | .error fault => .error fault
      | .ok head => (head.element (s.innerBody head)).map (fun e => (e, head.next)) := by
  rw [element]
  cases s.elementHead start with
  | error fault => rfl
  | ok head =>
    obtain ⟨name, classRefs, span, block, next⟩ := head
    cases block <;> rfl

/-- An element that is read is its head and what its block holds. -/
theorem elementHead_of_element {s : MaskedText} {i next : Nat} {child : Element}
    (h : s.element i = .ok (child, next)) :
    ∃ head, s.elementHead i = .ok head ∧ head.next = next ∧
      head.element (s.innerBody head) = .ok child := by
  rw [element_eq_innerBody] at h
  split at h
  · cases h
  next head hhead =>
    cases hread : head.element (s.innerBody head) with
    | error fault =>
      rw [hread] at h
      cases h
    | ok child' =>
      rw [hread] at h
      cases h
      exact ⟨head, hhead, rfl, hread⟩

/-- A body that starts with an element. -/
theorem body_of_element {s : MaskedText} {close pos i : Nat} (unknown : Problem)
    (hskip : s.skipTrivia pos = i) (hi : i < close) (hkind : s.statementKind i = .element) :
    s.body unknown close pos = match s.element i with
      | .error fault => .failed fault i
      | .ok (child, next) => (s.body unknown close next).consChild child := by
  rw [body_eq, element_eq_innerBody]
  simp only [hskip, if_neg (Nat.not_le.2 hi), hkind]
  cases s.elementHead i with
  | error fault => rfl
  | ok head =>
    dsimp only
    cases head.element (s.innerBody head) <;> rfl

end PageLang.MaskedText
