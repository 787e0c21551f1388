import PageLang.Proofs.ClassTable.Keywords
import PageLang.Proofs.Element.Agree
import PageLang.Proofs.Hierarchy.Blanked
import PageLang.Proofs.Hierarchy.Statements
import PageLang.Proofs.Text.Trim

/-!
# A directive in a body

Directives are found in all live text, but no statement of a body begins with a star. So a directive
that stays in the body of a class or of an element is a fault of the body, whatever it asks for.

* `MaskedText.fault_body_of_star`: a body that begins with a star.
* `MaskedText.InBody`: a statement in the body of a class or of an element.
* `MaskedText.InBody.faults`: the fault is one of the whole text.
-/

namespace PageLang

/-- A header does not begin with a star. -/
theorem isElementHeader_star (rest : Text) : isElementHeader (Byte.star :: rest) = false := by
  unfold isElementHeader
  rcases Text.trim_cons_ink (b := Byte.star) (by decide) rest with htrim | ⟨more, htrim⟩
  · rw [htrim]
  · rw [htrim, Text.splitOn, if_neg (by decide)]
    cases hsplit : Text.splitOn Byte.dot more with
    | nil => exact absurd hsplit (Text.splitOn_ne_nil _ _)
    | cons piece pieces => rfl

namespace MaskedText

/-! ## Statements that begin with a star -/

section
variable {s : MaskedText} {i : Nat} (hb : s.byte? i = some Byte.star)
include hb

theorem exists_slice_of_star {j : Nat} (hlt : i < j) : ∃ rest, s.slice i j = Byte.star :: rest :=
  List.head?_eq_some_iff.1 ((head?_slice hlt).trans hb)

theorem statementKind_of_star :
    s.statementKind i = .declaration ∨ s.statementKind i = .unknown := by
  unfold statementKind
  split
  next hnone => cases hb.symm.trans hnone
  next hbrace => cases hb.symm.trans hbrace
  next hsemicolon => cases hb.symm.trans hsemicolon
  next b _ _ hfirst =>
  cases hb.symm.trans hfirst
  dsimp only
  rw [if_neg (show ¬ Byte.star = Byte.colon by decide)]
  split
  · next stop c hfind =>
    split
    · exact .inl rfl
    · obtain ⟨hle, -, hlive, hset⟩ := findAny?_eq_some hfind
      have hlt : i < stop := by
        refine Nat.lt_of_le_of_ne hle fun heq => ?_
        rw [← heq] at hlive
        rw [(liveByte?_eq_some hlive).2] at hb
        cases hb
        cases hset
      obtain ⟨rest, hslice⟩ := exists_slice_of_star hb hlt
      rw [hslice, isElementHeader_star]
      simp
  · exact .inr rfl

/-- A name does not begin with a star. -/
theorem declaration?_of_star (hskip : s.skipTrivia i = i)
    (hkind : s.statementKind i = .declaration) : ∃ fault, s.declaration? i = .error fault := by
  cases hread : s.declaration? i with
  | error fault => exact ⟨fault, rfl⟩
  | ok found =>
    exfalso
    cases found with
    | none => exact Window.declaration?_ne_none hskip hkind hread
    | some r =>
      obtain ⟨d, next⟩ := r
      obtain ⟨-, colon, -, -, hcolon, hat⟩ := declarationAt_of_declaration? hread
      rw [hskip] at hcolon hat
      obtain ⟨hle, hlive⟩ := nameEnd?_eq_some hcolon
      have hlt : i < colon := by
        refine Nat.lt_of_le_of_ne hle fun heq => ?_
        rw [← heq] at hlive
        rw [(liveByte?_eq_some hlive).2] at hb
        cases hb
      obtain ⟨rest, hslice⟩ := exists_slice_of_star hb hlt
      have hname : (Declaration.splitSigil (s.slice i colon).trim).2.isMemberName = false := by
        rw [hslice]
        rcases Text.trim_cons_ink (b := Byte.star) (by decide) rest with htrim | ⟨more, htrim⟩
        · rw [htrim]
          rfl
        · rw [htrim, Declaration.splitSigil, if_neg (by decide)]
          rfl
      unfold declarationAt at hat
      dsimp only at hat
      rw [hname] at hat
      cases hat

end

/-- A body that begins with a star has a fault. -/
theorem fault_body_of_star {s : MaskedText} {close pos : Nat}
    (hb : s.byte? (s.skipTrivia pos) = some Byte.star) (hlt : s.skipTrivia pos < close)
    (unknown : Problem) : (s.body unknown close pos).fault ≠ none := by
  rw [body_eq]
  simp only [if_neg (Nat.not_le.2 hlt)]
  rcases statementKind_of_star hb with hkind | hkind
  · obtain ⟨fault, hread⟩ := declaration?_of_star hb (s.skipTrivia_skipTrivia pos) hkind
    simp only [hkind, hread]
    exact Option.some_ne_none _
  · simp only [hkind]
    exact Option.some_ne_none _

/-! ## Bodies -/

/-- A fault that reading a body comes to is one of the body. -/
theorem Comes.fault_body {s : MaskedText} {close pos stop p : Nat} (h : s.Comes close pos stop p)
    (hfault : ∀ unknown, (s.body unknown stop p).fault ≠ none) (unknown : Problem) :
    (s.body unknown close pos).fault ≠ none := by
  induction h generalizing unknown with
  | here => exact hfault unknown
  | @step close pos close' pos' stop p hleads _ ih =>
    specialize ih hfault
    rw [body_eq]
    cases hleads with
    | empty hlt hkind =>
      simp only [if_neg (Nat.not_le.2 hlt), hkind]
      exact ih unknown
    | declaration hlt hkind hread =>
      simp only [if_neg (Nat.not_le.2 hlt), hkind, hread]
      exact ih unknown
    | @inside head opening last hlt hkind hhead hblock =>
      obtain ⟨fault, hinner⟩ := Option.ne_none_iff_exists'.1 (ih .elementStatement)
      have helement : head.element (s.innerBody head) = .error fault := by
        unfold ElementHead.element innerBody
        rw [hblock]
        dsimp only
        rw [hinner]
      simp only [if_neg (Nat.not_le.2 hlt), hkind, hhead, helement]
      exact Option.some_ne_none _
    | @behind child next hlt hkind hread =>
      obtain ⟨head, hhead, rfl, hchild⟩ := elementHead_of_element hread
      simp only [if_neg (Nat.not_le.2 hlt), hkind, hhead, hchild]
      exact ih unknown

/-- The block of a class that the class parser reads, or of an element that the tree parser
reads. -/
inductive IsBody (s : MaskedText) (file : Text) (opening close : Nat) : Prop
  | ofClass {start : Nat} : start ∈ s.classStarts file 0 →
    s.findAny? [Byte.lbrace, Byte.semicolon, Byte.rbrace] start = some (opening, Byte.lbrace) →
    s.closingBrace? opening = some close → IsBody s file opening close
  | ofElement {i : Nat} {head : ElementHead} : i ∈ s.topLevelStarts 0 →
    s.topLevelAt i = s.rootAt i → s.elementHead i = .ok head →
    head.block = some (opening, close) → IsBody s file opening close

/-- Reading a body comes to a statement at `a`. -/
def InBody (s : MaskedText) (file : Text) (a : Nat) : Prop :=
  ∃ opening close stop p, s.IsBody file opening close ∧ s.Comes close (opening + 1) stop p ∧
    s.skipTrivia p = a ∧ a < stop

/-- A statement of a body that begins with a star is a fault of the text. -/
theorem InBody.faults {s : MaskedText} {file : Text} {a : Nat} (h : s.InBody file a)
    (hb : s.byte? a = some Byte.star) :
    (s.classesRecovering file).2 ≠ [] ∨ s.hierarchyRecovering.2 ≠ [] := by
  obtain ⟨opening, close, stop, p, hbody, hcomes, rfl, hlt⟩ := h
  have hfault := hcomes.fault_body (fault_body_of_star hb hlt)
  cases hbody with
  | @ofClass start hmem hfind hclose =>
    refine .inl fun hnone => ?_
    have hclean := (classesRecovering_eq hnone).1 start hmem
    rw [classAt_block hfind hclose, classWithin] at hclean
    obtain ⟨fault, hfault⟩ := Option.ne_none_iff_exists'.1 (hfault .classStatement)
    split at hclean
    · cases hclean
    · simp only [hfault] at hclean
      cases hclean
  | @ofElement i head hmem hroot hhead hblock =>
    refine .inr fun hnone => ?_
    obtain ⟨fault, hfault⟩ := Option.ne_none_iff_exists'.1 (hfault .elementStatement)
    have hread : s.element i = .error fault := by
      rw [element_eq_innerBody, hhead]
      dsimp only
      unfold ElementHead.element innerBody
      rw [hblock]
      dsimp only
      rw [hfault]
      rfl
    refine (hierarchyRecovering_eq hnone).1 i hmem fault (s.elementExtent i) ?_
    rw [hroot, rootAt, hread]

end MaskedText

end PageLang
