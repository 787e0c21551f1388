import PageLang.Declaration.Parser
import PageLang.Proofs.MaskedText.Blanked

/-!
# Reading a declaration around a blanked comment

A declaration that stands in front of a comment or behind it is read alike if the comment is
blanked, as long as nothing that is read by its spelling alone reaches over the comment.

* `MaskedText.Apart`: nothing reaches over the comment.
* `MaskedText.Blanked.value_eq`, `MaskedText.Blanked.declaration?_eq`: a value and a declaration.
-/

namespace PageLang.MaskedText

/-- The function whose parameter list opens at `paren` ends in front of `a`, or at least its
parameter list does, with the blank space and the comments behind it. -/
def FunctionBefore (s : MaskedText) (a paren : Nat) : Prop :=
  ∀ close, s.closingParen? paren = some close →
    s.skipTrivia (close + 1) < a ∧
      (s.byte? (s.skipTrivia (close + 1)) = some Byte.lbrace →
        ∀ stop, s.closingBrace? (s.skipTrivia (close + 1)) = some stop → stop < a)

/-- What is read by its spelling alone does not reach over the comment from `a` up to `e`. -/
structure Apart (s : MaskedText) (a e : Nat) : Prop where
  /-- No function that starts in front of the comment reaches over it. -/
  functions : ∀ colon, s.liveByte? colon = some Byte.colon → s.skipSpace (colon + 1) < a →
    s.byte? (s.skipSpace (colon + 1)) = some Byte.lparen →
    s.FunctionBefore a (s.skipSpace (colon + 1))
  /-- No semicolon behind the comment belongs to a block in front of it. -/
  semicolon : ∀ stop < a, s.byte? stop = some Byte.rbrace → a ≤ s.skipSpace (stop + 1) →
    s.byte? (s.skipSpace e) ≠ some Byte.semicolon
  /-- The comment does not cut a class keyword off. -/
  keywordFront : ∀ i, i + 5 = a → s.startsAt "class" i = false
  keywordBehind : s.startsAt "class" e = false
  /-- The characters in front of the comment are whole. -/
  characters : ∀ i b, i < a → s.byte? i = some b → i + Text.charWidth b ≤ a

/-- The value at `v` is read in front of `a`. -/
structure ValueBefore (s : MaskedText) (a v : Nat) : Prop where
  function : s.byte? v = some Byte.lparen → s.FunctionBefore a v
  block : s.byte? v = some Byte.lbrace → ∀ stop, s.closingBrace? v = some stop → stop < a
  scalar : s.byte? v ≠ some Byte.lparen → s.byte? v ≠ some Byte.lbrace →
    ∀ stop b, s.findAny? [Byte.semicolon, Byte.rbrace] v = some (stop, b) → stop ≤ a

namespace Blanked

variable {s s' : MaskedText} {a e : Nat} (h : Blanked s s' a e)
include h

theorem afterBlock_eq (hapart : s.Apart a e) {stop : Nat} (hstop : stop < a ∨ e ≤ stop)
    (hbyte : s.byte? stop = some Byte.rbrace) :
    s'.afterBlock (stop + 1) = s.afterBlock (stop + 1) := by
  unfold afterBlock
  dsimp only
  rcases hstop with hstop | hstop
  · rcases Nat.lt_or_ge (s.skipSpace (stop + 1)) a with hlt | hge
    · rw [h.skipSpace_front hlt, h.byte? _ (.inl hlt)]
    · obtain ⟨hskip, hskip'⟩ := h.skipSpace_across (by omega) hge
      have hbehind : s'.byte? (s.skipSpace e) ≠ some Byte.semicolon := by
        rw [h.byte? _ (.inr (s.le_skipSpace e))]
        exact hapart.semicolon stop hstop hbyte hge
      rw [hskip, hskip', if_neg hbehind, if_neg (by rw [h.slash]; decide)]
  · rw [h.skipSpace_behind (by omega),
      h.byte? _ (.inr (Nat.le_trans (by omega) (s.le_skipSpace (stop + 1))))]

theorem outside_of_closingBrace? {opening stop : Nat}
    (hclose : s.closingBrace? opening = some stop) :
    (stop < a ∨ e ≤ stop) ∧ s.byte? stop = some Byte.rbrace :=
  ⟨h.outside_of_liveByte? (liveByte?_of_closingBrace? hclose),
    (liveByte?_eq_some (liveByte?_of_closingBrace? hclose)).2⟩

theorem behavior_eq (hapart : s.Apart a e) {paren : Nat}
    (hparen : e ≤ paren ∨ s.FunctionBefore a paren) (written : Text) :
    s'.behavior paren written = s.behavior paren written := by
  unfold behavior
  rw [h.closingParen?_eq]
  cases hclose : s.closingParen? paren with
  | none => rfl
  | some close =>
    obtain ⟨hle, hlt⟩ := closingParen?_eq_some hclose
    have hskip : s.Keeps a e (close + 1) :=
      hparen.imp (fun _ => by omega) fun hfront => .inl (hfront close hclose).1
    have hbrace := h.outside_skipTrivia hskip
    have hgap : close + 1 ≤ s.skipTrivia (close + 1) := MaskedText.le_skipTrivia hlt
    dsimp only
    rw [h.skipTrivia_eq hskip, h.byte? _ hbrace, h.slice_eq (by
      rcases hparen with hbehind | hfront
      · exact .inr (by omega)
      · have := (hfront close hclose).1
        exact .inl (by omega))]
    split
    · next hbyte =>
      rw [h.closingBrace?_eq]
      cases hstop : s.closingBrace? (s.skipTrivia (close + 1)) with
      | none => rfl
      | some stop =>
        obtain ⟨hout, hend⟩ := h.outside_of_closingBrace? hstop
        have hbody : s'.slice (s.skipTrivia (close + 1)) (stop + 1) =
            s.slice (s.skipTrivia (close + 1)) (stop + 1) := by
          refine h.slice_eq (hparen.symm.imp (fun hfront => ?_) fun _ => by omega)
          exact (hfront close hclose).2 hbyte stop hstop
        dsimp only
        rw [hbody, h.afterBlock_eq hapart hout hend]
    · rfl

theorem value_eq (hapart : s.Apart a e) {v : Nat} (hv : e ≤ v ∨ v < a ∧ s.ValueBefore a v)
    (start : Nat) (written : Text) : s'.value start v written = s.value start v written := by
  have hout : v < a ∨ e ≤ v := hv.symm.imp And.left id
  unfold value
  rw [h.byte? v hout]
  split
  · next hbyte =>
    rw [h.behavior_eq hapart (hv.imp_right fun hfront => hfront.2.function hbyte)]
  · next hbyte =>
    rw [h.closingBrace?_eq]
    cases hstop : s.closingBrace? v with
    | none => rfl
    | some stop =>
      obtain ⟨hout, hend⟩ := h.outside_of_closingBrace? hstop
      dsimp only
      rw [h.afterBlock_eq hapart hout hend,
        h.slice_eq (hv.symm.imp (fun hfront => hfront.2.block hbyte stop hstop) id)]
  · next hparen hbrace =>
    rw [h.findAny?_eq (by decide), h.size_eq]
    cases hfind : s.findAny? [Byte.semicolon, Byte.rbrace] v with
    | none => rfl
    | some found =>
      obtain ⟨stop, b⟩ := found
      dsimp only
      rw [h.slice_eq (hv.symm.imp (fun hfront => hfront.2.scalar hparen hbrace stop b hfind) id)]

theorem nameEnd?_eq {i : Nat} (hi : i < a ∨ e ≤ i) : s'.nameEnd? i = s.nameEnd? i := by
  unfold nameEnd?
  dsimp only
  rw [h.byte? i hi, h.findAny?_eq (by decide)]

/-- A declaration that stands in front of the comment or behind it is read alike. -/
theorem declaration?_eq (hapart : s.Apart a e) {i : Nat} (hskip : s.skipTrivia i = i)
    (hi : e ≤ i ∨ i < a ∧ ∀ colon, s.nameEnd? i = some colon →
      s.skipSpace (colon + 1) < a ∧ s.ValueBefore a (s.skipSpace (colon + 1))) :
    s'.declaration? i = s.declaration? i := by
  have hout : i < a ∨ e ≤ i := hi.symm.imp And.left id
  have hkeeps : s.Keeps a e i := hi.imp_right fun hfront => .inl (by rw [hskip]; exact hfront.1)
  unfold declaration?
  dsimp only
  rw [h.skipTrivia_eq hkeeps, hskip, h.byte? i hout, h.nameEnd?_eq hout]
  cases hcolon : s.nameEnd? i with
  | none => rfl
  | some colon =>
    have hle := (nameEnd?_eq_some hcolon).1
    have hspace := s.le_skipSpace (colon + 1)
    have hvalue : s'.skipSpace (colon + 1) = s.skipSpace (colon + 1) ∧
        (e ≤ s.skipSpace (colon + 1) ∨
          s.skipSpace (colon + 1) < a ∧ s.ValueBefore a (s.skipSpace (colon + 1))) := by
      rcases hi with hbehind | ⟨_, hfront⟩
      · exact ⟨h.skipSpace_behind (by omega), .inl (by omega)⟩
      · obtain ⟨hlt, hbefore⟩ := hfront colon hcolon
        exact ⟨h.skipSpace_front hlt, .inr ⟨hlt, hbefore⟩⟩
    have hname : s'.slice i colon = s.slice i colon :=
      h.slice_eq (hi.symm.imp (fun hfront => by have := (hfront.2 colon hcolon).1; omega) id)
    have hat : s'.declarationAt i colon = s.declarationAt i colon := by
      unfold declarationAt
      dsimp only
      rw [hname, hvalue.1, h.value_eq hapart hvalue.2]
    dsimp only
    rw [hat]

/-- A value that ends in front of the comment is read there. -/
theorem valueBefore_of_ok {start v next : Nat} {written : Text} {value : RawValue}
    (hvalue : s.value start v written = .ok (value, next)) (hnext : next ≤ a) :
    v < a ∧ s.ValueBefore a v := by
  rcases value_cases hvalue with
    ⟨f, hparen, -, hread⟩ | ⟨last, hbrace, hlast, -, rfl⟩ | ⟨stop, b, hparen, hbrace, hfind, -, rfl⟩
  · have hlt := lt_of_behavior hread
    obtain ⟨close, last, hclose, -, hlast, -, -, rfl⟩ := behavior_eq_ok hread
    have hafter := s.le_afterBlock (last + 1)
    have hin := (closingBrace?_eq_some hlast).1
    refine ⟨by omega, ⟨fun _ close' hclose' => ?_, fun hbrace => ?_, fun hno => absurd hparen hno⟩⟩
    · rw [hclose] at hclose'
      cases hclose'
      refine ⟨by omega, fun _ last' hlast' => ?_⟩
      rw [hlast] at hlast'
      cases hlast'
      omega
    · rw [hparen] at hbrace
      cases hbrace
  · have hafter := s.le_afterBlock (last + 1)
    have hin := (closingBrace?_eq_some hlast).1
    refine ⟨by omega, ⟨fun hparen => ?_, fun _ last' hlast' => ?_, fun _ hno => absurd hbrace hno⟩⟩
    · rw [hbrace] at hparen
      cases hparen
    · rw [hlast] at hlast'
      cases hlast'
      omega
  · obtain ⟨hle, -, hlive, -⟩ := findAny?_eq_some hfind
    have hout := h.outside_of_liveByte? hlive
    have hlt := h.lt
    have hstop : stop < a := by
      split at hnext <;> omega
    refine ⟨by omega, ⟨fun hno => absurd hno hparen, fun hno => absurd hno hbrace, ?_⟩⟩
    intro _ _ stop' b' hfind'
    rw [hfind] at hfind'
    cases hfind'
    omega

/-- A declaration that ends in front of the comment is read alike. -/
theorem declaration?_front (hapart : s.Apart a e) {i next : Nat} {d : Declaration}
    (hskip : s.skipTrivia i = i) (hd : s.declaration? i = .ok (some (d, next))) (hnext : next ≤ a) :
    s'.declaration? i = s.declaration? i := by
  have hlt := lt_of_declaration? hd
  obtain ⟨-, colon, -, -, written, v, hcolon, hvalue, -⟩ := value_of_declaration? hd
  rw [hskip] at hcolon hvalue
  refine h.declaration?_eq hapart hskip (.inr ⟨by omega, fun colon' hcolon' => ?_⟩)
  rw [hcolon] at hcolon'
  cases hcolon'
  exact h.valueBefore_of_ok hvalue hnext

end Blanked

end PageLang.MaskedText
