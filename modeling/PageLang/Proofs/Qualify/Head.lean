import PageLang.Proofs.Qualify.Found

/-!
# Heads

Functions, handlers of errors, classes and arrow functions declare names. None of them occurs in the
fragment, so their recognisers find nothing live in it, unless a name that is called reads as the
head of a function or of a handler of errors (`Headless`).

* `function_not_live`, `catch_not_live`: nothing live is found where no name reads as a head.
* `class_not_live`, `arrow_not_live`: nothing live is found in any body.
-/

namespace PageLang.Script

open Cell Qualify

/-! ## Heads -/

/-- No word in front of a parenthesis reads as the head of a function or of a handler. -/
def Headless (ps : List Piece) : Prop :=
  ∀ t m, .marked (.word t) m ∈ ps → m.byte = Byte.lparen → readsAsHead t = false

theorem readsAsHead_of_function {x y : Text} (hx : x = [] ∨ ∃ x', x = x' ++ [Byte.dollar])
    (hy : ∀ c ∈ y.head?, c = Byte.dollar) :
    readsAsHead (x ++ (Text.ofString "function" ++ y)) = true := by
  have hpiece : Text.ofString "function" ∈ (Text.ofString "function" ++ y).splitOn Byte.dollar := by
    cases y with
    | nil =>
      rw [List.append_nil, Text.splitOn_of_notMem (by decide)]
      exact .head _
    | cons c y =>
      obtain rfl : c = Byte.dollar := hy c rfl
      rw [Text.splitOn_append_cons (by decide)]
      exact .head _
  have hmem : Text.ofString "function" ∈
      (x ++ (Text.ofString "function" ++ y)).splitOn Byte.dollar := by
    rcases hx with rfl | ⟨x', rfl⟩
    · exact hpiece
    · rw [List.append_assoc, List.singleton_append, Text.splitOn_append]
      exact List.mem_append_right _ hpiece
  unfold readsAsHead
  rw [List.contains_iff_mem.2 hmem, Bool.true_or]

theorem readsAsHead_of_catch {x : Text} (hx : x = [] ∨ ∃ x', x = x' ++ [Byte.dollar]) :
    readsAsHead (x ++ Text.ofString "catch") = true := by
  have hpiece : (Text.ofString "catch").splitOn Byte.dollar = [Text.ofString "catch"] :=
    Text.splitOn_of_notMem (by decide)
  have hlast : ((x ++ Text.ofString "catch").splitOn Byte.dollar).getLast? =
      some (Text.ofString "catch") := by
    rcases hx with rfl | ⟨x', rfl⟩
    · rw [List.nil_append, hpiece]
      rfl
    · rw [List.append_assoc, List.singleton_append, Text.splitOn_append, hpiece]
      simp
  simp [readsAsHead, hlast]

/-- No piece begins with the second half of an arrow. -/
theorem head_cells_ne {ps : List Piece} (hps : ∀ p ∈ ps, p.Fits) :
    ∀ c ∈ (bytes (cells ps)).head?, c ≠ Byte.greater := by
  intro c hc heq
  subst heq
  cases ps with
  | nil => simp at hc
  | cons p ps =>
    have hp := hps p (.head _)
    cases p with
    | marked o m =>
      obtain ⟨ho, hm, -⟩ := hp
      cases o with
      | none =>
        have hbyte : m.byte ≠ Byte.greater := fun heq => absurd (heq ▸ hm.byte) (by decide)
        cases hbefore : m.before with
        | nil => simp [Piece.cells, Operand.cells, Mark.text, hbefore, hbyte] at hc
        | cons d before =>
          obtain rfl : d = Byte.greater := by
            simpa [Piece.cells, Operand.cells, Mark.text, hbefore] using hc
          have := hm.before Byte.greater (by simp [hbefore])
          simp +decide at this
      | word t =>
        obtain ⟨d, t, rfl⟩ := List.exists_cons_of_ne_nil ho.1
        obtain rfl : d = Byte.greater := by simpa [Piece.cells, Operand.cells] using hc
        have := ho.2.1 Byte.greater (.head _)
        simp +decide at this
      | string t => simp +decide [Piece.cells, Operand.cells] at hc
    | keyword word space names =>
      rcases hp.1 with rfl | rfl
      · simp +decide [Piece.cells, List.head?_append] at hc
      · simp +decide [Piece.cells, List.head?_append] at hc

section
variable {s : MaskedText} {lead : Text} {ps : List Piece} (hlead : Space lead)
  (hps : Tidy none ps) (h : s.Rest 0 (live lead ++ cells ps)) {r : Nat × Nat}
include hlead hps h

/-- What begins with a word that is part of no declaring keyword and is found live stands before a
mark. -/
theorem exists_marked_of_mem_all {α : Type} {recognise : Text → Text → Option (Text × α)} {kw : Text}
    (hbegins : Recogniser.BeginsWith recognise kw) (hne : kw ≠ [])
    (hkw : ∀ c ∈ kw, Byte.isWord c = true)
    (hlet : Text.hasInfix "let" kw = false ∧ Text.hasInfix "const" kw = false)
    (hr : r ∈ s.statementRanges) {x : Nat × Nat × α}
    (hx : x ∈ Recogniser.all recognise 0 r.1 [] (s.slice r.1 r.2)) (hlive : s.isLive x.1 = true) :
    ∃ before rest found front word m, recognise before (kw ++ rest) = some found ∧
      .marked (.word (front ++ (kw ++ word))) m ∈ ps ∧
      (front = [] ∨ ∃ front', front = front' ++ [Byte.dollar]) ∧
      Recogniser.CutWord rest word m.before m.byte := by
  obtain ⟨u, b, v, behind, y, hslice, -, hrec, rfl⟩ := Recogniser.exists_of_mem_all hx
  obtain ⟨rest, hends, hbv⟩ := hbegins _ _ _ hrec
  rw [hbv] at hslice hrec
  rw [List.append_nil] at hends
  obtain ⟨front, word, m, hmem, hfront, hcut⟩ :=
    marked_of_found hlead hps h hr hslice hlive hne hkw hends hlet
  exact ⟨_, rest, _, front, word, m, hrec, hmem, hfront, hcut⟩

theorem function_not_live (hheads : Headless ps) (hr : r ∈ s.statementRanges)
    {x : Nat × Nat × Option Text × Text}
    (hx : x ∈ Recogniser.all Recogniser.function 0 r.1 [] (s.slice r.1 r.2)) :
    s.isLive x.1 = false := by
  refine Bool.eq_false_iff.2 fun hlive => ?_
  obtain ⟨_, _, _, front, word, m, hrec, hmem, hfront, hcut⟩ :=
    exists_marked_of_mem_all hlead hps h Recogniser.beginsWith_function (by decide) (by decide)
      (by decide) hr hx hlive
  have hm := (hps.fits _ hmem).2.1
  have hstar : m.byte ≠ Byte.star := fun heq => absurd (heq ▸ hm.byte) (by decide)
  obtain ⟨-, hword, hparen⟩ := Recogniser.of_function hcut hstar hrec
  have := hheads _ m hmem hparen
  rw [readsAsHead_of_function hfront hword] at this
  simp at this

theorem catch_not_live (hheads : Headless ps) (hr : r ∈ s.statementRanges)
    {x : Nat × Nat × Text}
    (hx : x ∈ Recogniser.all Recogniser.catchHead 0 r.1 [] (s.slice r.1 r.2)) :
    s.isLive x.1 = false := by
  refine Bool.eq_false_iff.2 fun hlive => ?_
  obtain ⟨_, _, _, front, word, m, hrec, hmem, hfront, hcut⟩ :=
    exists_marked_of_mem_all hlead hps h Recogniser.beginsWith_catchHead (by decide) (by decide)
      (by decide) hr hx hlive
  obtain ⟨-, rfl, hparen⟩ := Recogniser.of_catchHead hcut hrec
  have := hheads _ m hmem hparen
  rw [List.append_nil, readsAsHead_of_catch hfront] at this
  simp at this

theorem class_not_live (hr : r ∈ s.statementRanges) {x : Nat × Nat × Text}
    (hx : x ∈ Recogniser.all Recogniser.classHead 0 r.1 [] (s.slice r.1 r.2)) :
    s.isLive x.1 = false := by
  refine Bool.eq_false_iff.2 fun hlive => ?_
  obtain ⟨_, _, _, _, _, _, hrec, -, -, hcut⟩ :=
    exists_marked_of_mem_all hlead hps h Recogniser.beginsWith_classHead (by decide) (by decide)
      (by decide) hr hx hlive
  simp [Recogniser.classHead_eq_none hcut] at hrec

theorem arrow_not_live {x : Nat × Nat × (Text ⊕ Text)}
    (hx : x ∈ Recogniser.all Recogniser.arrow 0 r.1 [] (s.slice r.1 r.2)) :
    s.isLive (x.2.1 - 2) = false := by
  obtain ⟨u, b, v, behind, y, hslice, -, hrec, rfl⟩ := Recogniser.exists_of_mem_all hx
  obtain ⟨z, hz⟩ := Recogniser.of_arrow hrec
  have harrow : Text.ofString "=>" = [Byte.equals, Byte.greater] := by decide
  rw [hz, harrow] at hslice
  refine Bool.eq_false_iff.2 fun hlive => ?_
  have hlen := s.length_slice r.1 r.2
  rw [hslice] at hlen
  simp only [List.length_append, List.length_cons, List.length_nil] at hlen
  have hoffset : r.1 + u.length + ((b :: v).length - behind.length) - 2 =
      r.1 + (u.length + z.length) := by
    rw [hz, harrow]
    simp
    omega
  simp only [hoffset] at hlive
  -- the equals sign is the mark of a piece, and no piece begins with the other half of the arrow
  have hequals : s.byte? (r.1 + (u.length + z.length)) = some Byte.equals := by
    rw [← MaskedText.getElem?_slice (by omega : r.1 + (u.length + z.length) < r.2), hslice]
    simp [← List.append_assoc]
  have hgreater : s.byte? (r.1 + (u.length + z.length) + 1) = some Byte.greater := by
    rw [Nat.add_assoc, ← MaskedText.getElem?_slice
      (by omega : r.1 + (u.length + z.length + 1) < r.2), hslice]
    simp [← List.append_assoc]
  have hlive? : s.liveByte? (r.1 + (u.length + z.length)) = some Byte.equals := by
    simp only [MaskedText.isLive, Bool.and_eq_true, Bool.not_eq_true'] at hlive
    simp [MaskedText.liveByte?, hlive.2, hequals]
  obtain ⟨pre, o, m, post, hsplit, hm, hmark⟩ :=
    (liveByte?_mark hlead hps h (by decide)).1 hlive?
  have hp := hps.fits (.marked o m) (by simp [hsplit])
  have hrest : s.Rest (lead.length + (cells pre).length)
      ((o.cells ++ live m.before ++ live [m.byte]) ++ (live m.after ++ cells post)) := by
    simpa [Piece.cells, Mark.text] using rest_of_split h hsplit
  have hhead : (m.after ++ bytes (cells post)).head? = some Byte.greater := by
    have hnext := hrest.skip.byte?_add 0
    rw [show lead.length + (cells pre).length + (o.cells ++ live m.before ++ live [m.byte]).length +
      0 = r.1 + (u.length + z.length) + 1 by simp; omega, hgreater] at hnext
    rw [List.head?_eq_getElem?, hnext]
    simp
  cases hafter : m.after with
  | nil =>
    rw [hafter, List.nil_append] at hhead
    exact head_cells_ne (fun q hq => hps.fits q (by simp [hsplit, hq])) _ hhead rfl
  | cons c after =>
    rw [hafter] at hhead
    obtain rfl : c = Byte.greater := by simpa using hhead
    have := hp.2.1.after Byte.greater (by simp [hafter])
    simp +decide at this

end

end PageLang.Script
