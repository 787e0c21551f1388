import PageLang.Hierarchy.Parser
import PageLang.Proofs.Element.Body
import PageLang.Proofs.MaskedText.Trivia

/-!
# Top-level statements

The tree parser goes from one statement to the next. A statement that is no directive runs up to a
semicolon, or up to the brace that closes its block and a semicolon that may follow; a directive
runs up to the first brace or semicolon.

* `MaskedText.topLevelStarts`: the offsets of the statements.
* `MaskedText.Shape`, `MaskedText.shape_of_topLevelAt`: where a statement ends.
* `MaskedText.hierarchyRecovering_eq`: a text without faults has the tree of its statements.
-/

namespace PageLang

/-- What a statement adds to the tree. -/
def TopLevel.piece : TopLevel → Hierarchy
  | .found piece _ => piece
  | .ended | .failed .. => ∅

namespace MaskedText

variable {s : MaskedText}

/-- The offsets of the statements that are read from `pos` on, in order. -/
def topLevelStarts (s : MaskedText) (pos : Nat) : List Nat :=
  let i := s.skipTrivia pos
  if _hi : i < s.size then
    match _hstep : s.topLevelAt i with
    | .found _ next => i :: s.topLevelStarts next
    | .ended => [i]
    | .failed .. => [i]
  else []
termination_by s.size - pos
decreasing_by
  have h1 : pos ≤ i := le_skipTrivia_of_lt _hi
  have h2 := lt_of_topLevelAt _hi _hstep
  omega

section
variable {pos : Nat}

theorem topLevelStarts_end (h : ¬ s.skipTrivia pos < s.size) : s.topLevelStarts pos = [] := by
  rw [topLevelStarts]
  exact dif_neg h

theorem topLevelStarts_found {piece : Hierarchy} {next : Nat} (hlt : s.skipTrivia pos < s.size)
    (h : s.topLevelAt (s.skipTrivia pos) = .found piece next) :
    s.topLevelStarts pos = s.skipTrivia pos :: s.topLevelStarts next := by
  rw [topLevelStarts]
  simp only [dif_pos hlt]
  split <;> simp_all

/-- A statement that is not read as a whole is the last one. -/
theorem topLevelStarts_last (hlt : s.skipTrivia pos < s.size)
    (h : ∀ piece next, s.topLevelAt (s.skipTrivia pos) ≠ .found piece next) :
    s.topLevelStarts pos = [s.skipTrivia pos] := by
  rw [topLevelStarts]
  simp only [dif_pos hlt]
  split
  · next hfound => exact absurd hfound (h _ _)
  · rfl
  · rfl

theorem topLevelStarts_ended (hlt : s.skipTrivia pos < s.size)
    (h : s.topLevelAt (s.skipTrivia pos) = .ended) :
    s.topLevelStarts pos = [s.skipTrivia pos] :=
  topLevelStarts_last hlt (by rw [h]; exact fun _ _ => TopLevel.noConfusion)

theorem topLevelStarts_failed {fault : Fault} {resumeAt : Nat} (hlt : s.skipTrivia pos < s.size)
    (h : s.topLevelAt (s.skipTrivia pos) = .failed fault resumeAt) :
    s.topLevelStarts pos = [s.skipTrivia pos] :=
  topLevelStarts_last hlt (by rw [h]; exact fun _ _ => TopLevel.noConfusion)

/-- Statements stand behind the offset they are looked for at. -/
theorem le_of_mem_topLevelStarts {i : Nat} (h : i ∈ s.topLevelStarts pos) : pos ≤ i := by
  induction pos using topLevelStarts.induct s with
  | case1 pos start hlt piece next hstep ih =>
    rw [topLevelStarts_found hlt hstep] at h
    have h1 : pos ≤ start := le_skipTrivia_of_lt hlt
    have h2 := lt_of_topLevelAt hlt hstep
    rcases List.mem_cons.1 h with rfl | h
    · exact h1
    · have := ih h
      omega
  | case2 pos start hlt hstep =>
    rw [topLevelStarts_ended hlt hstep] at h
    rw [List.mem_singleton.1 h]
    exact le_skipTrivia_of_lt hlt
  | case3 pos start hlt fault resumeAt hstep =>
    rw [topLevelStarts_failed hlt hstep] at h
    rw [List.mem_singleton.1 h]
    exact le_skipTrivia_of_lt hlt
  | case4 pos start hlt =>
    rw [topLevelStarts_end hlt] at h
    cases h

end

/-! ## Kinds of statements -/

section
variable {i : Nat}

theorem byte?_of_isDirective (h : s.isDirective i = true) : s.byte? i = some Byte.star := by
  unfold isDirective hasWord at h
  rcases Bool.or_eq_true_iff.1 h with h | h
  · exact byte?_add_of_startsAt (Bool.and_eq_true_iff.1 h).1
      (show 0 < (Text.ofString "*include").length by decide)
  · exact byte?_add_of_startsAt (Bool.and_eq_true_iff.1 h).1
      (show 0 < (Text.ofString "*json").length by decide)

theorem byte?_of_startsClass (h : s.startsClass i = true) : s.byte? i = some 0x63 := by
  unfold startsClass at h
  exact byte?_add_of_startsAt (Bool.and_eq_true_iff.1 h).1
    (show 0 < (Text.ofString "class").length by decide)

theorem not_isDirective_of_startsClass (h : s.startsClass i = true) : ¬ s.isDirective i = true := by
  intro hdirective
  have := (byte?_of_startsClass h).symm.trans (byte?_of_isDirective hdirective)
  revert this
  decide

theorem topLevelAt_of_isDirective (h : s.isDirective i = true) :
    s.topLevelAt i = .found ∅ (s.statementEnd i) := by
  unfold topLevelAt
  rw [if_neg (by rw [byte?_of_isDirective h]; decide), if_pos h]

theorem topLevelAt_of_startsClass (h : s.startsClass i = true) :
    s.topLevelAt i = s.passClass i := by
  have hbyte := byte?_of_startsClass h
  have hfontFace : ¬ s.hasWord "*font-face" i = true := by
    intro hword
    have := hbyte.symm.trans (byte?_add_of_startsAt (Bool.and_eq_true_iff.1 hword).1
      (show 0 < (Text.ofString "*font-face").length by decide))
    revert this
    decide
  unfold topLevelAt
  rw [if_neg (by rw [hbyte]; decide), if_neg (not_isDirective_of_startsClass h),
    if_neg hfontFace, if_pos h]

theorem passClass_block {opening close : Nat}
    (hfind : s.findAny? [Byte.lbrace, Byte.semicolon, Byte.rbrace] i = some (opening, Byte.lbrace))
    (hclose : s.closingBrace? opening = some close) :
    s.passClass i = .found ∅ (s.skipSemicolon (close + 1)) := by
  unfold passClass
  rw [hfind]
  dsimp only
  rw [if_pos rfl, hclose]

/-- The tree ends only at a class that is never closed. -/
theorem startsClass_of_ended (h : s.topLevelAt i = .ended) :
    s.startsClass i = true ∧
      ∃ opening, s.findAny? [Byte.lbrace, Byte.semicolon, Byte.rbrace] i =
        some (opening, Byte.lbrace) ∧ s.closingBrace? opening = none := by
  unfold topLevelAt at h
  split at h
  · cases h
  split at h
  · cases h
  split at h
  · unfold fontFaceAt at h
    dsimp only at h
    split at h
    · split at h <;> cases h
    · cases h
  split at h
  · next hclass =>
    refine ⟨hclass, ?_⟩
    unfold passClass at h
    split at h
    · cases h
    · next opening b hfind =>
      split at h
      · next hb =>
        subst hb
        split at h
        · cases h
        · next hclose => exact ⟨opening, hfind, hclose⟩
      · cases h
  split at h
  · unfold rootAt at h
    split at h <;> cases h
  · cases h

/-! ## Where statements end -/

/-- How far a statement reaches: the offset behind it. -/
inductive Shape (s : MaskedText) (i : Nat) : (next : Nat) → Prop
  | directive : s.isDirective i = true → Shape s i (s.statementEnd i)
  /-- Up to a semicolon. -/
  | short {stop : Nat} : ¬ s.isDirective i = true →
      s.findAny? [Byte.lbrace, Byte.semicolon] i = some (stop, Byte.semicolon) →
      Shape s i (stop + 1)
  /-- Up to the end of a block, and a semicolon that may follow. -/
  | block {opening close : Nat} : ¬ s.isDirective i = true →
      s.findAny? [Byte.lbrace, Byte.semicolon] i = some (opening, Byte.lbrace) →
      s.closingBrace? opening = some close → Shape s i (s.skipSemicolon (close + 1))

theorem statementEnd_of_some {stop : Nat} {b : UInt8}
    (h : s.findAny? [Byte.semicolon, Byte.lbrace, Byte.rbrace] i = some (stop, b)) :
    s.statementEnd i = stop + 1 := by
  unfold statementEnd
  rw [h]

theorem statementEnd_of_none
    (h : s.findAny? [Byte.semicolon, Byte.lbrace, Byte.rbrace] i = none) :
    s.statementEnd i = s.size := by
  unfold statementEnd
  rw [h]

theorem shape_of_fontFaceAt {piece : Hierarchy} {next : Nat} (hdirective : ¬ s.isDirective i = true)
    (h : s.fontFaceAt i = .found piece next) : s.Shape i next := by
  unfold fontFaceAt at h
  dsimp only at h
  split at h
  · next opening hfind =>
    split at h
    · next close hclose =>
      cases h
      refine .block hdirective (findAny?_subset hfind ?_ ?_) hclose <;> simp
    · cases h
  · cases h

theorem shape_of_passClass {piece : Hierarchy} {next : Nat} (hdirective : ¬ s.isDirective i = true)
    (h : s.passClass i = .found piece next) : s.Shape i next := by
  unfold passClass at h
  split at h
  · cases h
  · next opening b hfind =>
    split at h
    · next hb =>
      subst hb
      split at h
      · next close hclose =>
        cases h
        refine .block hdirective (findAny?_subset hfind ?_ ?_) hclose <;> simp
      · cases h
    · cases h

theorem shape_of_elementHead {head : ElementHead} (hdirective : ¬ s.isDirective i = true)
    (h : s.elementHead i = .ok head) : s.Shape i head.next := by
  rcases elementHead_cases h with ⟨stop, hfind, -, hnext⟩ | ⟨opening, last, hfind, hlast, -, hnext⟩
  · rw [hnext]
    exact .short hdirective (findAny?_subset hfind (by decide) (by decide))
  · rw [hnext]
    exact .block hdirective (findAny?_subset hfind (by decide) (by decide)) hlast

theorem shape_of_rootAt {piece : Hierarchy} {next : Nat} (hdirective : ¬ s.isDirective i = true)
    (h : s.rootAt i = .found piece next) : s.Shape i next := by
  unfold rootAt at h
  split at h
  · next e n he =>
    cases h
    obtain ⟨head, hhead, rfl, -⟩ := elementHead_of_element he
    exact shape_of_elementHead hdirective hhead
  · cases h

/-- Every statement that is read reaches as far as its shape says. -/
theorem shape_of_topLevelAt {piece : Hierarchy} {next : Nat}
    (hlive : s.byte? i = some Byte.semicolon → s.liveByte? i = some Byte.semicolon)
    (h : s.topLevelAt i = .found piece next) : s.Shape i next := by
  by_cases hdirective : s.isDirective i = true
  · rw [topLevelAt_of_isDirective hdirective] at h
    cases h
    exact .directive hdirective
  unfold topLevelAt at h
  by_cases hsemicolon : s.byte? i = some Byte.semicolon
  · rw [if_pos hsemicolon] at h
    cases h
    refine .short hdirective (findAny?_of_least (Nat.le_refl i) (hlive hsemicolon) (by simp) ?_)
    intro k h1 h2
    omega
  rw [if_neg hsemicolon, if_neg hdirective] at h
  split at h
  · exact shape_of_fontFaceAt hdirective h
  split at h
  · exact shape_of_passClass hdirective h
  split at h
  · exact shape_of_rootAt hdirective h
  · cases h

end

/-! ## Trees -/

section
variable {tree : Hierarchy} {pos : Nat}

theorem hierarchyFrom_end (h : s.size ≤ s.skipTrivia pos) :
    s.hierarchyFrom tree pos = .ok tree := by
  rw [hierarchyFrom]
  simp only [Nat.not_lt.2 h, dif_neg, not_false_eq_true]

theorem hierarchyFrom_found {i : Nat} {piece : Hierarchy} {next : Nat} (hi : s.skipTrivia pos = i)
    (hlt : i < s.size) (h : s.topLevelAt i = .found piece next) :
    s.hierarchyFrom tree pos = s.hierarchyFrom (tree.append piece) next := by
  rw [hierarchyFrom]
  subst hi
  simp only [dif_pos hlt]
  split <;> simp_all

theorem hierarchyFrom_ended (hlt : s.skipTrivia pos < s.size)
    (h : s.topLevelAt (s.skipTrivia pos) = .ended) : s.hierarchyFrom tree pos = .ok tree := by
  rw [hierarchyFrom]
  simp only [dif_pos hlt]
  split <;> simp_all

theorem hierarchyFrom_failed {fault : Fault} {resumeAt : Nat} (hlt : s.skipTrivia pos < s.size)
    (h : s.topLevelAt (s.skipTrivia pos) = .failed fault resumeAt) :
    s.hierarchyFrom tree pos = .error ⟨fault, tree, resumeAt⟩ := by
  rw [hierarchyFrom]
  simp only [dif_pos hlt]
  split <;> simp_all

/-- Without a fault, the tree is put together from the statements, in order. -/
theorem hierarchyFrom_eq_ok {found : Hierarchy} (h : s.hierarchyFrom tree pos = .ok found) :
    (∀ i ∈ s.topLevelStarts pos, ∀ fault resumeAt, s.topLevelAt i ≠ .failed fault resumeAt) ∧
      found = (s.topLevelStarts pos).foldl (fun m i => m.append (s.topLevelAt i).piece) tree := by
  induction tree, pos using hierarchyFrom.induct s with
  | case1 tree pos start hlt hstep =>
    rw [hierarchyFrom_ended hlt hstep] at h
    cases h
    rw [topLevelStarts_ended hlt hstep]
    refine ⟨fun i hi => ?_, ?_⟩
    · rw [List.mem_singleton.1 hi, hstep]
      exact fun _ _ => TopLevel.noConfusion
    · rw [List.foldl_cons, List.foldl_nil, hstep]
      simp [TopLevel.piece, Hierarchy.append, EmptyCollection.emptyCollection]
  | case2 tree pos start hlt piece next hstep ih =>
    rw [hierarchyFrom_found rfl hlt hstep] at h
    obtain ⟨hclean, hfound⟩ := ih h
    rw [topLevelStarts_found hlt hstep]
    refine ⟨fun i hi => ?_, ?_⟩
    · rcases List.mem_cons.1 hi with rfl | hi
      · rw [hstep]
        exact fun _ _ => TopLevel.noConfusion
      · exact hclean i hi
    · rw [List.foldl_cons, hstep]
      exact hfound
  | case3 tree pos start hlt fault resumeAt hstep =>
    rw [hierarchyFrom_failed hlt hstep] at h
    cases h
  | case4 tree pos start hlt =>
    rw [hierarchyFrom_end (Nat.not_lt.1 hlt)] at h
    cases h
    rw [topLevelStarts_end hlt]
    exact ⟨fun i hi => (List.not_mem_nil hi).elim, rfl⟩

theorem faults_recoverHierarchy (tree : Hierarchy) (faults : List Fault) (pos : Nat) :
    faults <+: (s.recoverHierarchy tree faults pos).2 := by
  induction tree, faults, pos using recoverHierarchy.induct s with
  | case1 tree faults pos found hfound =>
    have hstep : (s.recoverHierarchy tree faults pos).2 = faults := by
      rw [recoverHierarchy, hfound]
    exact hstep.symm ▸ List.prefix_refl faults
  | case2 tree faults pos failure hfailure tree' faults' hgo ih =>
    rw [recoverHierarchy, hfailure]
    simp only [if_pos hgo]
    exact (List.prefix_append _ _).trans ih
  | case3 tree faults pos failure hfailure hgo =>
    rw [recoverHierarchy, hfailure]
    simp only [if_neg hgo]
    exact List.prefix_append _ _

/-- The first pass over a text in which no fault is found is the only one. -/
theorem hierarchy_eq_ok (h : s.hierarchyRecovering.2 = []) : ∃ found, s.hierarchy 0 = .ok found := by
  cases hpass : s.hierarchy 0 with
  | ok found => exact ⟨found, rfl⟩
  | error failure =>
    exfalso
    have hmem : failure.fault ∈ s.hierarchyRecovering.2 := by
      unfold hierarchyRecovering
      rw [recoverHierarchy, hpass]
      dsimp only
      split
      · exact (faults_recoverHierarchy _ _ _).subset (by simp)
      · simp
    rw [h] at hmem
    cases hmem

theorem hierarchyRecovering_of_ok {found : Hierarchy} (h : s.hierarchy 0 = .ok found) :
    s.hierarchyRecovering = (found, []) := by
  unfold hierarchyRecovering
  rw [recoverHierarchy, h]
  rfl

/-- A text in which no fault is found has the tree of its statements. -/
theorem hierarchyRecovering_eq (h : s.hierarchyRecovering.2 = []) :
    (∀ i ∈ s.topLevelStarts 0, ∀ fault resumeAt, s.topLevelAt i ≠ .failed fault resumeAt) ∧
      s.hierarchyRecovering.1 =
        (s.topLevelStarts 0).foldl (fun m i => m.append (s.topLevelAt i).piece) ∅ := by
  obtain ⟨found, hpass⟩ := hierarchy_eq_ok h
  obtain ⟨hclean, hfound⟩ := hierarchyFrom_eq_ok hpass
  exact ⟨hclean, by rw [hierarchyRecovering_of_ok hpass, ← hfound]⟩

end

end MaskedText

end PageLang
