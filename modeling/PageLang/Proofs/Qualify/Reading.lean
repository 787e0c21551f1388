import PageLang.Proofs.Qualify.Head
import PageLang.Proofs.Qualify.Keyword
import PageLang.Proofs.Text.Distinct

/-!
# Reading a body

What is found in a body of pieces are the events of the pieces: the braces, the words that spell a
name, and the declarations by keyword. All are found in the order of their offsets.

* `mem_declarations`: the local declarations of all ranges are those of the pieces.
* `events_eq`: the events of a body are those of its pieces.
-/

namespace PageLang

/-- Sorted texts are the same texts, each once. -/
theorem Text.nodup_sorted (texts : List Text) : (Text.sorted texts).Nodup :=
  (List.mergeSort_perm _ _).symm.nodup (nodup_eraseDups texts)

theorem Text.mem_sorted {texts : List Text} {t : Text} : t ∈ Text.sorted texts ↔ t ∈ texts := by
  rw [Text.sorted, (List.mergeSort_perm _ _).mem_iff, List.mem_eraseDups]

/-- A list sorted by a key, where elements of one key keep their order. -/
def sortedBy {α : Type} (key : α → Nat) (l : List α) : List α :=
  l.mergeSort (fun a b => key a ≤ key b)

theorem pairwise_sortedBy {α : Type} (key : α → Nat) (l : List α) :
    (sortedBy key l).Pairwise (fun x y => key x ≤ key y) := by
  refine (List.pairwise_mergeSort (fun x y z hxy hyz => ?_) (fun x y => ?_) l).imp of_decide_eq_true
  · simp only [decide_eq_true_eq] at hxy hyz ⊢
    omega
  · simp only [Bool.or_eq_true, decide_eq_true_eq]
    omega

namespace MaskedText

open Qualify

/-- The events that are found: braces, local declarations and references. -/
theorem mem_events {s : MaskedText} {names : List Text} {x : Nat × Event} :
    x ∈ s.events names ↔ (x ∈ s.braces 0 s.size ∨
        ∃ d ∈ s.statementRanges.flatMap (fun r => s.locals r.1 r.2), (d.offset, .declares d) = x) ∨
      ∃ r ∈ names.flatMap s.references, (r.offset, .refers r) = x := by
  unfold events
  rw [(List.mergeSort_perm _ _).mem_iff, List.mem_append, List.mem_append, List.mem_map,
    List.mem_map]

/-- The events that are found are sorted by their offsets. -/
theorem pairwise_events (s : MaskedText) (names : List Text) :
    (s.events names).Pairwise (·.1 ≤ ·.1) := pairwise_sortedBy Prod.fst _

end MaskedText

end PageLang

namespace PageLang.Script

open Cell Qualify

theorem eq_of_fst_eq {α : Type} {l : List (Nat × α)} (hl : l.Pairwise (·.1 < ·.1)) {x y : Nat × α}
    (hx : x ∈ l) (hy : y ∈ l) (heq : x.1 = y.1) : x = y := by
  induction l with
  | nil => simp at hx
  | cons z l ih =>
    obtain ⟨hz, hl⟩ := List.pairwise_cons.1 hl
    rcases List.mem_cons.1 hx with hxz | hxl
    · rcases List.mem_cons.1 hy with hyz | hyl
      · rw [hxz, hyz]
      · have := hz y hyl
        rw [hxz] at heq
        omega
    · rcases List.mem_cons.1 hy with hyz | hyl
      · have := hz x hxl
        rw [hyz] at heq
        omega
      · exact ih hl hxl hyl

theorem nodup_of_pairwise_fst {α : Type} {l : List (Nat × α)} (hl : l.Pairwise (·.1 < ·.1)) :
    l.Nodup := by
  refine List.nodup_iff_pairwise_ne.2 (hl.imp fun hlt heq => ?_)
  simp [heq] at hlt

/-- A list sorted by offsets is the only order of its elements if no offset occurs twice. -/
theorem eq_of_perm_of_pairwise_fst {α : Type} {l m : List (Nat × α)} (hl : l.Pairwise (·.1 ≤ ·.1))
    (hm : m.Pairwise (·.1 < ·.1)) (h : l.Perm m) : l = m :=
  h.eq_of_pairwise (fun _ _ hx hy hxy hyx =>
    eq_of_fst_eq hm (h.mem_iff.1 hx) hy (Nat.le_antisymm hxy hyx)) hl (hm.imp Nat.le_of_lt)

section
variable {s : MaskedText} {lead : Text} {ps : List Piece} (hlead : Space lead)
  (hps : Tidy none ps) (h : s.Rest 0 (live lead ++ cells ps)) (hheads : Headless ps)
include hlead hps h hheads

/-! ## Declarations -/

/-- The local declarations in a range are those by keyword. -/
theorem locals_perm {r : Nat × Nat} (hr : r ∈ s.statementRanges) :
    (s.locals r.1 r.2).Perm ((s.keywordLocals r.1 r.2).filter
      (fun d => s.isLive d.offset && !d.names.isEmpty)) := by
  have hfunction : (s.functionLocals r.1 r.2).filter
      (fun d => s.isLive d.offset && !d.names.isEmpty) = [] := by
    refine List.filter_eq_nil_iff.2 fun d hd => ?_
    obtain ⟨x, hx, hd⟩ := List.mem_flatMap.1 hd
    have hoffset : d.offset = x.1 := by
      simp only [List.mem_cons, List.not_mem_nil, or_false] at hd
      rcases hd with rfl | rfl <;> rfl
    simp [hoffset, function_not_live hlead hps h hheads hr hx]
  have hcatch : (s.catchLocals r.1 r.2).filter
      (fun d => s.isLive d.offset && !d.names.isEmpty) = [] := by
    refine List.filter_eq_nil_iff.2 fun d hd => ?_
    obtain ⟨x, hx, rfl⟩ := List.mem_map.1 hd
    simp [catch_not_live hlead hps h hheads hr hx]
  have hclass : (s.classLocals r.1 r.2).filter
      (fun d => s.isLive d.offset && !d.names.isEmpty) = [] := by
    refine List.filter_eq_nil_iff.2 fun d hd => ?_
    obtain ⟨x, hx, rfl⟩ := List.mem_map.1 hd
    simp [class_not_live hlead hps h hr hx]
  have harrow : s.arrowLocals r.1 r.2 = [] := by
    unfold MaskedText.arrowLocals
    rw [List.map_eq_nil_iff, List.filter_eq_nil_iff]
    intro x hx
    simp [arrow_not_live hlead hps h hx]
  refine (List.mergeSort_perm _ _).trans (.of_eq ?_)
  simp only [List.filter_append, hfunction, hcatch, hclass, harrow, List.append_nil]

theorem mem_locals {r : Nat × Nat} (hr : r ∈ s.statementRanges) {names : List Text}
    {d : LocalDeclaration} : d ∈ s.locals r.1 r.2 ↔
      (d.offset, .declares d) ∈ events names none lead.length ps ∧
        r.1 ≤ d.offset ∧ d.offset < r.2 := by
  rw [(locals_perm hlead hps h hheads hr).mem_iff, ← mem_keywordLocals hlead hps h hr,
    List.mem_filter]
  simp

/-- The local declarations that are found in all ranges are those of the pieces. -/
theorem mem_declarations {names : List Text} {d : LocalDeclaration} :
    d ∈ s.statementRanges.flatMap (fun r => s.locals r.1 r.2) ↔
      (d.offset, .declares d) ∈ events names none lead.length ps := by
  rw [List.mem_flatMap]
  constructor
  · rintro ⟨r, hr, hd⟩
    exact ((mem_locals hlead hps h hheads hr).1 hd).1
  · intro hd
    have hlt : d.offset < s.size := by
      obtain ⟨pre, word, space, declared, post, hsplit, hoffset, -⟩ := mem_events_declares.1 hd
      have hp := hps.fits (.keyword word space declared) (by simp [hsplit])
      obtain ⟨c, word', rfl⟩ := List.exists_cons_of_ne_nil (Piece.forall_of_word? hp rfl).1
      rw [hoffset]
      exact MaskedText.byte?_eq_some_lt
        (MaskedText.liveByte?_eq_some (rest_of_split h hsplit).liveByte?_zero).2
    obtain ⟨r, hr, hle, hlt⟩ := MaskedText.exists_range hlt
    exact ⟨r, hr, (mem_locals hlead hps h hheads hr).2 ⟨hd, hle, hlt⟩⟩

/-- No declaration is found twice. -/
theorem nodup_declarations :
    (s.statementRanges.flatMap (fun r => s.locals r.1 r.2)).Nodup := by
  refine List.nodup_iff_pairwise_ne.2 (List.pairwise_flatMap.2 ⟨fun r hr => ?_, ?_⟩)
  · refine List.nodup_iff_pairwise_ne.1 ((locals_perm hlead hps h hheads hr).symm.nodup ?_)
    refine List.nodup_iff_pairwise_ne.2 (.filter _ (List.pairwise_map.2 ?_))
    refine (Recogniser.pairwise_all ..).imp fun hlt heq => ?_
    have := congrArg LocalDeclaration.offset heq
    simp at this
    omega
  · refine s.pairwise_statementRanges.imp_of_mem fun hr hr' hle d hd d' hd' heq => ?_
    have hrange := ((mem_locals hlead hps h hheads hr).1 hd : _ ∈ events [] _ _ _ ∧ _).2
    have hrange' := ((mem_locals hlead hps h hheads hr').1 hd' : _ ∈ events [] _ _ _ ∧ _).2
    subst heq
    omega

/-! ## Events -/

theorem mem_events_iff {names : List Text} (hnames : ∀ n ∈ names, IsName n) {x : Nat × Event} :
    x ∈ s.events names ↔ x ∈ events names none lead.length ps := by
  rw [MaskedText.mem_events]
  obtain ⟨i, e⟩ := x
  constructor
  · rintro ((hx | ⟨d, hd, heq⟩) | ⟨r, hr, heq⟩)
    · obtain ⟨-, -, ⟨-, rfl⟩ | ⟨-, rfl⟩⟩ := MaskedText.mem_braces.1 hx
      · exact (mem_braces_iff hlead hps h names (.inl ⟨rfl, rfl⟩)).1 hx
      · exact (mem_braces_iff hlead hps h names (.inr ⟨rfl, rfl⟩)).1 hx
    · obtain ⟨rfl, rfl⟩ := Prod.mk.inj heq
      exact (mem_declarations hlead hps h hheads).1 hd
    · obtain ⟨rfl, rfl⟩ := Prod.mk.inj heq
      exact (mem_references hlead hps h hnames).1 hr
  · intro hx
    cases e with
    | opens => exact .inl (.inl ((mem_braces_iff hlead hps h names (.inl ⟨rfl, rfl⟩)).2 hx))
    | closes => exact .inl (.inl ((mem_braces_iff hlead hps h names (.inr ⟨rfl, rfl⟩)).2 hx))
    | declares d =>
      obtain ⟨_, _, _, _, _, -, -, hd⟩ := mem_events_declares.1 hx
      have hoffset : d.offset = i := by rw [hd]
      subst hoffset
      exact .inl (.inr ⟨d, (mem_declarations hlead hps h hheads).2 hx, rfl⟩)
    | refers r =>
      obtain ⟨_, _, _, _, -, -, -, -, hr⟩ := mem_events_refers.1 hx
      have hoffset : r.offset = i := by rw [hr]
      subst hoffset
      exact .inr ⟨r, (mem_references hlead hps h hnames).2 hx, rfl⟩

/-- No event is found twice. -/
theorem nodup_events {names : List Text} (hnodup : names.Nodup) : (s.events names).Nodup := by
  refine (List.mergeSort_perm _ _).symm.nodup ?_
  have hbraces := nodup_of_pairwise_fst (s.pairwise_braces 0 s.size)
  refine List.nodup_append.2 ⟨List.nodup_append.2 ⟨hbraces, ?_, ?_⟩, ?_, ?_⟩
  · refine List.nodup_iff_pairwise_ne.2 (List.pairwise_map.2 ?_)
    refine (nodup_declarations hlead hps h hheads).imp fun hne heq => hne ?_
    exact Event.declares.inj (Prod.mk.inj heq).2
  · intro x hx y hy heq
    obtain ⟨d, -, rfl⟩ := List.mem_map.1 hy
    subst heq
    obtain ⟨-, -, ⟨-, he⟩ | ⟨-, he⟩⟩ := MaskedText.mem_braces.1 hx <;> simp at he
  · refine List.nodup_iff_pairwise_ne.2 (List.pairwise_map.2 ?_)
    refine (nodup_references hlead hps h hnodup).imp fun hne heq => hne ?_
    exact Event.refers.inj (Prod.mk.inj heq).2
  · intro x hx y hy heq
    obtain ⟨r, -, rfl⟩ := List.mem_map.1 hy
    subst heq
    rcases List.mem_append.1 hx with hx | hx
    · obtain ⟨-, -, ⟨-, he⟩ | ⟨-, he⟩⟩ := MaskedText.mem_braces.1 hx <;> simp at he
    · simp at hx

theorem events_eq {names : List Text} (hnames : ∀ n ∈ names, IsName n) (hnodup : names.Nodup) :
    s.events names = events names none lead.length ps := by
  obtain ⟨hpairwise, -⟩ := pairwise_events hps.fits names none lead.length
  refine eq_of_perm_of_pairwise_fst (s.pairwise_events names) hpairwise ?_
  exact (List.perm_ext_iff_of_nodup (nodup_events hlead hps h hheads hnodup)
    (nodup_of_pairwise_fst hpairwise)).2 fun x => mem_events_iff hlead hps h hheads hnames

end

end PageLang.Script
