import PageLang.Proofs.Include.Lines

/-!
# The includes that brought a file in

Every file of a flattened text except the root was brought in by an include, and the lines of that
include lie within those of an include that the root makes itself. `Expansion.Extends` says what
flattening a file at some depth adds to an expansion; each step of the expansion is such an
addition, and additions are made one after the other.

* `Expansion.Extends.trans`: two additions, one after the other.
* `Expansion.Extends.record`: an include, around all that its file adds.
* `Sources.expandFrom_extends`: a whole file with its includes.
* `Sources.expandSource_recorded`: the files of a root file, and those its diagnostics name.
-/

namespace PageLang

/-- The lines of `inner` lie within those of `outer`. -/
def IncludeRecord.Encloses (outer inner : IncludeRecord) : Prop :=
  outer.flatStart ≤ inner.flatStart ∧ inner.flatStop ≤ outer.flatStop

/-- A file was included, in lines that lie within those of an include made at `depth`. -/
def IncludeRecord.BroughtIn (records : List IncludeRecord) (depth : Nat) (name : Text) : Prop :=
  ∃ outer ∈ records, outer.depth = depth ∧
    ∃ inner ∈ records, inner.includedFile = name ∧ outer.Encloses inner

theorem IncludeRecord.BroughtIn.mono {records more : List IncludeRecord} {depth : Nat}
    {name : Text} (h : BroughtIn records depth name) (hsub : records ⊆ more) :
    BroughtIn more depth name := by
  obtain ⟨outer, houter, hdepth, inner, hinner, hname⟩ := h
  exact ⟨outer, hsub houter, hdepth, inner, hsub hinner, hname⟩

theorem Fault.file_diagnostic (f : Fault) (file text : Text) :
    (f.diagnostic file text).file = file := rfl

namespace Expansion

theorem lines_pushSlice (e : Expansion) (f : OpenFile) (start stop : Nat) :
    e.lines ≤ (e.pushSlice f start stop).lines := by
  unfold Expansion.pushSlice pushPiece
  split
  · exact Nat.le_refl _
  · simp only [lines, Text.newlines_append]
    exact Nat.le_add_right _ _

theorem includes_pushSlice (e : Expansion) (f : OpenFile) (start stop : Nat) :
    (e.pushSlice f start stop).includes = e.includes := by
  unfold Expansion.pushSlice pushPiece
  split <;> rfl

theorem diagnostics_pushSlice (e : Expansion) (f : OpenFile) (start stop : Nat) :
    (e.pushSlice f start stop).diagnostics = e.diagnostics := by
  unfold Expansion.pushSlice pushPiece
  split <;> rfl

/-- What flattening a part of `file`, which stands at `depth`, adds to an expansion: the files
`names` and the includes `records`. The includes have a line at least and stand at that depth or
deeper, their lines are those of the part, each file was brought in by them, and each new diagnostic
names `file` or one of the files. -/
structure Extends (depth : Nat) (file : Text) (names : List Text) (records : List IncludeRecord)
    (e e' : Expansion) : Prop where
  lines : e.lines ≤ e'.lines
  files : e'.positionMap.files = e.positionMap.files ++ names
  includes : e'.includes = e.includes ++ records
  within : ∀ r ∈ records, e.lines + 1 ≤ r.flatStart ∧ r.flatStop ≤ e'.lines + 2
  proper : ∀ r ∈ records, depth ≤ r.depth ∧ r.flatStart < r.flatStop
  broughtIn : ∀ name ∈ names, IncludeRecord.BroughtIn records depth name
  reported : ∀ g ∈ e'.diagnostics, g ∈ e.diagnostics ∨ g.file ∈ file :: names

theorem extends_pushSlice (depth : Nat) (file : Text) (e : Expansion) (f : OpenFile)
    (start stop : Nat) : Extends depth file [] [] e (e.pushSlice f start stop) where
  lines := lines_pushSlice _ _ _ _
  files := by rw [files_pushSlice, List.append_nil]
  includes := by rw [includes_pushSlice, List.append_nil]
  within := by simp
  proper := by simp
  broughtIn := by simp
  reported := fun g hg => .inl (by rwa [diagnostics_pushSlice] at hg)

theorem extends_reject (depth : Nat) (e : Expansion) (f : OpenFile) (d : Directive)
    (problem : Problem) : Extends depth f.name [] [] e (e.reject f d problem) where
  lines := by
    unfold reject
    dsimp only
    refine Nat.le_trans ?_ (lines_pushSlice _ f d.span.start d.span.stop)
    exact Nat.le_refl e.lines
  files := by rw [files_reject, List.append_nil]
  includes := by rw [reject, includes_pushSlice, List.append_nil]
  within := by simp
  proper := by simp
  broughtIn := by simp
  reported := by
    intro g hg
    rw [reject, diagnostics_pushSlice] at hg
    rcases List.mem_append.1 hg with hg | hg
    · exact .inl hg
    · rw [List.mem_singleton.1 hg, Fault.file_diagnostic]
      exact .inr List.mem_cons_self

/-- Opening a file registers it; its faulty directives are reported under its name. -/
theorem openFile_reported (e : Expansion) (name source : Text) (depth : Nat) :
    ∀ g ∈ (e.openFile name source depth).2.2.diagnostics, g ∈ e.diagnostics ∨ g.file = name := by
  intro g hg
  rcases List.mem_append.1 hg with hg | hg
  · exact .inl hg
  · obtain ⟨fault, _, rfl⟩ := List.mem_map.1 hg
    exact .inr (Fault.file_diagnostic _ _ _)

section
variable {depth : Nat} {file : Text} {names₁ names₂ : List Text}
  {records₁ records₂ : List IncludeRecord} {e e₁ e₂ : Expansion}

theorem Extends.trans (h₁ : Extends depth file names₁ records₁ e e₁)
    (h₂ : Extends depth file names₂ records₂ e₁ e₂) :
    Extends depth file (names₁ ++ names₂) (records₁ ++ records₂) e e₂ where
  lines := Nat.le_trans h₁.lines h₂.lines
  files := by rw [h₂.files, h₁.files, List.append_assoc]
  includes := by rw [h₂.includes, h₁.includes, List.append_assoc]
  within := by
    have hl₁ := h₁.lines
    have hl₂ := h₂.lines
    intro r hr
    rcases List.mem_append.1 hr with hr | hr
    · have := h₁.within r hr
      omega
    · have := h₂.within r hr
      omega
  proper := by
    intro r hr
    rcases List.mem_append.1 hr with hr | hr
    · exact h₁.proper r hr
    · exact h₂.proper r hr
  broughtIn := by
    intro name hname
    rcases List.mem_append.1 hname with hname | hname
    · exact (h₁.broughtIn name hname).mono (List.subset_append_left _ _)
    · exact (h₂.broughtIn name hname).mono (List.subset_append_right _ _)
  reported := by
    intro g hg
    rcases h₂.reported g hg with hg | hg
    · rcases h₁.reported g hg with hg | hg
      · exact .inl hg
      · refine .inr ?_
        rcases List.mem_cons.1 hg with hg | hg
        · exact List.mem_cons.2 (.inl hg)
        · exact List.mem_cons_of_mem _ (List.mem_append_left _ hg)
    · refine .inr ?_
      rcases List.mem_cons.1 hg with hg | hg
      · exact List.mem_cons.2 (.inl hg)
      · exact List.mem_cons_of_mem _ (List.mem_append_right _ hg)

/-- An include adds its file and all that its file adds. Its own lines are around all of them. -/
theorem Extends.record {f : OpenFile} {d : Directive} {inner : Text}
    (h : Extends (f.depth + 1) d.target names₁ records₁
      (e.openFile d.target inner (f.depth + 1)).2.2 e₁) :
    ∃ records, Extends f.depth f.name (d.target :: names₁) records e
      (e₁.record f d (e.lines + 1)) := by
  have hopen : (e.openFile d.target inner (f.depth + 1)).2.2.lines = e.lines := rfl
  have hlines := h.lines
  have hwithin := h.within
  rw [hopen] at hlines hwithin
  refine ⟨records₁ ++ [⟨f.name, d.target, f.source.place d.span.start, e.lines + 1, e₁.lines + 2,
    f.depth⟩], ?_⟩
  refine ⟨hlines, ?_, ?_, ?_, ?_, ?_, ?_⟩
  · have hfiles := h.files
    simp only [openFile] at hfiles
    simp only [Expansion.record, hfiles, List.append_assoc, List.singleton_append]
  · have hincludes := h.includes
    simp only [openFile] at hincludes
    simp only [Expansion.record, hincludes, List.append_assoc]
  · intro r hr
    rcases List.mem_append.1 hr with hr | hr
    · exact hwithin r hr
    · rw [List.mem_singleton.1 hr]
      exact ⟨Nat.le_refl _, Nat.le_refl _⟩
  · intro r hr
    rcases List.mem_append.1 hr with hr | hr
    · have := h.proper r hr
      omega
    · rw [List.mem_singleton.1 hr]
      exact ⟨Nat.le_refl _, by dsimp only; omega⟩
  · -- the new include is around its own file and around all that the file brought in
    intro name hname
    refine ⟨_, List.mem_append_right _ (List.mem_singleton.2 rfl), rfl, ?_⟩
    rcases List.mem_cons.1 hname with rfl | hname
    · exact ⟨_, List.mem_append_right _ (List.mem_singleton.2 rfl), rfl, Nat.le_refl _,
        Nat.le_refl _⟩
    · obtain ⟨_, _, _, r, hr, hrname, _⟩ := h.broughtIn name hname
      exact ⟨r, List.mem_append_left _ hr, hrname, hwithin r hr⟩
  · intro g hg
    rcases h.reported g hg with hg | hg
    · rcases openFile_reported e d.target inner (f.depth + 1) g hg with hg | hg
      · exact .inl hg
      · exact .inr (by simp [hg])
    · exact .inr (List.mem_cons_of_mem _ hg)

end

end Expansion

namespace Sources

open Expansion

/-- Flattening the rest of an open file is an addition at the depth of the file. -/
theorem expandFrom_extends {s : Sources} (stack : List Text) (name source : Text) (cursor : Nat)
    (directives : List Directive) : ∀ (index depth : Nat) (e : Expansion),
    ∃ names records, Extends depth name names records e
      (s.expandFrom stack ⟨name, source, index, depth⟩ cursor directives e) := by
  induction stack, name, source, cursor, directives using includeInduct (s := s) with
  | nil stack name source cursor =>
    intro index depth e
    rw [expandFrom_nil]
    exact ⟨[], [], extends_pushSlice _ _ _ _ _ _⟩
  | kept stack name source cursor d rest hkept ih =>
    intro index depth e
    obtain ⟨problem, hexpand⟩ := expandFrom_kept (.mk name source index depth) cursor rest e hkept
    rw [hexpand]
    have hpush := extends_pushSlice depth name e ⟨name, source, index, depth⟩ cursor d.span.start
    have hreject := hpush.trans (extends_reject depth _ ⟨name, source, index, depth⟩ d problem)
    obtain ⟨names, records, hrest⟩ := ih index depth _
    exact ⟨_, _, hreject.trans hrest⟩
  | included stack name source cursor d rest inner hs hr ihInner ih =>
    intro index depth e
    rw [expandFrom_included hs hr]
    have hpush := extends_pushSlice depth name e ⟨name, source, index, depth⟩ cursor d.span.start
    obtain ⟨names, records, hinner⟩ := ihInner _ (depth + 1) _
    obtain ⟨records', hrecord⟩ :=
      Extends.record (f := ⟨name, source, index, depth⟩) hinner
    obtain ⟨names', records'', hrest⟩ := ih index depth _
    exact ⟨_, _, (hpush.trans hrecord).trans hrest⟩

/-- The files of a flattened root file are the root and files that were brought in by an include of
the root, and the diagnostics of the expansion name no other file. -/
theorem expandSource_recorded (s : Sources) (root source : Text) :
    let e := s.expandSource root source
    ∃ names, e.positionMap.files = root :: names ∧
      (∀ name ∈ names, IncludeRecord.BroughtIn e.includes 0 name) ∧
      ∀ g ∈ e.diagnostics, g.file ∈ root :: names := by
  intro e
  obtain ⟨names, records, h⟩ := expandFrom_extends (s := s) [(Path.ofText root).key] root source 0
    (directivesOf root source) 0 0 (empty.openFile root source 0).2.2
  have hincludes : e.includes = records := h.includes
  refine ⟨names, h.files, fun name hname => ?_, fun g hg => ?_⟩
  · rw [hincludes]
    exact h.broughtIn name hname
  · rcases h.reported g hg with hg | hg
    · rcases openFile_reported empty root source 0 g hg with hg | hg
      · cases hg
      · exact List.mem_cons.2 (.inl hg)
    · exact hg

end Sources

end PageLang
