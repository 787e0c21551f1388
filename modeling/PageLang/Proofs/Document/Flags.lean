import PageLang.Proofs.Document.Diagnostics
import PageLang.Proofs.Include.Own
import PageLang.Proofs.Include.Stack

/-!
# Includes that brought errors in

Where the diagnostics of included files are left out, an include of the root is reported if an error
stands in a file that its directive brought in. It is also reported if an error stands in a file
that another directive of the root brought in, in one line that the two have in common.

* `Sources.filesAt`: the files that a directive brings in.
* `Document.isFailing_iff`: an include is reported if it encloses one whose file has an error.
* `Document.report_flags`: the report, and which includes it flags.
-/

namespace PageLang

/-! ## Files that are brought in -/

namespace Sources

variable {s : Sources}

/-- The files that are included at a directive of an open file: the one it asks for, and those that
are included on the way through that. -/
def filesAt (s : Sources) (chain : List Text) (f : OpenFile) (d : Directive) : List Text :=
  (s.encountersAt chain f.name f.source f.depth d).filterMap fun x => (x.site? s).map (·.2.1)

theorem subset_chain_of {chain : List Text} {name source : Text} {depth : Nat}
    (h : ∀ x ∈ (directivesOf name source).flatMap (s.encountersAt chain name source depth),
      chain ⊆ x.chain) :
    ∀ x ∈ s.encounters chain name source depth, chain ⊆ x.chain := by
  intro x hx
  rcases List.mem_append.1 ((encounters_perm s chain name source depth).mem_iff.1 hx) with hx | hx
  · obtain ⟨fault, -, rfl⟩ := List.mem_map.1 hx
    exact List.Subset.refl _
  · exact h x hx

/-- The files being flattened where a file is entered are still being flattened where the directives
on the way through it are met. -/
theorem subset_chain (chain : List Text) (name source : Text) (cursor : Nat)
    (directives : List Directive) : ∀ depth,
    ∀ x ∈ directives.flatMap (s.encountersAt chain name source depth), chain ⊆ x.chain := by
  induction chain, name, source, cursor, directives using includeInduct (s := s) with
  | nil chain name source cursor => simp
  | kept chain name source cursor d rest hkept ih =>
    intro depth x hx
    rw [List.flatMap_cons, encountersAt, replacement?_eq_none.2 hkept] at hx
    rcases List.mem_append.1 hx with hx | hx
    · rw [List.mem_singleton.1 hx]
      exact List.Subset.refl _
    · exact ih depth x hx
  | included chain name source cursor d rest inner hs hr ihInner ih =>
    intro depth x hx
    rw [List.flatMap_cons, encountersAt, replacement?_eq_some.2 ⟨hs, hr⟩] at hx
    rcases List.mem_append.1 hx with hx | hx
    · rcases List.mem_cons.1 hx with rfl | hx
      · exact List.Subset.refl _
      · exact List.Subset.trans (List.subset_cons_self d.target chain)
          (subset_chain_of (ihInner (depth + 1)) x hx)
    · exact ih depth x hx

/-- No file includes the root, which is being flattened all the time. -/
theorem includedFile_ne_root {root source : Text} {r : IncludeRecord}
    (h : r ∈ (s.expandSource root source).includes) : r.includedFile ≠ root := by
  have hsite : r.site ∈
      (s.encounters [(Path.ofText root).key] root source 0).filterMap (·.site? s) :=
    (meets_expandSource s root source).includes.mem_iff.1 (List.mem_map_of_mem h)
  obtain ⟨x, hx, hsite⟩ := List.mem_filterMap.1 hsite
  obtain ⟨d, inner, hread, hinner, hsite⟩ := Encounter.site?_eq_some.1 hsite
  have hchain : [(Path.ofText root).key] ⊆ x.chain :=
    subset_chain_of (subset_chain _ root source 0 _ 0) x hx
  have hkey : (Path.ofText d.target).key = d.target :=
    key_target ((genuine_encounters _ 0 x hx).mem_directivesOf hread)
  have htarget : r.includedFile = d.target := congrArg (fun site => site.2.1) hsite
  intro hroot
  rw [← htarget, hroot] at hkey
  refine (replacement?_eq_some.1 hinner).1 ?_
  rw [← htarget, hroot, ← hkey]
  exact hchain (List.mem_singleton_self _)

end Sources

theorem OwnInclude.Made.files {s : Sources} {chain : List Text} {f : OpenFile} {o : OwnInclude}
    (h : o.Made s chain f) :
    (o.records.map (·.includedFile)).Perm (s.filesAt chain f o.directive) := by
  have hfiles := h.sites.map (fun site => site.2.1)
  rw [List.map_map, List.map_filterMap] at hfiles
  exact hfiles

namespace Document

/-! ## Flags -/

/-- A file has an error. -/
def HasErrorIn (d : Document) (file : Text) : Prop :=
  ∃ g ∈ d.diagnostics, g.isError = true ∧ g.file = file

theorem mem_failingFiles {d : Document} {file : Text} (h : file ≠ d.root) :
    file ∈ d.failingFiles ↔ d.HasErrorIn file := by
  unfold failingFiles HasErrorIn isRootFile
  simp only [List.mem_map, List.mem_filter, Bool.and_eq_true, Bool.not_eq_true',
    beq_eq_false_iff_ne]
  constructor
  · rintro ⟨g, ⟨hg, herror, -⟩, hfile⟩
    exact ⟨g, hg, herror, hfile⟩
  · rintro ⟨g, hg, herror, rfl⟩
    exact ⟨g, ⟨hg, herror, h⟩, rfl⟩

/-- An include is reported if it encloses one whose file has an error. -/
theorem isFailing_iff {d : Document} (h : ∀ r ∈ d.expansion.includes, r.includedFile ≠ d.root)
    (outer : IncludeRecord) : d.isFailing outer = true ↔
      ∃ r ∈ d.expansion.includes, outer.Encloses r ∧ d.HasErrorIn r.includedFile := by
  unfold isFailing
  rw [List.any_eq_true]
  refine exists_congr fun r => and_congr_right fun hr => ?_
  rw [Bool.and_eq_true, Bool.and_eq_true, decide_eq_true_eq, decide_eq_true_eq,
    List.contains_iff_mem, mem_failingFiles (h r hr)]
  rfl

/-- Of all that own includes leave, the includes at their depth are they themselves. -/
theorem filter_own {s : Sources} {chain : List Text} {f : OpenFile} {own : List OwnInclude}
    (h : ∀ o ∈ own, o.Made s chain f) (keep : IncludeRecord → Bool) :
    (own.flatMap (·.records)).filter (fun r => r.depth == f.depth && keep r) =
      (own.filter (fun o => keep o.record)).map (·.record) := by
  induction own with
  | nil => rfl
  | cons o own ih =>
    obtain ⟨ho, hown⟩ := List.forall_mem_cons.1 h
    have hduring : o.during.filter (fun r => r.depth == f.depth && keep r) = [] := by
      apply List.filter_eq_nil_iff.2
      intro r hr
      have hdeeper := ho.deeper r hr
      rw [beq_false_of_ne (by omega), Bool.false_and]
      exact Bool.false_ne_true
    have hdepth : o.record.depth = f.depth := congrArg (fun site => site.2.2.2) ho.site
    rw [List.flatMap_cons, OwnInclude.records, List.filter_append, List.filter_append, hduring,
      List.nil_append, ih hown, List.filter_cons, List.filter_nil, hdepth, beq_self_eq_true,
      Bool.true_and, List.filter_cons]
    split <;> rfl

section
variable {d : Document} {s : Sources} {chain : List Text} {f : OpenFile} {own : List OwnInclude}

/-- An include of a file is reported if a file that its directive brought in has an error, or one
that an earlier directive brought in in its first line, or one that a later directive brought in in
its last line. -/
theorem isFailing_own (hroot : ∀ r ∈ d.expansion.includes, r.includedFile ≠ d.root)
    (hincludes : d.expansion.includes = own.flatMap (·.records))
    (hmade : ∀ o ∈ own, o.Made s chain f)
    (hapart : own.Pairwise (fun o o' => o.record.flatStop ≤ o'.record.flatStart + 1))
    {before : List OwnInclude} {o : OwnInclude} {after : List OwnInclude}
    (hown : own = before ++ o :: after) :
    d.isFailing o.record = true ↔
      (∃ file ∈ s.filesAt chain f o.directive, d.HasErrorIn file) ∨
      (∃ r ∈ before.flatMap (·.records), r.IsLine o.record.flatStart ∧
        d.HasErrorIn r.includedFile) ∨
      ∃ r ∈ after.flatMap (·.records), r.IsLine o.record.lastLine ∧
        d.HasErrorIn r.includedFile := by
  subst hown
  obtain ⟨-, hlater, hearlier⟩ := List.pairwise_append.1 hapart
  have ho : o.Made s chain f := hmade o (by simp)
  have hfiles : (∃ file ∈ s.filesAt chain f o.directive, d.HasErrorIn file) ↔
      ∃ r ∈ o.records, o.record.Encloses r ∧ d.HasErrorIn r.includedFile := by
    constructor
    · rintro ⟨file, hfile, herror⟩
      obtain ⟨r, hr, rfl⟩ := List.mem_map.1 (ho.files.mem_iff.2 hfile)
      exact ⟨r, hr, (ho.within r hr).1, herror⟩
    · rintro ⟨r, hr, -, herror⟩
      exact ⟨_, ho.files.mem_iff.1 (List.mem_map_of_mem hr), herror⟩
  have hbefore : ∀ r ∈ before.flatMap (·.records),
      (o.record.Encloses r ↔ r.IsLine o.record.flatStart) := by
    intro r hr
    obtain ⟨o', ho', hr⟩ := List.mem_flatMap.1 hr
    exact ho.encloses_earlier (hmade o' (by simp [ho'])) (hearlier o' ho' o List.mem_cons_self) hr
  have hafter : ∀ r ∈ after.flatMap (·.records),
      (o.record.Encloses r ↔ r.IsLine o.record.lastLine) := by
    intro r hr
    obtain ⟨o', ho', hr⟩ := List.mem_flatMap.1 hr
    exact ho.encloses_later (hmade o' (by simp [ho'])) ((List.pairwise_cons.1 hlater).1 o' ho') hr
  rw [isFailing_iff hroot, hincludes, List.flatMap_append, List.flatMap_cons, hfiles]
  simp only [List.mem_append, or_and_right, exists_or]
  constructor
  · rintro (⟨r, hr, henc, herror⟩ | ⟨r, hr, henc, herror⟩ | ⟨r, hr, henc, herror⟩)
    · exact .inr (.inl ⟨r, hr, (hbefore r hr).1 henc, herror⟩)
    · exact .inl ⟨r, hr, henc, herror⟩
    · exact .inr (.inr ⟨r, hr, (hafter r hr).1 henc, herror⟩)
  · rintro (⟨r, hr, henc, herror⟩ | ⟨r, hr, hline, herror⟩ | ⟨r, hr, hline, herror⟩)
    · exact .inr (.inl ⟨r, hr, henc, herror⟩)
    · exact .inl ⟨r, hr, (hbefore r hr).2 hline, herror⟩
    · exact .inr (.inr ⟨r, hr, (hafter r hr).2 hline, herror⟩)

/-- Where no two includes of a file have a line in common, one is reported if a file that its
directive brought in has an error. -/
theorem isFailing_own_of_disjoint (hroot : ∀ r ∈ d.expansion.includes, r.includedFile ≠ d.root)
    (hincludes : d.expansion.includes = own.flatMap (·.records))
    (hmade : ∀ o ∈ own, o.Made s chain f)
    (hdisjoint : own.Pairwise (fun o o' => o.record.flatStop ≤ o'.record.flatStart))
    {o : OwnInclude} (ho : o ∈ own) :
    d.isFailing o.record = true ↔ ∃ file ∈ s.filesAt chain f o.directive, d.HasErrorIn file := by
  obtain ⟨before, after, hown⟩ := List.append_of_mem ho
  rw [isFailing_own hroot hincludes hmade (hdisjoint.imp Nat.le_succ_of_le) hown, or_iff_left]
  subst hown
  obtain ⟨-, hlater, hearlier⟩ := List.pairwise_append.1 hdisjoint
  rintro (⟨r, hr, ⟨hstart, hstop⟩, -⟩ | ⟨r, hr, ⟨hstart, hstop⟩, -⟩)
  · obtain ⟨o', ho', hr⟩ := List.mem_flatMap.1 hr
    have hwithin := ((hmade o' (by simp [ho'])).within r hr).1.2
    have := hearlier o' ho' o List.mem_cons_self
    omega
  · obtain ⟨o', ho', hr⟩ := List.mem_flatMap.1 hr
    have hwithin := ((hmade o' (by simp [ho'])).within r hr).1.1
    have hlast : r.flatStart = o.record.flatStop - 1 := hstart
    have hline := ((hmade o (by simp)).within _ o.record_mem).2
    have := (List.pairwise_cons.1 hlater).1 o' ho'
    omega

/-- The report without the diagnostics of included files flags own includes of the root, each at
its directive. -/
theorem report_own (hfile : f.name = d.root) (hdepth : f.depth = 0)
    (hincludes : d.expansion.includes = own.flatMap (·.records))
    (hmade : ∀ o ∈ own, o.Made s chain f) :
    d.report false = d.diagnostics.filter (fun g => g.file == d.root) ++
      (own.filter (fun o => d.isFailing o.record)).map (fun o =>
        let place := f.source.place o.directive.span.start
        .ofProblem .erroredInclude d.root place.line place.column) := by
  have hreport : d.report false = d.diagnostics.filter (fun g => g.file == d.root) ++
      (d.expansion.includes.filter (fun r => r.depth == f.depth && d.isFailing r)).map
        fun r => .ofProblem .erroredInclude r.includingFile r.place.line r.place.column := by
    rw [hdepth]
    rfl
  rw [hreport, hincludes, filter_own hmade, List.map_map]
  congr 1
  apply List.map_congr_left
  intro o ho
  have hsite := (hmade o (List.mem_of_mem_filter ho)).site
  have hincluding : o.record.includingFile = d.root :=
    (congrArg (fun site => site.1) hsite).trans hfile
  have hplace : o.record.place = f.source.place o.directive.span.start :=
    congrArg (fun site => site.2.2.1) hsite
  simp only [Function.comp_apply, hincluding, hplace]

end

/-- The report without the diagnostics of included files. It holds those of the root, and behind
them one for each include of the root that is flagged, at its directive and in their order. An
include is flagged if a file has an error that its directive brought in, by itself or on the way;
and also if one has that another directive brought in, in one line which is the first line of the
include if that directive comes earlier, and the last one if it comes later. So where no two
includes of the root have a line in common, the flagged ones are those that brought an error in. -/
theorem report_flags (s : Sources) (root source : Text) :
    let d := Document.ofExpansion root (s.expandSource root source)
    let chain := [(Path.ofText root).key]
    let f : OpenFile := ⟨root, source, 0, 0⟩
    ∃ own : List OwnInclude,
      own.map (·.directive) = (Sources.directivesOf root source).filter
        (fun x => (s.replacement? chain x).isSome) ∧
      d.expansion.includes = own.flatMap (·.records) ∧
      (∀ o ∈ own, o.Made s chain f) ∧
      d.report false = d.diagnostics.filter (fun g => g.file == root) ++
        (own.filter (fun o => d.isFailing o.record)).map (fun o =>
          let place := source.place o.directive.span.start
          .ofProblem .erroredInclude root place.line place.column) ∧
      (∀ before o after, own = before ++ o :: after →
        (d.isFailing o.record = true ↔
          (∃ file ∈ s.filesAt chain f o.directive, d.HasErrorIn file) ∨
          (∃ r ∈ before.flatMap (·.records), r.IsLine o.record.flatStart ∧
            d.HasErrorIn r.includedFile) ∨
          ∃ r ∈ after.flatMap (·.records), r.IsLine o.record.lastLine ∧
            d.HasErrorIn r.includedFile)) ∧
      (own.Pairwise (fun o o' => o.record.flatStop ≤ o'.record.flatStart) → ∀ o ∈ own,
        (d.isFailing o.record = true ↔
          ∃ file ∈ s.filesAt chain f o.directive, d.HasErrorIn file)) := by
  intro d chain f
  obtain ⟨own, h⟩ := Sources.expandFrom_own chain f (Sources.directivesOf root source) 0
    (Expansion.empty.openFile root source 0).2.2
  have hincludes : d.expansion.includes = own.flatMap (·.records) := h.includes
  have hroot : ∀ r ∈ d.expansion.includes, r.includedFile ≠ d.root :=
    fun r hr => Sources.includedFile_ne_root hr
  exact ⟨own, h.directives, hincludes, h.made, report_own rfl rfl hincludes h.made,
    fun before o after hown => isFailing_own hroot hincludes h.made h.apart hown,
    fun hdisjoint o ho => isFailing_own_of_disjoint hroot hincludes h.made hdisjoint ho⟩

end Document

end PageLang
