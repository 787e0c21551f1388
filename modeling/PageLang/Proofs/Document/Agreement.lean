import PageLang.Analysis
import PageLang.Compilation
import PageLang.Proofs.Document.Diagnostics

/-!
# Analysis and compilation agree

A root file compiles exactly if its analysis is clean and its tree has a root element. Leaving out
the diagnostics of included files hides no error: a file with an error was brought in by an include
of the root, which is reported in its place.

* `Document.report_hasErrors`: an error is reported, whichever diagnostics are asked for.
* `Compilation.element_eq_ok`: an element compiles if it and its descendants resolve.
* `Compilation.run_agrees`: the agreement.
-/

namespace PageLang

namespace Document

/-- An error in a file that was brought in makes an include of the root fail. -/
theorem isFailing_of_encloses {d : Document} {outer inner : IncludeRecord} {g : Diagnostic}
    (hg : g ∈ d.diagnostics) (herror : g.isError = true) (hfile : g.file ≠ d.root)
    (hinner : inner ∈ d.expansion.includes) (hname : inner.includedFile = g.file)
    (hencloses : outer.Encloses inner) : d.isFailing outer = true := by
  have hroot : d.isRootFile g.file = false := by
    unfold isRootFile
    exact beq_false_of_ne hfile
  have hfailing : g.file ∈ d.failingFiles :=
    List.mem_map_of_mem (List.mem_filter.2 ⟨hg, by rw [herror, hroot]; rfl⟩)
  refine List.any_eq_true.2 ⟨inner, hinner, ?_⟩
  rw [hname]
  simp only [Bool.and_eq_true, decide_eq_true_eq, List.contains_iff_mem]
  exact ⟨hencloses, hfailing⟩

/-- Where a document has an error, an error is reported. -/
theorem report_hasErrors (s : Sources) (root source : Text) (nested : Bool)
    (h : (ofExpansion root (s.expandSource root source)).hasErrors = true) :
    ((ofExpansion root (s.expandSource root source)).report nested).any (·.isError) = true := by
  have hrecorded : ∀ g ∈ (ofExpansion root (s.expandSource root source)).diagnostics,
      g.file = root ∨
        IncludeRecord.BroughtIn (s.expandSource root source).includes 0 g.file :=
    fun g hg => recorded hg
  generalize hd : ofExpansion root (s.expandSource root source) = d at h hrecorded ⊢
  have hdroot : d.root = root := by rw [← hd]; rfl
  have hincludes : d.expansion.includes = (s.expandSource root source).includes := by
    rw [← hd]; rfl
  obtain ⟨g, hg, herror⟩ := List.any_eq_true.1 h
  unfold report
  cases nested with
  | true => exact h
  | false =>
    rw [if_neg Bool.false_ne_true, List.any_append, Bool.or_eq_true]
    by_cases hfile : g.file = d.root
    · refine .inl (List.any_eq_true.2 ⟨g, List.mem_filter.2 ⟨hg, ?_⟩, herror⟩)
      exact beq_iff_eq.2 hfile
    · refine .inr ?_
      rcases hrecorded g hg with hroot | ⟨outer, houter, hdepth, inner, hinner, hname, hencloses⟩
      · exact absurd (hroot.trans hdroot.symm) hfile
      · rw [← hincludes] at houter hinner
        have hfailing := isFailing_of_encloses hg herror hfile hinner hname hencloses
        refine List.any_eq_true.2 ⟨_, List.mem_map_of_mem (List.mem_filter.2 ⟨houter, ?_⟩), rfl⟩
        rw [hfailing, hdepth]
        rfl

/-- Where no error is reported, a document has none. -/
theorem hasErrors_eq_false {s : Sources} {root source : Text} {nested : Bool}
    (h : ((ofExpansion root (s.expandSource root source)).report nested).any (·.isError) = false) :
    (ofExpansion root (s.expandSource root source)).hasErrors = false := by
  apply Bool.eq_false_iff.2
  intro herrors
  rw [report_hasErrors s root source nested herrors] at h
  cases h

end Document

namespace Compilation

/-! ## Elements -/

section
variable (d : Document)

mutual

/-- An element compiles if it and its descendants resolve. -/
theorem element_eq_ok (around : Text) (context : BodyContext) : (e : Element) →
    (∀ x ∈ e.preorder, ∃ r, d.classes.resolveElement d.root x = .ok r) →
    ∃ r, element d around context e = .ok r
  | ⟨name, classRefs, overrides, children, span⟩, h => by
    obtain ⟨resolved, hresolved⟩ := h _ (by rw [Element.preorder]; exact List.mem_cons_self)
    obtain ⟨inner, hinner⟩ :=
      elements_eq_ok (around ++ elementLabel name classRefs ++ [Byte.greater]) context children
        (fun x hx => h x (by rw [Element.preorder]; exact List.mem_cons_of_mem _ hx))
    rw [element]
    simp only [hresolved, hinner]
    exact ⟨_, rfl⟩

theorem elements_eq_ok (around : Text) (context : BodyContext) : (es : List Element) →
    (∀ x ∈ Element.preorderAll es, ∃ r, d.classes.resolveElement d.root x = .ok r) →
    ∃ r, elements d around context es = .ok r
  | [], _ => ⟨_, by rw [elements]⟩
  | e :: rest, h => by
    rw [Element.preorderAll] at h
    obtain ⟨first, hfirst⟩ :=
      element_eq_ok around context e (fun x hx => h x (List.mem_append_left _ hx))
    obtain ⟨others, hothers⟩ :=
      elements_eq_ok around context rest (fun x hx => h x (List.mem_append_right _ hx))
    rw [elements]
    simp only [hfirst, hothers]
    exact ⟨_, rfl⟩

end

theorem classBodies_eq_ok (classes : List (Text × ClassDefinition))
    (h : ∀ c ∈ classes, ∀ x ∈ Element.preorderAll c.2.children,
      ∃ r, d.classes.resolveElement d.root x = .ok r) :
    ∃ r, classBodies d classes = .ok r := by
  induction classes with
  | nil => exact ⟨_, by rw [classBodies]⟩
  | cons c rest ih =>
    obtain ⟨name, c⟩ := c
    obtain ⟨bodies, hbodies⟩ := ih (fun c' hc' => h c' (List.mem_cons_of_mem _ hc'))
    obtain ⟨inner, hinner⟩ := elements_eq_ok d (name ++ [Byte.greater]) .instanced c.children
      (h (name, c) List.mem_cons_self)
    rw [classBodies]
    simp only [hinner, hbodies]
    exact ⟨_, rfl⟩

end

/-! ## Documents -/

/-- Every element of a document without errors compiles, wherever it stands. -/
theorem element_of_hasErrors {root : Text} {e : Expansion} {x : Element}
    (h : (Document.ofExpansion root e).hasErrors = false)
    (hx : (Document.ofExpansion root e).HasElement x) (around : Text) (context : BodyContext) :
    ∃ r, element (Document.ofExpansion root e) around context x = .ok r := by
  apply element_eq_ok
  intro y hy
  exact Document.resolveElement_eq_ok h (hx.of_mem_preorder hy)

/-- The diagnostics of a compilation are those reported, and the missing root element where
nothing else is wrong. -/
theorem any_isError_diagnostics (d : Document) (nested : Bool) :
    (diagnostics d nested).any (·.isError) =
      ((d.report nested).any (·.isError) ||
        (!d.hasErrors && !d.classes.hasDocumentRoot d.hierarchy.roots)) := by
  unfold diagnostics
  rw [List.any_append]
  congr 1
  split
  · next h => exact h.symm
  · next h => exact (Bool.eq_false_iff.2 h).symm

theorem ofDocument_eq_error {d : Document} {options : CompileOptions}
    (h : (diagnostics d options.includeNested).any (·.isError) = true) :
    ofDocument d options = .error (diagnostics d options.includeNested) := by
  unfold ofDocument
  dsimp only
  rw [if_pos (by rw [h]; rfl)]

theorem ofDocument_eq_ok {root : Text} {e : Expansion} {options : CompileOptions}
    (herrors : (Document.ofExpansion root e).hasErrors = false)
    (h : (diagnostics (.ofExpansion root e) options.includeNested).any (·.isError) = false) :
    ∃ unit, ofDocument (.ofExpansion root e) options = .ok unit := by
  obtain ⟨inClasses, hclasses⟩ := classBodies_eq_ok (.ofExpansion root e)
    (Document.ofExpansion root e).classes.entries (fun c hc x hx =>
      Document.resolveElement_eq_ok herrors (.inr ⟨c.2, List.mem_map_of_mem hc, hx⟩))
  obtain ⟨tree, htree⟩ := elements_eq_ok (.ofExpansion root e) [] .freeStanding
    (Document.ofExpansion root e).hierarchy.roots
    (fun x hx => Document.resolveElement_eq_ok herrors (.inl hx))
  unfold ofDocument
  dsimp only
  rw [if_neg (by rw [h, herrors]; exact Bool.false_ne_true), hclasses, htree]
  exact ⟨_, rfl⟩

/-- A document compiles exactly if no error is reported and it has a root element; else errors are
reported. -/
theorem ofDocument_iff (s : Sources) (root source : Text) (options : CompileOptions) :
    let d := Document.ofExpansion root (s.expandSource root source)
    ((∃ unit, ofDocument d options = .ok unit) ↔
      (d.report options.includeNested).any (·.isError) = false ∧
        d.classes.hasDocumentRoot d.hierarchy.roots = true) ∧
    ∀ ds, ofDocument d options = .error ds → ds.any (·.isError) = true := by
  intro d
  have hany := any_isError_diagnostics d options.includeNested
  cases hfound : (diagnostics d options.includeNested).any (·.isError) with
  | true =>
    have hstop : ofDocument d options = .error _ := ofDocument_eq_error hfound
    rw [hfound] at hany
    refine ⟨⟨fun ⟨unit, hunit⟩ => ?_, fun ⟨hclean, hroot⟩ => ?_⟩, fun ds hds => ?_⟩
    · rw [hstop] at hunit
      cases hunit
    · rw [hclean, hroot, Bool.not_true, Bool.and_false] at hany
      cases hany
    · rw [hstop] at hds
      cases hds
      exact hfound
  | false =>
    rw [hfound] at hany
    obtain ⟨hclean, hrest⟩ := Bool.or_eq_false_iff.1 hany.symm
    have herrors : d.hasErrors = false := Document.hasErrors_eq_false hclean
    obtain ⟨unit, hunit⟩ := ofDocument_eq_ok herrors hfound
    refine ⟨⟨fun _ => ⟨hclean, ?_⟩, fun _ => ⟨unit, hunit⟩⟩, fun ds hds => ?_⟩
    · rw [herrors, Bool.not_false, Bool.true_and] at hrest
      simpa using hrest
    · rw [hunit] at hds
      cases hds

theorem load_eq_ok {s : Sources} {root : Text} {d : Document}
    (h : Document.load s root = .ok d) :
    ∃ source, d = Document.ofExpansion root (s.expandSource root source) := by
  unfold Document.load Sources.expand at h
  split at h
  · next source _ =>
    cases h
    exact ⟨source, rfl⟩
  · cases h

theorem load_eq_error {s : Sources} {root : Text} {g : Diagnostic}
    (h : Document.load s root = .error g) : g.isError = true := by
  unfold Document.load Sources.expand at h
  split at h
  · cases h
  · cases h
    rfl

/-- Without a linter, an analysis is clean if no error is reported. -/
theorem errors_ofDocument_eq_nil (d : Document) (options : AnalysisOptions) :
    (Analysis.ofDocument d none options).errors = [] ↔
      (d.report options.includeNested).any (·.isError) = false := by
  have herrors : (Analysis.ofDocument d none options).errors =
      (d.report options.includeNested).filter (·.isError) := by
    unfold Analysis.ofDocument
    cases options.lint <;> simp
  rw [herrors, List.filter_eq_nil_iff, List.any_eq_false]

/-- Analysis and compilation agree, whichever diagnostics are asked for. A root file compiles
exactly if it can be read, its analysis without a linter has no errors and its tree has a root
element. Where a document has an error an error is reported, so a compilation that fails reports
one. Once the check for errors has passed, every element of the document compiles, wherever it
stands. -/
theorem run_agrees (s : Sources) (root : Text) (nested lint : Bool) (beautify : Beautify) :
    ((∃ unit, run s root ⟨beautify, nested⟩ = .ok unit) ↔
      ∃ a, Analysis.run s root none ⟨nested, lint⟩ = .ok a ∧ a.errors = [] ∧
        a.classes.hasDocumentRoot a.hierarchy.roots = true) ∧
    (∀ ds, run s root ⟨beautify, nested⟩ = .error ds → ds.any (·.isError) = true) ∧
    ∀ d, Document.load s root = .ok d →
      (d.hasErrors = true → (d.report nested).any (·.isError) = true) ∧
      ((diagnostics d nested).any (·.isError) = false → ∀ x, d.HasElement x →
        ∀ around context, ∃ r, element d around context x = .ok r) := by
  cases hload : Document.load s root with
  | error g =>
    have hrun : run s root ⟨beautify, nested⟩ = .error [g] := by
      unfold run
      rw [hload]
    have hanalysis : Analysis.run s root none ⟨nested, lint⟩ = .error g := by
      unfold Analysis.run
      rw [hload]
      rfl
    rw [hrun, hanalysis]
    refine ⟨⟨fun ⟨_, h⟩ => ?_, fun ⟨_, h, _⟩ => ?_⟩, fun ds hds => ?_, fun d hd => ?_⟩
    · cases h
    · cases h
    · cases hds
      simp [load_eq_error hload]
    · cases hd
  | ok d =>
    obtain ⟨source, rfl⟩ := load_eq_ok hload
    obtain ⟨hiff, herror⟩ := ofDocument_iff s root source ⟨beautify, nested⟩
    have hrun : run s root ⟨beautify, nested⟩ =
        ofDocument (.ofExpansion root (s.expandSource root source)) ⟨beautify, nested⟩ := by
      unfold run
      rw [hload]
    have hanalysis : Analysis.run s root none ⟨nested, lint⟩ =
        .ok (.ofDocument (.ofExpansion root (s.expandSource root source)) none ⟨nested, lint⟩) := by
      unfold Analysis.run
      rw [hload]
      rfl
    rw [hrun, hanalysis]
    refine ⟨?_, herror, fun d hd => ?_⟩
    · rw [hiff]
      constructor
      · rintro ⟨hclean, hroot⟩
        exact ⟨_, rfl, (errors_ofDocument_eq_nil _ ⟨nested, lint⟩).2 hclean, hroot⟩
      · rintro ⟨a, ha, hclean, hroot⟩
        cases ha
        exact ⟨(errors_ofDocument_eq_nil _ ⟨nested, lint⟩).1 hclean, hroot⟩
    · cases hd
      refine ⟨Document.report_hasErrors s root source nested, fun hfound x hx => ?_⟩
      rw [any_isError_diagnostics] at hfound
      exact element_of_hasErrors
        (Document.hasErrors_eq_false (Bool.or_eq_false_iff.1 hfound).1) hx

end Compilation

end PageLang
