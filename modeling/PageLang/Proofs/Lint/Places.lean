import PageLang.Lint.Debugger
import PageLang.Proofs.Document.Bodies
import PageLang.Proofs.Document.Origins
import PageLang.Proofs.Hierarchy.Functions
import PageLang.Proofs.Include.Own
import PageLang.Proofs.Qualify.Ranges
import PageLang.Proofs.Text.Place

/-!
# The places of warnings about debugger statements

A linter sees a function body and the line on which it starts, and nothing else of the file. So it
finds the line of a statement in the file, and the column of a statement that is not on the first
line of the body. On the first line it counts the columns from the brace.

* `Sources.origins_of_includes_eq_nil`: a file that includes nothing stands as it is written.
* `Document.slice_of_mem_bodies`: the bodies of a document are pieces of its text.
* `Document.lintBody_of_includes_eq_nil`: what is found in a body of such a file.
* `Analysis.run_debugger_places`: the warnings of the analysis, and when their columns are right.
-/

namespace PageLang

/-! ## Files that include nothing -/

theorem Origin.ofRange_append (file source : Text) {i j k : Nat} (hij : i ≤ j) (hjk : j ≤ k)
    (hj : j ≤ source.length) :
    ofRange file source i j ++ ofRange file source j k = ofRange file source i k := by
  unfold ofRange
  rw [← List.map_append, Nat.min_eq_left hj]
  have hrange := List.range'_append_1 (s := i) (m := j - i) (n := min k source.length - j)
  rw [show i + (j - i) = j by omega,
    show j - i + (min k source.length - j) = min k source.length - i by omega] at hrange
  rw [hrange]

namespace Sources

variable {s : Sources} {root source : Text}

/-- Where no directive is replaced, the text stays as it is. -/
theorem originsFrom_of_refused {chain : List Text} {name : Text} {directives : List Directive}
    {cursor : Nat} (horder : InOrder cursor directives)
    (h : ∀ d ∈ directives, s.replacement? chain d = none ∧ d.span.stop ≤ source.length) :
    s.originsFrom chain name source cursor directives =
      Origin.ofRange name source cursor source.length := by
  induction horder with
  | nil => rw [originsFrom_nil]
  | @cons cursor d rest hcursor hlt _ ih =>
    obtain ⟨⟨hrefused, hstop⟩, hrest⟩ := List.forall_mem_cons.1 h
    rw [originsFrom_kept (replacement?_eq_none.1 hrefused), ih hrest,
      Origin.ofRange_append _ _ hcursor (Nat.le_of_lt hlt) (by omega),
      Origin.ofRange_append _ _ (by omega) hstop hstop]

theorem refused_of_includes_eq_nil (h : (s.expandSource root source).includes = []) :
    ∀ d ∈ directivesOf root source, s.replacement? [(Path.ofText root).key] d = none := by
  obtain ⟨own, hown⟩ := expandFrom_own (s := s) [(Path.ofText root).key] ⟨root, source, 0, 0⟩
    (directivesOf root source) 0 (Expansion.empty.openFile root source 0).2.2
  have hnone : own = [] := by
    have hrecords : own.flatMap (·.records) = [] := hown.includes.symm.trans h
    cases own with
    | nil => rfl
    | cons o own =>
      rw [List.flatMap_cons, List.append_eq_nil_iff] at hrecords
      have hmem := o.record_mem
      rw [hrecords.1] at hmem
      cases hmem
  have hdirectives := hown.directives
  rw [hnone, List.map_nil, eq_comm, List.filter_eq_nil_iff] at hdirectives
  intro d hd
  simpa using hdirectives d hd

/-- A file that includes nothing stands as it is written. -/
theorem origins_of_includes_eq_nil (h : (s.expandSource root source).includes = []) :
    s.origins root source = Origin.ofRange root source 0 source.length := by
  exact originsFrom_of_refused (inOrder_directivesOf root source) fun d hd =>
    ⟨refused_of_includes_eq_nil h d hd, stop_le_of_mem_directivesOf hd⟩

theorem text_of_includes_eq_nil (h : (s.expandSource root source).includes = []) :
    (s.expandSource root source).text = source := by
  have hbytes := (s.traced_expandSource root source).bytes
  rw [origins_of_includes_eq_nil h, map_byte?_ofRange, Text.slice, List.drop_zero, Nat.sub_zero,
    List.take_length] at hbytes
  exact (List.map_injective_iff.2 (Option.some_injective _) hbytes).symm

end Sources

namespace Document

variable {s : Sources} {root source : Text}

theorem origin_of_includes_eq_nil (h : (s.expandSource root source).includes = []) {k : Nat}
    (hlines : source.CountsLines k) (hk : k < source.length) :
    (ofExpansion root (s.expandSource root source)).origin k = (root, (source.place k).line) := by
  have htraced := s.traced_expandSource root source
  have htext := Sources.text_of_includes_eq_nil h
  obtain ⟨o, ho, hline⟩ := htraced.sourceLine?_of_countsLines (k := k) (by rwa [htext])
    (by rwa [htext])
  rw [Sources.origins_of_includes_eq_nil h] at ho
  obtain rfl := getElem?_ofRange ho
  have hcount := Text.newlines_take_lineStart (t := source) (Nat.le_of_lt hk)
  change ((s.expandSource root source).positionMap.sourceLine?
    ((s.expandSource root source).text.place k).line).getD _ = _
  rw [hline, htext, Option.getD_some, Origin.line, Text.place_line, hlines]
  dsimp only
  rw [Nat.zero_add, hcount]

/-! ## Bodies -/

/-- The functions of a document are read from its text. -/
theorem hasFunction_of_mem_bodies {e : Expansion} {f : Behavior}
    (hf : f ∈ (ofExpansion root e).bodies) :
    (MaskedText.ofText .declarations e.text).HasFunction f := by
  rcases List.mem_append.1 hf with hf | hf
  · obtain ⟨c, hc, hf⟩ := List.mem_flatMap.1 hf
    obtain ⟨d, hread, rfl⟩ := of_mem_classes hc
    exact MaskedText.hasFunction_of_mem_classAt hread.read hf
  · exact (MaskedText.Gives.wholeTree hf).hasFunction

/-- A body is the piece of the text at its span, and starts with a brace. -/
theorem slice_of_mem_bodies {e : Expansion} {f : Behavior}
    (hf : f ∈ (ofExpansion root e).bodies) :
    f.body = e.text.slice f.bodySpan.start f.bodySpan.stop ∧
      e.text[f.bodySpan.start]? = some Byte.lbrace := by
  obtain ⟨_, _, hat⟩ := hasFunction_of_mem_bodies hf
  have hbrace := hat.brace
  rw [MaskedText.byte?_ofText] at hbrace
  exact ⟨by rw [hat.body, MaskedText.slice_ofText], hbrace⟩

/-- What a linter finds in a body of a file that includes nothing, where the body is said to start
on its own line. -/
theorem lintBody_of_includes_eq_nil (h : (s.expandSource root source).includes = [])
    (linter : Linter) (nested : Bool) {f : Behavior}
    (hf : f ∈ (ofExpansion root (s.expandSource root source)).bodies) :
    (ofExpansion root (s.expandSource root source)).lintBody linter nested f =
      findings linter (root, ⟨f.body, f.parameters, (source.place f.bodySpan.start).line⟩) := by
  obtain ⟨-, hbrace⟩ := slice_of_mem_bodies hf
  rw [Sources.text_of_includes_eq_nil h] at hbrace
  have horigin := origin_of_includes_eq_nil h
    (Text.countsLines_of_boundary hbrace (by decide)) (List.getElem?_eq_some_iff.1 hbrace).1
  have hroot : (ofExpansion root (s.expandSource root source)).isRootFile root = true :=
    beq_self_eq_true root
  unfold lintBody
  rw [horigin]
  dsimp only
  rw [hroot, Bool.not_true, Bool.and_false]
  rfl

/-- Without syntax errors, each statement that the parser reports leaves one warning. -/
theorem lintBody_linterOf (h : (s.expandSource root source).includes = [])
    {parse : Text → Debugger.Parse} (nested : Bool) {f : Behavior}
    (hf : f ∈ (ofExpansion root (s.expandSource root source)).bodies)
    (herrors : (parse (Debugger.script f.parameters f.body)).errors = []) :
    (ofExpansion root (s.expandSource root source)).lintBody (Debugger.linterOf parse) nested f =
      (parse (Debugger.script f.parameters f.body)).debuggers.map fun offset =>
        let place := f.body.place (offset - (Debugger.head f.parameters).length)
        .ofProblem (.lint Debugger.message) root
          ((source.place f.bodySpan.start).line + (place.line - 1)) place.column := by
  rw [lintBody_of_includes_eq_nil h _ nested hf, findings]
  dsimp only
  unfold Debugger.linterOf
  dsimp only
  rw [herrors, List.map_nil, List.nil_append, List.isEmpty_nil, if_pos rfl, List.map_map]
  rfl

end Document

namespace Analysis

open Document

/-- The warnings of an analysis about the `debugger` statements of a file that includes nothing, as
a script parser reports them. Each body is the piece of the file at its span, and leaves one warning
for each statement of it that is reported, if no syntax error is. The warning about a statement
stands on the line of the statement. Its column is counted from the start of its line in the body.
That is the column of the statement if the statement is not on the first line of the body, or if the
body starts a line of the file; else it is too small, by what stands in front of the body on its
line. -/
theorem run_debugger_places (s : Sources) (root source : Text) (parse : Text → Debugger.Parse)
    (nested : Bool) (hread : s.read? root = some source)
    (halone : (s.expandSource root source).includes = []) :
    let d := Document.ofExpansion root (s.expandSource root source)
    let linter := Debugger.linterOf parse
    (∃ a, run s root (some linter) ⟨nested, true⟩ = .ok a ∧
      a.warnings =
        (d.report nested).filter (!·.isError) ++ d.bodies.flatMap (d.lintBody linter nested)) ∧
    ∀ f ∈ d.bodies,
      let found := parse (Debugger.script f.parameters f.body)
      let here := source.place f.bodySpan.start
      f.body = source.slice f.bodySpan.start f.bodySpan.stop ∧
      (found.errors = [] → List.Forall₂
        (fun offset g => ∀ p < f.body.length,
          offset = (Debugger.head f.parameters).length + p →
          g = .ofProblem (.lint Debugger.message) root
            (source.place (f.bodySpan.start + p)).line (f.body.place p).column)
        found.debuggers (d.lintBody linter nested f)) ∧
      ∀ p < f.body.length,
        let there := source.place (f.bodySpan.start + p)
        ((f.body.place p).column = there.column ↔ 1 < (f.body.place p).line ∨ here.column = 1) ∧
        ((f.body.place p).line = 1 →
          (f.body.place p).column + here.column = there.column + 1) := by
  intro d linter
  refine ⟨⟨ofDocument d (some linter) ⟨nested, true⟩, ?_, ?_⟩, fun f hf => ?_⟩
  · unfold run Document.load Sources.expand
    rw [hread]
    rfl
  · change (d.report nested ++ d.bodies.flatMap (d.lintBody linter nested)).filter (!·.isError) = _
    rw [List.filter_append]
    congr 1
    refine List.filter_eq_self.2 fun g hg => ?_
    obtain ⟨f, hf, hg⟩ := List.mem_flatMap.1 hg
    rw [lintBody_of_includes_eq_nil halone linter nested hf] at hg
    rw [isError_findings hg, Bool.not_false]
  obtain ⟨hbody, hbrace⟩ := slice_of_mem_bodies hf
  rw [Sources.text_of_includes_eq_nil halone] at hbody hbrace
  have hcont : Byte.isContinuation Byte.lbrace = false := by decide
  intro found here
  refine ⟨hbody, fun herrors => ?_, fun p hp => ?_⟩
  · rw [lintBody_linterOf halone nested hf herrors, List.forall₂_map_right_iff, List.forall₂_same]
    rintro _ - p hp rfl
    have hline := Text.line_place_add hbrace hcont (hbody ▸ hp)
    rw [← hbody] at hline
    dsimp only
    rw [Nat.add_sub_cancel_left, hline]
  · have hcolumn := Text.column_place_add hbrace hcont (hbody ▸ hp)
    rw [← hbody] at hcolumn
    have hline := f.body.one_le_line_place p
    have hwithin := f.body.one_le_column_place p
    have hhere := source.one_le_column_place f.bodySpan.start
    dsimp only [here]
    rw [hcolumn]
    split <;> omega

/-- A root with a statement on the first line of a body. -/
def sampleDebugged : Text := ".html{f:(){debugger}};"

theorem includes_sampleDebugged :
    ((Sources.ofFiles [("main", sampleDebugged)]).expandSource "main" sampleDebugged).includes =
      [] := by
  have hdirectives : (MaskedText.ofText .declarations sampleDebugged).directives
      (Path.ofText "main").directory = ([], []) := by decide +kernel
  unfold Sources.expandSource Expansion.openFile
  dsimp only
  rw [hdirectives, Sources.expandFrom_nil]
  rfl

theorem bodies_sampleDebugged :
    let s := Sources.ofFiles [("main", sampleDebugged)]
    (Document.ofExpansion "main" (s.expandSource "main" sampleDebugged)).bodies =
      [⟨[], "{debugger}", ⟨10, 20⟩⟩] := by
  dsimp only
  unfold Document.ofExpansion
  rw [Sources.text_of_includes_eq_nil includes_sampleDebugged]
  decide +kernel

/-- The statement stands in column 12, and the warning says column 2. -/
theorem run_debugger_places_sampleDebugged :
    let s := Sources.ofFiles [("main", sampleDebugged)]
    s.read? "main" = some sampleDebugged ∧
    (s.expandSource "main" sampleDebugged).includes = [] ∧
    sampleDebugged.slice 11 19 = Text.ofString "debugger" ∧
    sampleDebugged.place 11 = ⟨1, 12⟩ ∧
    ∃ a, run s "main" (some Debugger.linter) ⟨false, true⟩ = .ok a ∧
      .ofProblem (.lint Debugger.message) "main" 1 2 ∈ a.warnings := by
  intro s
  have hread : s.read? "main" = some sampleDebugged := by decide
  refine ⟨hread, includes_sampleDebugged, by decide, by decide, ?_⟩
  obtain ⟨⟨a, hrun, hwarnings⟩, hbodies⟩ := run_debugger_places s "main" sampleDebugged
    (fun script => ⟨[], Lint.Lexer.offsets script⟩) false hread includes_sampleDebugged
  have hmem := bodies_sampleDebugged ▸ List.mem_singleton_self _
  obtain ⟨-, hplaced, -⟩ := hbodies _ hmem
  have hoffsets : Lint.Lexer.offsets (Debugger.script [] "{debugger}") = [14] := by
    decide +kernel
  -- the script puts 13 bytes in front of the body
  obtain ⟨g, _, hg, -, hlint⟩ := List.forall₂_cons_left_iff.1 (hoffsets ▸ hplaced rfl)
  refine ⟨a, hrun, ?_⟩
  rw [hwarnings]
  refine List.mem_append_right _ (List.mem_flatMap.2 ⟨_, hmem, ?_⟩)
  have hplace := hg 1 (by decide) (by decide)
  rw [hlint, hplace]
  exact List.mem_cons_self

end Analysis

end PageLang
