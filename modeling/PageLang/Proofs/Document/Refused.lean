import PageLang.Proofs.Document.Diagnostics
import PageLang.Proofs.Include.Misplaced
import PageLang.Proofs.Include.Refused
import PageLang.Proofs.Include.Splice

/-!
# The document of a root whose include is refused

An include whose file cannot be read stays in the text, with one diagnostic. Where it stands
between two top-level statements and nothing reaches over it, nothing else is reported, and the
document is the one of the text with blank space in its place. In a body it is a statement that no
parser takes for a directive, so that more is reported.

* `Expansion.Alone`: the text of a root that includes nothing.
* `Sources.expandSource_plain`, `Sources.expandSource_refused`: two such roots.
* `Document.flatDiagnostics_congr`: what is reported of two texts that are read alike.
* `Document.flatDiagnostics_ne_nil_of_body`: an include in a body is reported once more.
* `Document.load_refused`: what is reported, and the two documents.
-/

namespace PageLang

open Mask

/-! ## Roots that include nothing -/

/-- The text of a root that includes nothing, and what is reported of it. -/
structure Expansion.Alone (e : Expansion) (root source : Text) (reported : List Diagnostic) :
    Prop where
  text : e.text = source
  files : e.positionMap.files = [root]
  includes : e.includes = []
  diagnostics : e.diagnostics = reported

namespace Sources

open Expansion

variable {s : Sources} {root source : Text}

/-- A root without directives. -/
theorem expandSource_plain (h : (MaskedText.ofText .declarations source).directives
      (Path.ofText root).directory = ([], [])) :
    (s.expandSource root source).Alone root source [] := by
  unfold expandSource openFile
  rw [h]
  dsimp only
  rw [expandFrom_nil]
  refine ⟨?_, by rw [files_pushSlice]; rfl, by rw [includes_pushSlice]; rfl,
    by rw [diagnostics_pushSlice]; rfl⟩
  rw [text_pushSlice]
  simp [Text.slice, empty]

/-- A root with one directive, whose file cannot be read. -/
theorem expandSource_refused {d : Directive} (hroot : s.read? root = some source)
    (h : (MaskedText.ofText .declarations source).directives (Path.ofText root).directory =
      ([d], []))
    (hmissing : s.get? d.target = none) (hle : d.span.start ≤ d.span.stop)
    (hlength : d.span.stop ≤ source.length) :
    (s.expandSource root source).Alone root source
      [Fault.diagnostic ⟨.missingInclude, d.span⟩ root source] := by
  have hchain : d.target ∉ [(Path.ofText root).key] := by
    intro hmem
    rw [List.mem_singleton.1 hmem] at hmissing
    rw [read?, hmissing] at hroot
    cases hroot
  have hrefusal : refusal [(Path.ofText root).key] d = .missingInclude := if_neg hchain
  unfold expandSource openFile
  rw [h]
  dsimp only
  rw [expandFrom_refused _ _ _ _ (replacement?_eq_none.2 (.inr hmissing)), expandFrom_nil, hrefusal]
  refine ⟨?_, ?_, ?_, ?_⟩
  · rw [text_pushSlice, text_reject, text_pushSlice]
    change [] ++ source.slice 0 d.span.start ++ source.slice d.span.start d.span.stop ++
      source.slice d.span.stop source.length = source
    rw [List.nil_append, Text.slice_append_slice (Nat.zero_le _) hle,
      Text.slice_append_slice (Nat.zero_le _) hlength]
    simp [Text.slice]
  · rw [files_pushSlice, files_reject, files_pushSlice]
    rfl
  · rw [includes_pushSlice, reject, includes_pushSlice]
    exact includes_pushSlice ..
  · rw [diagnostics_pushSlice, reject, diagnostics_pushSlice]
    exact congrArg (· ++ _) (diagnostics_pushSlice ..)

end Sources

namespace Document

/-! ## Texts that are read alike -/

section
variable {root source source' : Text} {e e' : Expansion} {reported reported' : List Diagnostic}

theorem referenceErrors_eq_nil {table : ClassTable} {file text text' : Text}
    {elements : List Element} (h : referenceErrors table file text elements = []) :
    referenceErrors table file text' elements = [] := by
  simp only [referenceErrors, List.filterMap_eq_nil_iff, Option.map_eq_none_iff] at h ⊢
  exact h

/-- Whether a class resolves does not depend on its text. -/
theorem classErrors_eq_nil {table : ClassTable} {file text text' name : Text} {d : ClassDefinition}
    (h : classErrors table file text name d = []) : classErrors table file text' name d = [] := by
  obtain ⟨hresolve, hchildren⟩ := List.append_eq_nil_iff.1 h
  refine List.append_eq_nil_iff.2 ⟨?_, referenceErrors_eq_nil hchildren⟩
  rw [List.map_eq_nil_iff] at hresolve ⊢
  exact hresolve

/-- Every class of a root that includes nothing stands in the root. -/
theorem classes_of_alone (h : e.Alone root source reported) :
    (ofExpansion root e).classes =
      ((MaskedText.ofText .declarations source).classesRecovering root).1 := by
  rw [← h.text]
  generalize htable : ((MaskedText.ofText .declarations e.text).classesRecovering root).1 = table
  have hsame : ∀ d ∈ table.values, { d with
      sourceFile := (e.positionMap.fileAt? e.text d.span.start).getD d.sourceFile } = d := by
    intro d hd
    have hfile := (MaskedText.readFrom_of_mem_classesRecovering (htable ▸ hd)).file_eq
    suffices hget : (e.positionMap.fileAt? e.text d.span.start).getD d.sourceFile = d.sourceFile by
      rw [hget]
    cases hat : e.positionMap.fileAt? e.text d.span.start with
    | none => rfl
    | some file =>
      have hmem := PositionMap.mem_files_of_fileAt? hat
      rw [h.files, List.mem_singleton] at hmem
      rw [Option.getD_some, hmem, hfile]
  calc (ofExpansion root e).classes
      = ((MaskedText.ofText .declarations e.text).classesRecovering root).1.map fun d =>
          { d with sourceFile :=
              (e.positionMap.fileAt? e.text d.span.start).getD d.sourceFile } := rfl
    _ = table := by
      rw [htable]
      exact OrderedMap.map_eq_self hsame

/-- Two roots that include nothing and whose texts are read alike have the same document, but for
the text itself. -/
theorem ofExpansion_congr (h : e.Alone root source reported) (h' : e'.Alone root source' reported')
    (halike : MaskedText.ReadAlike root (.ofText .declarations source)
      (.ofText .declarations source')) :
    ofExpansion root e' =
      { ofExpansion root e with
        expansion := e'
        diagnostics := (ofExpansion root e').diagnostics } := by
  have htable : (ofExpansion root e').classes = (ofExpansion root e).classes := by
    rw [classes_of_alone h, classes_of_alone h', halike.classes]
  have hhierarchy : (ofExpansion root e').hierarchy = (ofExpansion root e).hierarchy := by
    change (MaskedText.ofText .declarations e'.text).hierarchyRecovering.1 =
      (MaskedText.ofText .declarations e.text).hierarchyRecovering.1
    rw [h.text, h'.text, halike.tree]
  have hdata : (ofExpansion root e').dataImports = (ofExpansion root e).dataImports := by
    change (MaskedText.ofText .declarations e'.text).dataImports.1 =
      (MaskedText.ofText .declarations e.text).dataImports.1
    rw [h.text, h'.text, halike.dataImports]
  have hresolved : (ofExpansion root e').resolved = (ofExpansion root e).resolved :=
    congrArg resolveAll htable
  have hglobals : (ofExpansion root e').globals = (ofExpansion root e).globals :=
    congrArg (fun tree : Hierarchy => (GlobalNames.ofRoots tree.roots).table) hhierarchy
  calc ofExpansion root e'
      = ⟨root, e', (ofExpansion root e').classes, (ofExpansion root e').resolved,
          (ofExpansion root e').hierarchy, (ofExpansion root e').globals,
          (ofExpansion root e').dataImports, (ofExpansion root e').diagnostics⟩ := rfl
    _ = _ := by
      rw [htable, hresolved, hhierarchy, hglobals, hdata]
      rfl

/-- Of two texts that are read alike, nothing is reported of the one if nothing is of the other. -/
theorem flatDiagnostics_congr (h : e.Alone root source reported)
    (h' : e'.Alone root source' reported')
    (halike : MaskedText.ReadAlike root (.ofText .declarations source)
      (.ofText .declarations source'))
    (hclean : flatDiagnostics root e = []) : flatDiagnostics root e' = [] := by
  have hsame := ofExpansion_congr h h' halike
  have hparse : parseFaults root e' = parseFaults root e := by
    unfold parseFaults
    dsimp only
    rw [h.text, h'.text, halike.classes, halike.tree, halike.dataImports]
  unfold flatDiagnostics at hclean ⊢
  dsimp only at hclean ⊢
  rw [hsame, hparse]
  simp only [List.append_eq_nil_iff, List.map_eq_nil_iff, List.flatMap_eq_nil_iff] at hclean ⊢
  obtain ⟨⟨hfaults, hresolve⟩, hreferences⟩ := hclean
  exact ⟨⟨hfaults, fun c hc => classErrors_eq_nil (hresolve c hc)⟩,
    referenceErrors_eq_nil hreferences⟩

end

/-! ## Loading -/

theorem load_eq {sources : Sources} {root source : Text} (h : sources.read? root = some source) :
    load sources root = .ok (ofExpansion root (sources.expandSource root source)) := by
  unfold load Sources.expand
  rw [h]
  rfl

/-- Nothing of a root that includes nothing is reported under an include. -/
theorem report_of_alone {sources : Sources} {root source : Text} {reported : List Diagnostic}
    (h : (sources.expandSource root source).Alone root source reported) (nested : Bool) :
    (ofExpansion root (sources.expandSource root source)).report nested =
      (ofExpansion root (sources.expandSource root source)).diagnostics := by
  cases nested with
  | true => rfl
  | false =>
    have hincludes :
        (ofExpansion root (sources.expandSource root source)).expansion.includes = [] := h.includes
    unfold report
    rw [if_neg Bool.false_ne_true, hincludes, List.filter_nil, List.map_nil, List.append_nil,
      List.filter_eq_self]
    intro g hg
    rcases recorded hg with hfile | hbrought
    · exact beq_iff_eq.2 hfile
    · rw [h.includes] at hbrought
      obtain ⟨record, hmem, -⟩ := hbrought
      cases hmem

/-- Of a root that includes nothing, no class and no statement has a fault if nothing is
reported. -/
theorem faults_eq_nil_of_alone {root source : Text} {e : Expansion} {reported : List Diagnostic}
    (h : e.Alone root source reported) (hflat : flatDiagnostics root e = []) :
    ((MaskedText.ofText .declarations source).classesRecovering root).2 = [] ∧
      (MaskedText.ofText .declarations source).hierarchyRecovering.2 = [] := by
  unfold flatDiagnostics parseFaults at hflat
  simp only [h.text, List.append_eq_nil_iff, List.map_eq_nil_iff] at hflat
  exact hflat.1.1.1.1

/-- A statement of a body that begins with a star is reported. -/
theorem flatDiagnostics_ne_nil_of_body {root source : Text} {e : Expansion}
    {reported : List Diagnostic} {a : Nat} (h : e.Alone root source reported)
    (hbody : (MaskedText.ofText .declarations source).InBody root a)
    (hb : (MaskedText.ofText .declarations source).byte? a = some Byte.star) :
    flatDiagnostics root e ≠ [] := by
  intro hflat
  obtain ⟨hclasses, htree⟩ := faults_eq_nil_of_alone h hflat
  rcases hbody.faults hb with hfaults | hfaults
  · exact hfaults hclasses
  · exact hfaults htree

/-- A root with one include, whose file cannot be read, is loaded with its text as it is and the
diagnostic of the include first. In a body the include is a statement that is none, so that more is
reported. Elsewhere, if the root loads without a diagnostic when the include is blanked, the mask
machine passes over the include, nothing in it is taken for anything else and nothing that is read
in front of it reaches over it, its diagnostic is all that is reported, and the classes, the tree,
the names and the data imports are those of the blanked root. -/
theorem load_refused {sources : Sources} {root pre d post target : Text}
    (hroot : sources.read? root = some (pre ++ d ++ post))
    (hdirective : (MaskedText.ofText .declarations (pre ++ d ++ post)).directives
      (Path.ofText root).directory = ([⟨⟨pre.length, pre.length + d.length⟩, target⟩], []))
    (hmissing : sources.get? target = none) :
    ∃ doc other, load sources root = .ok doc ∧
      doc.expansion.text = pre ++ d ++ post ∧
      (∀ nested, doc.report nested = Fault.diagnostic
        ⟨.missingInclude, ⟨pre.length, pre.length + d.length⟩⟩ root (pre ++ d ++ post) :: other) ∧
      ((MaskedText.ofText .declarations (pre ++ d ++ post)).InBody root pre.length → other ≠ []) ∧
      ∀ (blankedSources : Sources) (clean : Document),
        blankedSources.read? root = some (pre ++ blanked d ++ post) →
        load blankedSources root = .ok clean → clean.diagnostics = [] →
        Detour .declarations pre d post →
        (MaskedText.ofText .declarations (pre ++ d ++ post)).Silent pre.length
          (pre.length + d.length) →
        (MaskedText.ofText .declarations (pre ++ blanked d ++ post)).Clears root pre.length
          (pre.length + d.length) →
        other = [] ∧ doc.classes = clean.classes ∧ doc.resolved = clean.resolved ∧
          doc.hierarchy = clean.hierarchy ∧ doc.globals = clean.globals ∧
          doc.dataImports = clean.dataImports := by
  have halone := Sources.expandSource_refused hroot hdirective hmissing (Nat.le_add_right _ _)
    (by simp only [List.length_append]; omega)
  refine ⟨_, (flatDiagnostics root (sources.expandSource root (pre ++ d ++ post))).map
    (sources.expandSource root (pre ++ d ++ post)).positionMap.relocate, load_eq hroot,
    halone.text, fun nested => ?_, fun hbody => ?_, ?_⟩
  · rw [report_of_alone halone, diagnostics_ofExpansion, halone.diagnostics]
    rfl
  · have hstar := MaskedText.byte?_of_directives_single hdirective
    exact fun hnone => flatDiagnostics_ne_nil_of_body halone hbody hstar
      (List.map_eq_nil_iff.1 hnone)
  · intro blankedSources clean hblanked hload hclean hdetour hsilent hclear
    have hcarries := MaskedText.carries_of_detour hdetour hdirective hsilent
    have hplain := Sources.expandSource_plain (s := blankedSources)
      (hcarries.directives_eq rfl hdirective)
    rw [load_eq hblanked] at hload
    cases hload
    -- nothing is reported of the blanked root
    have hflat : flatDiagnostics root
        (blankedSources.expandSource root (pre ++ blanked d ++ post)) = [] := by
      rw [diagnostics_ofExpansion, List.append_eq_nil_iff, List.map_eq_nil_iff] at hclean
      exact hclean.2
    obtain ⟨hclasses, htree⟩ := faults_eq_nil_of_alone hplain hflat
    have halike := hcarries.readAlike hclear hclasses htree
    have hsame := ofExpansion_congr hplain halone halike
    refine ⟨?_, ?_⟩
    · rw [flatDiagnostics_congr hplain halone halike hflat, List.map_nil]
    · rw [hsame]
      exact ⟨rfl, rfl, rfl, rfl, rfl⟩

/-! ## An include between statements, and one in a class -/

/-- A page in front of an include. -/
def sampleAhead : Text := ".html;\n"

/-- An include of a file that does not exist. -/
def sampleMissing : Text := "*include: missing.nazca;"

/-- What follows it. -/
def sampleBreak : Text := "\n"

/-- The page with that include. -/
def sampleRefused : Text := sampleAhead ++ sampleMissing ++ sampleBreak

/-- The page with blank space in the place of the include. -/
def sampleBlanked : Text := sampleAhead ++ blanked sampleMissing ++ sampleBreak

theorem directives_sampleRefused :
    (MaskedText.ofText .declarations sampleRefused).directives
      (Path.ofText "main.nazca").directory = ([⟨⟨7, 31⟩, "missing.nazca"⟩], []) := by
  decide +kernel

theorem detour_sampleMissing : Detour .declarations sampleAhead sampleMissing sampleBreak where
  star := by decide
  semicolon := by decide
  live := by decide
  back := by decide
  lists := .of_notMem (by decide) (by decide)
  look := .of_head? fun b hb => by cases hb

theorem silent_sampleRefused : (MaskedText.ofText .declarations sampleRefused).Silent 7 31 where
  stop := by decide
  keyword := by
    have hno : ∀ i < 31,
        (MaskedText.ofText .declarations sampleRefused).isClassKeyword i = false := by
      decide
    exact fun i _ hi => hno i hi
  dataImport := by
    have hno : ∀ i < 31,
        (MaskedText.ofText .declarations sampleRefused).startsAt "*json" i = false := by
      decide
    exact fun i _ hi hat => Bool.eq_false_iff.1 (hno i hi) hat.1

theorem clears_sampleBlanked :
    (MaskedText.ofText .declarations sampleBlanked).Clears "main.nazca" 7 31 where
  statements := by
    have hskip : (MaskedText.ofText .declarations sampleBlanked).skipTrivia 0 = 0 := by
      decide
    have hread : (match (MaskedText.ofText .declarations sampleBlanked).topLevelAt 0 with
        | .found _ next => some next
        | _ => none) = some 6 := by decide
    split at hread
    · next piece next hat =>
      cases hread
      rw [← hskip] at hat
      exact ⟨6, .step (by rw [hskip]; decide) hat .here,
        .step (by decide) (by decide) .here⟩
    · cases hread
  classes := by
    have hnone :
        (MaskedText.ofText .declarations sampleBlanked).classStarts "main.nazca" 0 = [] := by
      decide +kernel
    intro i hi
    rw [hnone] at hi
    cases hi
  declarations := by
    have hno : ∀ i < 7, ((MaskedText.ofText .declarations sampleBlanked).declaration?
        i).toOption.all Option.isNone = true := by decide
    intro i d next hi _ hread
    have := hno i hi
    rw [hread] at this
    cases this
  dataImports := by
    have hno : ∀ i < 7,
        (MaskedText.ofText .declarations sampleBlanked).startsAt "*json" i = false := by
      decide
    exact fun i hi hat => absurd hat.1 (Bool.eq_false_iff.1 (hno i hi))
  characters := by
    have hin : ∀ i < 7, ((MaskedText.ofText .declarations sampleBlanked).byte? i).all
        (fun b => i + Text.charWidth b ≤ 7) = true := by decide
    intro i b hi hb
    have := hin i hi
    rw [hb] at this
    exact of_decide_eq_true this

/-- Nothing is reported of the page without the include. -/
theorem diagnostics_sampleBlanked :
    (ofExpansion "main.nazca" (Sources.expandSource (.ofFiles [("main.nazca", sampleBlanked)])
      "main.nazca" sampleBlanked)).diagnostics = [] := by
  have halone : ((Sources.ofFiles [("main.nazca", sampleBlanked)]).expandSource "main.nazca"
      sampleBlanked).Alone "main.nazca" sampleBlanked [] :=
    Sources.expandSource_plain (by decide +kernel)
  generalize Sources.expandSource (.ofFiles [("main.nazca", sampleBlanked)]) "main.nazca"
    sampleBlanked = e at halone
  have hparse : parseFaults "main.nazca" e = [] := by
    unfold parseFaults
    rw [halone.text]
    decide +kernel
  have hclasses : (ofExpansion "main.nazca" e).classes = ∅ := by
    have hempty : ((MaskedText.ofText .declarations sampleBlanked).classesRecovering
        "main.nazca").1.entries.isEmpty = true := by decide +kernel
    rw [classes_of_alone halone]
    exact OrderedMap.ext_get? (by rw [OrderedMap.keys, List.isEmpty_iff.1 hempty]; rfl)
      fun name => by rw [OrderedMap.get?, List.isEmpty_iff.1 hempty]; rfl
  have hroots : (ofExpansion "main.nazca" e).hierarchy.roots.map (fun x =>
      (x.classRefs, x.children.length)) = [([Text.ofString "html"], 0)] := by
    change (MaskedText.ofText .declarations e.text).hierarchyRecovering.1.roots.map _ = _
    rw [halone.text]
    decide +kernel
  obtain ⟨⟨name, classRefs, overrides, children, span⟩, hx, hshape⟩ :=
    List.map_eq_singleton_iff.1 hroots
  simp only [Prod.mk.injEq, List.length_eq_zero_iff] at hshape
  obtain ⟨rfl, rfl⟩ := hshape
  have hresolve : ∃ r, (ofExpansion "main.nazca" e).classes.resolveElement "main.nazca"
      ⟨name, [Text.ofString "html"], overrides, [], span⟩ = .ok r := by
    unfold ClassTable.resolveElement ClassTable.merge
    rw [ClassTable.ancestry_tag_ok (by rw [hclasses]; rfl) (by decide) ClassTable.ancestry_nil]
    exact ⟨_, rfl⟩
  obtain ⟨r, hresolve⟩ := hresolve
  have hflat : flatDiagnostics "main.nazca" e = [] := by
    unfold flatDiagnostics
    dsimp only
    rw [hparse, hx, referenceErrors, show Element.preorderAll _ = [_] from rfl, List.filterMap_cons,
      hresolve, hclasses]
    rfl
  rw [diagnostics_ofExpansion, halone.diagnostics, hflat]
  rfl

/-- A class with that include in its body. -/
def sampleUnread : Text := "class A \x7b\n  " ++ sampleMissing ++ "\n\x7d;\n"

theorem directives_sampleUnread :
    (MaskedText.ofText .declarations sampleUnread).directives
      (Path.ofText "main.nazca").directory = ([⟨⟨12, 36⟩, "missing.nazca"⟩], []) := by
  decide +kernel

theorem inBody_sampleUnread :
    (MaskedText.ofText .declarations sampleUnread).InBody "main.nazca" 12 :=
  ⟨8, 37, 37, 9,
    .ofClass (show 0 ∈ _ by decide +kernel) (by decide +kernel) (by decide +kernel),
    .here, by decide, by decide⟩

theorem load_refused_sample :
    (∃ doc, load (.ofFiles [("main.nazca", sampleRefused)]) "main.nazca" = .ok doc ∧
      ∀ nested, doc.report nested =
        [Fault.diagnostic ⟨.missingInclude, ⟨7, 31⟩⟩ "main.nazca" sampleRefused]) ∧
    ∃ doc, load (.ofFiles [("main.nazca", sampleUnread)]) "main.nazca" = .ok doc ∧
      ∀ nested, 1 < (doc.report nested).length := by
  have hmissing (text : Text) :
      (Sources.ofFiles [("main.nazca", text)]).get? "missing.nazca" = none := rfl
  constructor
  · have hroot : (Sources.ofFiles [("main.nazca", sampleRefused)]).read? "main.nazca" =
        some (sampleAhead ++ sampleMissing ++ sampleBreak) := by decide
    obtain ⟨doc, other, hload, -, hreport, -, hclean⟩ :=
      load_refused hroot directives_sampleRefused (hmissing _)
    obtain ⟨rfl, -⟩ := hclean (.ofFiles [("main.nazca", sampleBlanked)]) _ (by decide)
      (load_eq (by decide)) diagnostics_sampleBlanked detour_sampleMissing silent_sampleRefused
      clears_sampleBlanked
    exact ⟨doc, hload, hreport⟩
  · have hroot : (Sources.ofFiles [("main.nazca", sampleUnread)]).read? "main.nazca" =
        some (Text.ofString "class A \x7b\n  " ++ sampleMissing ++ Text.ofString "\n\x7d;\n") := by
      decide
    obtain ⟨doc, other, hload, -, hreport, hbody, -⟩ :=
      load_refused hroot directives_sampleUnread (hmissing _)
    refine ⟨doc, hload, fun nested => ?_⟩
    rw [hreport, List.length_cons]
    exact Nat.succ_lt_succ (List.length_pos_iff.2 (hbody inBody_sampleUnread))

end Document

end PageLang
