import PageLang.Proofs.Document.Diagnostics
import PageLang.Proofs.Include.Layout

/-!
# Where a document finds its classes and diagnostics

A position map has one answer for each flattened line, which is the origin of the first byte of the
line. A document asks it for the file of a class by the offset of its keyword, and for the place of
a diagnostic by the first byte of its span; so both are right exactly where that byte and the first
byte of its flattened line come from the same line.

* `Expansion.Traced.sourceLine?_place`: the answer for an offset.
* `Document.origin_of_lineStart`: what a document says of its text, its classes and its diagnostics.
-/

namespace PageLang

/-- An expansion has the bytes of its origins. -/
theorem Expansion.Traced.text_eq {e : Expansion} {os : List Origin} (h : Traced e os) :
    e.text = os.filterMap Origin.byte? := by
  have hmap := congrArg (List.filterMap id) h.bytes
  simpa [List.filterMap_map] using hmap.symm

/-- Where lines are counted, the answer of a position map for an offset is the origin of the first
byte of its line. -/
theorem Expansion.Traced.sourceLine?_of_countsLines {e : Expansion} {os : List Origin}
    (h : Traced e os) {k : Nat} (hlines : e.text.CountsLines k) (hk : k < e.text.length) :
    ∃ o₀, os[e.text.lineStart k]? = some o₀ ∧
      e.positionMap.sourceLine? (e.text.place k).line = some (o₀.file, o₀.line) := by
  have hstart := e.text.lineStart_le k
  have hlt : e.text.lineStart k < os.length := by
    rw [h.length]
    omega
  have hline : (e.text.place k).line =
      Text.newlines (e.text.take (e.text.lineStart k)) + 1 := by
    rw [Text.place_line, hlines, Text.newlines_take_lineStart (Nat.le_of_lt hk)]
  refine ⟨_, List.getElem?_eq_getElem hlt, ?_⟩
  rw [hline]
  exact h.starts _ _ (List.getElem?_eq_getElem hlt)
    (Text.startsLine_lineStart (Nat.le_of_lt hk))

/-- In a text of whole characters it is that of every offset. -/
theorem Expansion.Traced.sourceLine?_place {e : Expansion} {os : List Origin} (h : Traced e os)
    (hwhole : e.text.Whole) {k : Nat} (hk : k < e.text.length) :
    ∃ o₀, os[e.text.lineStart k]? = some o₀ ∧
      e.positionMap.sourceLine? (e.text.place k).line = some (o₀.file, o₀.line) :=
  h.sourceLine?_of_countsLines (hwhole.countsLines k) hk

theorem Sources.traced_expandSource (s : Sources) (root source : Text) :
    Expansion.Traced (s.expandSource root source) (s.origins root source) :=
  (expandFrom_traced _ root source 0 (directivesOf root source) (Text.countsLines_zero _)
    (fun _ => countsLines_of_mem_directivesOf)
    (Expansion.traced_empty.openFile root source 0) rfl).1

theorem Fault.span_diagnostic (f : Fault) (file text : Text) :
    (f.diagnostic file text).span = some f.span := rfl

theorem Fault.first_line_diagnostic (f : Fault) (file text : Text) :
    (f.diagnostic file text).line.first = (text.place f.span.start).line := by
  unfold Fault.diagnostic Diagnostic.located
  exact Extent.first_spanning _ _

namespace PositionMap

theorem span_relocate (m : PositionMap) (g : Diagnostic) : (m.relocate g).span = g.span := by
  unfold relocate
  split <;> rfl

/-- A diagnostic is moved to where its first line comes from. -/
theorem relocate_of_sourceLine? {m : PositionMap} {g : Diagnostic} {file : Text} {line : Nat}
    (h : m.sourceLine? g.line.first = some (file, line)) :
    (m.relocate g).file = file ∧ (m.relocate g).line.first = line := by
  unfold relocate
  rw [h]
  exact ⟨rfl, Extent.first_spanning _ _⟩

end PositionMap

namespace Document

/-- A class is read where its keyword stands. -/
theorem slice_of_keyword {t : Text} {pos i : Nat}
    (h : (MaskedText.ofText .declarations t).classKeyword? pos = some i) :
    i < t.length ∧ t.slice i (i + 5) = Text.ofString "class" := by
  obtain ⟨hkey, b, hb⟩ := MaskedText.classKeyword?_spec h
  refine ⟨?_, ?_⟩
  · rw [← MaskedText.size_ofText .declarations]
    exact MaskedText.byte?_eq_some_lt (MaskedText.liveByte?_eq_some hb).2
  · unfold MaskedText.isClassKeyword at hkey
    have hstarts := (Bool.and_eq_true_iff.1 (Bool.and_eq_true_iff.1 hkey).1).1
    unfold MaskedText.startsAt at hstarts
    rw [show (Text.ofString "class").length = 5 by decide] at hstarts
    rw [← eq_of_beq hstarts]
    simp [MaskedText.slice, MaskedText.ofText, Text.slice]

/-- The origin of the first byte of a flattened line decides all that a document says about the
line: the file and the line of its bytes, the file of a class whose keyword stands on it, and the
file and the line of a diagnostic whose span starts on it. Where the lines of the sources are kept
apart, that is the line of each byte itself. -/
theorem origin_of_lineStart (s : Sources) (root source : Text)
    (hsource : ∃ written : String, source = Text.ofString written)
    (hs : ∀ t ∈ s.values, ∃ written : String, t = Text.ofString written) :
    let e := s.expandSource root source
    let os := s.origins root source
    let d := ofExpansion root e
    (∀ k o, os[k]? = some o → ∃ o₀, os[e.text.lineStart k]? = some o₀ ∧
      e.positionMap.fileAt? e.text k = some o₀.file ∧
      e.positionMap.sourceLine? (e.text.place k).line = some (o₀.file, o₀.line)) ∧
    (∀ c ∈ d.classes.values, e.text.slice c.span.start (c.span.start + 5) = Text.ofString "class" ∧
      ∃ o₀, os[e.text.lineStart c.span.start]? = some o₀ ∧ c.sourceFile = o₀.file) ∧
    (∀ g ∈ d.diagnostics.drop e.diagnostics.length, ∃ span, g.span = some span ∧
      ∀ o, os[span.start]? = some o → ∃ o₀, os[e.text.lineStart span.start]? = some o₀ ∧
        g.file = o₀.file ∧ g.line.first = o₀.line) ∧
    (s.LinesApart root source → ∀ k o o₀, os[k]? = some o →
      os[e.text.lineStart k]? = some o₀ → o₀.file = o.file ∧ o₀.line = o.line) := by
  intro e os d
  obtain ⟨_, rfl⟩ := hsource
  have htraced : Expansion.Traced e os := s.traced_expandSource root _
  have hwhole : e.text.Whole := by
    refine Sources.whole_expandSource (fun t ht => ?_) (Text.whole_ofString _)
    obtain ⟨_, rfl⟩ := hs t ht
    exact Text.whole_ofString _
  have hline : ∀ k, k < e.text.length → ∃ o₀, os[e.text.lineStart k]? = some o₀ ∧
      e.positionMap.fileAt? e.text k = some o₀.file ∧
      e.positionMap.sourceLine? (e.text.place k).line = some (o₀.file, o₀.line) := by
    intro k hk
    obtain ⟨o₀, ho₀, hsource⟩ := htraced.sourceLine?_place hwhole hk
    refine ⟨o₀, ho₀, ?_, hsource⟩
    unfold PositionMap.fileAt?
    rw [hsource]
    rfl
  have hlength : ∀ {k o}, os[k]? = some o → k < e.text.length := by
    intro k o ho
    rw [← htraced.length]
    exact (List.getElem?_eq_some_iff.1 ho).1
  refine ⟨fun k o ho => hline k (hlength ho), fun c hc => ?_, fun g hg => ?_, ?_⟩
  · obtain ⟨c, hread, rfl⟩ := of_mem_classes hc
    obtain ⟨pos, hkey⟩ := hread.keyword
    obtain ⟨hlt, hslice⟩ := slice_of_keyword hkey
    obtain ⟨o₀, ho₀, hfile, _⟩ := hline _ hlt
    exact ⟨hslice, o₀, ho₀, by dsimp only; rw [hfile]; rfl⟩
  · rw [diagnostics_ofExpansion, List.drop_left] at hg
    obtain ⟨flat, hflat, rfl⟩ := List.mem_map.1 hg
    obtain ⟨f, file, rfl, _⟩ := isFlat_of_mem_flatDiagnostics hflat
    refine ⟨f.span, by rw [PositionMap.span_relocate, Fault.span_diagnostic], fun o ho => ?_⟩
    obtain ⟨o₀, ho₀, _, hsource⟩ := hline _ (hlength ho)
    rw [← f.first_line_diagnostic file] at hsource
    exact ⟨o₀, ho₀, PositionMap.relocate_of_sourceLine? hsource⟩
  · intro hapart k o o₀ ho ho₀
    exact Sources.lineStart_origins hapart htraced.bytes ho ho₀

/-- A file with one class. -/
def sampleIncluded : Sources := .ofFiles [("lib.nazca", "class Lib { };\n")]

/-- A root that includes it behind two blanks. -/
def sampleIndented : Text := "  *include: lib.nazca;\n.html;\n"

/-- The blanks in front of the directive, the included file, and what is behind the directive. -/
theorem origins_sampleIndented :
    sampleIncluded.origins "main.nazca" sampleIndented =
      Origin.ofRange "main.nazca" sampleIndented 0 2 ++
        Origin.ofRange "lib.nazca" "class Lib { };\n" 0 15 ++
        Origin.ofRange "main.nazca" sampleIndented 22 30 := by
  have hmain : Sources.directivesOf "main.nazca" sampleIndented =
      [⟨⟨2, 22⟩, Text.ofString "lib.nazca"⟩] := by
    have hfind : (MaskedText.ofText .declarations sampleIndented).indexOf? "*include" 0 =
        some 2 := by decide
    unfold Sources.directivesOf MaskedText.directives
    rw [MaskedText.directivesFrom_some hfind, MaskedText.directivesFrom_none (by decide)]
    rfl
  have hlib : Sources.directivesOf (Text.ofString "lib.nazca") "class Lib { };\n" = [] := by
    unfold Sources.directivesOf MaskedText.directives
    rw [MaskedText.directivesFrom_none (by decide)]
    rfl
  have hread : sampleIncluded.get? (Text.ofString "lib.nazca") =
      some (Text.ofString "class Lib { };\n") := by decide
  unfold Sources.origins
  rw [hmain, Sources.originsFrom_included (by decide) hread]
  rw [hlib, Sources.originsFrom_nil, Sources.originsFrom_nil]
  rfl

/-- Behind two blanks of the root, the class of an included file is taken for one of the root. -/
theorem origin_of_lineStart_sampleIndented :
    let e := sampleIncluded.expandSource "main.nazca" sampleIndented
    (∃ written : String, sampleIndented = Text.ofString written) ∧
    (∀ t ∈ sampleIncluded.values, ∃ written : String, t = Text.ofString written) ∧
    ((sampleIncluded.origins "main.nazca" sampleIndented)[2]?).map Origin.file =
      some (Text.ofString "lib.nazca") ∧
    e.positionMap.fileAt? e.text 2 = some (Text.ofString "main.nazca") := by
  intro e
  have hsource : ∃ written : String, sampleIndented = Text.ofString written := ⟨_, rfl⟩
  have hs : ∀ t ∈ sampleIncluded.values, ∃ written : String, t = Text.ofString written := by
    have hvalues : sampleIncluded.values = [Text.ofString "class Lib { };\n"] := by decide
    rw [hvalues]
    intro t ht
    exact ⟨_, List.mem_singleton.1 ht⟩
  have horigin : ((sampleIncluded.origins "main.nazca" sampleIndented)[2]?).map Origin.file =
      some (Text.ofString "lib.nazca") := by
    rw [origins_sampleIndented]
    decide
  refine ⟨hsource, hs, horigin, ?_⟩
  obtain ⟨o, ho, _⟩ := Option.map_eq_some_iff.1 horigin
  obtain ⟨o₀, ho₀, hfile, _⟩ :=
    (origin_of_lineStart sampleIncluded "main.nazca" sampleIndented hsource hs).1 2 o ho
  have htext : e.text.lineStart 2 = 0 := by
    rw [(sampleIncluded.traced_expandSource "main.nazca" sampleIndented).text_eq,
      origins_sampleIndented]
    decide
  rw [htext, origins_sampleIndented] at ho₀
  rw [hfile]
  cases ho₀
  rfl

end Document

end PageLang
