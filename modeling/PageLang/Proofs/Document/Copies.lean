import PageLang.Proofs.Document.Origins
import PageLang.Proofs.Include.Stack
import PageLang.Proofs.Text.Place

/-!
# Copies of a file, and ranges of lines

A file that is included twice is registered twice, and the lines of each copy stand in the
flattened text. The lines of one copy stand in their order, but those of one copy stand behind all
those of an earlier one. The ends of a diagnostic are moved to their files one by one, so a range
that runs from one copy into the next can end on an earlier line than it starts.

* `PositionMap.copyLine?`: the copy that a flattened line comes from.
* `Expansion.Laid`: the invariant of the lines of copies; `Laid.pushSlice` is the step that adds
  lines.
* `Sources.expandFrom_laid`: a whole file with its includes keeps it.
* `Document.load_ranges`: the lines of the diagnostics of a document.
-/

namespace PageLang

namespace PositionMap

/-- The copy of a file, by its position among the files of the map, and the line in it that a
flattened line comes from. Both lines count from 0. -/
def copyLine? (m : PositionMap) (flat : Nat) : Option (Nat × Nat) :=
  (m.regionAt? flat).map fun r => (r.file, r.line + (flat - r.flatLine))

theorem sourceLine?_eq_copyLine? (m : PositionMap) (flat : Nat) :
    m.sourceLine? (flat + 1) = (m.copyLine? flat).bind fun p =>
      (m.files[p.1]?).map fun file => (file, p.2 + 1) := by
  rw [sourceLine?_succ, copyLine?, Option.bind_map]
  rfl

/-- A region added at the end takes over all lines from its own on, and no other. -/
theorem copyLine?_addRegion {m : PositionMap} {r : Region} (hm : m.Increasing)
    (hr : ∀ x ∈ m.regions, x.flatLine ≤ r.flatLine) (flat : Nat) :
    (m.addRegion r).copyLine? flat =
      if r.flatLine ≤ flat then some (r.file, r.line + (flat - r.flatLine))
      else m.copyLine? flat := by
  unfold copyLine?
  rw [regionAt?_addRegion hm hr]
  split <;> rfl

end PositionMap

/-! ## Lines of diagnostics -/

/-- A diagnostic names one of `files`, which can be read, and lines that this file has. -/
structure Diagnostic.LiesIn (s : Sources) (files : List Text) (g : Diagnostic) : Prop where
  registered : g.file ∈ files
  lines : ∃ source, s.read? g.file = some source ∧
    (1 ≤ g.line.first ∧ g.line.first ≤ source.newlines + 1) ∧
    1 ≤ g.line.last ∧ g.line.last ≤ source.newlines + 1

theorem Diagnostic.LiesIn.mono {s : Sources} {files files' : List Text} {g : Diagnostic}
    (h : g.LiesIn s files) (hsub : files ⊆ files') : g.LiesIn s files' :=
  ⟨hsub h.registered, h.lines⟩

theorem Fault.last_line_diagnostic (f : Fault) (file text : Text) :
    (f.diagnostic file text).line.last = (text.place (max f.span.stop f.span.start)).line := by
  unfold Fault.diagnostic Diagnostic.located
  exact Extent.last_spanning _ _

theorem Fault.first_le_last (f : Fault) (file text : Text) :
    (f.diagnostic file text).line.first ≤ (f.diagnostic file text).line.last := by
  rw [first_line_diagnostic, last_line_diagnostic]
  exact text.line_place_mono (Nat.le_max_right _ _)

/-- The diagnostic of a fault in the text of a file lies in that file. -/
theorem Fault.liesIn_diagnostic {s : Sources} {files : List Text} {file source : Text}
    (f : Fault) (hmem : file ∈ files) (hread : s.read? file = some source) :
    (f.diagnostic file source).LiesIn s files := by
  refine ⟨hmem, source, hread, ?_⟩
  rw [first_line_diagnostic, last_line_diagnostic]
  exact ⟨⟨source.one_le_line_place _, source.line_place_le _⟩, source.one_le_line_place _,
    source.line_place_le _⟩

/-! ## The invariant -/

namespace Expansion

/-- The lines of a copy come from no line behind `line`. -/
def UpTo (e : Expansion) (c line : Nat) : Prop :=
  ∀ n ≤ e.lines, ∀ l, e.positionMap.copyLine? n = some (c, l) → l ≤ line

theorem UpTo.le {e : Expansion} {c line line' : Nat} (h : e.UpTo c line) (hle : line ≤ line') :
    e.UpTo c line' :=
  fun n hn l hl => Nat.le_trans (h n hn l hl) hle

/-- Each copy is one of a file that can be read, its lines are lines of that file and stand in
their order, and the diagnostics lie in the files and are not reversed. -/
structure Laid (s : Sources) (e : Expansion) : Prop where
  bounded : ∀ c name, e.positionMap.files[c]? = some name →
    ∃ source, s.read? name = some source ∧ e.UpTo c source.newlines
  ascending : ∀ m n c l l', m ≤ n → n ≤ e.lines → e.positionMap.copyLine? m = some (c, l) →
    e.positionMap.copyLine? n = some (c, l') → l ≤ l'
  reported : ∀ g ∈ e.diagnostics,
    g.LiesIn s e.positionMap.files ∧ g.line.first ≤ g.line.last

theorem laid_empty (s : Sources) : Laid s empty where
  bounded := by simp [empty]
  ascending := by
    intro m n c l l' _ _ hm _
    cases hm
  reported := by simp [empty]

section
variable {s : Sources} {e : Expansion} {os : List Origin} {f : OpenFile} {start stop c line : Nat}

theorem lines_pushSlice_eq (e : Expansion) (f : OpenFile) (start stop : Nat) :
    (e.pushSlice f start stop).lines = e.lines + Text.newlines (f.source.slice start stop) := by
  unfold lines
  rw [text_pushSlice, Text.newlines_append]

/-- A piece of an open file changes no line in front of it, and its lines are those of the piece.
The line on which it starts may be one or the other. -/
theorem copyLine?_pushSlice (h : Traced e os) (hstart : f.source.CountsLines start) {n : Nat}
    (hn : n ≤ (e.pushSlice f start stop).lines) :
    n ≤ e.lines ∧ (e.pushSlice f start stop).positionMap.copyLine? n =
        e.positionMap.copyLine? n ∨
      e.lines ≤ n ∧ (e.pushSlice f start stop).positionMap.copyLine? n =
        some (f.index, Text.newlines (f.source.take start) + (n - e.lines)) := by
  have hline : f.lineIndex start = Text.newlines (f.source.take start) := by
    rw [OpenFile.lineIndex, Text.place_line, hstart, Nat.add_sub_cancel]
  rw [lines_pushSlice_eq] at hn
  unfold Expansion.pushSlice pushPiece
  rw [hline]
  generalize f.source.slice start stop = piece at hn ⊢
  by_cases hnil : piece = []
  · rw [hnil] at hn ⊢
    exact .inl ⟨hn, rfl⟩
  rw [if_neg (by simpa using hnil)]
  dsimp only
  by_cases hat : e.atLineStart = true
  · rw [if_pos hat, PositionMap.copyLine?_addRegion h.increasing h.bounded]
    dsimp only
    by_cases hle : e.lines ≤ n
    · exact .inr ⟨hle, if_pos hle⟩
    · exact .inl ⟨by omega, if_neg hle⟩
  · rw [if_neg hat]
    by_cases hmem : Byte.newline ∈ piece
    · rw [if_pos (by simpa using hmem), PositionMap.copyLine?_addRegion h.increasing
        fun x hx => Nat.le_succ_of_le (h.bounded x hx)]
      dsimp only
      by_cases hle : e.lines + 1 ≤ n
      · refine .inr ⟨by omega, ?_⟩
        rw [if_pos hle]
        congr 2
        omega
      · exact .inl ⟨by omega, if_neg hle⟩
    · have hzero : Text.newlines piece = 0 := List.count_eq_zero.2 hmem
      rw [if_neg (by simpa using hmem)]
      exact .inl ⟨by omega, rfl⟩

theorem UpTo.pushSlice_of_ne (hup : e.UpTo c line) (h : Traced e os)
    (hstart : f.source.CountsLines start) (hc : c ≠ f.index) :
    (e.pushSlice f start stop).UpTo c line := by
  intro n hn l hl
  rcases copyLine?_pushSlice h hstart hn with ⟨hle, hold⟩ | ⟨-, hnew⟩
  · exact hup n hle l (hold ▸ hl)
  · rw [hnew] at hl
    cases hl
    exact absurd rfl hc

/-- A piece brings its file up to its end. -/
theorem UpTo.pushSlice (hup : e.UpTo f.index (Text.newlines (f.source.take start)))
    (h : Traced e os) (hstart : f.source.CountsLines start) (hle : start ≤ stop) :
    (e.pushSlice f start stop).UpTo f.index (Text.newlines (f.source.take stop)) := by
  intro n hn l hl
  have hlines := hn
  rw [lines_pushSlice_eq] at hlines
  rw [f.source.newlines_take_slice hle]
  rcases copyLine?_pushSlice h hstart hn with ⟨hbefore, hold⟩ | ⟨-, hnew⟩
  · have := hup n hbefore l (hold ▸ hl)
    omega
  · rw [hnew] at hl
    cases hl
    omega

/-- The diagnostic of a directive that is kept changes no line. -/
theorem upTo_reject {d : Directive} {problem : Problem} :
    (e.reject f d problem).UpTo c line ↔ (e.pushSlice f d.span.start d.span.stop).UpTo c line := by
  unfold Expansion.reject Expansion.pushSlice pushPiece
  split <;> rfl

/-- A piece that goes on behind all of its file so far keeps the invariant. -/
theorem Laid.pushSlice (hlaid : Laid s e) (h : Traced e os)
    (hup : e.UpTo f.index (Text.newlines (f.source.take start)))
    (hf : e.positionMap.files[f.index]? = some f.name) (hread : s.read? f.name = some f.source)
    (hstart : f.source.CountsLines start) (hle : start ≤ stop) :
    Laid s (e.pushSlice f start stop) where
  bounded := by
    intro c name hname
    rw [files_pushSlice] at hname
    by_cases hc : c = f.index
    · subst hc
      obtain rfl : f.name = name := by simpa [hf] using hname
      exact ⟨_, hread, (hup.pushSlice h hstart hle).le (Text.newlines_take_le _ _)⟩
    · obtain ⟨source, hsource, hbound⟩ := hlaid.bounded c name hname
      exact ⟨source, hsource, hbound.pushSlice_of_ne h hstart hc⟩
  ascending := by
    intro m n c l l' hmn hn hm' hn'
    rcases copyLine?_pushSlice h hstart (Nat.le_trans hmn hn) with ⟨hm, hmold⟩ | ⟨hm, hmnew⟩
    · rcases copyLine?_pushSlice h hstart hn with ⟨hn, hnold⟩ | ⟨hn, hnnew⟩
      · exact hlaid.ascending m n c l l' hmn hn (hmold ▸ hm') (hnold ▸ hn')
      · rw [hnnew] at hn'
        cases hn'
        exact Nat.le_trans (hup m hm l (hmold ▸ hm')) (Nat.le_add_right _ _)
    · rcases copyLine?_pushSlice h hstart hn with ⟨hn, -⟩ | ⟨hn, hnnew⟩
      · -- both are the line on which the piece starts
        obtain rfl : m = n := by omega
        cases hm'.symm.trans hn'
        exact Nat.le_refl l
      · rw [hmnew] at hm'
        rw [hnnew] at hn'
        cases hm'
        cases hn'
        omega
  reported := by
    rw [diagnostics_pushSlice, files_pushSlice]
    exact hlaid.reported

/-! ## Open files -/

/-- An open file is written up to `cursor`. -/
structure Written (s : Sources) (f : OpenFile) (cursor : Nat) (e : Expansion) (os : List Origin) :
    Prop where
  traced : Traced e os
  laid : Laid s e
  registered : e.positionMap.files[f.index]? = some f.name
  known : s.read? f.name = some f.source
  counts : f.source.CountsLines cursor
  upTo : e.UpTo f.index (Text.newlines (f.source.take cursor))

theorem Written.pushSlice (h : Written s f start e os) (hstop : f.source.CountsLines stop)
    (hle : start ≤ stop) :
    Written s f stop (e.pushSlice f start stop)
      (os ++ Origin.ofRange f.name f.source start stop) where
  traced := h.traced.pushSlice stop h.registered h.counts
  laid := h.laid.pushSlice h.traced h.upTo h.registered h.known h.counts hle
  registered := by
    rw [files_pushSlice]
    exact h.registered
  known := h.known
  counts := hstop
  upTo := h.upTo.pushSlice h.traced h.counts hle

/-- A directive that is kept is a piece of its file, and its diagnostic lies in it. -/
theorem Written.reject {d : Directive} (h : Written s f d.span.start e os) (problem : Problem)
    (hstop : f.source.CountsLines d.span.stop) (hle : d.span.start ≤ d.span.stop) :
    Written s f d.span.stop (e.reject f d problem)
      (os ++ Origin.ofRange f.name f.source d.span.start d.span.stop) := by
  have hlaid : Laid s { e with diagnostics := e.diagnostics ++
      [Fault.diagnostic ⟨problem, d.span⟩ f.name f.source] } := by
    refine ⟨h.laid.bounded, h.laid.ascending, fun g hg => ?_⟩
    rcases List.mem_append.1 hg with hg | hg
    · exact h.laid.reported g hg
    · rw [List.mem_singleton.1 hg]
      exact ⟨Fault.liesIn_diagnostic _ (List.mem_of_getElem? h.registered) h.known,
        Fault.first_le_last _ _ _⟩
  have hreport : Written s f d.span.start { e with diagnostics := e.diagnostics ++
      [Fault.diagnostic ⟨problem, d.span⟩ f.name f.source] } os :=
    ⟨h.traced.of_files rfl rfl (List.prefix_refl _), hlaid, h.registered, h.known, h.counts, h.upTo⟩
  exact hreport.pushSlice hstop hle

/-- A file that is started is registered, and has no line yet. Its faulty directives lie in it. -/
theorem Written.openFile {name source : Text} (htraced : Traced e os) (hlaid : Laid s e)
    (hread : s.read? name = some source) (depth : Nat) :
    Written s (e.openFile name source depth).1 0 (e.openFile name source depth).2.2 os := by
  have hnew : (e.openFile name source depth).2.2.UpTo e.positionMap.files.length 0 := by
    intro n _ l hl
    obtain ⟨r, hr, heq⟩ := Option.map_eq_some_iff.1 hl
    have hlt := htraced.named r (PositionMap.mem_of_regionAt? hr).1
    have hfile : r.file = e.positionMap.files.length := congrArg Prod.fst heq
    exact absurd hlt (by omega)
  have hfiles : (e.openFile name source depth).2.2.positionMap.files =
      e.positionMap.files ++ [name] := rfl
  refine ⟨htraced.openFile name source depth, ⟨fun c other hother => ?_, hlaid.ascending,
    fun g hg => ?_⟩, List.getElem?_concat_length, hread, source.countsLines_zero,
    hnew.le (Nat.zero_le _)⟩
  · rw [hfiles] at hother
    rcases Nat.lt_or_ge c e.positionMap.files.length with hlt | hge
    · rw [List.getElem?_append_left hlt] at hother
      exact hlaid.bounded c other hother
    · have hc := (List.getElem?_eq_some_iff.1 hother).1
      rw [List.length_append, List.length_singleton] at hc
      obtain rfl : c = e.positionMap.files.length := by omega
      rw [List.getElem?_concat_length] at hother
      cases hother
      exact ⟨source, hread, hnew.le (Nat.zero_le _)⟩
  · rw [hfiles]
    rcases List.mem_append.1 hg with hg | hg
    · obtain ⟨hlies, horder⟩ := hlaid.reported g hg
      exact ⟨hlies.mono (List.subset_append_left _ _), horder⟩
    · obtain ⟨fault, _, rfl⟩ := List.mem_map.1 hg
      exact ⟨fault.liesIn_diagnostic (List.mem_append_right _ (List.mem_singleton_self _)) hread,
        fault.first_le_last _ _⟩

/-- The copies that are registered keep their lines, but for the one at `index`. -/
structure Spares (index : Nat) (e e' : Expansion) : Prop where
  files : e.positionMap.files <+: e'.positionMap.files
  upTo : ∀ c < e.positionMap.files.length, c ≠ index → ∀ line, e.UpTo c line → e'.UpTo c line

theorem Spares.trans {index : Nat} {e₁ e₂ : Expansion} (h₁ : Spares index e e₁)
    (h₂ : Spares index e₁ e₂) : Spares index e e₂ where
  files := h₁.files.trans h₂.files
  upTo c hc hne line hup :=
    h₂.upTo c (Nat.lt_of_lt_of_le hc h₁.files.length_le) hne line (h₁.upTo c hc hne line hup)

theorem Written.spares (h : Written s f start e os) (stop : Nat) :
    Spares f.index e (e.pushSlice f start stop) where
  files := files_pushSlice e f start stop ▸ List.prefix_refl _
  upTo _ _ hne _ hup := hup.pushSlice_of_ne h.traced h.counts hne

theorem Written.spares_reject {d : Directive} (h : Written s f d.span.start e os)
    (problem : Problem) : Spares f.index e (e.reject f d problem) where
  files := files_reject e f d problem ▸ List.prefix_refl _
  upTo _ _ hne _ hup := upTo_reject.2 (hup.pushSlice_of_ne h.traced h.counts hne)

/-- Behind all of the file that is asked for, the file with the directive goes on. -/
theorem Written.record {d : Directive} {inner : Text} {depth : Nat} {e₁ : Expansion}
    {os₁ : List Origin} (h : Written s f d.span.start e os) (htraced : Traced e₁ os₁)
    (hlaid : Laid s e₁)
    (hspares : Spares e.positionMap.files.length (e.openFile d.target inner depth).2.2 e₁)
    (hstop : f.source.CountsLines d.span.stop) (hle : d.span.start ≤ d.span.stop)
    (flatStart : Nat) :
    Written s f d.span.stop (e₁.record f d flatStart) os₁ ∧
      Spares f.index e (e₁.record f d flatStart) := by
  have hfiles : e.positionMap.files ++ [d.target] <+: e₁.positionMap.files := hspares.files
  have hlength : e.positionMap.files.length <
      (e.openFile d.target inner depth).2.2.positionMap.files.length := by
    simp [Expansion.openFile]
  have hkeeps : ∀ c < e.positionMap.files.length, ∀ line, e.UpTo c line → e₁.UpTo c line :=
    fun c hc line hup => hspares.upTo c (hc.trans hlength) (Nat.ne_of_lt hc) line hup
  have hindex := (List.getElem?_eq_some_iff.1 h.registered).1
  have hgrown := (List.prefix_append _ [d.target]).trans hfiles
  refine ⟨⟨htraced.record f d flatStart, ⟨hlaid.bounded, hlaid.ascending, hlaid.reported⟩,
    Sources.getElem?_extend hgrown h.registered, h.known, hstop, ?_⟩,
    ⟨hgrown, fun c hc _ => hkeeps c hc⟩⟩
  exact (hkeeps _ hindex _ h.upTo).le (Text.newlines_take_mono _ hle)

end

end Expansion

namespace Sources

open Expansion

/-- Flattening the rest of an open file keeps the invariant, and spares all other copies. -/
theorem expandFrom_laid {s : Sources} (stack : List Text) (name source : Text) (cursor : Nat)
    (directives : List Directive) : ∀ {index depth : Nat} {e : Expansion} {os : List Origin},
    directives ⊆ directivesOf name source → InOrder cursor directives → cursor ≤ source.length →
    Written s ⟨name, source, index, depth⟩ cursor e os →
    Laid s (s.expandFrom stack ⟨name, source, index, depth⟩ cursor directives e) ∧
      Spares index e (s.expandFrom stack ⟨name, source, index, depth⟩ cursor directives e) := by
  induction stack, name, source, cursor, directives using includeInduct (s := s) with
  | nil stack name source cursor =>
    intro index depth e os _ _ hlength h
    rw [expandFrom_nil]
    exact ⟨(h.pushSlice source.countsLines_length hlength).laid, h.spares _⟩
  | kept stack name source cursor d rest hkept ih =>
    intro index depth e os hsub horder _ h
    obtain ⟨problem, hexpand⟩ := expandFrom_kept (.mk name source index depth) cursor rest e hkept
    obtain ⟨hd, hrest⟩ := List.cons_subset.1 hsub
    obtain _ | ⟨hle, hlt, horder⟩ := horder
    obtain ⟨hstart, hstop⟩ := countsLines_of_mem_directivesOf hd
    have hfront := h.pushSlice hstart hle
    have hkeep := hfront.reject problem hstop (Nat.le_of_lt hlt)
    obtain ⟨hlaid, hspares⟩ := ih hrest horder (stop_le_of_mem_directivesOf hd) hkeep
    have hspared := (h.spares d.span.start).trans (hfront.spares_reject problem)
    rw [hexpand]
    exact ⟨hlaid, hspared.trans hspares⟩
  | included stack name source cursor d rest inner hs hr ihInner ih =>
    intro index depth e os hsub horder _ h
    obtain ⟨hd, hrest⟩ := List.cons_subset.1 hsub
    obtain _ | ⟨hle, hlt, horder⟩ := horder
    obtain ⟨hstart, hstop⟩ := countsLines_of_mem_directivesOf hd
    have hfront := h.pushSlice hstart hle
    have hread : s.read? d.target = some inner := by rw [read?, key_target hd, hr]
    have hopen := Written.openFile hfront.traced hfront.laid hread (depth + 1)
    obtain ⟨hlaid, hspares⟩ := ihInner (List.Subset.refl _) (inOrder_directivesOf d.target inner)
      (Nat.zero_le _) hopen
    obtain ⟨htraced, -⟩ := @expandFrom_traced s (d.target :: stack) d.target inner 0
      (directivesOf d.target inner) _ (depth + 1) _ _ (Text.countsLines_zero inner)
      (fun _ => countsLines_of_mem_directivesOf) hopen.traced hopen.registered
    obtain ⟨hback, hspared⟩ :=
      hfront.record htraced hlaid hspares hstop (Nat.le_of_lt hlt) _
    obtain ⟨hlaid, hspares⟩ := ih hrest horder (stop_le_of_mem_directivesOf hd) hback
    rw [expandFrom_included hs hr]
    exact ⟨hlaid, ((h.spares d.span.start).trans hspared).trans hspares⟩

/-- The lines of a flattened root file are laid out. -/
theorem laid_expandSource {s : Sources} {root source : Text} (h : s.read? root = some source) :
    Laid s (s.expandSource root source) :=
  (expandFrom_laid _ root source 0 (directivesOf root source) (List.Subset.refl _)
    (inOrder_directivesOf root source) (Nat.zero_le _)
    (Written.openFile traced_empty (laid_empty s) h 0)).1

end Sources

/-! ## Diagnostics of the flattened text -/

namespace PositionMap

theorem exists_copyLine? {m : PositionMap} {flat line : Nat} {file : Text}
    (h : m.sourceLine? (flat + 1) = some (file, line)) :
    ∃ c l, m.copyLine? flat = some (c, l) ∧ m.files[c]? = some file ∧ line = l + 1 := by
  rw [sourceLine?_eq_copyLine?] at h
  obtain ⟨⟨c, l⟩, hcopy, h⟩ := Option.bind_eq_some_iff.1 h
  obtain ⟨_, hfile, heq⟩ := Option.map_eq_some_iff.1 h
  cases heq
  exact ⟨c, l, hcopy, hfile, rfl⟩

/-- A diagnostic stays where it is, becomes the point where its first line comes from, or becomes
the range between the lines where both its lines come from, if they come from files of one name. -/
theorem relocate_cases (m : PositionMap) (g : Diagnostic) :
    m.sourceLine? g.line.first = none ∧ m.relocate g = g ∨
      ∃ file first, m.sourceLine? g.line.first = some (file, first) ∧
        (m.relocate g = { g with file := file, line := .point first } ∨
          ∃ last, m.sourceLine? g.line.last = some (file, last) ∧
            m.relocate g = { g with file := file, line := .spanning first last }) := by
  have hpoint (n : Nat) : Extent.spanning n n = .point n := if_pos rfl
  unfold relocate
  cases hfirst : m.sourceLine? g.line.first with
  | none => exact .inl ⟨rfl, rfl⟩
  | some start =>
    obtain ⟨file, first⟩ := start
    refine .inr ⟨file, first, rfl, ?_⟩
    cases hlast : m.sourceLine? g.line.last with
    | none => exact .inl (by rw [← hpoint])
    | some stop =>
      obtain ⟨other, last⟩ := stop
      dsimp only
      by_cases hsame : other = file
      · subst hsame
        exact .inr ⟨last, rfl, by rw [if_pos rfl]⟩
      · exact .inl (by rw [if_neg hsame, hpoint])

end PositionMap

namespace Expansion

/-- The copy of a file, and the line in it, that the line of an offset comes from. -/
def copyAt? (e : Expansion) (offset : Nat) : Option (Nat × Nat) :=
  e.positionMap.copyLine? ((e.text.place offset).line - 1)

/-- A diagnostic starts in one copy of its file and ends in another. -/
def Crosses (e : Expansion) (g : Diagnostic) : Prop :=
  ∃ span i j first last, g.span = some span ∧ i ≠ j ∧
    e.positionMap.files[i]? = some g.file ∧ e.positionMap.files[j]? = some g.file ∧
    e.copyAt? span.start = some (i, first) ∧
    e.copyAt? (max span.stop span.start) = some (j, last) ∧
    g.line = .range (first + 1) (last + 1)

variable {s : Sources} {e : Expansion} {os : List Origin}

/-- The answer of a position map for the line of an offset, in terms of copies. -/
theorem exists_copyAt? {offset line : Nat} {file : Text}
    (h : e.positionMap.sourceLine? (e.text.place offset).line = some (file, line)) :
    ∃ c l, e.copyAt? offset = some (c, l) ∧ e.positionMap.files[c]? = some file ∧ line = l + 1 := by
  refine PositionMap.exists_copyLine? ?_
  rwa [Nat.sub_add_cancel (e.text.one_le_line_place offset)]

theorem Laid.bounded_copyAt? (h : Laid s e) {offset c l : Nat} {file : Text}
    (hcopy : e.copyAt? offset = some (c, l)) (hfile : e.positionMap.files[c]? = some file) :
    ∃ source, s.read? file = some source ∧ l ≤ source.newlines := by
  obtain ⟨source, hread, hup⟩ := h.bounded c file hfile
  have hle := e.text.line_place_le offset
  exact ⟨source, hread, hup _ (Nat.sub_le_of_le_add hle) l hcopy⟩

/-- Each line of a text that is not empty comes from somewhere. -/
theorem Traced.exists_sourceLine? (h : Traced e os) (hne : e.text ≠ []) (offset : Nat) :
    ∃ p, e.positionMap.sourceLine? (e.text.place offset).line = some p := by
  obtain ⟨r, hr⟩ := h.covered hne ((e.text.place offset).line - 1)
  have hfile := h.named r (PositionMap.mem_of_regionAt? hr).1
  rw [← Nat.sub_add_cancel (e.text.one_le_line_place offset), PositionMap.sourceLine?_succ, hr,
    Option.bind_some, List.getElem?_eq_getElem hfile]
  exact ⟨_, rfl⟩

/-- A diagnostic of a flattened text is moved to lines of one file. Only if it runs from one copy of
this file into another does it end on an earlier line than it starts. -/
theorem Laid.relocate (h : Laid s e) (htraced : Traced e os) (f : Fault) {file : Text}
    (hfile : file ∈ e.positionMap.files) :
    let g := e.positionMap.relocate (f.diagnostic file e.text)
    g.LiesIn s e.positionMap.files ∧ (g.line.last < g.line.first → e.Crosses g) := by
  intro g
  rcases e.positionMap.relocate_cases (f.diagnostic file e.text) with
    ⟨hnone, heq⟩ | ⟨name, first, hfirst, heq⟩
  · -- only an empty text has a line that comes from nowhere, and then it is the one line
    have hnil : e.text = [] := by
      by_contra hne
      obtain ⟨p, hp⟩ := htraced.exists_sourceLine? hne f.span.start
      rw [f.first_line_diagnostic, hp] at hnone
      cases hnone
    have hline (k : Nat) : (Text.place [] k).line ≤ 1 := Text.line_place_le [] k
    obtain ⟨c, hc⟩ := List.getElem?_of_mem hfile
    obtain ⟨source, hread, -⟩ := h.bounded c file hc
    have hg : g = f.diagnostic file [] := by rw [← hnil]; exact heq
    rw [hg]
    refine ⟨⟨hfile, source, hread, ?_⟩, fun hlt => absurd (f.first_le_last file []) (by omega)⟩
    rw [f.first_line_diagnostic, f.last_line_diagnostic]
    exact ⟨⟨Text.one_le_line_place _ _, (hline _).trans (Nat.le_add_left _ _)⟩,
      Text.one_le_line_place _ _, (hline _).trans (Nat.le_add_left _ _)⟩
  rw [f.first_line_diagnostic] at hfirst
  obtain ⟨i, l, hcopy, hi, rfl⟩ := exists_copyAt? hfirst
  obtain ⟨source, hread, hl⟩ := h.bounded_copyAt? hcopy hi
  have hmem := List.mem_of_getElem? hi
  rcases heq with heq | ⟨last, hlast, heq⟩
  · have hg : g = { f.diagnostic file e.text with file := name, line := .point (l + 1) } := heq
    rw [hg]
    refine ⟨⟨hmem, source, hread, ?_⟩, fun hlt => absurd hlt (Nat.lt_irrefl _)⟩
    dsimp only [Extent.first, Extent.last]
    omega
  · rw [f.last_line_diagnostic] at hlast
    obtain ⟨j, l', hcopy', hj, rfl⟩ := exists_copyAt? hlast
    obtain ⟨source', hread', hl'⟩ := h.bounded_copyAt? hcopy' hj
    cases hread.symm.trans hread'
    have hg : g = { f.diagnostic file e.text with
      file := name, line := .spanning (l + 1) (l' + 1) } := heq
    rw [hg]
    refine ⟨⟨hmem, source, hread, ?_⟩, fun hlt => ?_⟩
    · dsimp only
      rw [Extent.first_spanning, Extent.last_spanning]
      omega
    · dsimp only at hlt
      rw [Extent.first_spanning, Extent.last_spanning] at hlt
      refine ⟨f.span, i, j, l, l', f.span_diagnostic file e.text, ?_, hi, hj, hcopy, hcopy',
        if_neg (by omega)⟩
      -- in one copy a later line comes from no earlier line
      rintro rfl
      have hmono := e.text.line_place_mono (Nat.le_max_right f.span.stop f.span.start)
      have hle := e.text.line_place_le (max f.span.stop f.span.start)
      have := h.ascending _ _ i l l' (Nat.sub_le_sub_right hmono 1)
        (Nat.sub_le_of_le_add hle) hcopy hcopy'
      omega

end Expansion

namespace Document

theorem exists_source {s : Sources} {root : Text} {d : Document} (h : load s root = .ok d) :
    ∃ source, s.read? root = some source ∧ d = ofExpansion root (s.expandSource root source) := by
  unfold load Sources.expand at h
  split at h
  · next source hread =>
    cases h
    exact ⟨source, hread, rfl⟩
  · cases h

/-- A diagnostic of the flattened text is that of a fault, under a file of the document. -/
theorem registered_of_mem_flatDiagnostics {root : Text} {e : Expansion} {g : Diagnostic}
    (hroot : root ∈ e.positionMap.files) (h : g ∈ flatDiagnostics root e) :
    ∃ f file, g = Fault.diagnostic f file e.text ∧ file ∈ e.positionMap.files := by
  obtain ⟨f, file, rfl, hfile⟩ := isFlat_of_mem_flatDiagnostics h
  refine ⟨f, file, rfl, ?_⟩
  rcases hfile with rfl | ⟨c, hc, rfl⟩
  · exact hroot
  · rcases List.mem_cons.1 (sourceFile_mem hc) with hsource | hsource
    · rwa [hsource]
    · exact hsource

/-- The diagnostics of a document name its files, which can be read, and lines that these files
have. A diagnostic ends on an earlier line than it starts only if it starts in one copy of its file
and ends in another. The lines of one copy stand in their order. -/
theorem load_ranges {s : Sources} {root : Text} {d : Document} (h : load s root = .ok d) :
    (∀ g ∈ d.diagnostics, g.LiesIn s d.expansion.positionMap.files ∧
      (g.line.last < g.line.first → d.expansion.Crosses g)) ∧
    ∀ i j c l l', i ≤ j → d.expansion.copyAt? i = some (c, l) →
      d.expansion.copyAt? j = some (c, l') → l ≤ l' := by
  obtain ⟨source, hread, rfl⟩ := exists_source h
  have hlaid := Sources.laid_expandSource hread
  have htraced := s.traced_expandSource root source
  refine ⟨fun g hg => ?_, fun i j c l l' hij hi hj => ?_⟩
  · rw [diagnostics_ofExpansion] at hg
    rcases List.mem_append.1 hg with hg | hg
    · obtain ⟨hlies, horder⟩ := hlaid.reported g hg
      exact ⟨hlies, fun hlt => absurd horder (Nat.not_le.2 hlt)⟩
    · obtain ⟨flat, hflat, rfl⟩ := List.mem_map.1 hg
      obtain ⟨names, hfiles, -⟩ := s.expandSource_recorded root source
      have hroot : root ∈ (s.expandSource root source).positionMap.files := by
        rw [hfiles]
        exact List.mem_cons_self
      obtain ⟨f, file, rfl, hfile⟩ := registered_of_mem_flatDiagnostics hroot hflat
      exact hlaid.relocate htraced f hfile
  · have hmono := (s.expandSource root source).text.line_place_mono hij
    have hle := (s.expandSource root source).text.line_place_le j
    exact hlaid.ascending _ _ c l l' (Nat.sub_le_sub_right hmono 1) (Nat.sub_le_of_le_add hle) hi hj

/-- A root that includes a file twice. -/
def sampleTwice : Text := "*include: lib;\n*include: lib;\n"

/-- The root, and the file, which ends in a statement that goes on behind it. -/
def sampleCopies : Sources := .ofFiles [("main", sampleTwice), ("lib", ";\n?")]

theorem expandSource_sampleTwice :
    (sampleCopies.expandSource "main" sampleTwice).text = Text.ofString ";\n?\n;\n?\n" ∧
      (sampleCopies.expandSource "main" sampleTwice).positionMap =
        ⟨["main", "lib", "lib"], [⟨0, 1, 0⟩, ⟨2, 2, 0⟩, ⟨4, 0, 2⟩]⟩ := by
  have hmain : (MaskedText.ofText .declarations sampleTwice).directives
      (Path.ofText "main").directory =
        ([⟨⟨0, 14⟩, Text.ofString "lib"⟩, ⟨⟨15, 29⟩, Text.ofString "lib"⟩], []) := by decide +kernel
  have hlib : (MaskedText.ofText .declarations (Text.ofString ";\n?")).directives
      (Path.ofText (Text.ofString "lib")).directory = ([], []) := by decide +kernel
  have hread : sampleCopies.get? (Text.ofString "lib") = some (Text.ofString ";\n?") := by decide
  unfold Sources.expandSource Expansion.openFile
  dsimp only
  rw [hmain, Sources.expandFrom_included (by decide) hread,
    Sources.expandFrom_included (by decide) hread]
  unfold Expansion.openFile
  dsimp only
  rw [hlib]
  simp only [Sources.expandFrom_nil]
  decide +kernel

/-- The statement on line 2 of the first copy ends on line 1 of the second. -/
theorem load_ranges_sampleTwice :
    ∃ d, load sampleCopies "main" = .ok d ∧
      ∃ g ∈ d.diagnostics, g.file = "lib" ∧ g.line = .range 2 1 ∧ d.expansion.Crosses g := by
  obtain ⟨htext, hmap⟩ := expandSource_sampleTwice
  let e := sampleCopies.expandSource "main" sampleTwice
  have hload : load sampleCopies "main" = .ok (ofExpansion "main" e) := by
    have hread : sampleCopies.read? "main" = some sampleTwice := by decide
    unfold load Sources.expand
    rw [hread]
    rfl
  have hfault : ⟨.topLevelStatement, ⟨2, 5⟩⟩ ∈ parseFaults "main" e := by
    unfold parseFaults
    rw [htext]
    decide +kernel
  let g := e.positionMap.relocate (Fault.diagnostic ⟨.topLevelStatement, ⟨2, 5⟩⟩ "main" e.text)
  have hg : g ∈ (ofExpansion "main" e).diagnostics := by
    rw [diagnostics_ofExpansion]
    exact List.mem_append_right _ (List.mem_map_of_mem (List.mem_append_left _
      (List.mem_append_left _ (List.mem_map_of_mem hfault))))
  have hmoved : g.file = "lib" ∧ g.line = .range 2 1 := by
    dsimp only [g, e]
    rw [htext, hmap]
    decide +kernel
  refine ⟨_, hload, g, hg, hmoved.1, hmoved.2, ?_⟩
  refine ((load_ranges hload).1 g hg).2 ?_
  rw [hmoved.2]
  decide

end Document

end PageLang
