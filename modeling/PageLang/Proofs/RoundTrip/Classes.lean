import PageLang.Proofs.ClassTable.Reads
import PageLang.ClassTable.Parser
import PageLang.Proofs.RoundTrip.Body

/-!
# Reading classes back

A source that holds nothing but classes with distinct names, with gaps between them, is read as the
table of these classes. A class is looked for by its keyword, which whitespace, the brace of the
class before or the start of the text must set off; so no gap in front of a class ends with a block
comment.

* `ClassSource.text`, `ClassSource.Describes`: a class as written, and as it stands in the table.
* `classes_text`: the class table of a source.
-/

namespace PageLang

namespace Written

open Cell

/-! ## Classes -/

/-- A class: what stands before it, its header and its block. -/
structure ClassSource where
  gap : Gap
  name : Text
  parents : List Text
  block : Block
  gap_fits : ∀ f ∈ gap.getLast?, ∀ t h, f ≠ .blockComment t h
  name_fits : name.isIdentifier = true
  parents_fit : ∀ p ∈ parents, p.isIdentifier = true

namespace ClassSource

/-- The header up to the blank before the brace. -/
def header (c : ClassSource) : Text :=
  Text.ofString "class" ++ [Byte.space] ++ c.name ++
    c.parents.flatMap ([Byte.space, Byte.less, Byte.space] ++ ·)

/-- A class as written. -/
def text (c : ClassSource) : Text :=
  c.gap.text ++ c.header ++ [Byte.space, Byte.lbrace] ++ c.block.text ++ [Byte.rbrace]

/-- A class with its mask. -/
def cells (c : ClassSource) : List Cell :=
  c.gap.cells ++ (live (c.header ++ [Byte.space]) ++
    (live [Byte.lbrace] ++ c.block.cells ++ live [Byte.rbrace]))

@[simp] theorem bytes_cells (c : ClassSource) : bytes c.cells = c.text := by
  simp [cells, text]

/-- No two members of a kind share a name, in the class and in its elements at any depth, and the
members and elements of the class that share one namespace all have different names. -/
structure Distinct (c : ClassSource) : Prop where
  members : c.block.members.Pairwise Apart
  below : c.block.DistinctBelow
  shared : ((c.block.members.filter Member.sharesNamespace).map Member.name ++
    c.block.childNames).Nodup

/-- The class as it stands in a table: name, parents, members and elements, but for spans. -/
structure Describes (c : ClassSource) (file : Text) (d : ClassDefinition) : Prop where
  name : d.name = c.name
  parents : d.parents = c.parents
  members : Files c.block.members d.members
  children : c.block.Children d.children
  sourceFile : d.sourceFile = file

/-! ## Headers -/

theorem forall_mem_header (c : ClassSource) : ∀ b ∈ c.header,
    Byte.isPlain b = true ∧ b ≠ Byte.lbrace ∧ b ≠ Byte.semicolon ∧ b ≠ Byte.rbrace := by
  have hpart : ∀ b, Byte.isNamePart b = true →
      Byte.isPlain b = true ∧ b ≠ Byte.lbrace ∧ b ≠ Byte.semicolon ∧ b ≠ Byte.rbrace :=
    Byte.forall_of_nibbles (by decide)
  have hname := (isNamePart_of_isIdentifier c.name_fits).2
  have hfixed : ∀ b ∈ Text.ofString "class" ++ [Byte.space, Byte.less],
      Byte.isPlain b = true ∧ b ≠ Byte.lbrace ∧ b ≠ Byte.semicolon ∧ b ≠ Byte.rbrace := by
    decide
  intro b hb
  simp only [header, List.mem_append, List.mem_flatMap] at hb
  rcases hb with ((hb | hb) | hb) | ⟨p, hp, hb | hb⟩
  · exact hfixed b (List.mem_append_left _ hb)
  · exact hfixed b (by simp at hb; simp [hb])
  · exact hpart b (hname b hb)
  · simp only [List.mem_cons, List.not_mem_nil, or_false] at hb
    rcases hb with rfl | rfl | rfl <;> exact hfixed _ (by decide)
  · exact hpart b ((isNamePart_of_isIdentifier (c.parents_fit p hp)).2 b hb)

theorem isInk_of_isIdentifier {t : Text} (h : t.isIdentifier = true) : Text.IsInk t := by
  obtain ⟨hne, ht⟩ := isNamePart_of_isIdentifier h
  exact Text.isInk_of_all hne fun b hb => Byte.isInk_of_isNamePart b (ht b hb)

/-- Parents behind a visible byte end with a visible byte. -/
theorem last_flatMap_parents {t : Text} {parents : List Text}
    (ht : ∃ b rest, t = rest ++ [b] ∧ Byte.isInk b = true)
    (hparents : ∀ p ∈ parents, p.isIdentifier = true) :
    ∃ b rest, t ++ parents.flatMap ([Byte.space, Byte.less, Byte.space] ++ ·) = rest ++ [b] ∧
      Byte.isInk b = true := by
  induction parents generalizing t with
  | nil => simpa using ht
  | cons p parents ih =>
    obtain ⟨b, rest, hp, hb⟩ := (isInk_of_isIdentifier (hparents p (.head _))).last
    rw [List.flatMap_cons, ← List.append_assoc]
    refine ih ⟨b, t ++ [Byte.space, Byte.less, Byte.space] ++ rest, ?_, hb⟩
      (fun q hq => hparents q (.tail _ hq))
    rw [hp]
    simp

theorem isInk_header (c : ClassSource) : Text.IsInk c.header where
  first := by
    rw [header, show Text.ofString "class" = [0x63, 0x6c, 0x61, 0x73, 0x73] by decide]
    exact ⟨_, _, rfl, by decide⟩
  last := by
    obtain ⟨b, rest, hname, hb⟩ := (isInk_of_isIdentifier c.name_fits).last
    refine last_flatMap_parents ⟨b, Text.ofString "class" ++ [Byte.space] ++ rest, ?_, hb⟩
      c.parents_fit
    rw [hname]
    simp

/-- Parents are cut at the signs in front of them. -/
theorem splitOn_parents {t : Text} {parents : List Text} (ht : Byte.less ∉ t)
    (hparents : ∀ p ∈ parents, p.isIdentifier = true) :
    ∃ first pieces,
      Text.splitOn Byte.less (t ++ parents.flatMap ([Byte.space, Byte.less, Byte.space] ++ ·)) =
        first :: pieces ∧ (first = t ∨ first = t ++ [Byte.space]) ∧
      pieces.map Text.trim = parents := by
  induction parents generalizing t with
  | nil => exact ⟨t, [], by simpa using Text.splitOn_of_notMem ht, .inl rfl, rfl⟩
  | cons p parents ih =>
    have hp := hparents p (.head _)
    have hless : Byte.less ∉ Byte.space :: p := by
      intro hmem
      rcases List.mem_cons.1 hmem with hmem | hmem
      · exact absurd hmem (by decide)
      · exact absurd ((isNamePart_of_isIdentifier hp).2 _ hmem) (by decide)
    obtain ⟨first, pieces, hsplit, hfirst, hpieces⟩ :=
      ih hless (fun q hq => hparents q (.tail _ hq))
    refine ⟨t ++ [Byte.space], first :: pieces, ?_, .inr rfl, ?_⟩
    · have hless : Byte.less ∉ t ++ [Byte.space] := by simp +decide [ht]
      have := Text.splitOn_append_cons hless (Byte.space :: p ++
        parents.flatMap ([Byte.space, Byte.less, Byte.space] ++ ·))
      rw [hsplit] at this
      simpa using this
    · have hink := isInk_of_isIdentifier hp
      have htrim : first.trim = p := by
        rcases hfirst with rfl | rfl
        · rw [Text.trim_cons_space, Text.trim_of_ink hink]
        · rw [List.cons_append, Text.trim_cons_space, Text.trim_append_space hink]
      rw [List.map_cons, htrim, hpieces]

theorem parents?_eq {parents : List Text} (h : ∀ p ∈ parents, p.isIdentifier = true) :
    ClassHeader.parents? (parents.flatMap ([Byte.space, Byte.less, Byte.space] ++ ·)) =
      some parents := by
  obtain ⟨first, pieces, hsplit, hfirst, hpieces⟩ :=
    splitOn_parents (t := []) (by simp) h
  have hblank : first.isBlank = true := by rcases hfirst with rfl | rfl <;> decide
  rw [List.nil_append] at hsplit
  rw [ClassHeader.parents?, hsplit]
  simp only [hblank, hpieces, Bool.true_and]
  rw [if_pos (List.all_eq_true.2 h)]

/-- The name and the parents are read from a header. -/
theorem parse?_header (c : ClassSource) :
    ClassHeader.parse? c.header = some (c.name, c.parents) := by
  let tail := c.parents.flatMap ([Byte.space, Byte.less, Byte.space] ++ ·)
  have hstrip : Text.stripStart? "class" c.header = some (Byte.space :: (c.name ++ tail)) := by
    have hheader : c.header = Text.ofString "class" ++ (Byte.space :: (c.name ++ tail)) := by
      simp [header, tail]
    rw [hheader, Text.stripStart?, if_pos (List.isPrefixOf_iff_prefix.2 (List.prefix_append ..)),
      List.drop_left]
  have hname : (Text.trimStart (Byte.space :: (c.name ++ tail))).identifier? =
      some (c.name, tail) := by
    obtain ⟨b, rest, hb, hink⟩ := (isInk_of_isIdentifier c.name_fits).first
    have hfits := c.name_fits
    simp only [hb, Text.isIdentifier, Bool.and_eq_true, List.all_eq_true] at hfits
    have htail : tail.takeWhile Byte.isWord = [] ∧ tail.dropWhile Byte.isWord = tail := by
      simp only [tail]
      cases c.parents with
      | nil => exact ⟨rfl, rfl⟩
      | cons p parents => exact ⟨rfl, rfl⟩
    rw [Text.trimStart, Text.stripMarks_of_isSpace (by decide), hb, List.cons_append,
      Text.stripMarks_of_ink Text.inkless_blanks hink, Text.identifier?, if_pos hfits.1,
      List.takeWhile_append_of_pos hfits.2, List.dropWhile_append_of_pos hfits.2, htail.1, htail.2,
      List.append_nil]
  have hblank : Text.startsBlank (Byte.space :: (c.name ++ tail)) = true := rfl
  have hparents : ClassHeader.parents? tail = some c.parents := parents?_eq c.parents_fit
  simp only [ClassHeader.parse?, hstrip, hname, hparents, hblank, Option.bind_eq_bind,
    Option.bind_some, Option.pure_def, if_true]

/-! ## The mask of a class -/

theorem reads (c : ClassSource) (before ahead : Text) :
    Mask.State.Reads ⟨.live, .declarations, 0, []⟩ before c.cells ahead
      ⟨.live, .declarations, 0, []⟩ := by
  refine (c.gap.reads _ _).append (.append (Mask.State.reads_plain (fun b hb => ?_) _ _)
    (((Mask.State.reads_lbrace _ _).append (c.block.reads _ _)).append
      (Mask.State.reads_rbrace _ _)))
  rcases List.mem_append.1 hb with hb | hb
  · exact (c.forall_mem_header b hb).1
  · obtain rfl : b = Byte.space := by simpa using hb
    decide

/-! ## Reading one class -/

section
variable {s : MaskedText} {i : Nat} {v : List Cell}

/-- The search for a keyword passes over whitespace and comments. -/
theorem classKeywordFrom?_skip {w : List Cell} {n : Nat} (h : s.Rest i (w ++ v))
    (hw : ∀ c ∈ w, c.2 = false → Byte.isSpace c.1 = true) :
    s.classKeywordFrom? 0 i (w.length + n) = s.classKeywordFrom? 0 (i + w.length) n := by
  induction w generalizing i with
  | nil => simp
  | cons c w ih =>
    have ih := ih h.tail (fun d hd => hw d (.tail _ hd))
    have hlive : s.liveByte? i = if c.2 then none else some c.1 := h.liveByte?_zero
    rw [List.length_cons, show w.length + 1 + n = (w.length + n) + 1 by omega,
      show i + (w.length + 1) = i + 1 + w.length by omega, MaskedText.classKeywordFrom?, hlive]
    obtain ⟨b, m⟩ := c
    cases m with
    | true => exact ih
    | false =>
      have hspace := hw _ (.head _) rfl
      have hkeyword : s.isClassKeyword i = false := by
        have hne : ¬ b = 0x63 := by
          rintro rfl
          exact absurd hspace (by decide)
        rw [MaskedText.isClassKeyword, h.startsAt,
          show Text.ofString "class" = [0x63, 0x6c, 0x61, 0x73, 0x73] by decide]
        simp [hne]
      simp only [Bool.false_eq_true, if_false]
      split
      · next heq =>
        obtain rfl : b = Byte.lbrace := by simpa using heq
        exact absurd hspace (by decide)
      · next heq =>
        obtain rfl : b = Byte.rbrace := by simpa using heq
        exact absurd hspace (by decide)
      · rw [if_neg (by simp [hkeyword]), ih]
      · next heq => simp at heq

/-- The last byte of a gap in front of a class is whitespace. -/
theorem isSpace_of_gap (c : ClassSource) (h : s.Rest i (c.gap.cells ++ v)) (hgap : c.gap ≠ []) :
    ∃ b, s.byte? (i + c.gap.cells.length - 1) = some b ∧ Byte.isSpace b = true := by
  obtain ⟨w, b, hcells, hb⟩ : ∃ w b, c.gap.cells = w ++ [(b, false)] ∧ Byte.isSpace b = true := by
    obtain ⟨g, f, hg⟩ : ∃ g f, c.gap = g ++ [f] :=
      ⟨_, _, (List.dropLast_concat_getLast hgap).symm⟩
    have hfits := c.gap_fits f (by simp [hg])
    have hcells : c.gap.cells = Gap.cells g ++ f.cells := by simp [hg, Gap.cells]
    cases f with
    | space b hb => exact ⟨_, b, hcells, hb⟩
    | lineComment t ht =>
      refine ⟨Gap.cells g ++ masked ([Byte.slash, Byte.slash] ++ t), Byte.newline, ?_, rfl⟩
      rw [hcells, List.append_assoc]
      rfl
    | blockComment t ht => exact absurd rfl (hfits t ht)
  refine ⟨b, ?_, hb⟩
  rw [hcells] at h ⊢
  rw [List.length_append, List.length_singleton, ← Nat.add_assoc, Nat.add_sub_cancel, h.byte?]
  simp

/-- The keyword of a class is found behind the gap in front of it. -/
theorem classKeyword? (c : ClassSource) (h : s.Rest i (c.gap.cells ++ (live c.header ++ v)))
    (hi : i = 0 ∨ s.byte? (i - 1) = some Byte.rbrace) :
    s.classKeyword? i = some (i + c.gap.cells.length) := by
  have hheader : ∃ rest, live c.header ++ v =
      live [0x63, 0x6c, 0x61, 0x73, 0x73, Byte.space] ++ rest := by
    rw [header, show Text.ofString "class" = [0x63, 0x6c, 0x61, 0x73, 0x73] by decide]
    exact ⟨_, rfl⟩
  obtain ⟨rest, hrest⟩ := hheader
  rw [hrest] at h
  have hat := h.skip
  have hsize : s.size - i = c.gap.cells.length + (rest.length + 5 + 1) := by
    rw [h.size_eq]
    simp
  have hlive : s.liveByte? (i + c.gap.cells.length) = some 0x63 := hat.liveByte?_zero
  have hbefore : i + c.gap.cells.length = 0 ∨
      ∃ b, s.byte? (i + c.gap.cells.length - 1) = some b ∧
        (b = Byte.rbrace ∨ Byte.isSpace b = true) := by
    by_cases hgap : c.gap = []
    · rw [hgap]
      rcases hi with hi | hi
      · exact .inl hi
      · exact .inr ⟨_, hi, .inl rfl⟩
    · obtain ⟨b, hb, hspace⟩ := c.isSpace_of_gap h hgap
      exact .inr ⟨b, hb, .inr hspace⟩
  have hkeyword : s.isClassKeyword (i + c.gap.cells.length) = true := by
    have hblank : s.byte? (i + c.gap.cells.length + 5) = some Byte.space := hat.byte? 5
    rw [MaskedText.isClassKeyword, hat.startsAt, hblank, Bool.and_eq_true]
    refine ⟨rfl, ?_⟩
    rcases hbefore with hstart | ⟨b, hb, hset⟩
    · rw [hstart]
      rfl
    · rw [hb]
      rcases hset with rfl | hspace
      · simp
      · simp [hspace]
  rw [MaskedText.classKeyword?, hsize, classKeywordFrom?_skip h c.gap.isSpace_of_live,
    MaskedText.classKeywordFrom?, hlive]
  show (if _ then _ else _) = _
  rw [if_pos ⟨rfl, hkeyword⟩]

/-- A class is read without a fault, up to its closing brace. -/
theorem classAt (c : ClassSource) (file : Text) (hdistinct : c.Distinct)
    (h : s.Rest i (live (c.header ++ [Byte.space]) ++ (Byte.lbrace, false) ::
      (c.block.cells ++ (Byte.rbrace, false) :: v))) :
    ∃ d, s.classAt file i =
        ⟨some d, none, i + (c.header ++ [Byte.space]).length + 1 + c.block.cells.length + 1⟩ ∧
      c.Describes file d := by
  have hslice := h.slice
  rw [length_live, bytes_live] at hslice
  have hfind := h.findAny? [Byte.lbrace, Byte.semicolon, Byte.rbrace]
    (fun d hd _ => by
      obtain ⟨b, hb, rfl⟩ := List.mem_map.1 hd
      rcases List.mem_append.1 hb with hb | hb
      · have := c.forall_mem_header b hb
        simp [this]
      · obtain rfl : b = Byte.space := by simpa using hb
        decide) (by decide)
  have hblock := h.skip
  rw [length_live] at hfind hblock
  have hclose := hblock.closingBrace? c.block.balanced
  obtain ⟨ds, es, stop, hbody, hds, hes⟩ :=
    c.block.body .classStatement hblock.tail hdistinct.below
  refine ⟨⟨c.name, c.parents, .ofDeclarations ds, es, file,
    ⟨i, i + (c.header ++ [Byte.space]).length + 1 + c.block.cells.length + 1⟩⟩, ?_,
    ⟨rfl, rfl, files_ofDeclarations hds hdistinct.members, hes, rfl⟩⟩
  refine MaskedText.classAt_of_body hfind hclose ?_ hbody
    (fault?_eq_none hds hes hdistinct.shared c.name)
  rw [hslice, Text.trim_append_space c.isInk_header, c.parse?_header]

end

end ClassSource

/-- The entries of a table are the classes, in order. -/
def DescribesAll (file : Text) : List ClassSource → List (Text × ClassDefinition) → Prop
  | [], entries => entries = []
  | c :: cs, entries => ∃ d rest, entries = (c.name, d) :: rest ∧ c.Describes file d ∧
      DescribesAll file cs rest

/-- The classes that are read from an offset on, with a gap behind them, are added to a table that
has none of them yet. -/
theorem classesFrom_eq {s : MaskedText} {pos : Nat} {cs : List ClassSource} {gap : Gap}
    (file : Text) (table : ClassTable) (h : s.Rest pos (cs.flatMap ClassSource.cells ++ gap.cells))
    (hpos : pos = 0 ∨ s.byte? (pos - 1) = some Byte.rbrace)
    (hnames : (table.entries.map Prod.fst ++ cs.map ClassSource.name).Nodup)
    (hdistinct : ∀ c ∈ cs, c.Distinct) :
    ∃ table' entries, s.classesFrom file table pos = .ok table' ∧
      table'.entries = table.entries ++ entries ∧ DescribesAll file cs entries := by
  induction cs generalizing pos table with
  | nil =>
    have hend : s.classKeyword? pos = none := by
      have h : s.Rest pos (gap.cells ++ []) := by simpa using h
      have hsize : s.size - pos = gap.cells.length + 0 := by
        rw [h.size_eq]
        simp
      rw [MaskedText.classKeyword?, hsize, ClassSource.classKeywordFrom?_skip h gap.isSpace_of_live]
      rfl
    exact ⟨table, [], MaskedText.classesFrom_end hend, by simp, rfl⟩
  | cons c cs ih =>
    have h : s.Rest pos (c.gap.cells ++ (live (c.header ++ [Byte.space]) ++ (Byte.lbrace, false) ::
        (c.block.cells ++ (Byte.rbrace, false) ::
          (cs.flatMap ClassSource.cells ++ gap.cells)))) := by
      simpa [ClassSource.cells] using h
    have hat := c.classKeyword? (by simpa using h) hpos
    obtain ⟨d, hread, hd⟩ := c.classAt file (hdistinct c (.head _)) h.skip
    have hclose := h.skip.skip.tail.skip
    rw [length_live] at hclose
    have hnew : d.name ∉ table.entries.map Prod.fst := by
      intro hmem
      rw [hd.name] at hmem
      exact (List.nodup_append.1 hnames).2.2 _ hmem c.name (by simp) rfl
    have hentries := OrderedMap.entries_insert d hnew
    obtain ⟨table', entries, hrest, happend, hall⟩ := ih (table.insert d.name d) hclose.tail
      (.inr hclose.byte?_zero) (by
        rw [hentries, hd.name]
        simpa using hnames)
      (fun c' hc' => hdistinct c' (.tail _ hc'))
    refine ⟨table', (c.name, d) :: entries, ?_, ?_, d, entries, rfl, hd, hall⟩
    · rw [MaskedText.classesFrom_class hat hread, hrest]
    · rw [happend, hentries, hd.name]
      simp

/-- Classes as written, and a gap behind them. -/
def classesText (cs : List ClassSource) (gap : Gap) : Text :=
  cs.flatMap ClassSource.text ++ gap.text

theorem bytes_classes (cs : List ClassSource) (gap : Gap) :
    bytes (cs.flatMap ClassSource.cells ++ gap.cells) = classesText cs gap := by
  induction cs with
  | nil => simp [classesText]
  | cons c cs ih => simpa [classesText] using ih

theorem reads_classes (cs : List ClassSource) (gap : Gap) (before : Text) :
    Mask.State.Reads (.start .declarations) before (cs.flatMap ClassSource.cells ++ gap.cells) []
      (.start .declarations) := by
  induction cs generalizing before with
  | nil => exact gap.reads _ _
  | cons c cs ih =>
    rw [List.flatMap_cons, List.append_assoc]
    exact (c.reads _ _).append (ih _)

/-- A source of classes with different names, in each of which the names that must differ do, is
read as the table of exactly these classes. -/
theorem classes_text (cs : List ClassSource) (gap : Gap) (file : Text)
    (hnames : (cs.map ClassSource.name).Nodup) (hdistinct : ∀ c ∈ cs, c.Distinct) :
    ∃ table, (MaskedText.ofText .declarations (classesText cs gap)).classes file 0 = .ok table ∧
      DescribesAll file cs table.entries := by
  have hrest := MaskedText.rest_ofText (reads_classes cs gap [])
  rw [bytes_classes] at hrest
  obtain ⟨table, entries, hread, hentries, hall⟩ :=
    classesFrom_eq file ∅ hrest (.inl rfl) hnames hdistinct
  exact ⟨table, hread, by rw [hentries]; exact hall⟩

theorem unquoted_samplePanel :
    ∀ b ∈ Text.ofString "a;", b ≠ Byte.singleQuote ∧ b ≠ Byte.backslash := by
  decide

theorem nameFits_samplePanel : NameFits (FunctionSlot.method .priv).sigil false "load" :=
  ⟨by decide, by simp [FunctionSlot.sigil, accessSigil]⟩

theorem isIdentifier_samplePanel : ∀ p ∈ [Text.ofString "x"], p.isIdentifier = true := by
  decide

theorem isBody_samplePanel : IsBody "{ f(x); }" := ⟨by decide, by decide⟩

theorem isMemberName_samplePanel : ∀ r ∈ [Text.ofString "Row"], r.isMemberName = true := by
  decide

theorem nonempty_samplePanel :
    some (Text.ofString "item") ≠ none ∨ [Text.ofString "Row"] ≠ [] :=
  .inl (Option.some_ne_none _)

theorem gapFits_samplePanel :
    ∀ f ∈ ([] : Gap).getLast?, ∀ t h, f ≠ .blockComment t h := by
  simp

theorem isIdentifier_name_samplePanel : (Text.ofString "Panel").isIdentifier = true := by
  decide

theorem isIdentifier_parents_samplePanel :
    ∀ p ∈ [Text.ofString "View"], p.isIdentifier = true := by
  decide

/-- The class `class Panel < View { title: 'a;'; -load: (x) { f(x); } item.Row \x7b\x7d }`. -/
def samplePanel : ClassSource where
  gap := []
  name := "Panel"
  parents := ["View"]
  block := .member [.space Byte.space isSpace_space]
    (.string (.var .pub) "title" "a;" nameFits_title unquoted_samplePanel)
    (.member [.space Byte.space isSpace_space]
      (.function (.method .priv) "load" ["x"] "{ f(x); }" false nameFits_samplePanel
        isIdentifier_samplePanel isBody_samplePanel)
      (.node [.space Byte.space isSpace_space]
        ⟨some "item", ["Row"], namePart_item, isMemberName_samplePanel, nonempty_samplePanel⟩
        (.done []) false (.done [.space Byte.space isSpace_space])))
  gap_fits := gapFits_samplePanel
  name_fits := isIdentifier_name_samplePanel
  parents_fit := isIdentifier_parents_samplePanel

theorem classes_text_samplePanel : ([samplePanel].map ClassSource.name).Nodup ∧
    samplePanel.Distinct ∧
    ∃ table, (MaskedText.ofText .declarations (classesText [samplePanel] [])).classes "a" 0 =
        .ok table ∧ DescribesAll "a" [samplePanel] table.entries := by
  have hnames : ([samplePanel].map ClassSource.name).Nodup := by decide
  have hdistinct : samplePanel.Distinct := by
    refine ⟨?_, ⟨.nil, trivial, trivial⟩, by decide⟩
    simp [samplePanel, Block.members, Apart, Member.slot]
  exact ⟨hnames, hdistinct, classes_text [samplePanel] [] "a" hnames (by simpa using hdistinct)⟩

end Written

end PageLang
