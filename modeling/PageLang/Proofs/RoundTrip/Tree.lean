import PageLang.Proofs.Hierarchy.Statements
import PageLang.Proofs.RoundTrip.Body

/-!
# Reading a tree back

A source that holds nothing but elements, with gaps between them, is read as these elements and
without font faces. The only element that is taken for something else is one whose header is the
bare word `class` before a block: it reads as a class and is passed over.

* `hierarchy_text`: the tree of a source.
-/

namespace PageLang

namespace Written

open Cell

/-- No element of a block, as far as it has a block itself, is headed by the bare word `class`. -/
def Block.NoClass : Block → Prop
  | .done _ => True
  | .member _ _ rest => rest.NoClass
  | .leaf _ _ rest => rest.NoClass
  | .node _ h _ _ rest => h.text ≠ Text.ofString "class" ∧ rest.NoClass

namespace Header

variable {s : MaskedText} {i : Nat} {v : List Cell} {t : Text} {c : UInt8}

theorem star_notMem (h : Header) : Byte.star ∉ h.text := by
  have hstar : ¬ Byte.isNamePart Byte.star = true := by decide
  intro hb
  simp only [text, List.mem_append, List.mem_flatMap, List.mem_cons] at hb
  rcases hb with hb | ⟨r, hr, hb | hb⟩
  · exact hstar (h.forall_mem_name _ hb)
  · exact absurd hb (by decide)
  · exact hstar (h.forall_mem_ref r hr _ hb)

/-- A header is no directive and no font face, which begin with a star. -/
theorem hasWord_eq_false (h : Header) (hrest : s.Rest i (live h.text ++ v)) (word : Text)
    (hword : word.head? = some Byte.star) : s.hasWord word i = false := by
  have hstarts : s.startsAt word i = false := by
    obtain ⟨word, rfl⟩ := List.head?_eq_some_iff.1 hword
    obtain ⟨b, rest, hb, -⟩ := h.isInk.first
    rw [hrest.startsAt, hb]
    have hne : b ≠ Byte.star := fun he => h.star_notMem (by simp [hb, he])
    simp [hne]
  rw [MaskedText.hasWord, hstarts, Bool.false_and]

/-- A header is no class, unless it is that very word and a blank follows. -/
theorem startsClass_eq_false (h : Header) (hrest : s.Rest i (live (h.text ++ t) ++ (c, false) :: v))
    (ht : t = [] ∧ c = Byte.semicolon ∨ t = [Byte.space] ∧ h.text ≠ Text.ofString "class") :
    s.startsClass i = false := by
  -- what follows the header stands nowhere in the word
  obtain ⟨d, tail, htail, hd, hink⟩ : ∃ d tail, live t ++ (c, false) :: v = (d, false) :: tail ∧
      d ∉ Text.ofString "class" ∧ (h.text = Text.ofString "class" → Byte.isInk d = true) := by
    rcases ht with ⟨rfl, rfl⟩ | ⟨rfl, hne⟩
    · exact ⟨Byte.semicolon, v, rfl, by decide, fun _ => by decide⟩
    · exact ⟨Byte.space, (c, false) :: v, rfl, by decide, fun he => absurd he hne⟩
  have hrest : s.Rest i (live h.text ++ (d, false) :: tail) := by
    rw [← htail, ← List.append_assoc, ← live_append]
    exact hrest
  rw [MaskedText.startsClass, Bool.and_eq_false_iff, hrest.startsAt, bytes_append, bytes_live,
    beq_eq_false_iff_ne, Classical.or_iff_not_imp_left, Classical.not_not]
  intro hword
  have hlength : 5 ≤ h.text.length := by
    refine Nat.le_of_not_lt fun hlt => hd ?_
    rw [← hword]
    refine List.mem_of_getElem? (i := h.text.length) ?_
    rw [List.getElem?_take_of_lt (show h.text.length < (Text.ofString "class").length from hlt)]
    simp
  obtain ⟨rest, htext⟩ : ∃ rest, h.text = Text.ofString "class" ++ rest := by
    rw [List.take_append_of_le_length (show (Text.ofString "class").length ≤ _ from hlength)] at hword
    exact ⟨h.text.drop 5, by rw [← hword]; exact (List.take_append_drop 5 h.text).symm⟩
  rw [htext, live_append, List.append_assoc] at hrest
  have hafter : s.Rest (i + 5) (live rest ++ (d, false) :: tail) := hrest.skip
  rw [show i + 8 = i + 5 + 3 from rfl, hafter.slice_take]
  cases rest with
  | nil => exact Text.startsBlank_of_ink (hink (by simpa using htext))
  | cons b rest => exact Text.startsBlank_of_ink (h.forall_mem b (by simp [htext])).1

theorem topLevelAt (h : Header) (hrest : s.Rest i (live (h.text ++ t) ++ (c, false) :: v))
    (ht : t = [] ∧ c = Byte.semicolon ∨
      t = [Byte.space] ∧ c = Byte.lbrace ∧ h.text ≠ Text.ofString "class")
    {next : Nat} {e : Element} (he : s.ElementAt i next e) :
    s.topLevelAt i = .found ⟨[e], []⟩ next := by
  have hfirst : s.byte? i ≠ some Byte.semicolon := by
    obtain ⟨b, rest, hb, -⟩ := h.isInk.first
    have := (h.forall_mem b (by simp [hb])).2.2.2.1
    rw [hrest.byte?_zero, hb]
    simpa using this
  have hwords : s.Rest i (live h.text ++ (live t ++ (c, false) :: v)) := by simpa using hrest
  have hinclude := h.hasWord_eq_false hwords "*include" rfl
  have hjson := h.hasWord_eq_false hwords "*json" rfl
  have hfont := h.hasWord_eq_false hwords "*font-face" rfl
  have hclass := h.startsClass_eq_false hrest (by
    rcases ht with ht | ⟨ht, -, hne⟩
    · exact .inl ht
    · exact .inr ⟨ht, hne⟩)
  have hkind := h.statementKind hrest (by rcases ht with ⟨ht, -⟩ | ⟨ht, -⟩ <;> simp [ht])
    (by rcases ht with ⟨-, hc⟩ | ⟨-, hc, -⟩ <;> simp [hc])
  rw [MaskedText.topLevelAt, if_neg hfirst, MaskedText.isDirective, hinclude, hjson, hfont, hclass,
    if_neg (by decide), if_neg (by decide), if_neg (by decide), if_pos hkind, MaskedText.rootAt,
    MaskedText.element_eq he]

end Header

/-- The elements of a block are the roots that are read from it, if nothing follows. -/
theorem Block.hierarchyFrom (b : Block) {s : MaskedText} {pos : Nat} (tree : Hierarchy)
    (h : s.Rest pos b.cells) (hmembers : b.members = []) (hclass : b.NoClass)
    (hdistinct : b.DistinctBelow) :
    ∃ es, s.hierarchyFrom tree pos = .ok ⟨tree.roots ++ es, tree.fontFaces⟩ ∧ b.Children es := by
  induction b generalizing tree pos with
  | done gap =>
    have h : s.Rest pos (gap.cells ++ []) := by simpa [cells] using h
    have hskip := gap.skipTrivia_of_starts h (by simp [Gap.Starts])
    refine ⟨[], ?_, rfl⟩
    rw [MaskedText.hierarchyFrom_end (by rw [hskip, h.skip.size_eq]; exact Nat.le_refl _)]
    simp
  | member gap m rest => simp [members] at hmembers
  | leaf gap hd rest ih =>
    simp only [cells, live_append, List.append_assoc] at h
    have hskip := gap.skipTrivia_of_starts h (hd.starts _)
    have hstatement : s.Rest (pos + gap.cells.length)
        (live (hd.text ++ []) ++ (Byte.semicolon, false) :: rest.cells) := by
      simpa using h.skip
    obtain ⟨span, he⟩ := hd.elementAt_leaf (v := rest.cells) (by simpa using hstatement)
    have hfound := hd.topLevelAt hstatement (.inl ⟨rfl, rfl⟩) he
    have hrest := hstatement.skip.tail
    rw [length_live, List.append_nil] at hrest
    obtain ⟨es, hread, hes⟩ := ih (tree.append ⟨[⟨hd.name, hd.refs, ∅, [], span⟩], []⟩) hrest
      hmembers hclass hdistinct
    have hlt : pos + gap.cells.length < s.size := by
      have := hstatement.size_eq
      simp at this
      omega
    refine ⟨⟨hd.name, hd.refs, ∅, [], span⟩ :: es, ?_, _, es, rfl, rfl, rfl, .empty, rfl, hes⟩
    rw [MaskedText.hierarchyFrom_found hskip hlt hfound, hread]
    simp [Hierarchy.append]
  | node gap hd inner semicolon rest _ ih =>
    obtain ⟨hinner, hbelow, hdistinct⟩ := hdistinct
    simp only [cells, List.append_assoc] at h
    have hskip := gap.skipTrivia_of_starts h (by simpa using hd.starts _)
    have hstatement : s.Rest (pos + gap.cells.length)
        (live (hd.text ++ [Byte.space]) ++ (Byte.lbrace, false) ::
          (inner.cells ++ (Byte.rbrace, false) :: (live (Gap.ending semicolon) ++ rest.cells))) := by
      simpa using h.skip
    have hblock := hstatement.skip.tail
    rw [length_live, List.length_append, List.length_singleton, ← Nat.add_assoc] at hblock
    have hrest := hblock.skip.tail.skip
    rw [length_live] at hrest
    obtain ⟨ds, esInner, stop, hbody, hds, hesInner⟩ := inner.body .elementStatement hblock hbelow
    obtain ⟨span, he⟩ := hd.elementAt_node hstatement inner.balanced
      (fun _ => by simpa using rest.continues (v := []) (by simp [Gap.Starts])) hbody
    have hfound := hd.topLevelAt hstatement (.inr ⟨rfl, rfl, hclass.1⟩) he
    have hlt : pos + gap.cells.length < s.size := by
      have := hstatement.size_eq
      simp at this
      omega
    obtain ⟨es, hread, hes⟩ :=
      ih (tree.append ⟨[⟨hd.name, hd.refs, .ofDeclarations ds, esInner, span⟩], []⟩) hrest
        hmembers hclass.2 hdistinct
    refine ⟨⟨hd.name, hd.refs, .ofDeclarations ds, esInner, span⟩ :: es, ?_, _, es, rfl, rfl, rfl,
      files_ofDeclarations hds hinner, hesInner, hes⟩
    rw [MaskedText.hierarchyFrom_found hskip hlt hfound, hread]
    simp [Hierarchy.append]

/-- A source of elements, with any gaps between them, is read as exactly these elements and without
font faces. -/
theorem hierarchy_text (b : Block) (hmembers : b.members = []) (hclass : b.NoClass)
    (hdistinct : b.DistinctBelow) :
    ∃ es, (MaskedText.ofText .declarations b.text).hierarchy 0 = .ok ⟨es, []⟩ ∧ b.Children es := by
  have hreads : Mask.State.Reads (.start .declarations) [] b.cells [] (.start .declarations) :=
    b.reads [] []
  have hrest := MaskedText.rest_ofText hreads
  rw [b.bytes_cells] at hrest
  obtain ⟨es, hread, hes⟩ := b.hierarchyFrom ∅ hrest hmembers hclass hdistinct
  exact ⟨es, hread, hes⟩

/-- The header `main.View`. -/
def sampleMain : Header :=
  ⟨some "main", ["View"], by decide, by decide, by decide⟩

theorem unquoted_samplePage :
    ∀ b ∈ Text.ofString "a;\x7b", b ≠ Byte.singleQuote ∧ b ≠ Byte.backslash := by
  decide

/-- The header `item`. -/
def sampleItem : Header := ⟨some "item", [], namePart_item, by decide, by decide⟩

theorem newline_notMem_samplePage : Byte.newline ∉ Text.ofString " end" := by decide

/-- The source `main.View { title: 'a;\x7b'; item; };` with a comment behind it. -/
def samplePage : Block :=
  .node [] sampleMain
    (.member [.space Byte.space isSpace_space]
      (.string (.var .pub) "title" "a;\x7b" nameFits_title unquoted_samplePage)
      (.leaf [.space Byte.space isSpace_space] sampleItem
        (.done [.space Byte.space isSpace_space])))
    true (.done [.lineComment " end" newline_notMem_samplePage])

theorem hierarchy_text_samplePage : samplePage.members = [] ∧ samplePage.NoClass ∧
    samplePage.DistinctBelow ∧
    ∃ es, (MaskedText.ofText .declarations samplePage.text).hierarchy 0 = .ok ⟨es, []⟩ ∧
      samplePage.Children es := by
  have hmembers : samplePage.members = [] := rfl
  have hclass : samplePage.NoClass := ⟨by decide, trivial⟩
  have hdistinct : samplePage.DistinctBelow := ⟨List.pairwise_singleton .., trivial, trivial⟩
  exact ⟨hmembers, hclass, hdistinct, hierarchy_text samplePage hmembers hclass hdistinct⟩

end Written

end PageLang
