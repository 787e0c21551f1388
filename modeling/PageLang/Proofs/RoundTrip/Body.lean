import PageLang.Proofs.Element.Body
import PageLang.Proofs.RoundTrip.Declaration
import PageLang.Proofs.RoundTrip.Files

/-!
# Reading a body

A body is read statement by statement. Which statement stands at an offset shows at the first live
delimiter: behind the name of a member it is a colon, and behind the header of an element a
semicolon or a brace. An element with a block is read by reading the block, so the proof goes by
induction on blocks.

* `Header.elementAt_leaf`, `Header.elementAt_node`: an element, by its header and its block.
* `Block.body`: a block is read as its members and its elements, up to its closing brace.
-/

namespace PageLang.MaskedText

/-! ## One statement of a body -/

variable {s : MaskedText} {unknown : Problem} {close pos i : Nat}

/-- At `i` stands the element `e`, which ends at `next`. -/
def ElementAt (s : MaskedText) (i next : Nat) (e : Element) : Prop :=
  ∃ head, s.elementHead i = .ok head ∧ head.next = next ∧
    head.element (match head.block with
      | none => .ended head.next
      | some (opening, stop) => s.body .elementStatement stop (opening + 1)) = .ok e

theorem element_eq {next : Nat} {e : Element} (he : s.ElementAt i next e) :
    s.element i = .ok (e, next) := by
  obtain ⟨head, hhead, rfl, he⟩ := he
  rw [element_eq_innerBody, hhead]
  exact congrArg (Except.map fun e => (e, head.next)) he

theorem body_element (hi : s.skipTrivia pos = i) (hclose : i < close)
    (hkind : s.statementKind i = .element) {next : Nat} {e : Element} (he : s.ElementAt i next e) :
    s.body unknown close pos = (s.body unknown close next).consChild e := by
  rw [body_of_element unknown hi hclose hkind, element_eq he]

end PageLang.MaskedText

namespace PageLang.Written

open Cell

/-! ## Headers -/

namespace Header

section
variable {s : MaskedText} {i : Nat} {v : List Cell} {t : Text} {c : UInt8}

theorem filter_name (h : Header) : (some (h.name.getD [])).filter (fun n => !n.isEmpty) = h.name := by
  cases hn : h.name with
  | none => rfl
  | some n => simp [(h.name_fits n hn).1]

theorem trim_text (h : Header) (ht : t = [] ∨ t = [Byte.space]) :
    (h.text ++ t).trim = h.text := by
  rcases ht with rfl | rfl
  · rw [List.append_nil]
    exact Text.trim_of_ink h.isInk
  · exact Text.trim_append_space h.isInk

/-- The delimiter behind a header. -/
theorem findAny?_delimiter (h : Header) (hrest : s.Rest i (live (h.text ++ t) ++ (c, false) :: v))
    (ht : t = [] ∨ t = [Byte.space]) (set : Text) (hc : c ∈ set)
    (hset : ∀ b ∈ set, b ∈ [Byte.colon, Byte.semicolon, Byte.lbrace, Byte.rbrace]) :
    s.findAny? set i = some (i + (h.text ++ t).length, c) := by
  have := hrest.findAny? set (fun d hd _ hmem => ?_) hc
  · rwa [length_live] at this
  · obtain ⟨b, hb, rfl⟩ := List.mem_map.1 hd
    have hmem := hset b hmem
    rcases List.mem_append.1 hb with hb | hb
    · have := h.forall_mem b hb
      simp [this] at hmem
    · rcases ht with rfl | rfl
      · simp at hb
      · obtain rfl : b = Byte.space := by simpa using hb
        exact absurd hmem (by decide)

theorem statementKind (h : Header) (hrest : s.Rest i (live (h.text ++ t) ++ (c, false) :: v))
    (ht : t = [] ∨ t = [Byte.space]) (hc : c = Byte.semicolon ∨ c = Byte.lbrace) :
    s.statementKind i = .element := by
  obtain ⟨b, rest, hb, -⟩ := h.isInk.first
  have hfirst := h.forall_mem b (by simp [hb])
  have hbyte : s.byte? i = some b := by
    rw [hrest.byte?_zero, hb]
    rfl
  have hfind := h.findAny?_delimiter hrest ht
    [Byte.colon, Byte.semicolon, Byte.lbrace, Byte.rbrace]
    (by rcases hc with rfl | rfl <;> decide) (by simp)
  have hslice := hrest.slice
  rw [length_live, bytes_live] at hslice
  have hheader : PageLang.isElementHeader (h.text ++ t) = true := isElementHeader (h.trim_text ht)
  rw [MaskedText.statementKind, hbyte]
  split
  · simp at *
  · simp_all
  · simp_all
  · next d _ _ heq =>
    obtain rfl : b = d := by simpa using heq
    have hcolon : c ≠ Byte.colon := by rcases hc with rfl | rfl <;> decide
    rw [if_neg hfirst.2.2.1]
    simp only [hfind, hslice]
    rw [if_neg hcolon, if_pos ⟨hc, hheader⟩]

/-- What the head of an element shows up to its delimiter. -/
theorem elementHead_eq (h : Header) (hrest : s.Rest i (live (h.text ++ t) ++ (c, false) :: v))
    (ht : t = [] ∨ t = [Byte.space]) (hc : c = Byte.semicolon ∨ c = Byte.lbrace) :
    s.elementHead i =
      if c = Byte.semicolon then
        .ok ⟨h.name, h.refs, ⟨i, i + (h.text ++ t).length + 1⟩, none,
          i + (h.text ++ t).length + 1⟩
      else match s.closingBrace? (i + (h.text ++ t).length) with
        | none => .error ⟨.elementUnclosed h.text, ⟨i, i + (h.text ++ t).length + 1⟩⟩
        | some close => .ok ⟨h.name, h.refs, ⟨i, close + 1⟩,
            some (i + (h.text ++ t).length, close), s.skipSemicolon (close + 1)⟩ := by
  have hfind := h.findAny?_delimiter hrest ht [Byte.semicolon, Byte.lbrace]
    (by rcases hc with rfl | rfl <;> decide) (by decide)
  have hslice := hrest.slice
  rw [length_live, bytes_live] at hslice
  have hheader : PageLang.isElementHeader h.text = true :=
    isElementHeader (Text.trim_of_ink h.isInk)
  rw [MaskedText.elementHead, hfind]
  simp only [hslice, h.trim_text ht, hheader, if_true, h.splitOn_text, List.head?_cons,
    List.tail_cons, h.filter_name] <;> rfl

/-- An element without a block. -/
theorem elementAt_leaf (h : Header) (hrest : s.Rest i (live (h.text ++ [Byte.semicolon]) ++ v)) :
    ∃ span, s.ElementAt i (i + h.text.length + 1) ⟨h.name, h.refs, ∅, [], span⟩ := by
  have hrest : s.Rest i (live (h.text ++ []) ++ (Byte.semicolon, false) :: v) := by
    simpa using hrest
  have hhead := h.elementHead_eq hrest (.inl rfl) (.inl rfl)
  rw [if_pos rfl, List.append_nil] at hhead
  exact ⟨_, _, hhead, rfl, rfl⟩

/-- An element with a block, whose inside is read up to the matching brace. -/
theorem elementAt_node (h : Header) {inner : List Cell} {semicolon : Bool}
    (hrest : s.Rest i (live (h.text ++ [Byte.space]) ++ (Byte.lbrace, false) ::
      (inner ++ (Byte.rbrace, false) :: (live (Gap.ending semicolon) ++ v))))
    (hinner : Balanced inner) (hv : semicolon = false → Gap.Continues v)
    {ds : List Declaration} {es : List Element} {stop : Nat}
    (hbody : s.body .elementStatement (i + h.text.length + 1 + 1 + inner.length)
      (i + h.text.length + 1 + 1) = ⟨ds, es, none, stop⟩) :
    ∃ span, s.ElementAt i
      (i + h.text.length + 1 + 1 + inner.length + 1 + (Gap.ending semicolon).length)
      ⟨h.name, h.refs, .ofDeclarations ds, es, span⟩ := by
  have hblock := hrest.skip
  have hopening : i + (live (h.text ++ [Byte.space])).length = i + h.text.length + 1 := by
    simp [Nat.add_assoc]
  rw [hopening] at hblock
  rw [length_live] at hopening
  have hclose := MaskedText.Rest.closingBrace? hblock hinner
  have hnext := Gap.skipSemicolon_eq hblock.tail.skip.tail hv
  have hhead := h.elementHead_eq hrest (.inr rfl) (.inr rfl)
  rw [if_neg (by decide), hopening, hclose] at hhead
  refine ⟨⟨i, i + h.text.length + 1 + 1 + inner.length + 1⟩, _, hhead, hnext, ?_⟩
  show ElementHead.element _ (s.body .elementStatement _ (i + h.text.length + 1 + 1)) = _
  rw [hbody]
  rfl

end

end Header

/-! ## What statements begin with -/

theorem starts_live {t : Text} (hne : t ≠ [])
    (ht : ∀ b ∈ t, Byte.isInk b = true ∧ Byte.isPlain b = true ∧ b ≠ Byte.semicolon)
    (v : List Cell) : Gap.Starts (live t ++ v) := by
  obtain ⟨b, t, rfl⟩ := List.exists_cons_of_ne_nil hne
  intro c hc
  obtain rfl : (b, false) = c := by simpa using hc
  obtain ⟨hink, hplain, hsemicolon⟩ := ht b (.head _)
  refine ⟨Byte.isSpace_of_isInk b hink, ?_, hsemicolon⟩
  rintro rfl
  exact absurd hplain (by decide)

theorem Header.starts (h : Header) (v : List Cell) : Gap.Starts (live h.text ++ v) :=
  starts_live h.ne_nil (fun b hb => by have := h.forall_mem b hb; simp [this]) v

theorem Member.starts (m : Member) (v : List Cell) : Gap.Starts (m.cells ++ v) := by
  cases m with
  | string slot name value hname hvalue =>
    rw [cells, List.append_assoc]
    exact starts_live hname.written_ne_nil
      (fun b hb => by have := hname.forall_mem_written slot.isSigil b hb; simp [this]) _
  | function slot name parameters body semicolon hname hparameters hbody =>
    rw [cells, List.append_assoc, List.append_assoc]
    exact starts_live hname.written_ne_nil
      (fun b hb => by have := hname.forall_mem_written slot.isSigil b hb; simp [this]) _

namespace Block

/-- The gap in front of a block. -/
theorem continues (b : Block) {v : List Cell} (hv : Gap.Starts v) :
    Gap.Continues (b.cells ++ v) := by
  cases b with
  | done gap => exact ⟨gap, v, rfl, hv⟩
  | member gap m rest =>
    refine ⟨gap, m.cells ++ (rest.cells ++ v), by simp [cells], m.starts _⟩
  | leaf gap h rest =>
    exact ⟨gap, live h.text ++ (live [Byte.semicolon] ++ (rest.cells ++ v)), by simp [cells],
      h.starts _⟩
  | node gap h inner semicolon rest =>
    exact ⟨gap, live h.text ++ (live [Byte.space] ++ (live [Byte.lbrace] ++ inner.cells ++
      live [Byte.rbrace]) ++ (live (Gap.ending semicolon) ++ (rest.cells ++ v))), by simp [cells],
      h.starts _⟩

theorem starts_rbrace (v : List Cell) : Gap.Starts ((Byte.rbrace, false) :: v) := by
  intro c hc
  obtain rfl : (Byte.rbrace, false) = c := by simpa using hc
  decide

/-! ## Bodies -/

/-- A block is read as its members and its elements, up to its closing brace and without a
fault. -/
theorem body (b : Block) {s : MaskedText} {pos : Nat} {v : List Cell} (unknown : Problem)
    (h : s.Rest pos (b.cells ++ (Byte.rbrace, false) :: v)) (hdistinct : b.DistinctBelow) :
    ∃ ds es stop, s.body unknown (pos + b.cells.length) pos = ⟨ds, es, none, stop⟩ ∧
      DeclaresAll b.members ds ∧ b.Children es := by
  induction b generalizing unknown pos v with
  | done gap =>
    have hskip := gap.skipTrivia_of_starts h (starts_rbrace v)
    exact ⟨[], [], _, MaskedText.body_ended hskip (Nat.le_refl _), rfl, rfl⟩
  | member gap m rest ih =>
    simp only [cells, List.append_assoc] at h
    have hskip := gap.skipTrivia_of_starts h (m.starts _)
    have hstatement := h.skip
    obtain ⟨d, hd, hdeclares⟩ := m.declaration? hstatement
      (fun _ => rest.continues (starts_rbrace v))
    obtain ⟨ds, es, stop, hbody, hds, hes⟩ := ih unknown hstatement.skip hdistinct
    have hclose : pos + (member gap m rest).cells.length =
        pos + gap.cells.length + m.cells.length + rest.cells.length := by
      simp [cells]
      omega
    have hlt := MaskedText.lt_of_declaration? hd
    refine ⟨d :: ds, es, stop, ?_, ⟨d, ds, rfl, hdeclares, hds⟩, hes⟩
    rw [MaskedText.body_declaration hskip (by omega) (m.statementKind hstatement) hd, hclose, hbody]
    rfl
  | leaf gap hd rest ih =>
    simp only [cells, live_append, List.append_assoc] at h
    have hskip := gap.skipTrivia_of_starts h (hd.starts _)
    have hstatement : s.Rest (pos + gap.cells.length)
        (live (hd.text ++ [Byte.semicolon]) ++ (rest.cells ++ (Byte.rbrace, false) :: v)) := by
      simpa using h.skip
    obtain ⟨span, he⟩ := hd.elementAt_leaf hstatement
    have hkind := hd.statementKind (t := []) (by simpa using hstatement) (.inl rfl) (.inl rfl)
    have hrest := hstatement.skip
    rw [length_live, List.length_append, List.length_singleton, ← Nat.add_assoc] at hrest
    obtain ⟨ds, es, stop, hbody, hds, hes⟩ := ih unknown hrest hdistinct
    have hclose : pos + (leaf gap hd rest).cells.length =
        pos + gap.cells.length + hd.text.length + 1 + rest.cells.length := by
      simp [cells]
      omega
    refine ⟨ds, ⟨hd.name, hd.refs, ∅, [], span⟩ :: es, stop, ?_, hds, _, es, rfl, rfl, rfl, .empty,
      rfl, hes⟩
    rw [MaskedText.body_element hskip (by omega) hkind he, hclose, hbody]
    rfl
  | node gap hd inner semicolon rest ihInner ih =>
    obtain ⟨hinner, hbelow, hdistinct⟩ := hdistinct
    simp only [cells, List.append_assoc] at h
    have hskip := gap.skipTrivia_of_starts h (by simpa using hd.starts _)
    have hstatement : s.Rest (pos + gap.cells.length)
        (live (hd.text ++ [Byte.space]) ++ (Byte.lbrace, false) ::
          (inner.cells ++ (Byte.rbrace, false) :: (live (Gap.ending semicolon) ++
            (rest.cells ++ (Byte.rbrace, false) :: v)))) := by
      simpa using h.skip
    have hblock := hstatement.skip.tail
    rw [length_live, List.length_append, List.length_singleton, ← Nat.add_assoc] at hblock
    have hrest := hblock.skip.tail.skip
    obtain ⟨dsInner, esInner, stopInner, hbodyInner, hdsInner, hesInner⟩ :=
      ihInner .elementStatement hblock hbelow
    obtain ⟨span, he⟩ := hd.elementAt_node hstatement inner.balanced
      (fun _ => rest.continues (starts_rbrace v)) hbodyInner
    have hkind := hd.statementKind (t := [Byte.space]) hstatement (.inr rfl) (.inr rfl)
    rw [length_live] at hrest
    obtain ⟨ds, es, stop, hbody, hds, hes⟩ := ih unknown hrest hdistinct
    have hclose : pos + (node gap hd inner semicolon rest).cells.length =
        pos + gap.cells.length + hd.text.length + 1 + 1 + inner.cells.length + 1 +
          (Gap.ending semicolon).length + rest.cells.length := by
      simp [cells]
      omega
    refine ⟨ds, ⟨hd.name, hd.refs, .ofDeclarations dsInner, esInner, span⟩ :: es, stop, ?_, hds, _,
      es, rfl, rfl, rfl, files_ofDeclarations hdsInner hinner, hesInner, hes⟩
    rw [MaskedText.body_element hskip (by omega) hkind he, hclose, hbody]
    rfl

end Block

end PageLang.Written
