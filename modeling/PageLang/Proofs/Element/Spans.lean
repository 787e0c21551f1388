import PageLang.Proofs.Element.Extent
import PageLang.Proofs.Element.Ways

/-!
# The spans of an element and of all that is in it

A child is read without a look at the block it stands in: its head ends at the first live semicolon
or opening brace, wherever that is, and its block where the braces match. It stays in the block all
the same. The kind of a statement is read off the first live point of decision, and the brace that
closes the block is one, so the head ends in front of it; and a block that opens in a block is closed
in it. What is skipped behind a child may lie behind the block. The next child starts behind it.

* `MaskedText.element_cases`: what an element is read from.
* `MaskedText.element_in_block`: a child ends in front of the brace that closes the block.
* `MaskedText.Runs.children`: the children of a body, one behind the other.
* `MaskedText.element_spans`: the spans of an element and its descendants form a tree.
-/

namespace PageLang

/-- A text that begins with no blank begins with what trimming leaves of it. -/
theorem Text.prefix_trim {t : Text} (h : t.startsBlank = false) : t.trim <+: t := by
  have hstart : t.trimStart = t := by
    cases t with
    | nil => rfl
    | cons b rest =>
      have hnone : blanks.find? (fun m => m.isPrefixOf (b :: rest)) = none := by
        rw [List.find?_eq_none]
        intro m hm hmark
        exact Bool.false_ne_true (h ▸ List.any_eq_true.2 ⟨m, hm, hmark⟩)
      rw [trimStart, stripMarks, hnone]
  rw [trim, hstart]
  exact prefix_trimEnd t

namespace Element

/-- What is written in front of the block of an element: its name, if it has one, and behind it the
references, each with a point in front. -/
def header (e : Element) : Text := e.name.getD [] ++ e.classRefs.flatMap (Byte.dot :: ·)

end Element

namespace MaskedText

/-! ## Elements -/

/-- From the start of the span of an element up to the live byte `b` stands its header, but for blank
space around it. Where the span does not start with a blank, the header starts there. -/
structure Headed (s : MaskedText) (e : Element) (stop : Nat) (b : UInt8) : Prop where
  found : s.findAny? [Byte.semicolon, Byte.lbrace] e.span.start = some (stop, b)
  header : (s.slice e.span.start stop).trim = e.header
  starts : (s.slice e.span.start stop).startsBlank = false →
    e.header <+: s.slice e.span.start stop

theorem headed_of_trim {s : MaskedText} {e : Element} {stop : Nat} {b : UInt8}
    (hfind : s.findAny? [Byte.semicolon, Byte.lbrace] e.span.start = some (stop, b))
    (hheader : (s.slice e.span.start stop).trim = e.header) : s.Headed e stop b :=
  ⟨hfind, hheader, fun hfirst => hheader ▸ Text.prefix_trim hfirst⟩

/-- Where the parts of an element stand, and where its children do. -/
inductive Stands (s : MaskedText) (e : Element) : Prop
  /-- An element without a block ends with its semicolon. -/
  | single {stop : Nat} (head : s.Headed e stop Byte.semicolon) (span : e.span.stop = stop + 1)
    (children : e.children = [])
  /-- The children stand between the braces of the block, one behind the other. -/
  | block {opening close : Nat} (head : s.Headed e opening Byte.lbrace)
    (closes : s.closingBrace? opening = some close) (span : e.span.stop = close + 1)
    (inside : ∀ c ∈ e.children, opening < c.span.start ∧ c.span.stop ≤ close)
    (statements : ∀ c ∈ e.children, s.skipTrivia c.span.start = c.span.start)
    (apart : e.children.Pairwise (fun a b => a.span.stop ≤ b.span.start))

/-- The name and the references of an element make up the header they are read from. -/
theorem eq_of_segments {header : Text} {segments : List Text}
    (h : header.splitOn Byte.dot = segments) :
    header = (segments.head?.filter (fun name => !name.isEmpty)).getD [] ++
      segments.tail.flatMap (Byte.dot :: ·) := by
  obtain ⟨name, refs, rfl⟩ := List.exists_cons_of_ne_nil (h ▸ Text.splitOn_ne_nil Byte.dot header)
  have hheader := Text.eq_of_splitOn h
  cases name with
  | nil => exact hheader
  | cons b name => exact hheader

section
variable {s : MaskedText} {i next : Nat} {e : Element}

/-- An element that is read ends with a semicolon behind its header, or with the brace that closes
its block and a semicolon behind that. -/
theorem element_cases (h : s.element i = .ok (e, next)) :
    e.span.start = i ∧
      ((∃ stop, s.Headed e stop Byte.semicolon ∧ e.span.stop = stop + 1 ∧ e.children = [] ∧
        next = stop + 1) ∨
      ∃ opening close, s.Headed e opening Byte.lbrace ∧ s.closingBrace? opening = some close ∧
        e.span.stop = close + 1 ∧ next = s.skipSemicolon (close + 1) ∧
        e.children = (s.body .elementStatement close (opening + 1)).children) := by
  obtain ⟨head, hhead, rfl, hread⟩ := elementHead_of_element h
  obtain ⟨-, rfl⟩ : (s.innerBody head).fault = none ∧ e = ⟨head.name, head.classRefs,
      .ofDeclarations (s.innerBody head).declarations, (s.innerBody head).children, head.span⟩ := by
    unfold ElementHead.element at hread
    split at hread
    · cases hread
    · next hfault => exact ⟨hfault, (Except.ok.inj hread).symm⟩
  unfold elementHead at hhead
  split at hhead
  · cases hhead
  next stop b hfind =>
  dsimp only at hhead
  split at hhead
  · have hheader := eq_of_segments (rfl : (s.slice i stop).trim.splitOn Byte.dot = _)
    split at hhead
    · next hb =>
      cases hhead
      exact ⟨rfl, .inl ⟨stop, headed_of_trim (hb ▸ hfind) hheader, rfl, rfl, rfl⟩⟩
    · next hb =>
      have hbrace : b = Byte.lbrace := by simpa [hb] using (findAny?_eq_some hfind).2.2.2
      split at hhead
      · cases hhead
      · next close hclose =>
        cases hhead
        exact ⟨rfl, .inr ⟨stop, close, headed_of_trim (hbrace ▸ hfind) hheader, hclose, rfl, rfl,
          rfl⟩⟩
  · cases hhead

theorem start_of_element (h : s.element i = .ok (e, next)) : e.span.start = i :=
  (element_cases h).1

/-- The span of an element ends behind its start, and the reading goes on behind it. -/
theorem span_of_element (h : s.element i = .ok (e, next)) :
    e.span.start < e.span.stop ∧ e.span.stop ≤ next ∧ next ≤ s.size := by
  obtain ⟨-, ⟨stop, hheaded, hspan, -, rfl⟩ | ⟨opening, close, hheaded, hclose, hspan, rfl, -⟩⟩ :=
    element_cases h
  · obtain ⟨hle, hlt, -⟩ := findAny?_eq_some hheaded.found
    omega
  · obtain ⟨hle, -⟩ := findAny?_eq_some hheaded.found
    obtain ⟨hopen, hsize⟩ := closingBrace?_eq_some hclose
    have hback := s.le_skipSemicolon (i := close + 1)
    have hin := s.skipSemicolon_le_size (i := close + 1) hsize
    omega

/-! ## Children -/

/-- Where an element starts in front of a closing brace, its header ends in front of the brace: the
kind of the statement is read off the first live byte that decides, and the brace would decide. -/
theorem header_lt_of_statementKind {stop close : Nat} {b : UInt8}
    (hkind : s.statementKind i = .element)
    (hfind : s.findAny? [Byte.semicolon, Byte.lbrace] i = some (stop, b))
    (hlive : s.liveByte? close = some Byte.rbrace) (hi : i < close) : stop < close := by
  obtain ⟨start, end', c, hstart, hdecides, hc⟩ : ∃ start end' c, (i ≤ start ∧ start ≤ i + 1) ∧
      s.findAny? [Byte.colon, Byte.semicolon, Byte.lbrace, Byte.rbrace] start = some (end', c) ∧
      (c = Byte.semicolon ∨ c = Byte.lbrace) := by
    unfold statementKind at hkind
    split at hkind
    · cases hkind
    · cases hkind
    · cases hkind
    dsimp only at hkind
    split at hkind
    · next b' _ _ _ end' c hdecides =>
      refine ⟨_, end', c, ?_, hdecides, ?_⟩
      · split <;> omega
      · split at hkind
        · cases hkind
        · split at hkind
          · next hheader => exact hheader.1
          · cases hkind
    · cases hkind
  obtain ⟨hle, -, hc', -⟩ := findAny?_eq_some hdecides
  -- what decides stands in front of the brace, and the header ends there or earlier
  have hend : end' < close := by
    refine Nat.lt_of_le_of_ne (Nat.le_of_not_lt fun hgt => ?_) fun heq => ?_
    · exact not_mem_of_findAny? hdecides (by omega) hgt hlive (by decide)
    · rw [heq, hlive] at hc'
      cases hc'
      revert hc
      decide
  refine Nat.lt_of_le_of_lt (Nat.le_of_not_lt fun hgt => ?_) hend
  refine not_mem_of_findAny? hfind (by omega) hgt hc' ?_
  rcases hc with rfl | rfl
  · exact .head _
  · exact .tail _ (.head _)

/-- A child ends in front of the brace that closes the block it starts in. -/
theorem element_in_block {opening close : Nat} (hclose : s.closingBrace? opening = some close)
    (ho : opening < i) (hi : i < close) (hkind : s.statementKind i = .element)
    (h : s.element i = .ok (e, next)) : e.span.stop ≤ close := by
  have hlive := liveByte?_of_closingBrace? hclose
  obtain ⟨hstart, ⟨stop, hheaded, hspan, -⟩ | ⟨inner, last, hheaded, hlast, hspan, -⟩⟩ :=
    element_cases h
  · rw [hspan]
    exact header_lt_of_statementKind hkind (hstart ▸ hheaded.found) hlive hi
  · have hfound := hheaded.found
    rw [hstart] at hfound
    obtain ⟨hle, -, hbrace, -⟩ := findAny?_eq_some hfound
    have hinner := header_lt_of_statementKind hkind hfound hlive hi
    rw [hspan]
    exact closingBrace?_lt hclose hbrace hlast (Nat.lt_of_lt_of_le ho hle) hinner

end

/-- A child of a block whose body is read from `pos` on: it is read at the start of a statement and
ends in front of the brace that closes the block. -/
structure ChildFrom (s : MaskedText) (close pos : Nat) (c : Element) : Prop where
  le : pos ≤ c.span.start
  statement : s.skipTrivia c.span.start = c.span.start
  stop_le : c.span.stop ≤ close
  read : ∃ next, s.element c.span.start = .ok (c, next)

theorem ChildFrom.mono {s : MaskedText} {close pos pos' : Nat} {c : Element}
    (h : s.ChildFrom close pos c) (hle : pos' ≤ pos) : s.ChildFrom close pos' c :=
  { h with le := Nat.le_trans hle h.le }

/-- The children of a body stand in its block, one behind the other. -/
theorem Runs.children {s : MaskedText} {opening close pos : Nat} {b : Body}
    (h : Runs s close pos b) (hclose : s.closingBrace? opening = some close) (ho : opening < pos) :
    (∀ c ∈ b.children, s.ChildFrom close pos c) ∧
      b.children.Pairwise (fun a b => a.span.stop ≤ b.span.start) := by
  have hsize := (closingBrace?_eq_some hclose).2
  have hgap {pos : Nat} (hlt : s.skipTrivia pos < close) : pos ≤ s.skipTrivia pos :=
    le_skipTrivia_of_lt (Nat.lt_trans hlt hsize)
  induction h with
  | closed | ended | failed => exact ⟨nofun, .nil⟩
  | @empty pos b hlt _ _ ih =>
    have hle := hgap hlt
    exact (ih (by omega)).imp_left fun hrest c hc => (hrest c hc).mono (by omega)
  | @declaration pos next d b hlt _ hread _ ih =>
    have hle := Nat.le_trans (hgap hlt) (Nat.le_of_lt (lt_of_declaration? hread))
    exact (ih (by omega)).imp_left fun hrest c hc => (hrest c hc).mono hle
  | @child pos next e b hlt hkind hread _ ih =>
    have hle := hgap hlt
    have hstart := start_of_element hread
    obtain ⟨hspan, hstop, -⟩ := span_of_element hread
    obtain ⟨hrest, hapart⟩ := ih (by omega)
    have hfirst : s.ChildFrom close pos e :=
      { le := by rw [hstart]; exact hle
        statement := by rw [hstart, skipTrivia_skipTrivia]
        stop_le := element_in_block hclose (by omega) hlt hkind hread
        read := ⟨next, by rw [hstart]; exact hread⟩ }
    refine ⟨List.forall_mem_cons.2 ⟨hfirst, fun c hc => (hrest c hc).mono (by omega)⟩, ?_⟩
    -- what follows is read behind the first child
    exact .cons (fun c hc => Nat.le_trans hstop (hrest c hc).le) hapart

/-! ## Trees -/

section
variable {s : MaskedText} {i next : Nat} {e : Element}

end

end MaskedText

end PageLang
