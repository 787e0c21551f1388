import PageLang.Proofs.RoundTrip.Member

/-!
# Bodies with members and elements

The body of a class or an element holds members and elements in any order, with gaps between them;
an element without anything in it is written `name.Ref;`, and with a block `name.Ref {…}`. Bodies
nest to any depth.

* `Block.text`, `Block.reads`: a body as written, and its mask.
* `Block.Children`, `Files`: the elements and the members that a body stands for, but for spans.
-/

namespace PageLang.Written

open Cell

/-! ## Headers -/

/-- The name of an element and the classes it refers to, not both missing. -/
structure Header where
  name : Option Text
  refs : List Text
  name_fits : ∀ n ∈ name, n ≠ [] ∧ ∀ b ∈ n, Byte.isNamePart b = true
  refs_fit : ∀ r ∈ refs, r.isMemberName = true
  nonempty : name ≠ none ∨ refs ≠ []

namespace Header

/-- A header as written. -/
def text (h : Header) : Text := h.name.getD [] ++ h.refs.flatMap (Byte.dot :: ·)

theorem forall_mem_name (h : Header) : ∀ b ∈ h.name.getD [], Byte.isNamePart b = true := by
  have := h.name_fits
  cases hn : h.name with
  | none => simp
  | some n => exact (this n hn).2

theorem forall_mem_ref (h : Header) : ∀ r ∈ h.refs, ∀ b ∈ r, Byte.isNamePart b = true := by
  intro r hr
  obtain ⟨_, _, rfl, -, hall⟩ := isMemberName_iff.1 (h.refs_fit r hr)
  exact hall

theorem ne_nil (h : Header) : h.text ≠ [] := by
  intro heq
  obtain ⟨hname, hrefs⟩ := List.append_eq_nil_iff.1 heq
  rcases h.nonempty with hne | hne
  · obtain ⟨n, hn⟩ := Option.ne_none_iff_exists'.1 hne
    rw [hn] at hname
    exact (h.name_fits n hn).1 hname
  · obtain ⟨r, refs, hr⟩ := List.exists_cons_of_ne_nil hne
    simp [hr] at hrefs

/-- The bytes of a header are visible, and no rule of the mask looks at them. -/
theorem forall_mem (h : Header) : ∀ b ∈ h.text, Byte.isInk b = true ∧ Byte.isPlain b = true ∧
    b ≠ Byte.colon ∧ b ≠ Byte.semicolon ∧ b ≠ Byte.lbrace ∧ b ≠ Byte.rbrace := by
  have hpart : ∀ b, Byte.isNamePart b = true → Byte.isInk b = true ∧ Byte.isPlain b = true ∧
      b ≠ Byte.colon ∧ b ≠ Byte.semicolon ∧ b ≠ Byte.lbrace ∧ b ≠ Byte.rbrace :=
    Byte.forall_of_nibbles (by decide)
  intro b hb
  simp only [text, List.mem_append, List.mem_flatMap, List.mem_cons] at hb
  rcases hb with hb | ⟨r, hr, rfl | hb⟩
  · exact hpart b (h.forall_mem_name b hb)
  · decide
  · exact hpart b (h.forall_mem_ref r hr b hb)

theorem isInk (h : Header) : Text.IsInk h.text :=
  Text.isInk_of_all h.ne_nil fun b hb => (h.forall_mem b hb).1

/-- A header is cut into its name and its references. -/
theorem splitOn_text (h : Header) : h.text.splitOn Byte.dot = h.name.getD [] :: h.refs := by
  have hdot : ¬ Byte.isNamePart Byte.dot = true := by decide
  exact Text.splitOn_flatMap (fun hb => hdot (h.forall_mem_name _ hb))
    (fun r hr hb => hdot (h.forall_mem_ref r hr _ hb))

theorem isElementHeader {h : Header} {t : Text} (ht : t.trim = h.text) :
    isElementHeader t = true := by
  rw [PageLang.isElementHeader, ht, h.splitOn_text]
  split
  · next heq => exact absurd heq h.ne_nil
  · next name refs heq _ =>
    obtain ⟨rfl, rfl⟩ := List.cons.inj heq
    simp only [Bool.and_eq_true, List.all_eq_true]
    exact ⟨h.forall_mem_name, h.refs_fit⟩
  · next heq _ => exact absurd heq (by simp)

end Header

/-! ## Blocks -/

/-- The inside of a block, statement by statement; a gap stands before each of them and at the
end. A `;` may follow the block of an element. -/
inductive Block where
  | done (gap : Gap)
  | member (gap : Gap) (m : Member) (rest : Block)
  | leaf (gap : Gap) (h : Header) (rest : Block)
  | node (gap : Gap) (h : Header) (inner : Block) (semicolon : Bool) (rest : Block)

namespace Block

/-- A block as written. -/
def text : Block → Text
  | done gap => gap.text
  | member gap m rest => gap.text ++ m.text ++ rest.text
  | leaf gap h rest => gap.text ++ h.text ++ [Byte.semicolon] ++ rest.text
  | node gap h inner semicolon rest => gap.text ++ h.text ++ [Byte.space, Byte.lbrace] ++
      inner.text ++ [Byte.rbrace] ++ Gap.ending semicolon ++ rest.text

/-- A block with its mask. -/
def cells : Block → List Cell
  | done gap => gap.cells
  | member gap m rest => gap.cells ++ (m.cells ++ rest.cells)
  | leaf gap h rest => gap.cells ++ (live (h.text ++ [Byte.semicolon]) ++ rest.cells)
  | node gap h inner semicolon rest => gap.cells ++ (live (h.text ++ [Byte.space]) ++
      (live [Byte.lbrace] ++ inner.cells ++ live [Byte.rbrace]) ++
      (live (Gap.ending semicolon) ++ rest.cells))

@[simp] theorem bytes_cells (b : Block) : bytes b.cells = b.text := by
  induction b with
  | done gap => simp [cells, text]
  | member gap m rest ih => simp [cells, text, ih]
  | leaf gap h rest ih => simp [cells, text, ih]
  | node gap h inner semicolon rest ihInner ih => simp [cells, text, ihInner, ih]

theorem reads (b : Block) {depth : Nat} {outer : List Mask.Frame} (before ahead : Text) :
    Mask.State.Reads ⟨.live, .declarations, depth, outer⟩ before b.cells ahead
      ⟨.live, .declarations, depth, outer⟩ := by
  induction b generalizing depth before ahead with
  | done gap => exact gap.reads before ahead
  | member gap m rest ih =>
    exact (gap.reads _ _).append ((m.reads _ _).append (ih _ _))
  | leaf gap h rest ih =>
    refine (gap.reads _ _).append (.append (Mask.State.reads_plain (fun b hb => ?_) _ _) (ih _ _))
    rcases List.mem_append.1 hb with hb | hb
    · exact (h.forall_mem b hb).2.1
    · obtain rfl : b = Byte.semicolon := by simpa using hb
      decide
  | node gap h inner semicolon rest ihInner ih =>
    refine (gap.reads _ _).append (.append (.append (Mask.State.reads_plain (fun b hb => ?_) _ _)
      (((Mask.State.reads_lbrace _ _).append (ihInner _ _)).append (Mask.State.reads_rbrace _ _)))
      ((Mask.State.reads_plain ?_ _ _).append (ih _ _)))
    · rcases List.mem_append.1 hb with hb | hb
      · exact (h.forall_mem b hb).2.1
      · obtain rfl : b = Byte.space := by simpa using hb
        decide
    · cases semicolon <;> decide

theorem balanced (b : Block) : Balanced b.cells := by
  have header (h : Header) (t : Text) (ht : ∀ b ∈ t, b ≠ Byte.lbrace ∧ b ≠ Byte.rbrace) :
      Balanced (live (h.text ++ t)) := by
    refine balanced_live fun b hb => ?_
    rcases List.mem_append.1 hb with hb | hb
    · exact (h.forall_mem b hb).2.2.2.2
    · exact ht b hb
  induction b with
  | done gap => exact gap.balanced
  | member gap m rest ih => exact gap.balanced.append (m.balanced.append ih)
  | leaf gap h rest ih => exact gap.balanced.append ((header h _ (by decide)).append ih)
  | node gap h inner semicolon rest ihInner ih =>
    refine gap.balanced.append (((header h _ (by decide)).append ihInner.braces).append
      (.append (balanced_live ?_) ih))
    cases semicolon <;> decide

/-! ## What a block stands for -/

/-- The members of a block, without those of the elements in it. -/
def members : Block → List Member
  | done _ => []
  | member _ m rest => m :: rest.members
  | leaf _ _ rest => rest.members
  | node _ _ _ _ rest => rest.members

/-- The names of the elements of a block, as far as they have any. -/
def childNames : Block → List Text
  | done _ => []
  | member _ _ rest => rest.childNames
  | leaf _ h rest => h.name.toList ++ rest.childNames
  | node _ h _ _ rest => h.name.toList ++ rest.childNames

end Block

/-- Two members are of different kinds or have different names. -/
def Apart (a b : Member) : Prop := a.slot = b.slot → a.name ≠ b.name

namespace Block

/-- In the elements of a block, at any depth, no two members of a kind share a name. -/
def DistinctBelow : Block → Prop
  | done _ => True
  | member _ _ rest => rest.DistinctBelow
  | leaf _ _ rest => rest.DistinctBelow
  | node _ _ inner _ rest =>
    inner.members.Pairwise Apart ∧ inner.DistinctBelow ∧ rest.DistinctBelow

end Block

/-- The members of a kind with a string value, in order, with their names. -/
def strings (slot : StringSlot) (ms : List Member) : List (Text × Value) :=
  ms.filterMap fun
    | .string slot' name value _ _ =>
      if slot' = slot then some (name, .scalar (.string value)) else none
    | .function .. => none

/-- The members of a kind with a function value, in order: names, parameters and bodies. -/
def functions (slot : FunctionSlot) (ms : List Member) : List (Text × List Text × Text) :=
  ms.filterMap fun
    | .string .. => none
    | .function slot' name parameters body _ _ _ _ =>
      if slot' = slot then some (name, parameters, body) else none

/-- What is filed under a kind with string values. -/
def filedStrings (m : Members) : StringSlot → List (Text × Value)
  | .var access => (m.vars.get access).entries
  | .attr => m.attributes.entries.map fun e => (e.1, .scalar e.2)
  | .style => m.style.entries.map fun e => (e.1, .scalar e.2)

/-- What is filed under a kind with function values, without the spans of the bodies. -/
def filedFunctions (m : Members) (slot : FunctionSlot) : List (Text × List Text × Text) :=
  let map := match slot with
    | .method access => m.methods.get access
    | .getter => m.getters
    | .setter => m.setters
    | .eventHandler => m.eventHandlers
  map.entries.map fun e => (e.1, e.2.parameters, e.2.body)

/-- The maps hold the members, each kind in its own map and in order, and nothing else. -/
structure Files (ms : List Member) (m : Members) : Prop where
  strings slot : filedStrings m slot = strings slot ms
  functions slot : filedFunctions m slot = functions slot ms
  states : m.states.entries = []

namespace Block

/-- The elements that a block stands for: those written in it, in order, each with its name, its
references, its members and its own elements. -/
def Children : Block → List Element → Prop
  | done _, es => es = []
  | member _ _ rest, es => rest.Children es
  | leaf _ h rest, es => ∃ e es', es = e :: es' ∧ e.name = h.name ∧ e.classRefs = h.refs ∧
      Files [] e.overrides ∧ e.children = [] ∧ rest.Children es'
  | node _ h inner _ rest, es => ∃ e es', es = e :: es' ∧ e.name = h.name ∧ e.classRefs = h.refs ∧
      Files inner.members e.overrides ∧ inner.Children e.children ∧ rest.Children es'

end Block

/-! ## Pieces of samples -/

theorem isSpace_space : Byte.isSpace Byte.space = true := rfl

theorem nameFits_title :
    NameFits (StringSlot.var .pub).sigil (StringSlot.var .pub == .style) "title" :=
  ⟨by decide, by decide⟩

theorem namePart_item :
    ∀ n ∈ some (Text.ofString "item"), n ≠ [] ∧ ∀ b ∈ n, Byte.isNamePart b = true := by
  decide

end PageLang.Written
