import PageLang.Proofs.Inheritance.Ascent

/-!
# The name of an element

An element is resolved like a class without a name of its own, with its class references as
parents. But the walk over its ancestors starts as if it had come through a class of the element's
name already. So an element resolves as if it had no name as long as the walk does not come to a
class of that name. If it does, the element counts as its own ancestor.

* `ClassTable.ComesTo`: the walk comes to a class before it meets a fault.
* `ClassTable.stopsAt_behind`: the walk with one class more behind it stops there.
* `ClassTable.resolveElement_of_not_comesTo`: elements whose name does not matter.
* `ClassTable.resolveElement_name_iff`: when two names of an element lead to the same result.
-/

namespace PageLang

namespace ClassTable

/-- A walk over some parents, which has come through the classes of `path`, comes to the class
`name` for the first time, and meets no fault before. -/
inductive ComesTo (table : ClassTable) (name : Text) : (path parents : List Text) → Prop
  | here {path rest : List Text} {d : ClassDefinition} :
    table.get? name = some d → name ∉ path → ComesTo table name path (name :: rest)
  | above {path rest : List Text} {parent : Text} {d : ClassDefinition} :
    table.get? parent = some d → parent ∉ path → ComesTo table name (parent :: path) d.parents →
    ComesTo table name path (parent :: rest)
  | behindTag {path rest : List Text} {parent : Text} :
    table.IsRawTag parent → ComesTo table name path rest → ComesTo table name path (parent :: rest)
  | behindClass {path rest : List Text} {parent : Text} {d : ClassDefinition}
      {trees : List Ancestor} :
    table.get? parent = some d → parent ∉ path → table.Ascends (parent :: path) d.parents trees →
    ComesTo table name path rest → ComesTo table name path (parent :: rest)

section
variable {table : ClassTable} {name parent : Text} {path rest : List Text} {d : ClassDefinition}

theorem not_comesTo_nil : ¬ table.ComesTo name path [] := nofun

theorem comesTo_tag_iff (htag : table.IsRawTag parent) :
    table.ComesTo name path (parent :: rest) ↔ table.ComesTo name path rest := by
  refine ⟨fun h => ?_, .behindTag htag⟩
  cases h with
  | here hget _ => simp [htag.1] at hget
  | above hget _ _ => simp [htag.1] at hget
  | behindTag _ hrest => exact hrest
  | behindClass hget _ _ _ => simp [htag.1] at hget

theorem not_comesTo_unknown (hunknown : table.IsUnknown parent) :
    ¬ table.ComesTo name path (parent :: rest) := by
  intro h
  cases h with
  | here hget _ => simp [hunknown.1] at hget
  | above hget _ _ => simp [hunknown.1] at hget
  | behindTag htag _ => exact hunknown.2 htag.2
  | behindClass hget _ _ _ => simp [hunknown.1] at hget

theorem not_comesTo_cycle (hget : table.get? parent = some d) (hpath : parent ∈ path) :
    ¬ table.ComesTo name path (parent :: rest) := by
  intro h
  cases h with
  | here _ hno => exact hno hpath
  | above _ hno _ => exact hno hpath
  | behindTag htag _ => simp [htag.1] at hget
  | behindClass _ hno _ _ => exact hno hpath

theorem comesTo_cls_iff (hget : table.get? parent = some d) (hpath : parent ∉ path) :
    table.ComesTo name path (parent :: rest) ↔
      parent = name ∨ table.ComesTo name (parent :: path) d.parents ∨
        (∃ trees, table.Ascends (parent :: path) d.parents trees) ∧
          table.ComesTo name path rest := by
  constructor
  · intro h
    cases h with
    | here _ _ => exact .inl rfl
    | above hget' _ habove =>
      obtain rfl := Option.some.inj (hget.symm.trans hget')
      exact .inr (.inl habove)
    | behindTag htag _ => simp [htag.1] at hget
    | behindClass hget' _ habove hrest =>
      obtain rfl := Option.some.inj (hget.symm.trans hget')
      exact .inr (.inr ⟨⟨_, habove⟩, hrest⟩)
  · rintro (rfl | habove | ⟨⟨trees, habove⟩, hrest⟩)
    · exact .here hget hpath
    · exact .above hget hpath habove
    · exact .behindClass hget hpath habove hrest

end

/-- A walk comes to classes of the table only. -/
theorem ComesTo.mem_keys {table : ClassTable} {name : Text} {path parents : List Text}
    (h : table.ComesTo name path parents) : name ∈ table.keys := by
  induction h with
  | here hget _ => exact OrderedMap.mem_keys_of_get? hget
  | above _ _ _ ih => exact ih
  | behindTag _ _ ih => exact ih
  | behindClass _ _ _ _ ih => exact ih

/-! ## One class more behind the walk -/

theorem behind_cons {name : Text} {path behind : List Text}
    (h : ∀ x, x ∈ behind ↔ x = name ∨ x ∈ path) (parent : Text) :
    ∀ x, x ∈ parent :: behind ↔ x = name ∨ x ∈ parent :: path := by
  intro x
  rw [List.mem_cons, List.mem_cons, h, or_left_comm]

/-- A walk behind the classes of `behind`, compared with one behind those of `path`: it stops with a
cycle where the other one comes to the class `name`, and is the same if that never does. -/
structure StopsAt (table : ClassTable) (name : Text) (path behind : List Text) (heir : Heir)
    (parents : List Text) : Prop where
  stops : table.ComesTo name path parents → ∃ asker, table.ancestry behind heir parents =
    .error (faultOf (.inheritanceCycle name asker.name) asker)
  same : ¬ table.ComesTo name path parents →
    table.ancestry behind heir parents = table.ancestry path heir parents

section
variable {table : ClassTable} {name parent : Text} {path behind rest : List Text} {heir : Heir}
  {d : ClassDefinition}

theorem stopsAt_head (hget : table.get? name = some d) (hpath : name ∉ path)
    (hbehind : name ∈ behind) : table.StopsAt name path behind heir (name :: rest) where
  stops _ := ⟨heir, ancestry_cycle hget hbehind⟩
  same h := absurd (.here hget hpath) h

theorem StopsAt.tag (h : table.StopsAt name path behind heir rest) (htag : table.IsRawTag parent) :
    table.StopsAt name path behind heir (parent :: rest) where
  stops hcomes := by
    obtain ⟨asker, hasker⟩ := h.stops ((comesTo_tag_iff htag).1 hcomes)
    refine ⟨asker, ?_⟩
    rw [ancestry_tag htag.1 htag.2, hasker]
    rfl
  same hnot := by
    have hrest := h.same fun hcomes => hnot ((comesTo_tag_iff htag).2 hcomes)
    rw [ancestry_tag htag.1 htag.2, ancestry_tag htag.1 htag.2, hrest]

/-- A class above which the walk meets a fault. -/
theorem StopsAt.above {e : Diagnostic}
    (h : table.StopsAt name (parent :: path) (parent :: behind) ⟨d.name, d.span, d.sourceFile⟩
      d.parents)
    (hget : table.get? parent = some d) (hpath : parent ∉ path) (hbehind : parent ∉ behind)
    (hne : parent ≠ name)
    (hfault : table.ancestry (parent :: path) ⟨d.name, d.span, d.sourceFile⟩ d.parents =
      .error e) :
    table.StopsAt name path behind heir (parent :: rest) where
  stops hcomes := by
    rcases (comesTo_cls_iff hget hpath).1 hcomes with hhere | habove | ⟨⟨trees, htrees⟩, -⟩
    · exact absurd hhere hne
    · obtain ⟨asker, hasker⟩ := h.stops habove
      refine ⟨asker, ?_⟩
      rw [ancestry_cls hget hbehind, hasker]
      rfl
    · rw [ancestry_eq_ok_iff.2 htrees] at hfault
      cases hfault
  same hnot := by
    have habove := h.same fun hcomes => hnot (.above hget hpath hcomes)
    rw [ancestry_cls hget hbehind, ancestry_cls hget hpath, habove, hfault]
    rfl

/-- A class above which the walk meets no fault. -/
theorem StopsAt.cls {trees : List Ancestor}
    (hrest : table.StopsAt name path behind heir rest)
    (habove : table.StopsAt name (parent :: path) (parent :: behind)
      ⟨d.name, d.span, d.sourceFile⟩ d.parents)
    (hget : table.get? parent = some d) (hpath : parent ∉ path) (hbehind : parent ∉ behind)
    (hne : parent ≠ name) (htrees : table.Ascends (parent :: path) d.parents trees) :
    table.StopsAt name path behind heir (parent :: rest) := by
  have hclear : table.ancestry (parent :: path) ⟨d.name, d.span, d.sourceFile⟩ d.parents =
      .ok trees := ancestry_eq_ok_iff.2 htrees
  by_cases hthere : table.ComesTo name (parent :: path) d.parents
  · obtain ⟨asker, hasker⟩ := habove.stops hthere
    refine ⟨fun _ => ⟨asker, ?_⟩, fun hnot => absurd (.above hget hpath hthere) hnot⟩
    rw [ancestry_cls hget hbehind, hasker]
    rfl
  · constructor
    · intro hcomes
      rcases (comesTo_cls_iff hget hpath).1 hcomes with hhere | hup | ⟨-, hbeside⟩
      · exact absurd hhere hne
      · exact absurd hup hthere
      · obtain ⟨asker, hasker⟩ := hrest.stops hbeside
        refine ⟨asker, ?_⟩
        rw [ancestry_cls hget hbehind, habove.same hthere, hclear, hasker]
        rfl
    · intro hnot
      have hsame := hrest.same fun hcomes => hnot (.behindClass hget hpath htrees hcomes)
      rw [ancestry_cls hget hbehind, ancestry_cls hget hpath, habove.same hthere, hsame]

end

/-- With the class `name` behind it, besides those of `path`, a walk stops at that class. -/
theorem stopsAt_behind {table : ClassTable} {name : Text} (path : List Text) (heir : Heir)
    (parents : List Text) {behind : List Text} (hbehind : ∀ x, x ∈ behind ↔ x = name ∨ x ∈ path) :
    table.StopsAt name path behind heir parents := by
  induction path, heir, parents using ClassTable.ancestry.induct table generalizing behind with
  | case1 path heir =>
    refine ⟨fun h => absurd h not_comesTo_nil, fun _ => ?_⟩
    rw [ancestry_nil, ancestry_nil]
  | case2 path heir parent rest hget htag ih => exact (ih hbehind).tag ⟨hget, htag⟩
  | case3 path heir parent rest hget htag =>
    refine ⟨fun h => absurd h (not_comesTo_unknown ⟨hget, htag⟩), fun _ => ?_⟩
    rw [ancestry_unknown hget htag, ancestry_unknown hget htag]
  | case4 path heir parent rest d hget hpath =>
    refine ⟨fun h => absurd h (not_comesTo_cycle hget hpath), fun _ => ?_⟩
    rw [ancestry_cycle hget hpath, ancestry_cycle hget ((hbehind parent).2 (.inr hpath))]
  | case5 path heir parent rest d hget hpath e habove ih =>
    by_cases hname : parent = name
    · subst hname
      exact stopsAt_head hget hpath ((hbehind parent).2 (.inl rfl))
    · have hparent : parent ∉ behind := by simp [hbehind, hname, hpath]
      exact (ih (behind_cons hbehind parent)).above hget hpath hparent hname habove
  | case6 path heir parent rest d hget hpath above habove ihAbove ih =>
    by_cases hname : parent = name
    · subst hname
      exact stopsAt_head hget hpath ((hbehind parent).2 (.inl rfl))
    · have hparent : parent ∉ behind := by simp [hbehind, hname, hpath]
      exact (ih hbehind).cls (ihAbove (behind_cons hbehind parent)) hget hpath hparent hname
        (ancestry_eq_ok_iff.1 habove)

/-- At the start of a walk nobody can be the parent of an ancestor, so the name of who asks does not
matter. -/
theorem ancestry_start (table : ClassTable) (span : Span) (file name other : Text)
    (parents : List Text) :
    table.ancestry [] ⟨name, span, file⟩ parents =
      table.ancestry [] ⟨other, span, file⟩ parents := by
  induction parents with
  | nil => rw [ancestry_nil, ancestry_nil]
  | cons parent rest ih =>
    cases hget : table.get? parent with
    | none =>
      by_cases htag : Vocabulary.isTag parent = true
      · rw [ancestry_tag hget htag, ancestry_tag hget htag, ih]
      · rw [ancestry_unknown hget htag, ancestry_unknown hget htag]
        rfl
    | some d =>
      rw [ancestry_cls hget List.not_mem_nil, ancestry_cls hget List.not_mem_nil, ih]

/-! ## Elements -/

/-- The trees above an element, whatever its name. -/
def elementAncestry (table : ClassTable) (file : Text) (e : Element) :
    Except Diagnostic (List Ancestor) :=
  table.ancestry [] ⟨[], e.span, file⟩ e.classRefs

/-- The walk over the ancestors of an element comes to a class of the element's own name. -/
def ComesToItself (table : ClassTable) (e : Element) : Prop :=
  table.ComesTo (e.name.getD []) [] e.classRefs

section
variable {table : ClassTable} {file : Text} {e : Element}

theorem mem_singleton_iff (name : Text) : ∀ x, x ∈ [name] ↔ x = name ∨ x ∈ ([] : List Text) := by
  simp

/-- An element that comes to itself does not resolve. It is said to be its own ancestor. -/
theorem resolveElement_of_comesTo (file : Text) (h : table.ComesToItself e) :
    ∃ asker, table.resolveElement file e =
      .error (faultOf (.inheritanceCycle (e.name.getD []) asker.name) asker) := by
  obtain ⟨asker, hasker⟩ :=
    (stopsAt_behind [] ⟨e.name.getD [], e.span, file⟩ e.classRefs (mem_singleton_iff _)).stops h
  refine ⟨asker, ?_⟩
  rw [resolveElement, merge, hasker]
  rfl

/-- All other elements resolve to what the trees above them are merged into. -/
theorem resolveElement_of_not_comesTo (h : ¬ table.ComesToItself e) :
    table.resolveElement file e = (table.elementAncestry file e).map
      (fun trees => .merged (e.name.getD []) e.overrides e.children trees) := by
  have hbehind := (stopsAt_behind [] ⟨e.name.getD [], e.span, file⟩ e.classRefs
    (mem_singleton_iff _)).same h
  rw [resolveElement, merge, hbehind, elementAncestry, ancestry_start]
  rfl

end

/-- Two outcomes are failures with one code, or classes that differ in the name at most. -/
def SameButName : Except Diagnostic ResolvedClass → Except Diagnostic ResolvedClass → Prop
  | .ok r, .ok r' => { r with name := r'.name } = r'
  | .error g, .error g' => g.code = g'.code
  | _, _ => False

theorem sameButName_merged (name other : Text) (own : Members) (children : List Element)
    (trees : List Ancestor) :
    SameButName (.ok (.merged name own children trees))
      (.ok (.merged other own children trees)) := by
  simp only [SameButName, ResolvedClass.merged, ResolvedClass.foldl_absorbClass]
  rfl

theorem SameButName.symm {x y : Except Diagnostic ResolvedClass} (h : SameButName x y) :
    SameButName y x := by
  cases x with
  | error g =>
    cases y with
    | error g' => exact Eq.symm h
    | ok r' => exact h
  | ok r =>
    cases y with
    | error g' => exact h
    | ok r' =>
      have hr' : { r with name := r'.name } = r' := h
      change { r' with name := r.name } = r
      rw [← hr']

section
variable {table : ClassTable} {file : Text} {e e' : Element}

/-- Where one of two elements comes to itself, the other one has to fail on a cycle. -/
theorem sameButName_of_comesTo (file : Text) (h : table.ComesToItself e)
    (h' : ¬ table.ComesToItself e') :
    SameButName (table.resolveElement file e) (table.resolveElement file e') ↔
      ∃ g, table.elementAncestry file e' = .error g ∧ g.code = some .inheritanceCycle := by
  obtain ⟨asker, hasker⟩ := resolveElement_of_comesTo file h
  rw [hasker, resolveElement_of_not_comesTo h']
  cases table.elementAncestry file e' with
  | error g =>
    constructor
    · intro hsame
      exact ⟨g, rfl, Eq.symm hsame⟩
    · rintro ⟨g', hg', hcode⟩
      cases hg'
      exact hcode.symm
  | ok trees => exact ⟨fun hsame => hsame.elim, fun ⟨_, hg, _⟩ => nomatch hg⟩

/-- Without its name, an element fails on a cycle if that is the first fault of the walk. -/
theorem elementAncestry_cycle_iff :
    (∃ g, table.elementAncestry file e = .error g ∧ g.code = some .inheritanceCycle) ↔
      ∃ way parent asker, table.FirstFault [] ⟨[], e.span, file⟩ e.classRefs way
        (.inheritanceCycle parent asker.name) asker := by
  constructor
  · rintro ⟨g, hg, hcode⟩
    obtain ⟨way, problem, asker, hfirst, rfl⟩ := first_of_ancestry _ _ _ hg
    rcases hfirst.meets.code with ⟨parent, -, hunknown⟩ | ⟨parent, rfl, -⟩
    · rw [hunknown] at hcode
      cases hcode
    · exact ⟨way, parent, asker, hfirst⟩
  · rintro ⟨way, parent, asker, hfirst⟩
    cases hancestry : table.elementAncestry file e with
    | ok trees => exact absurd hfirst.meets (ancestry_eq_ok_iff.1 hancestry).not_faultAt
    | error g =>
      obtain ⟨way', problem, asker', hfirst', rfl⟩ := first_of_ancestry _ _ _ hancestry
      obtain ⟨rfl, rfl⟩ := hfirst.unique hfirst'
      exact ⟨_, rfl, rfl⟩

end

/-- Two names of an element lead to the same result, but for the name, if and only if the walk over
its ancestors comes to classes of both names or to neither, or fails on a cycle in any case. An
element that comes to a class of its own name fails as its own ancestor. -/
theorem resolveElement_name_iff (table : ClassTable) (file : Text) (e : Element) :
    (table.ComesToItself e → ∃ asker, table.resolveElement file e =
      .error (faultOf (.inheritanceCycle (e.name.getD []) asker.name) asker)) ∧
    ∀ other : Option Text,
      SameButName (table.resolveElement file e)
          (table.resolveElement file { e with name := other }) ↔
        ((table.ComesToItself e ↔ table.ComesToItself { e with name := other }) ∨
          ∃ way parent asker, table.FirstFault [] ⟨[], e.span, file⟩ e.classRefs way
            (.inheritanceCycle parent asker.name) asker) := by
  refine ⟨resolveElement_of_comesTo file, fun other => ?_⟩
  rw [← elementAncestry_cycle_iff]
  by_cases h : table.ComesToItself e
  · by_cases h' : table.ComesToItself { e with name := other }
    · obtain ⟨asker, hasker⟩ := resolveElement_of_comesTo file h
      obtain ⟨asker', hasker'⟩ := resolveElement_of_comesTo file h'
      rw [hasker, hasker']
      exact ⟨fun _ => .inl (iff_of_true h h'), fun _ => rfl⟩
    · rw [sameButName_of_comesTo file h h']
      simp only [h, h', true_iff, false_or]
      rfl
  · by_cases h' : table.ComesToItself { e with name := other }
    · have hsame := sameButName_of_comesTo file h' h
      simp only [h, h', iff_true, false_or, ← hsame]
      exact ⟨SameButName.symm, SameButName.symm⟩
    · refine ⟨fun _ => .inl (iff_of_false h h'), fun _ => ?_⟩
      rw [resolveElement_of_not_comesTo h, resolveElement_of_not_comesTo h']
      change SameButName ((table.elementAncestry file e).map _)
        ((table.elementAncestry file e).map _)
      cases table.elementAncestry file e with
      | error g => exact rfl
      | ok trees => exact sameButName_merged ..

/-- A class and an heir of it. -/
def sampleHeirs : ClassTable := .ofList [sampleEntry "Card" [], sampleEntry "Panel" ["Card"]]

/-- An element of the heir that is named like the class. -/
def sampleNamesake : Element := ⟨some "Card", ["Panel"], ∅, [], ⟨0, 0⟩⟩

theorem resolveElement_name_iff_sampleNamesake :
    (∃ asker, sampleHeirs.resolveElement "main" sampleNamesake =
      .error (faultOf (.inheritanceCycle "Card" asker.name) asker)) ∧
    (∃ r, sampleHeirs.resolveElement "main" { sampleNamesake with name := none } = .ok r) ∧
    ¬ SameButName (sampleHeirs.resolveElement "main" sampleNamesake)
      (sampleHeirs.resolveElement "main" { sampleNamesake with name := none }) := by
  obtain ⟨hown, hother⟩ := resolveElement_name_iff sampleHeirs "main" sampleNamesake
  have hcomes : sampleHeirs.ComesToItself sampleNamesake :=
    .above rfl List.not_mem_nil (.here rfl (by decide))
  have hunnamed : ¬ sampleHeirs.ComesToItself { sampleNamesake with name := none } :=
    fun h => absurd h.mem_keys (by decide)
  have htrees {path : List Text} (hpanel : Text.ofString "Panel" ∉ path)
      (hcard : Text.ofString "Card" ∉ path) : sampleHeirs.Ascends path ["Panel"] _ :=
    .cls rfl hpanel (.cls rfl (List.not_mem_cons_of_ne_of_not_mem (by decide) hcard) .nil .nil) .nil
  refine ⟨hown hcomes, ⟨_, merge_eq_ok_iff.2 ⟨_, htrees (by decide) (by decide), rfl⟩⟩, ?_⟩
  rw [hother none]
  rintro (hiff | ⟨way, parent, asker, hfirst⟩)
  · exact hunnamed (hiff.1 hcomes)
  · have hclear := htrees List.not_mem_nil List.not_mem_nil
    exact hclear.not_faultAt hfirst.meets

end ClassTable

end PageLang
