import Mathlib.Logic.Relation
import PageLang.Inheritance.Resolved
import PageLang.Proofs.Inheritance.Ancestry

/-!
# The walk over the ancestors

Resolving a class walks over its ancestors depth first, the parents of each class in declared
order. A way of the walk says at every class which of its parents comes next. It ends in a fault
where that parent is neither a class nor a raw tag, or a class that the way has passed already. The
faults are met in the lexicographic order of the ways to them.

* `ClassTable.FaultAt`: the faults that ways end in.
* `ClassTable.first_of_ancestry`: without an ancestry, the first of the faults is the diagnostic.
* `ClassTable.exists_faultAt_iff`: there is a fault if an unknown name or a cycle can be reached.
* `ClassTable.resolve_walk`: when a class resolves, and why it does not.
-/

namespace PageLang.ClassTable

/-! ## Ways and faults -/

/-- What a way meets at its end, from the parents of an heir on: a fault, and the heir whose parent
it is. The way is the list of the positions of parents, and has come through the classes of
`path`. -/
inductive FaultAt (table : ClassTable) :
    (path : List Text) → Heir → (parents : List Text) → (way : List Nat) → Problem → Heir → Prop
  | unknown {path parents : List Text} {heir : Heir} {i : Nat} {parent : Text} :
    parents[i]? = some parent → table.get? parent = none → ¬ Vocabulary.isTag parent = true →
    FaultAt table path heir parents [i] (.unknownClass parent) heir
  | cycle {path parents : List Text} {heir : Heir} {i : Nat} {parent : Text}
      {d : ClassDefinition} :
    parents[i]? = some parent → table.get? parent = some d → parent ∈ path →
    FaultAt table path heir parents [i] (.inheritanceCycle parent heir.name) heir
  | above {path parents : List Text} {heir asker : Heir} {i : Nat} {parent : Text}
      {d : ClassDefinition} {way : List Nat} {problem : Problem} :
    parents[i]? = some parent → table.get? parent = some d → parent ∉ path →
    FaultAt table (parent :: path) ⟨d.name, d.span, d.sourceFile⟩ d.parents way problem asker →
    FaultAt table path heir parents (i :: way) problem asker

/-- The fault that comes first in the order of the ways. -/
structure FirstFault (table : ClassTable) (path : List Text) (heir : Heir) (parents : List Text)
    (way : List Nat) (problem : Problem) (asker : Heir) : Prop where
  meets : table.FaultAt path heir parents way problem asker
  least : ∀ other problem' asker', table.FaultAt path heir parents other problem' asker' →
    ¬ List.Lex (· < ·) other way

section
variable {table : ClassTable} {path parents rest : List Text} {heir asker asker' : Heir}
  {parent : Text} {way : List Nat} {problem problem' : Problem} {d : ClassDefinition} {i : Nat}

/-- A way ends in one fault only. -/
theorem FaultAt.unique (h : table.FaultAt path heir parents way problem asker)
    (h' : table.FaultAt path heir parents way problem' asker') :
    problem = problem' ∧ asker = asker' := by
  induction h with
  | unknown hparent hget _ =>
    cases h' with
    | unknown hparent' _ _ =>
      rw [hparent] at hparent'
      cases hparent'
      exact ⟨rfl, rfl⟩
    | cycle hparent' hget' _ =>
      rw [hparent] at hparent'
      cases hparent'
      rw [hget] at hget'
      cases hget'
    | above _ _ _ hway => cases hway
  | cycle hparent hget _ =>
    cases h' with
    | unknown hparent' hget' _ =>
      rw [hparent] at hparent'
      cases hparent'
      rw [hget] at hget'
      cases hget'
    | cycle hparent' _ _ =>
      rw [hparent] at hparent'
      cases hparent'
      exact ⟨rfl, rfl⟩
    | above _ _ _ hway => cases hway
  | above hparent hget _ hway ih =>
    cases h' with
    | unknown => cases hway
    | cycle => cases hway
    | above hparent' hget' _ hway' =>
      rw [hparent] at hparent'
      cases hparent'
      rw [hget] at hget'
      cases hget'
      exact ih hway'

theorem FirstFault.unique {way' : List Nat}
    (h : table.FirstFault path heir parents way problem asker)
    (h' : table.FirstFault path heir parents way' problem' asker') :
    problem = problem' ∧ asker = asker' := by
  obtain rfl : way = way' := List.le_antisymm (h.least _ _ _ h'.meets) (h'.least _ _ _ h.meets)
  exact h.meets.unique h'.meets

/-- No way starts where there are no parents. -/
theorem not_faultAt_nil : ¬ table.FaultAt path heir [] way problem asker := by
  intro h
  cases h <;> simp_all

/-- A way to a parent behind the first one. -/
theorem faultAt_cons_succ :
    table.FaultAt path heir (parent :: rest) ((i + 1) :: way) problem asker ↔
      table.FaultAt path heir rest (i :: way) problem asker := by
  constructor
  · intro h
    cases h with
    | unknown hparent hget htag => exact .unknown hparent hget htag
    | cycle hparent hget hpath => exact .cycle hparent hget hpath
    | above hparent hget hpath hway => exact .above hparent hget hpath hway
  · intro h
    cases h with
    | unknown hparent hget htag => exact .unknown hparent hget htag
    | cycle hparent hget hpath => exact .cycle hparent hget hpath
    | above hparent hget hpath hway => exact .above hparent hget hpath hway

/-- Every way starts at one of the parents. -/
theorem FaultAt.exists_cons (h : table.FaultAt path heir parents way problem asker) :
    ∃ i rest, way = i :: rest := by
  cases h <;> exact ⟨_, _, rfl⟩

theorem not_faultAt_tag (hget : table.get? parent = none)
    (htag : Vocabulary.isTag parent = true) :
    ¬ table.FaultAt path heir (parent :: rest) (0 :: way) problem asker := by
  intro h
  cases h with
  | unknown hparent _ hno =>
    cases hparent
    exact hno htag
  | cycle hparent hsome _ =>
    cases hparent
    rw [hget] at hsome
    cases hsome
  | above hparent hsome _ _ =>
    cases hparent
    rw [hget] at hsome
    cases hsome

theorem faultAt_cls (hget : table.get? parent = some d) (hpath : parent ∉ path) :
    table.FaultAt path heir (parent :: rest) (0 :: way) problem asker ↔
      table.FaultAt (parent :: path) ⟨d.name, d.span, d.sourceFile⟩ d.parents way problem
        asker := by
  refine ⟨fun h => ?_, fun h => .above rfl hget hpath h⟩
  cases h with
  | unknown hparent hnone _ =>
    cases hparent
    rw [hget] at hnone
    cases hnone
  | cycle hparent _ hmem =>
    cases hparent
    exact absurd hmem hpath
  | above hparent hsome _ hway =>
    cases hparent
    rw [hget] at hsome
    cases hsome
    exact hway

/-! ## The first fault -/

/-- A fault at the first parent comes before those at the others. -/
theorem FirstFault.of_head (h : table.FaultAt path heir (parent :: rest) (0 :: way) problem asker)
    (hleast : ∀ other problem' asker',
      table.FaultAt path heir (parent :: rest) (0 :: other) problem' asker' →
        ¬ List.Lex (· < ·) other way) :
    table.FirstFault path heir (parent :: rest) (0 :: way) problem asker := by
  refine ⟨h, fun other problem' asker' hother => ?_⟩
  obtain ⟨i, other, rfl⟩ := hother.exists_cons
  intro hlex
  rcases List.cons_lex_cons_iff.1 hlex with hlt | ⟨rfl, hrest⟩
  · exact Nat.not_lt_zero i hlt
  · exact hleast other problem' asker' hother hrest

/-- Without a fault at the first parent, the first one is that of the others. -/
theorem FirstFault.of_tail
    (hhead : ∀ other problem' asker',
      ¬ table.FaultAt path heir (parent :: rest) (0 :: other) problem' asker')
    (h : table.FirstFault path heir rest way problem asker) :
    ∃ i above, way = i :: above ∧
      table.FirstFault path heir (parent :: rest) ((i + 1) :: above) problem asker := by
  obtain ⟨i, above, rfl⟩ := h.meets.exists_cons
  refine ⟨i, above, rfl, faultAt_cons_succ.2 h.meets, fun other problem' asker' hother => ?_⟩
  obtain ⟨k, other, rfl⟩ := hother.exists_cons
  cases k with
  | zero => exact absurd hother (hhead _ _ _)
  | succ k =>
    intro hlex
    refine h.least _ _ _ (faultAt_cons_succ.1 hother) (List.cons_lex_cons_iff.2 ?_)
    exact (List.cons_lex_cons_iff.1 hlex).imp Nat.lt_of_succ_lt_succ (And.imp_left Nat.succ.inj)

end

/-- Where the walk meets no fault, no way ends in one. -/
theorem Ascends.not_faultAt {table : ClassTable} {path parents : List Text} {heir asker : Heir}
    {trees : List Ancestor} {way : List Nat} {problem : Problem}
    (h : table.Ascends path parents trees) :
    ¬ table.FaultAt path heir parents way problem asker := by
  induction h generalizing heir way problem asker with
  | nil => exact not_faultAt_nil
  | tag hget htag _ ih =>
    intro hfault
    obtain ⟨i, way, rfl⟩ := hfault.exists_cons
    cases i with
    | zero => exact not_faultAt_tag hget htag hfault
    | succ i => exact ih (faultAt_cons_succ.1 hfault)
  | cls hget hpath _ _ ihAbove ih =>
    intro hfault
    obtain ⟨i, way, rfl⟩ := hfault.exists_cons
    cases i with
    | zero => exact ihAbove ((faultAt_cls hget hpath).1 hfault)
    | succ i => exact ih (faultAt_cons_succ.1 hfault)

/-- The diagnostic for a fault of an heir. -/
def faultOf (problem : Problem) (asker : Heir) : Diagnostic :=
  Fault.unlocated ⟨problem, asker.span⟩ asker.file

/-- Where there is no ancestry, the first fault is the reason. -/
theorem first_of_ancestry {table : ClassTable} (path : List Text) (heir : Heir)
    (parents : List Text) {e : Diagnostic} (h : table.ancestry path heir parents = .error e) :
    ∃ way problem asker, table.FirstFault path heir parents way problem asker ∧
      e = faultOf problem asker := by
  induction path, heir, parents using ClassTable.ancestry.induct table generalizing e with
  | case1 path heir =>
    rw [ancestry_nil] at h
    cases h
  | case2 path heir parent rest hget htag ih =>
    rw [ancestry_tag hget htag] at h
    have hrest := eq_error_of_map h
    obtain ⟨way, problem, asker, hfirst, he⟩ := ih hrest
    obtain ⟨i, above, -, hfirst⟩ :=
      FirstFault.of_tail (fun _ _ _ => not_faultAt_tag hget htag) hfirst
    exact ⟨_, problem, asker, hfirst, he⟩
  | case3 path heir parent rest hget htag =>
    rw [ancestry_unknown hget htag] at h
    cases h
    refine ⟨[0], _, heir, FirstFault.of_head (.unknown rfl hget htag) ?_, rfl⟩
    exact fun other _ _ _ => List.not_lex_nil
  | case4 path heir parent rest d hget hpath =>
    rw [ancestry_cycle hget hpath] at h
    cases h
    refine ⟨[0], _, heir, FirstFault.of_head (.cycle rfl hget hpath) ?_, rfl⟩
    exact fun other _ _ _ => List.not_lex_nil
  | case5 path heir parent rest d hget hpath e' habove ih =>
    rw [ancestry_cls hget hpath, habove] at h
    cases h
    obtain ⟨way, problem, asker, hfirst, he⟩ := ih habove
    refine ⟨0 :: way, problem, asker,
      FirstFault.of_head ((faultAt_cls hget hpath).2 hfirst.meets) ?_, he⟩
    exact fun other problem' asker' hother =>
      hfirst.least other problem' asker' ((faultAt_cls hget hpath).1 hother)
  | case6 path heir parent rest d hget hpath above habove _ ih =>
    rw [ancestry_cls hget hpath, habove] at h
    have hrest := eq_error_of_map h
    obtain ⟨way, problem, asker, hfirst, he⟩ := ih hrest
    have hhead (other : List Nat) (problem' : Problem) (asker' : Heir) :
        ¬ table.FaultAt path heir (parent :: rest) (0 :: other) problem' asker' :=
      fun hfault => (ancestry_eq_ok_iff.1 habove).not_faultAt ((faultAt_cls hget hpath).1 hfault)
    obtain ⟨i, way, -, hfirst⟩ := FirstFault.of_tail hhead hfirst
    exact ⟨_, problem, asker, hfirst, he⟩

/-! ## What can be reached -/

/-- A class of the table has the name, and `parent` among its parents. -/
def HasParent (table : ClassTable) (name parent : Text) : Prop :=
  ∃ d, table.get? name = some d ∧ parent ∈ d.parents

/-- A name that is neither that of a class nor a raw tag. -/
def IsUnknown (table : ClassTable) (name : Text) : Prop :=
  table.get? name = none ∧ ¬ Vocabulary.isTag name = true

section
variable {table : ClassTable} {path path' : List Text} {name b : Text} {d : ClassDefinition}

open Relation

/-- Where a way from a class ends in a fault, an unknown name can be reached or a cycle. The classes
that the way has passed have the parents it is at among their ancestors. -/
theorem FaultAt.exists_reachable {parents : List Text} {heir asker : Heir} {way : List Nat}
    {problem : Problem} (h : table.FaultAt path heir parents way problem asker)
    (hname : name ∈ path) (hpath : ∀ x ∈ path, ∀ p ∈ parents, TransGen table.HasParent x p) :
    ∃ b, ReflTransGen table.HasParent name b ∧
      (table.IsUnknown b ∨ TransGen table.HasParent b b) := by
  induction h with
  | unknown hparent hget htag =>
    have hmem := List.mem_of_getElem? hparent
    exact ⟨_, (hpath name hname _ hmem).to_reflTransGen, .inl ⟨hget, htag⟩⟩
  | cycle hparent _ hagain =>
    have hmem := List.mem_of_getElem? hparent
    exact ⟨_, (hpath name hname _ hmem).to_reflTransGen, .inr (hpath _ hagain _ hmem)⟩
  | @above _ _ _ _ _ parent d _ _ hparent hget _ _ ih =>
    have hmem := List.mem_of_getElem? hparent
    refine ih (.tail _ hname) fun x hx p hp => ?_
    have hlast : table.HasParent parent p := ⟨d, hget, hp⟩
    rcases List.mem_cons.1 hx with rfl | hx
    · exact .single hlast
    · exact (hpath x hx parent hmem).tail hlast

/-- From the parents of `d`, where a walk has come through the classes of `path`, no way ends in a
fault. -/
def Clear (table : ClassTable) (path : List Text) (d : ClassDefinition) : Prop :=
  ∀ way problem asker,
    ¬ table.FaultAt path ⟨d.name, d.span, d.sourceFile⟩ d.parents way problem asker

/-- No parent of a clear class is unknown or on the path, and the parents are clear too. -/
theorem Clear.step (h : table.Clear path d) (hb : b ∈ d.parents) :
    ¬ table.IsUnknown b ∧
      ∀ above, table.get? b = some above → b ∉ path ∧ table.Clear (b :: path) above := by
  obtain ⟨i, hi⟩ := List.getElem?_of_mem hb
  refine ⟨fun hunknown => h _ _ _ (.unknown hi hunknown.1 hunknown.2), fun above hget => ?_⟩
  have hpath : b ∉ path := fun hmem => h _ _ _ (.cycle hi hget hmem)
  exact ⟨hpath, fun _ _ _ hfault => h _ _ _ (.above hi hget hpath hfault)⟩

/-- The same of all ancestors of a clear class: the path to each of them only grows. -/
theorem Clear.run (h : table.Clear path d) (hget : table.get? name = some d)
    (hb : TransGen table.HasParent name b) :
    ¬ table.IsUnknown b ∧ ∀ above, table.get? b = some above →
      b ∉ path ∧ ∃ path', path ⊆ path' ∧ b ∈ path' ∧ table.Clear path' above := by
  induction hb with
  | single hfirst =>
    obtain ⟨d', hget', hmem⟩ := hfirst
    obtain rfl : d = d' := Option.some.inj (hget.symm.trans hget')
    obtain ⟨hknown, hstep⟩ := h.step hmem
    refine ⟨hknown, fun above habove => ?_⟩
    obtain ⟨hpath, hclear⟩ := hstep above habove
    exact ⟨hpath, _, List.subset_cons_self _ _, List.mem_cons_self, hclear⟩
  | tail _ hlast ih =>
    obtain ⟨d', hget', hmem⟩ := hlast
    obtain ⟨-, path', hsub, -, hclear⟩ := ih.2 d' hget'
    obtain ⟨hknown, hstep⟩ := hclear.step hmem
    refine ⟨hknown, fun above habove => ?_⟩
    obtain ⟨hpath, hclear⟩ := hstep above habove
    exact ⟨fun hagain => hpath (hsub hagain), _, List.subset_cons_of_subset _ hsub,
      List.mem_cons_self, hclear⟩

/-- From a class a fault is met if and only if an unknown name can be reached, or a class that is
among its own ancestors. -/
theorem exists_faultAt_iff (hget : table.get? name = some d) :
    (∃ way problem asker,
      table.FaultAt [name] ⟨d.name, d.span, d.sourceFile⟩ d.parents way problem asker) ↔
      ∃ b, ReflTransGen table.HasParent name b ∧
        (table.IsUnknown b ∨ TransGen table.HasParent b b) := by
  constructor
  · rintro ⟨way, problem, asker, hfault⟩
    refine hfault.exists_reachable (List.mem_singleton_self _) fun x hx p hp => ?_
    rw [List.mem_singleton.1 hx]
    exact .single ⟨d, hget, hp⟩
  · rintro ⟨b, hreach, hb⟩
    refine Classical.byContradiction fun hno => ?_
    have hclear : table.Clear [name] d :=
      fun way problem asker hfault => hno ⟨way, problem, asker, hfault⟩
    rcases reflTransGen_iff_eq_or_transGen.1 hreach with rfl | hreach
    · rcases hb with hunknown | hcycle
      · rw [hunknown.1] at hget
        cases hget
      · exact ((hclear.run hget hcycle).2 d hget).1 (List.mem_singleton_self _)
    · obtain ⟨hknown, hrun⟩ := hclear.run hget hreach
      rcases hb with hunknown | hcycle
      · exact hknown hunknown
      · obtain ⟨_, ⟨above, habove, _⟩, _⟩ := TransGen.head'_iff.1 hcycle
        obtain ⟨-, path', -, hmem, hclear⟩ := hrun above habove
        exact ((hclear.run habove hcycle).2 above habove).1 hmem

end

/-! ## Resolving -/

/-- The code of a fault says whether its parent is unknown or closes a cycle. -/
theorem FaultAt.code {table : ClassTable} {path parents : List Text} {heir asker : Heir}
    {way : List Nat} {problem : Problem}
    (h : table.FaultAt path heir parents way problem asker) :
    (∃ parent, problem = .unknownClass parent ∧
      (faultOf problem asker).code = some .unknownClass) ∨
    ∃ parent, problem = .inheritanceCycle parent asker.name ∧
      (faultOf problem asker).code = some .inheritanceCycle := by
  induction h with
  | unknown => exact .inl ⟨_, rfl, rfl⟩
  | cycle => exact .inr ⟨_, rfl, rfl⟩
  | above _ _ _ _ ih => exact ih

open Relation in
/-- A class of a table resolves if and only if every name it reaches is that of a class or of a raw
tag, and none of the classes it reaches is among its own ancestors. If it does not resolve, the
diagnostic is that of the first fault on the walk over its ancestors, and its code says whether the
walk met an unknown parent there or a class that it had come through. -/
theorem resolve_walk {table : ClassTable} (hnames : ∀ entry ∈ table.entries, entry.2.name = entry.1)
    {name : Text} {d : ClassDefinition} (hget : table.get? name = some d) :
    ((∃ r, table.resolve name = .ok r) ↔
      (∀ b, ReflTransGen table.HasParent name b →
        b ∈ table.keys ∨ Vocabulary.isTag b = true) ∧
      ∀ b, ReflTransGen table.HasParent name b → ¬ TransGen table.HasParent b b) ∧
    ∀ e, table.resolve name = .error e ↔ ∃ way problem asker,
      table.FirstFault [name] ⟨name, d.span, d.sourceFile⟩ d.parents way problem asker ∧
        e = faultOf problem asker ∧
        ((∃ parent, problem = .unknownClass parent ∧ e.code = some .unknownClass) ∨
          ∃ parent, problem = .inheritanceCycle parent asker.name ∧
            e.code = some .inheritanceCycle) := by
  have hname : d.name = name := hnames _ (OrderedMap.mem_entries_of_get? hget)
  have hresolve : table.resolve name =
      table.merge ⟨name, d.span, d.sourceFile⟩ d.parents d.members d.children := by
    unfold resolve
    simp only [hget, hname]
  have hreach := exists_faultAt_iff hget
  rw [hname] at hreach
  rw [hresolve]
  unfold merge
  cases hancestry : table.ancestry [name] ⟨name, d.span, d.sourceFile⟩ d.parents with
  | ok trees =>
    have hno (way : List Nat) (problem : Problem) (asker : Heir) :
        ¬ table.FaultAt [name] ⟨name, d.span, d.sourceFile⟩ d.parents way problem asker :=
      (ancestry_eq_ok_iff.1 hancestry).not_faultAt
    refine ⟨⟨fun _ => ?_, fun _ => ⟨_, rfl⟩⟩, fun e => ⟨fun h => (nomatch h), ?_⟩⟩
    · have hclean : ∀ b, ReflTransGen table.HasParent name b →
          ¬ (table.IsUnknown b ∨ TransGen table.HasParent b b) := by
        intro b hb hbad
        obtain ⟨way, problem, asker, hfault⟩ := hreach.2 ⟨b, hb, hbad⟩
        exact hno way problem asker hfault
      refine ⟨fun b hb => ?_, fun b hb hcycle => hclean b hb (.inr hcycle)⟩
      by_cases hkey : b ∈ table.keys
      · exact .inl hkey
      · refine .inr (Classical.byContradiction fun htag => ?_)
        exact hclean b hb (.inl ⟨OrderedMap.get?_eq_none.2 hkey, htag⟩)
    · rintro ⟨way, problem, asker, hfirst, -⟩
      exact absurd hfirst.meets (hno way problem asker)
  | error g =>
    obtain ⟨way, problem, asker, hfirst, rfl⟩ := first_of_ancestry _ _ _ hancestry
    refine ⟨⟨fun ⟨r, hr⟩ => (nomatch hr), fun ⟨hknown, hacyclic⟩ => ?_⟩, fun e => ⟨?_, ?_⟩⟩
    · obtain ⟨b, hb, hbad⟩ := hreach.1 ⟨way, problem, asker, hfirst.meets⟩
      rcases hbad with ⟨hnone, htag⟩ | hcycle
      · rcases hknown b hb with hkey | hknown
        · exact absurd hkey (OrderedMap.get?_eq_none.1 hnone)
        · exact absurd hknown htag
      · exact absurd hcycle (hacyclic b hb)
    · intro he
      cases he
      exact ⟨way, problem, asker, hfirst, rfl, hfirst.meets.code⟩
    · rintro ⟨way', problem', asker', hfirst', rfl, -⟩
      obtain ⟨rfl, rfl⟩ := hfirst.unique hfirst'
      rfl

/-- A class with parents, without members. -/
def sampleEntry (name : Text) (parents : List Text) : Text × ClassDefinition :=
  (name, ⟨name, parents, ∅, [], "main", ⟨0, 0⟩⟩)

/-- Two parents share one, and the second also has the class itself among its parents, and a name
that no class has. -/
def sampleTangle : ClassTable :=
  .ofList
    [sampleEntry "Top" ["div"], sampleEntry "Left" ["Top"],
      sampleEntry "Right" ["Top", "Low", "Ghost"], sampleEntry "Low" ["Left", "Right"]]

theorem resolve_sampleTangle : sampleTangle.resolve "Low" =
    .error (faultOf (.inheritanceCycle "Low" "Right") ⟨"Right", ⟨0, 0⟩, "main"⟩) := by
  have hlow : sampleTangle.get? "Low" = some (sampleEntry "Low" ["Left", "Right"]).2 := rfl
  have hleft : sampleTangle.get? "Left" = some (sampleEntry "Left" ["Top"]).2 := rfl
  have hright : sampleTangle.get? "Right" = some (sampleEntry "Right" ["Top", "Low", "Ghost"]).2 :=
    rfl
  have htop : sampleTangle.get? "Top" = some (sampleEntry "Top" ["div"]).2 := rfl
  have haboveTop (path : List Text) (heir : Heir) :
      sampleTangle.ancestry path heir ["div"] = .ok [.tag "div"] :=
    ancestry_tag_ok rfl (by decide) ancestry_nil
  have haboveLeft : sampleTangle.ancestry ["Left", "Low"] ⟨"Left", ⟨0, 0⟩, "main"⟩ ["Top"] = _ :=
    ancestry_cls_ok htop (by decide) (haboveTop _ _) ancestry_nil
  have haboveRight : sampleTangle.ancestry ["Right", "Low"] ⟨"Right", ⟨0, 0⟩, "main"⟩
      ["Top", "Low", "Ghost"] =
        .error (faultOf (.inheritanceCycle "Low" "Right") ⟨"Right", ⟨0, 0⟩, "main"⟩) := by
    refine (ancestry_cls htop (by decide)).trans ?_
    refine (congrArg (Except.bind · _) (haboveTop _ _)).trans ?_
    exact congrArg (Except.map _) (ancestry_cycle hlow (by decide))
  have hancestry : sampleTangle.ancestry ["Low"] ⟨"Low", ⟨0, 0⟩, "main"⟩ ["Left", "Right"] =
      .error (faultOf (.inheritanceCycle "Low" "Right") ⟨"Right", ⟨0, 0⟩, "main"⟩) := by
    refine (ancestry_cls hleft (by decide)).trans ?_
    refine (congrArg (Except.bind · _) haboveLeft).trans ?_
    refine (congrArg (Except.map _) (ancestry_cls hright (by decide))).trans ?_
    exact congrArg (fun above => Except.map _ (Except.bind above _)) haboveRight
  unfold resolve
  rw [hlow]
  exact congrArg (Except.map _) hancestry

/-- A parent met a second time is no cycle. The class itself is one, and it comes before the name
that no class has. -/
theorem resolve_walk_sampleTangle :
    (∀ entry ∈ sampleTangle.entries, entry.2.name = entry.1) ∧
      sampleTangle.get? "Low" = some (sampleEntry "Low" ["Left", "Right"]).2 ∧
      (¬ ∃ r, sampleTangle.resolve "Low" = .ok r) ∧
      ∃ way problem asker,
        sampleTangle.FirstFault ["Low"] ⟨"Low", ⟨0, 0⟩, "main"⟩ ["Left", "Right"] way problem
          asker ∧
        faultOf problem asker =
          faultOf (.inheritanceCycle "Low" "Right") ⟨"Right", ⟨0, 0⟩, "main"⟩ := by
  have hnames : ∀ entry ∈ sampleTangle.entries, entry.2.name = entry.1 := by decide
  have hlow : sampleTangle.get? "Low" = some (sampleEntry "Low" ["Left", "Right"]).2 := rfl
  have hright : sampleTangle.get? "Right" = some (sampleEntry "Right" ["Top", "Low", "Ghost"]).2 :=
    rfl
  obtain ⟨hok, herror⟩ := resolve_walk hnames hlow
  have hcycle : Relation.TransGen sampleTangle.HasParent "Low" "Low" :=
    .tail (.single ⟨_, hlow, by decide⟩) ⟨_, hright, by decide⟩
  obtain ⟨way, problem, asker, hfirst, he, -⟩ := (herror _).1 resolve_sampleTangle
  exact ⟨hnames, hlow, fun hr => (hok.1 hr).2 _ .refl hcycle, way, problem, asker, hfirst, he.symm⟩

end PageLang.ClassTable
