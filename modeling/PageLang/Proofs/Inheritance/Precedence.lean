import PageLang.Inheritance.Resolved
import PageLang.Proofs.Inheritance.Ancestry

/-!
# Precedence among ancestors

The linearisation of a class is the class itself and then, parent by parent in declared order, the
linearisations of its parents. It keeps repetitions, and raw tags add nothing to it. A resolved
class holds what the classes of its linearisation declare, and where several declare a name the
first of them wins.

* `OrderedMap.FirstWins`: a map that holds what a list of classes declares in one bucket.
* `ClassTable.Linearises`: the linearisation of a list of names, which is unique (`unique`).
* `ClassTable.Ascends.linearises`: the classes of a tree of ancestors are a linearisation.
* `ResolvedClass.merges_foldl`: merging classes one after the other.
* `ClassTable.merge_eq_ok_iff`: a class or an element resolves to what its trees are merged into.
* `ClassTable.resolve_merges`: every map of a resolved class.
-/

namespace PageLang

/-! ## The first declaration wins -/

namespace OrderedMap

variable {β : Type}

/-- `m` holds what the classes of a list declare in a bucket. -/
structure FirstWins (m : OrderedMap β) (classes : List ClassDefinition)
    (bucket : ClassDefinition → List (Text × β)) : Prop where
  /-- The names are those that one of the classes declares. -/
  names : ∀ name, name ∈ m.keys ↔ ∃ d ∈ classes, name ∈ (bucket d).map Prod.fst
  /-- A name has the value of the first class that declares it. -/
  first : ∀ before d after name, classes = before ++ d :: after →
    (∀ c ∈ before, name ∉ (bucket c).map Prod.fst) → name ∈ (bucket d).map Prod.fst →
    m.get? name = (bucket d).lookup name
  /-- The names stand in order of first appearance. -/
  order : m.keys = (classes.flatMap (fun d => (bucket d).map Prod.fst)).eraseDups

/-- The map filled with the bucket of one class after the other. -/
theorem firstWins_fill (classes : List ClassDefinition)
    (bucket : ClassDefinition → List (Text × β)) :
    ((∅ : OrderedMap β).fill (classes.flatMap bucket)).FirstWins classes bucket := by
  have hkeys : ((∅ : OrderedMap β).fill (classes.flatMap bucket)).keys =
      (classes.flatMap (fun d => (bucket d).map Prod.fst)).eraseDups := by
    rw [keys_fill, List.map_flatMap]
    rfl
  refine ⟨?_, ?_, hkeys⟩
  · intro name
    rw [hkeys, List.mem_eraseDups, List.mem_flatMap]
  · intro before d after name hclasses hbefore hd
    have hnone : (before.flatMap bucket).lookup name = none := by
      apply lookup_eq_none.2
      rw [List.map_flatMap, List.mem_flatMap]
      rintro ⟨c, hc, hname⟩
      exact hbefore c hc hname
    have hsome : ((bucket d).lookup name).or ((after.flatMap bucket).lookup name) =
        (bucket d).lookup name := by
      cases hlookup : (bucket d).lookup name with
      | none => exact absurd hd (lookup_eq_none.1 hlookup)
      | some v => rfl
    rw [get?_fill, hclasses, List.flatMap_append, List.flatMap_cons, lookup_append, hnone,
      lookup_append, hsome]
    rfl

end OrderedMap

/-! ## Linearisations -/

namespace ClassTable

/-- The linearisation of a list of names: each class before the linearisation of its parents, and
nothing for a raw tag. -/
inductive Linearises (table : ClassTable) : List Text → List ClassDefinition → Prop
  | nil : Linearises table [] []
  | tag {name : Text} {rest : List Text} {after : List ClassDefinition} :
    table.get? name = none → Vocabulary.isTag name = true → Linearises table rest after →
    Linearises table (name :: rest) after
  | cls {name : Text} {rest : List Text} {d : ClassDefinition}
      {above after : List ClassDefinition} :
    table.get? name = some d → Linearises table d.parents above → Linearises table rest after →
    Linearises table (name :: rest) (d :: above ++ after)

theorem Linearises.unique {table : ClassTable} {names : List Text} {l l' : List ClassDefinition}
    (h : table.Linearises names l) (h' : table.Linearises names l') : l = l' := by
  induction h generalizing l' with
  | nil =>
    cases h'
    rfl
  | tag hnone _ _ ih =>
    cases h' with
    | tag _ _ hrest => exact ih hrest
    | cls hsome _ _ =>
      rw [hnone] at hsome
      cases hsome
  | cls hsome _ _ ihAbove ihAfter =>
    cases h' with
    | tag hnone _ _ =>
      rw [hsome] at hnone
      cases hnone
    | cls hsome' habove hafter =>
      rw [hsome] at hsome'
      cases hsome'
      rw [ihAbove habove, ihAfter hafter]

/-- The classes of the trees of parents are the linearisation of the parents. -/
theorem Ascends.linearises {table : ClassTable} {path parents : List Text} {trees : List Ancestor}
    (h : table.Ascends path parents trees) :
    table.Linearises parents (Ancestor.allClasses trees) := by
  induction h with
  | nil => exact .nil
  | tag hget htag _ ih => exact .tag hget htag ih
  | cls hget _ _ _ ihAbove ih => exact .cls hget ihAbove ih

end ClassTable

/-! ## Merging -/

namespace ResolvedClass

/-- A resolved class holds what a class of its own and the classes above it declare. Only its own
private members are among it. -/
structure Merges (r : ResolvedClass) (own : ClassDefinition) (above : List ClassDefinition) :
    Prop where
  style : r.style.FirstWins (own :: above) (fun d => d.members.style.entries)
  attributes : r.attributes.FirstWins (own :: above) (fun d => d.members.attributes.entries)
  getters : r.getters.FirstWins (own :: above) (fun d => d.members.getters.entries)
  setters : r.setters.FirstWins (own :: above) (fun d => d.members.setters.entries)
  eventHandlers :
    r.eventHandlers.FirstWins (own :: above) (fun d => d.members.eventHandlers.entries)
  states : r.states.FirstWins (own :: above) (fun d => d.members.states.entries)
  pub : r.pub.FirstWins (own :: above) (fun d => d.members.reachable .pub)
  prot : r.prot.FirstWins (own :: above)
    (fun d => d.members.reachable .prot ++ namedChildren d.children)
  priv : r.priv.FirstWins [own] (fun d => d.members.reachable .priv)

/-- A class with one more class merged in. -/
def absorbClass (r : ResolvedClass) (d : ClassDefinition) : ResolvedClass :=
  r.absorb d.members d.children

/-- Merging classes one after the other fills each map with their buckets in a row. -/
theorem foldl_absorbClass (r : ResolvedClass) (classes : List ClassDefinition) :
    classes.foldl absorbClass r =
      { r with
        style := r.style.fill (classes.flatMap (fun d => d.members.style.entries))
        attributes := r.attributes.fill (classes.flatMap (fun d => d.members.attributes.entries))
        getters := r.getters.fill (classes.flatMap (fun d => d.members.getters.entries))
        setters := r.setters.fill (classes.flatMap (fun d => d.members.setters.entries))
        eventHandlers :=
          r.eventHandlers.fill (classes.flatMap (fun d => d.members.eventHandlers.entries))
        states := r.states.fill (classes.flatMap (fun d => d.members.states.entries))
        pub := r.pub.fill (classes.flatMap (fun d => d.members.reachable .pub))
        prot := r.prot.fill
          (classes.flatMap (fun d => d.members.reachable .prot ++ namedChildren d.children)) } := by
  induction classes generalizing r with
  | nil => rfl
  | cons d classes ih =>
    rw [List.foldl_cons, ih]
    simp only [absorbClass, absorb, List.flatMap_cons, OrderedMap.fill_append]

theorem merges_foldl (name : Text) (graphical : List Text) (own : ClassDefinition)
    (above : List ClassDefinition) :
    ((own :: above).foldl absorbClass (start name own.members graphical)).Merges own above := by
  rw [foldl_absorbClass]
  have hpriv := OrderedMap.firstWins_fill [own] (fun d => d.members.reachable .priv)
  rw [List.flatMap_singleton] at hpriv
  exact ⟨OrderedMap.firstWins_fill _ _, OrderedMap.firstWins_fill _ _,
    OrderedMap.firstWins_fill _ _, OrderedMap.firstWins_fill _ _, OrderedMap.firstWins_fill _ _,
    OrderedMap.firstWins_fill _ _, OrderedMap.firstWins_fill _ _, OrderedMap.firstWins_fill _ _,
    hpriv⟩

/-- The class of a name that some trees of ancestors are merged into, its own members and children
before theirs. -/
def merged (name : Text) (own : Members) (children : List Element) (trees : List Ancestor) :
    ResolvedClass :=
  (Ancestor.allClasses trees).foldl absorbClass
    ((start name own (Ancestor.graphical trees)).absorb own children)

theorem graphicalAncestors_merged (name : Text) (own : Members) (children : List Element)
    (trees : List Ancestor) :
    (merged name own children trees).graphicalAncestors = Ancestor.graphical trees := by
  rw [merged, foldl_absorbClass]
  rfl

end ResolvedClass

namespace ClassTable

theorem merge_eq_ok_iff {table : ClassTable} {heir : Heir} {parents : List Text} {own : Members}
    {children : List Element} {r : ResolvedClass} :
    table.merge heir parents own children = .ok r ↔
      ∃ trees, table.Ascends [heir.name] parents trees ∧
        r = .merged heir.name own children trees := by
  unfold merge
  constructor
  · intro h
    cases hancestry : table.ancestry [heir.name] heir parents with
    | error e =>
      rw [hancestry] at h
      cases h
    | ok trees =>
      rw [hancestry] at h
      cases h
      exact ⟨trees, ancestry_eq_ok_iff.1 hancestry, rfl⟩
  · rintro ⟨trees, htrees, rfl⟩
    rw [ancestry_eq_ok_iff.2 htrees]
    rfl

theorem resolve_eq_ok_iff {table : ClassTable} {name : Text} {r : ResolvedClass} :
    table.resolve name = .ok r ↔ ∃ own trees, table.get? name = some own ∧
      table.Ascends [own.name] own.parents trees ∧
      r = .merged own.name own.members own.children trees := by
  unfold resolve
  cases hget : table.get? name with
  | none => simp
  | some own => simp [merge_eq_ok_iff]

/-- A resolved class is merged from the class of its name and the ancestors of that. -/
theorem merges_of_resolve {table : ClassTable} {name : Text} {r : ResolvedClass}
    (h : table.resolve name = .ok r) :
    ∃ own above, table.get? name = some own ∧ table.Linearises [name] (own :: above) ∧
      r.Merges own above := by
  obtain ⟨own, trees, hget, htrees, rfl⟩ := resolve_eq_ok_iff.1 h
  have hown : table.Linearises [name] (own :: Ancestor.allClasses trees ++ []) :=
    .cls hget htrees.linearises .nil
  rw [List.append_nil] at hown
  refine ⟨own, Ancestor.allClasses trees, hget, hown, ?_⟩
  exact ResolvedClass.merges_foldl own.name (Ancestor.graphical trees) own
    (Ancestor.allClasses trees)

/-- A class with parents and some style properties. -/
def sampleClass (name : Text) (parents : List Text) (style : List (Text × Scalar)) :
    Text × ClassDefinition :=
  (name, ⟨name, parents, { (∅ : Members) with style := .ofList style }, [], "main", ⟨0, 0⟩⟩)

end ClassTable

end PageLang
