import PageLang.Proofs.Inheritance.Precedence

/-!
# The access of a name in a body

What a class declares itself decides how its bodies see a name, with one exception: a protected
declaration of an ancestor hides a public one of the class.

* `ClassDefinition.accessesOf`: the accesses with which a class declares a name.
* `ResolvedClass.mem_prot_resolvableNames`, `ResolvedClass.mem_pub_resolvableNames`: which names are
  protected and which are public in the bodies of a merged class.
* `ClassTable.resolvableNames_own`: how a body sees the names that its class declares.
-/

namespace PageLang

/-! ## Declared names -/

namespace ClassDefinition

/-- What a class declares with an access: its variables and methods and, protected, its named
children. -/
def declared (d : ClassDefinition) : Access → List (Text × Member)
  | .prot => d.members.reachable .prot ++ namedChildren d.children
  | access => d.members.reachable access

/-- A class declares a name with an access. -/
def Declares (d : ClassDefinition) (access : Access) (name : Text) : Prop :=
  name ∈ (d.declared access).map Prod.fst

instance (d : ClassDefinition) (access : Access) (name : Text) :
    Decidable (d.Declares access name) :=
  inferInstanceAs (Decidable (_ ∈ _))

/-- The accesses of the declarations of a name in a class, one for each of them. -/
def accessesOf (d : ClassDefinition) (name : Text) : List Access :=
  [Access.pub, .prot, .priv].flatMap fun access =>
    List.replicate (((d.declared access).map Prod.fst).count name) access

theorem mem_accessesOf {d : ClassDefinition} {access : Access} {name : Text} :
    access ∈ d.accessesOf name ↔ d.Declares access name := by
  unfold accessesOf Declares
  rw [List.mem_flatMap, ← List.count_pos_iff, Nat.pos_iff_ne_zero]
  constructor
  · rintro ⟨other, -, hother⟩
    obtain ⟨hcount, rfl⟩ := List.mem_replicate.1 hother
    exact hcount
  · intro hcount
    refine ⟨access, ?_, List.mem_replicate.2 ⟨hcount, rfl⟩⟩
    cases access <;> decide

/-- A name declared once is declared with no other access. -/
theorem declares_of_once {d : ClassDefinition} {access other : Access} {name : Text}
    (h : d.accessesOf name = [access]) : d.Declares other name ↔ other = access := by
  rw [← mem_accessesOf, h, List.mem_singleton]

end ClassDefinition

/-! ## Names in the bodies of a merged class -/

namespace ResolvedClass

section
variable {r : ResolvedClass} {own : ClassDefinition} {above : List ClassDefinition} {name : Text}
  (h : r.Merges own above)
include h

theorem contains_prot :
    r.prot.contains name = true ↔ ∃ d ∈ own :: above, d.Declares .prot name := by
  rw [← OrderedMap.mem_keys_iff]
  exact h.prot.names name

theorem contains_priv : r.priv.contains name = true ↔ own.Declares .priv name := by
  rw [← OrderedMap.mem_keys_iff, h.priv.names name]
  simp only [List.mem_singleton, exists_eq_left]
  rfl

/-- Names that a class or an ancestor declares protected are, unless the class declares them private
too. -/
theorem mem_prot_resolvableNames : name ∈ r.resolvableNames.prot ↔
    (∃ d ∈ own :: above, d.Declares .prot name) ∧ ¬ own.Declares .priv name := by
  unfold resolvableNames
  rw [List.mem_filter, OrderedMap.mem_keys_iff, contains_prot h, Bool.not_eq_true',
    ← Bool.not_eq_true, contains_priv h]

/-- Open names are public, unless they are declared protected by any class or private by the class
itself. -/
theorem mem_pub_resolvableNames : name ∈ r.resolvableNames.pub ↔
    name ∈ r.openNames ∧ (∀ d ∈ own :: above, ¬ d.Declares .prot name) ∧
      ¬ own.Declares .priv name := by
  unfold resolvableNames
  rw [List.mem_filter, Bool.and_eq_true, Bool.not_eq_true', Bool.not_eq_true', ← Bool.not_eq_true,
    ← Bool.not_eq_true, contains_prot h, contains_priv h, not_exists]
  simp only [not_and]

/-- Public variables and methods are open. -/
theorem mem_openNames {d : ClassDefinition} (hd : d ∈ own :: above) (hname : d.Declares .pub name)
    (hne : name ≠ Text.ofString "constructor") : name ∈ r.openNames := by
  have hkey : name ∈ r.pub.keys := (h.pub.names name).2 ⟨d, hd, hname⟩
  have hkept : name ∈ r.pub.keys.filter (fun k => k != Text.ofString "constructor") :=
    List.mem_filter.2 ⟨hkey, bne_iff_ne.2 hne⟩
  exact List.mem_append_left _ (List.mem_append_right _ hkept)

end

end ResolvedClass

/-! ## Names of the class itself -/

namespace ClassTable

/-- A name that a class declares once as protected or as private is just that in its bodies,
whatever its ancestors declare. A name that it declares once as public is public in them exactly if
no ancestor declares it protected, and otherwise it is protected. -/
theorem resolvableNames_own {table : ClassTable} {cls : Text} {own : ClassDefinition}
    {r : ResolvedClass} (h : table.resolve cls = .ok r) (hget : table.get? cls = some own) :
    ∃ above, table.Linearises [cls] (own :: above) ∧ ∀ name,
      (own.accessesOf name = [.prot] →
        name ∈ r.resolvableNames.prot ∧ name ∉ r.resolvableNames.pub) ∧
      (own.accessesOf name = [.priv] →
        name ∉ r.resolvableNames.prot ∧ name ∉ r.resolvableNames.pub) ∧
      (own.accessesOf name = [.pub] →
        (name ∈ r.resolvableNames.prot ↔ ∃ d ∈ above, d.Declares .prot name) ∧
        (name ≠ Text.ofString "constructor" →
          (name ∈ r.resolvableNames.pub ↔ ∀ d ∈ above, ¬ d.Declares .prot name))) := by
  obtain ⟨own', above, hget', hown, hmerges⟩ := merges_of_resolve h
  cases hget.symm.trans hget'
  refine ⟨above, hown, fun name => ?_⟩
  have hprot : name ∈ r.resolvableNames.prot ↔ _ := ResolvedClass.mem_prot_resolvableNames hmerges
  have hpub : name ∈ r.resolvableNames.pub ↔ _ := ResolvedClass.mem_pub_resolvableNames hmerges
  refine ⟨fun honce => ?_, fun honce => ?_, fun honce => ?_⟩
  · have hdeclared : own.Declares .prot name := (ClassDefinition.declares_of_once honce).2 rfl
    have hpriv : ¬ own.Declares .priv name := by
      rw [ClassDefinition.declares_of_once honce]
      nofun
    exact ⟨hprot.2 ⟨⟨own, List.mem_cons_self, hdeclared⟩, hpriv⟩,
      fun hmem => (hpub.1 hmem).2.1 own List.mem_cons_self hdeclared⟩
  · have hdeclared : own.Declares .priv name := (ClassDefinition.declares_of_once honce).2 rfl
    exact ⟨fun hmem => (hprot.1 hmem).2 hdeclared, fun hmem => (hpub.1 hmem).2.2 hdeclared⟩
  · have hownProt : ¬ own.Declares .prot name := by
      rw [ClassDefinition.declares_of_once honce]
      nofun
    have hownPriv : ¬ own.Declares .priv name := by
      rw [ClassDefinition.declares_of_once honce]
      nofun
    refine ⟨?_, fun hne => ?_⟩
    · rw [hprot]
      simp only [List.mem_cons, exists_eq_or_imp, hownProt, hownPriv, false_or, not_false_eq_true,
        and_true]
    · have hdeclared : own.Declares .pub name := (ClassDefinition.declares_of_once honce).2 rfl
      have hopen := ResolvedClass.mem_openNames hmerges List.mem_cons_self hdeclared hne
      rw [hpub, List.forall_mem_cons]
      simp only [hopen, hownProt, hownPriv, not_false_eq_true, true_and, and_true]

/-- A class without children that declares variables. -/
def sampleDeclaring (name : Text) (parents : List Text) (vars : ByAccess Value) :
    ClassDefinition :=
  ⟨name, parents, { (∅ : Members) with vars }, [], "main", ⟨0, 0⟩⟩

/-- Variables with some names. -/
def sampleValues (names : List Text) : OrderedMap Value :=
  .ofList (names.map fun name => (name, .scalar (.number "1")))

/-- A class that declares `x` public, `y` protected and `z` private. -/
def sampleHeir : ClassDefinition :=
  sampleDeclaring "Heir" ["Base"] ⟨sampleValues ["x"], sampleValues ["y"], sampleValues ["z"]⟩

/-- A parent that declares the first of them protected and the others public. -/
def sampleBase : ClassDefinition :=
  sampleDeclaring "Base" [] ⟨sampleValues ["y", "z"], sampleValues ["x"], ∅⟩

/-- A class below one that declares its names with other accesses. -/
def sampleRaised : ClassTable := .ofList [("Base", sampleBase), ("Heir", sampleHeir)]

/-- The public name of the class is taken for the protected one of its parent. -/
theorem resolvableNames_own_sampleRaised : ∃ r, sampleRaised.resolve "Heir" = .ok r ∧
    (Text.ofString "x" ∈ r.resolvableNames.prot ∧
      Text.ofString "x" ∉ r.resolvableNames.pub) ∧
    (Text.ofString "y" ∈ r.resolvableNames.prot ∧
      Text.ofString "y" ∉ r.resolvableNames.pub) ∧
    (Text.ofString "z" ∉ r.resolvableNames.prot ∧
      Text.ofString "z" ∉ r.resolvableNames.pub) := by
  have hheir : sampleRaised.get? "Heir" = some sampleHeir := rfl
  have hbase : sampleRaised.get? "Base" = some sampleBase := rfl
  have hancestry : sampleRaised.ancestry ["Heir"] ⟨"Heir", ⟨0, 0⟩, "main"⟩ ["Base"] = _ :=
    ancestry_cls_ok hbase (by decide) ancestry_nil ancestry_nil
  have hr : ∃ r, sampleRaised.resolve "Heir" = .ok r := by
    unfold resolve
    rw [hheir]
    exact ⟨_, congrArg (Except.map _) hancestry⟩
  obtain ⟨r, hr⟩ := hr
  obtain ⟨above, habove, hnames⟩ := resolvableNames_own hr hheir
  have hline : sampleRaised.Linearises ["Heir"] [sampleHeir, sampleBase] :=
    .cls hheir (.cls hbase .nil .nil) .nil
  cases habove.unique hline
  have hx := (hnames "x").2.2 (by decide)
  have hxBase : sampleBase.Declares .prot "x" := by decide
  exact ⟨r, hr, ⟨hx.1.2 ⟨_, List.mem_singleton_self _, hxBase⟩,
    fun hmem => (hx.2 (by decide)).1 hmem _ (List.mem_singleton_self _) hxBase⟩,
    (hnames "y").1 (by decide), (hnames "z").2.1 (by decide)⟩

end ClassTable

end PageLang
