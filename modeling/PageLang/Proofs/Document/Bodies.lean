import Mathlib.Data.List.Forall2
import PageLang.Proofs.Document.Agreement
import PageLang.Proofs.Element.Ways

/-!
# The function bodies of a document

Linting and compiling go through the same function bodies in the same order: those of each class
and of the elements in it, then those of the tree. Each body is found under a site, which tells the
class or element it belongs to and where that keeps it, and each site is visited once.

* `BodySite`, `Document.function?`: the sites of function bodies, and the functions there.
* `Document.enumerates_sited`: the functions of a document, each under its own site.
* `Document.lintRequests`: what a linter is asked.
* `Compilation.run_bodies`: what is linted is what is compiled, and both are all functions.
-/

namespace PageLang

theorem OrderedMap.enumerates {β : Type} (m : OrderedMap β) : Enumerates m.entries m.get? :=
  ⟨m.nodup, fun _ _ => OrderedMap.get?_eq_some.symm⟩

/-! ## The functions of members -/

/-- A map of members that holds functions. -/
inductive Bucket where
  | method (access : Access)
  | getter
  | setter
  | eventHandler
  deriving DecidableEq

namespace Bucket

/-- All of them, in the order in which their functions come. -/
def all : List Bucket :=
  [.method .pub, .method .prot, .method .priv, .getter, .setter, .eventHandler]

/-- The role of a function of some name in a bucket. -/
def kind (b : Bucket) (name : Text) : BodyKind :=
  match b with
  | .method _ => if name = Text.ofString "constructor" then .constructor else .method
  | .getter => .getter
  | .setter => .setter
  | .eventHandler => .eventHandler

end Bucket

namespace Members

/-- The functions in a bucket. -/
def bucket (m : Members) : Bucket → OrderedMap Behavior
  | .method access => m.methods.get access
  | .getter => m.getters
  | .setter => m.setters
  | .eventHandler => m.eventHandlers

/-- The function of a name in a bucket. -/
def function? (m : Members) (slot : Bucket × Text) : Option Behavior :=
  (m.bucket slot.1).get? slot.2

/-- The functions of members, each under its bucket and name. -/
def filled (m : Members) : List ((Bucket × Text) × Behavior) :=
  (Bucket.all.map fun b => (b, m.bucket b)).flatMap fun e =>
    e.2.entries.map fun e' => ((e.1, e'.1), e'.2)

theorem enumerates_filled (m : Members) : Enumerates m.filled m.function? := by
  have hbuckets : Enumerates (Bucket.all.map fun b => (b, m.bucket b))
      (fun b => some (m.bucket b)) := by
    constructor
    · rw [List.map_map]
      change Bucket.all.Nodup
      decide
    · intro b map
      rw [List.mem_map, Option.some.injEq]
      constructor
      · rintro ⟨_, -, heq⟩
        cases heq
        rfl
      · rintro rfl
        have hall : b ∈ Bucket.all := by
          cases b with
          | method access => cases access <;> decide
          | getter => decide
          | setter => decide
          | eventHandler => decide
        exact ⟨b, hall, rfl⟩
  exact hbuckets.flatMap OrderedMap.enumerates

/-- The functions of members are their bodies. -/
theorem bodies_eq (m : Members) :
    m.bodies = m.filled.map fun e => (e.1.1.kind e.1.2, e.1.2, e.2) := by
  simp only [bodies, filled, Bucket.all, ByAccess.entries, List.map_cons, List.map_nil,
    List.flatMap_cons, List.flatMap_nil, List.map_append, List.map_map, List.append_nil,
    List.append_assoc]
  rfl

end Members

/-! ## Sites -/

/-- What has members of its own: a class or an element in it, which is at the end of a way (no way
at all leads to the class itself), or an element of the tree. -/
inductive BodyOwner where
  | inClass (name : Text) (way : List Nat)
  | inTree (way : List Nat)

/-- Whether functions run as members of an instance. -/
def BodyOwner.context : BodyOwner → BodyContext
  | .inClass _ _ => .instanced
  | .inTree _ => .freeStanding

/-- Where a function stands: whose it is, and its bucket and its name there. -/
abbrev BodySite := BodyOwner × Bucket × Text

namespace ClassDefinition

/-- The members of a class, or those of the element in it that a way leads to. -/
def members? (c : ClassDefinition) : List Nat → Option Members
  | [] => some c.members
  | i :: way => (Element.at? c.children (i :: way)).map (·.overrides)

/-- The members of a class and of all elements in it. -/
def bearers (c : ClassDefinition) : List (List Nat × Members) :=
  ([], c.members) :: (Element.placedAll c.children).map fun p => (p.1, p.2.overrides)

theorem enumerates_bearers (c : ClassDefinition) : Enumerates c.bearers c.members? := by
  have hnested := (Element.enumerates_placedAll c.children).mapValue (·.overrides)
  constructor
  · rw [bearers, List.map_cons, List.nodup_cons]
    refine ⟨fun hmem => ?_, hnested.nodup⟩
    obtain ⟨⟨way, m⟩, hm, rfl⟩ := List.mem_map.1 hmem
    have hnone := (hnested.mem _ _).1 hm
    cases hnone
  · intro way m
    rw [bearers, List.mem_cons, hnested.mem]
    cases way with
    | nil => simp [members?, Element.at?, eq_comm]
    | cons i way => simp [members?]

end ClassDefinition

namespace Document

variable {d : Document}

/-- The members of an owner of function bodies. -/
def members? (d : Document) : BodyOwner → Option Members
  | .inClass name way => (d.classes.get? name).bind (·.members? way)
  | .inTree way => (Element.at? d.hierarchy.roots way).map (·.overrides)

/-- The function at a site. -/
def function? (d : Document) (site : BodySite) : Option Behavior :=
  (d.members? site.1).bind (·.function? site.2)

/-- All members with their owners: those of the classes, then those of the tree. -/
def bearers (d : Document) : List (BodyOwner × Members) :=
  (d.classes.entries.flatMap fun e => e.2.bearers.map fun p => (.inClass e.1 p.1, p.2)) ++
    (Element.placedAll d.hierarchy.roots).map fun p => (.inTree p.1, p.2.overrides)

/-- The functions of members with their owners. -/
def sitedIn (bearers : List (BodyOwner × Members)) : List (BodySite × Behavior) :=
  bearers.flatMap fun e => e.2.filled.map fun e' => ((e.1, e'.1), e'.2)

/-- All functions of a document under their sites. -/
def sited (d : Document) : List (BodySite × Behavior) := sitedIn d.bearers

theorem enumerates_bearers (d : Document) : Enumerates d.bearers d.members? := by
  have hclasses := d.classes.enumerates.flatMap ClassDefinition.enumerates_bearers
  have htree := (Element.enumerates_placedAll d.hierarchy.roots).mapValue (·.overrides)
  have hinClass : Function.Injective fun k : Text × List Nat => BodyOwner.inClass k.1 k.2 := by
    rintro ⟨name, way⟩ ⟨name', way'⟩ heq
    cases heq
    rfl
  have hinTree : Function.Injective BodyOwner.inTree := fun way way' heq => by
    cases heq
    rfl
  have hall : ∀ x : BodyOwner, (∃ k : Text × List Nat, x = .inClass k.1 k.2) ∨
      ∃ way, x = .inTree way := by
    intro x
    cases x with
    | inClass name way => exact .inl ⟨(name, way), rfl⟩
    | inTree way => exact .inr ⟨way, rfl⟩
  have hjoin : Enumerates _ d.members? :=
    hclasses.join htree hinClass hinTree (by nofun) hall (fun _ => rfl) (fun _ => rfl)
  rw [List.map_flatMap, List.map_map] at hjoin
  simpa only [List.map_map, bearers, Function.comp_def] using hjoin

/-- The functions of a document are those at its sites, each at its own. -/
theorem enumerates_sited (d : Document) : Enumerates d.sited d.function? :=
  d.enumerates_bearers.flatMap Members.enumerates_filled

theorem sitedIn_append (a b : List (BodyOwner × Members)) :
    sitedIn (a ++ b) = sitedIn a ++ sitedIn b := List.flatMap_append

theorem sitedIn_cons (e : BodyOwner × Members) (rest : List (BodyOwner × Members)) :
    sitedIn (e :: rest) = sitedIn [e] ++ sitedIn rest := sitedIn_append [e] rest

/-! ## Linting -/

/-- What a linter is asked about a function, and the file that the function comes from. -/
def lintRequest (d : Document) (f : Behavior) : Text × LintRequest :=
  let (file, line) := d.origin f.bodySpan.start
  (file, ⟨f.body, f.parameters, line⟩)

/-- What a linter is asked about a document, in order. -/
def lintRequests (d : Document) : List (Text × LintRequest) := d.bodies.map d.lintRequest

/-- The diagnostics that a linter answers a request with. -/
def findings (linter : Linter) (q : Text × LintRequest) : List Diagnostic :=
  (linter q.2).map fun finding =>
    .ofProblem (.lint finding.message) q.1 finding.line finding.character

theorem isError_findings {linter : Linter} {q : Text × LintRequest} {g : Diagnostic}
    (h : g ∈ findings linter q) : g.isError = false := by
  obtain ⟨finding, -, rfl⟩ := List.mem_map.1 h
  rfl

/-- An analysis of all files with a linter adds to the diagnostics what the linter finds. -/
theorem ofDocument_linted (d : Document) (linter : Linter) :
    (Analysis.ofDocument d (some linter) ⟨true, true⟩).errors = d.diagnostics.filter (·.isError) ∧
    (Analysis.ofDocument d (some linter) ⟨true, true⟩).warnings =
      d.diagnostics.filter (fun g => !g.isError) ++ d.lintRequests.flatMap (findings linter) := by
  have hfindings : d.bodies.flatMap (d.lintBody linter true) =
      d.lintRequests.flatMap (findings linter) := by
    rw [lintRequests, List.flatMap_map]
    rfl
  have hwarnings : ∀ g ∈ d.lintRequests.flatMap (findings linter), g.isError = false := by
    intro g hg
    obtain ⟨q, -, hg⟩ := List.mem_flatMap.1 hg
    exact isError_findings hg
  constructor
  · change (d.diagnostics ++ d.bodies.flatMap (d.lintBody linter true)).filter (·.isError) = _
    have hnone : (d.lintRequests.flatMap (findings linter)).filter (·.isError) = [] := by
      apply List.filter_eq_nil_iff.2
      intro g hg
      rw [hwarnings g hg]
      exact Bool.false_ne_true
    rw [hfindings, List.filter_append, hnone, List.append_nil]
  · change (d.diagnostics ++ d.bodies.flatMap (d.lintBody linter true)).filter
      (fun g => !g.isError) = _
    rw [hfindings, List.filter_append]
    congr 1
    apply List.filter_eq_self.2
    intro g hg
    rw [hwarnings g hg]
    rfl

theorem elementBodies_eq (es : List Element) :
    elementBodies es =
      (Element.placedAll es).flatMap fun p => p.2.overrides.filled.map Prod.snd := by
  rw [elementBodies, ← Element.map_placedAll, List.flatMap_map]
  simp only [Members.bodies_eq, List.map_map, Function.comp_def]

/-- The bodies of a document are the functions at its sites. -/
theorem bodies_eq (d : Document) : d.bodies = d.sited.map Prod.snd := by
  have hsited : ∀ bearers, (sitedIn bearers).map Prod.snd =
      bearers.flatMap fun e => e.2.filled.map Prod.snd := by
    intro bearers
    rw [sitedIn, List.map_flatMap]
    simp only [List.map_map, Function.comp_def]
  rw [sited, hsited, bearers, List.flatMap_append, List.flatMap_assoc, List.flatMap_map, bodies,
    elementBodies_eq, OrderedMap.values, List.flatMap_map]
  simp only [ClassDefinition.bearers, elementBodies_eq, Members.bodies_eq, List.map_map,
    List.map_cons, List.flatMap_cons, List.flatMap_map, Function.comp_def]

end Document

/-! ## Compiling -/

namespace Document

/-- The element that a way leads to, with its ancestors merged. -/
def resolved? (d : Document) (e : Element) : Option ResolvedClass :=
  (d.classes.resolveElement d.root e).toOption

/-- The merged class whose names the bodies of an owner may mean. -/
def resolvedAt? (d : Document) : BodyOwner → Option ResolvedClass
  | .inClass name [] => d.resolved.get? name
  | .inClass name (i :: way) => (d.classes.get? name).bind fun c =>
      (Element.at? c.children (i :: way)).bind d.resolved?
  | .inTree way => (Element.at? d.hierarchy.roots way).bind d.resolved?

/-- A class that resolves is among the resolved classes. -/
theorem get?_resolveAll {table : ClassTable} {name : Text} {r : ResolvedClass}
    (h : table.resolve name = .ok r) : (resolveAll table).get? name = some r := by
  have hkey : name ∈ table.keys := by
    cases hget : table.get? name with
    | none =>
      unfold ClassTable.resolve at h
      rw [hget] at h
      cases h
    | some c => exact OrderedMap.mem_keys_of_get? hget
  have hdistinct : ((table.keys.filterMap fun name =>
      (table.resolve name).toOption.map fun r => (name, r)).map Prod.fst).Nodup := by
    rw [List.map_filterMap]
    refine table.nodup.filterMap fun a a' b hb hb' => ?_
    obtain ⟨_, h₁, rfl⟩ := Option.map_eq_some_iff.1 hb
    obtain ⟨_, -, rfl⟩ := Option.map_eq_some_iff.1 h₁
    obtain ⟨_, h₂, heq⟩ := Option.map_eq_some_iff.1 hb'
    obtain ⟨_, -, rfl⟩ := Option.map_eq_some_iff.1 h₂
    exact heq.symm
  unfold resolveAll
  rw [OrderedMap.get?_ofList hdistinct]
  refine OrderedMap.lookup_of_mem hdistinct (List.mem_filterMap.2 ⟨name, hkey, ?_⟩)
  rw [h]
  rfl

/-- A body is made from the function at a site: its references are qualified once, by the names
that the owner resolves. -/
structure Compiles (d : Document) (x : BodySite × Behavior) (b : QualifiedBody) : Prop where
  member : b.member = x.1.2.2
  kind : b.kind = x.1.2.1.kind x.1.2.2
  context : b.context = x.1.1.context
  parameters : b.parameters = x.2.parameters
  source : b.source = x.2.body
  qualified : ∃ r, d.resolvedAt? x.1.1 = some r ∧
    b.qualified = Qualify.qualify x.2.body r.resolvableNames x.2.parameters x.1.1.context

end Document

namespace Compilation

open Document

variable {d : Document}

theorem compiles_qualifyMembers {place : BodyOwner} {r : ResolvedClass}
    (hr : d.resolvedAt? place = some r) (owner : Text) (m : Members) :
    List.Forall₂ d.Compiles (sitedIn [(place, m)])
      (qualifyMembers owner m r.resolvableNames place.context) := by
  rw [sitedIn, List.flatMap_singleton, qualifyMembers, Members.bodies_eq, List.map_map,
    List.forall₂_map_left_iff, List.forall₂_map_right_iff, List.forall₂_same]
  intro e _
  exact ⟨rfl, rfl, rfl, rfl, rfl, r, hr, rfl⟩

mutual

/-- The bodies of an element are made from its functions and those of its descendants, if the
owner of each resolves as the element does. -/
theorem compiles_element (around : Text) (context : BodyContext) (place : List Nat → BodyOwner) :
    (e : Element) → (∀ way, (place way).context = context) →
    (∀ p ∈ e.placed, d.resolvedAt? (place p.1) = d.resolved? p.2) →
    ∀ r, element d around context e = .ok r →
      List.Forall₂ d.Compiles (sitedIn (e.placed.map fun p => (place p.1, p.2.overrides))) r.2
  | ⟨name, classRefs, overrides, children, span⟩, hcontext, hplace, r, h => by
    rw [element] at h
    rw [Element.placed] at hplace ⊢
    split at h
    · cases h
    · next resolved hresolved =>
      cases hinner : elements d (around ++ elementLabel name classRefs ++ [Byte.greater]) context
          children with
      | error g =>
        simp only [hinner] at h
        cases h
      | ok inner =>
        simp only [hinner] at h
        cases h
        have hown : d.resolvedAt? (place []) = some resolved := by
          rw [hplace _ List.mem_cons_self, resolved?, hresolved]
          rfl
        have hfirst :=
          compiles_qualifyMembers hown (around ++ elementLabel name classRefs) overrides
        rw [hcontext] at hfirst
        have hothers := compiles_elements
          (around ++ elementLabel name classRefs ++ [Byte.greater]) context place 0 children
          hcontext (fun p hp => hplace p (List.mem_cons_of_mem _ hp)) inner hinner
        rw [List.map_cons, sitedIn_cons]
        exact List.rel_append hfirst hothers

theorem compiles_elements (around : Text) (context : BodyContext) (place : List Nat → BodyOwner)
    (first : Nat) :
    (es : List Element) → (∀ way, (place way).context = context) →
    (∀ p ∈ Element.placedFrom first es, d.resolvedAt? (place p.1) = d.resolved? p.2) →
    ∀ r, elements d around context es = .ok r →
      List.Forall₂ d.Compiles
        (sitedIn ((Element.placedFrom first es).map fun p => (place p.1, p.2.overrides))) r.2
  | [], _, _, r, h => by
    rw [elements] at h
    cases h
    rw [Element.placedFrom]
    exact List.Forall₂.nil
  | e :: rest, hcontext, hplace, r, h => by
    rw [elements] at h
    rw [Element.placedFrom] at hplace ⊢
    split at h
    · cases h
    · next compiled bodies hfirst =>
      cases hothers : elements d around context rest with
      | error g =>
        rw [hothers] at h
        cases h
      | ok others =>
        rw [hothers] at h
        cases h
        have hhere := compiles_element around context (fun way => place (first :: way)) e
          (fun way => hcontext _) (fun p hp => hplace (first :: p.1, p.2)
            (List.mem_append_left _ (List.mem_map.2 ⟨p, hp, rfl⟩))) _ hfirst
        have hthere := compiles_elements around context place (first + 1) rest hcontext
          (fun p hp => hplace p (List.mem_append_right _ hp)) _ hothers
        rw [List.map_append, sitedIn_append, List.map_map]
        exact List.rel_append hhere hthere

end

/-- The bodies of classes are made from the functions of the classes and of the elements in them,
if all of the classes resolve. -/
theorem compiles_classBodies (classes : List (Text × ClassDefinition))
    (h : ∀ e ∈ classes, d.classes.get? e.1 = some e.2 ∧ ∃ r, d.resolved.get? e.1 = some r)
    {bodies : List QualifiedBody} (hbodies : classBodies d classes = .ok bodies) :
    List.Forall₂ d.Compiles
      (sitedIn (classes.flatMap fun e => e.2.bearers.map fun p => (.inClass e.1 p.1, p.2)))
      bodies := by
  induction classes generalizing bodies with
  | nil =>
    rw [classBodies] at hbodies
    cases hbodies
    exact List.Forall₂.nil
  | cons e rest ih =>
    obtain ⟨name, c⟩ := e
    obtain ⟨⟨hget, resolved, hresolved⟩, hrest⟩ := List.forall_mem_cons.1 h
    rw [classBodies] at hbodies
    simp only [hresolved] at hbodies
    split at hbodies
    · cases hbodies
    · next compiled nested hnested =>
      cases hothers : classBodies d rest with
      | error g =>
        rw [hothers] at hbodies
        cases hbodies
      | ok others =>
        rw [hothers] at hbodies
        cases hbodies
        have hown : d.resolvedAt? (.inClass name []) = some resolved := hresolved
        have hinside : ∀ p ∈ Element.placedAll c.children,
            d.resolvedAt? (.inClass name p.1) = d.resolved? p.2 := by
          rintro ⟨way, x⟩ hp
          have hat := ((Element.enumerates_placedAll c.children).mem way x).1 hp
          cases way with
          | nil => cases hat
          | cons i way => simp only [resolvedAt?, hget, Option.bind_some, hat]
        have hfirst := compiles_qualifyMembers hown name c.members
        have hchildren := compiles_elements (name ++ [Byte.greater]) .instanced (.inClass name) 0
          c.children (fun _ => rfl) hinside _ hnested
        rw [List.flatMap_cons, sitedIn_append, ClassDefinition.bearers, List.map_cons,
          sitedIn_cons, List.map_map]
        exact List.rel_append (List.rel_append hfirst hchildren) (ih hrest hothers)

/-- A document that compiles has no errors, and the bodies of its compilation are those of its
classes, then those of its tree. -/
theorem of_ofDocument_eq_ok {options : CompileOptions} {unit : Compilation}
    (h : ofDocument d options = .ok unit) :
    d.hasErrors = false ∧ ∃ inClasses tree inTree,
      classBodies d d.classes.entries = .ok inClasses ∧
      elements d [] .freeStanding d.hierarchy.roots = .ok (tree, inTree) ∧
      unit.bodies = inClasses ++ inTree := by
  unfold ofDocument at h
  dsimp only at h
  split at h
  · cases h
  · next hclean =>
    rw [Bool.or_eq_true, not_or, Bool.not_eq_true, Bool.not_eq_true] at hclean
    split at h
    · cases h
    · cases h
    · next inClasses tree inTree hclasses htree =>
      cases h
      exact ⟨hclean.2, inClasses, tree, inTree, hclasses, htree, rfl⟩

/-- The bodies of a compilation are made from the functions of the document. -/
theorem compiles_ofDocument {root : Text} {e : Expansion} {options : CompileOptions}
    {unit : Compilation} (h : ofDocument (.ofExpansion root e) options = .ok unit) :
    List.Forall₂ (Document.ofExpansion root e).Compiles (Document.ofExpansion root e).sited
      unit.bodies := by
  obtain ⟨hclean, inClasses, tree, inTree, hclasses, htree, hbodies⟩ := of_ofDocument_eq_ok h
  have hresolved : ∀ c ∈ (Document.ofExpansion root e).classes.entries,
      (Document.ofExpansion root e).classes.get? c.1 = some c.2 ∧
        ∃ r, (Document.ofExpansion root e).resolved.get? c.1 = some r := by
    intro c hc
    have hget := OrderedMap.get?_eq_some.2 hc
    obtain ⟨r, hr⟩ := Document.resolve_eq_ok hclean hget
    exact ⟨hget, r, get?_resolveAll hr⟩
  have hroots : ∀ p ∈ Element.placedAll (Document.ofExpansion root e).hierarchy.roots,
      (Document.ofExpansion root e).resolvedAt? (.inTree p.1) =
        (Document.ofExpansion root e).resolved? p.2 := by
    rintro ⟨way, x⟩ hp
    have hat := ((Element.enumerates_placedAll _).mem way x).1 hp
    simp only [resolvedAt?, hat, Option.bind_some]
  rw [sited, Document.bearers, sitedIn_append, hbodies]
  exact List.rel_append (compiles_classBodies _ hresolved hclasses)
    (compiles_elements [] .freeStanding .inTree 0 _ (fun _ => rfl) hroots _ htree)

/-- The functions of a document are those of its classes, of the elements in them and of its tree,
each found at a site of its own. Where a root file compiles, a linter is asked about each of them
once, in their order, and the compilation holds the body of each of them once, in the same order,
with its references qualified. -/
theorem run_bodies {s : Sources} {root : Text} {options : CompileOptions} {unit : Compilation}
    (h : run s root options = .ok unit) :
    ∃ d, Document.load s root = .ok d ∧ Enumerates d.sited d.function? ∧
      d.lintRequests = d.sited.map (fun x => d.lintRequest x.2) ∧
      (∀ linter, ∃ a, Analysis.run s root (some linter) ⟨true, true⟩ = .ok a ∧ a.errors = [] ∧
        a.warnings = d.diagnostics ++ d.lintRequests.flatMap (findings linter)) ∧
      List.Forall₂ d.Compiles d.sited unit.bodies ∧
      d.lintRequests.map (fun q => q.2.body) = unit.bodies.map (·.source) := by
  unfold run at h
  split at h
  · cases h
  · next d hload =>
    have hcompiles : List.Forall₂ d.Compiles d.sited unit.bodies := by
      obtain ⟨source, rfl⟩ := load_eq_ok hload
      exact compiles_ofDocument h
    have hrequests : d.lintRequests = d.sited.map fun x => d.lintRequest x.2 := by
      rw [lintRequests, Document.bodies_eq, List.map_map]
      rfl
    refine ⟨d, hload, d.enumerates_sited, hrequests, fun linter => ?_, hcompiles, ?_⟩
    · have hnone := List.any_eq_false.1 (of_ofDocument_eq_ok h).1
      obtain ⟨herrors, hwarnings⟩ := ofDocument_linted d linter
      refine ⟨.ofDocument d (some linter) ⟨true, true⟩, ?_, ?_, ?_⟩
      · unfold Analysis.run
        rw [hload]
        rfl
      · rw [herrors]
        exact List.filter_eq_nil_iff.2 hnone
      · rw [hwarnings, List.filter_eq_self.2 fun g hg => ?_]
        rw [Bool.not_eq_true', ← Bool.not_eq_true]
        exact hnone g hg
    · have hsources : List.Forall₂ (fun x b => x = b) (d.sited.map fun x => x.2.body)
          (unit.bodies.map (·.source)) := by
        rw [List.forall₂_map_left_iff, List.forall₂_map_right_iff]
        exact hcompiles.imp fun _ _ hx => hx.source.symm
      rw [hrequests, List.map_map, ← List.forall₂_eq_eq_eq]
      exact hsources

/-- A root element with a function. -/
def sampleRoot : Text := ".html{f:(){}};"

/-- The sources that hold just that. -/
def sampleAlone : Sources := .ofFiles [("main", sampleRoot)]

theorem expandSource_sampleRoot :
    (sampleAlone.expandSource "main" sampleRoot).text = sampleRoot ∧
      (sampleAlone.expandSource "main" sampleRoot).diagnostics = [] := by
  have hdirectives : (MaskedText.ofText .declarations sampleRoot).directives
      (Path.ofText "main").directory = ([], []) := by decide +kernel
  unfold Sources.expandSource Expansion.openFile
  dsimp only
  rw [hdirectives, Sources.expandFrom_nil]
  exact ⟨rfl, rfl⟩

/-- The document of that file. -/
def sampleDocument : Document :=
  .ofExpansion "main" (sampleAlone.expandSource "main" sampleRoot)

theorem classes_sampleDocument : sampleDocument.classes = ∅ := by
  have hempty : sampleDocument.classes.entries.isEmpty = true := by
    unfold sampleDocument Document.ofExpansion
    rw [expandSource_sampleRoot.1]
    decide +kernel
  exact OrderedMap.ext_get? (by rw [OrderedMap.keys, List.isEmpty_iff.1 hempty]; rfl)
    fun name => by rw [OrderedMap.get?, List.isEmpty_iff.1 hempty]; rfl

theorem roots_sampleDocument : ∃ x, sampleDocument.hierarchy.roots = [x] ∧
    Element.preorderAll [x] = [x] ∧ x.classRefs = [Text.ofString "html"] ∧
    x.overrides.bodies.map (·.2.2.body) = [Text.ofString "{}"] := by
  have hroots : sampleDocument.hierarchy.roots.map (fun e =>
      (e.classRefs, e.children.length, e.overrides.bodies.map (·.2.2.body))) =
        [([Text.ofString "html"], 0, [Text.ofString "{}"])] := by
    unfold sampleDocument Document.ofExpansion
    rw [expandSource_sampleRoot.1]
    decide +kernel
  obtain ⟨⟨name, classRefs, overrides, children, span⟩, hx, hshape⟩ :=
    List.map_eq_singleton_iff.1 hroots
  simp only [Prod.mk.injEq, List.length_eq_zero_iff] at hshape
  obtain ⟨hrefs, rfl, hbodies⟩ := hshape
  exact ⟨_, hx, rfl, hrefs, hbodies⟩

theorem hasErrors_sampleDocument : sampleDocument.hasErrors = false := by
  have hfaults : parseFaults "main" (sampleAlone.expandSource "main" sampleRoot) = [] := by
    unfold parseFaults
    rw [expandSource_sampleRoot.1]
    decide +kernel
  obtain ⟨x, hroots, hpreorder, hrefs, -⟩ := roots_sampleDocument
  have hresolve : ∃ r, sampleDocument.classes.resolveElement "main" x = .ok r := by
    unfold ClassTable.resolveElement ClassTable.merge
    rw [hrefs, ClassTable.ancestry_tag_ok (by rw [classes_sampleDocument]; rfl) (by decide)
      ClassTable.ancestry_nil]
    exact ⟨_, rfl⟩
  obtain ⟨r, hresolve⟩ := hresolve
  have hflat : flatDiagnostics "main" (sampleAlone.expandSource "main" sampleRoot) = [] := by
    unfold flatDiagnostics
    dsimp only
    rw [hfaults]
    change _ ++ sampleDocument.classes.entries.flatMap _ ++
      referenceErrors sampleDocument.classes _ _ sampleDocument.hierarchy.roots = []
    rw [hroots, referenceErrors, hpreorder, List.filterMap_cons, hresolve, classes_sampleDocument]
    rfl
  unfold hasErrors
  rw [sampleDocument, diagnostics_ofExpansion, expandSource_sampleRoot.2, hflat]
  rfl

/-- The one function of a root element is what is linted, and what is compiled. -/
theorem run_bodies_sampleRoot : ∃ unit, run sampleAlone "main" ⟨.asIs, true⟩ = .ok unit ∧
    unit.bodies.map (·.source) = [Text.ofString "{}"] := by
  obtain ⟨x, hroots, hpreorder, hrefs, hbodies⟩ := roots_sampleDocument
  have hroot : sampleDocument.classes.hasDocumentRoot sampleDocument.hierarchy.roots = true := by
    rw [hroots, classes_sampleDocument, ClassTable.hasDocumentRoot, List.any_cons, hrefs]
    decide
  have hclean : (diagnostics sampleDocument true).any (·.isError) = false := by
    have herrors : (sampleDocument.report true).any (·.isError) = false := hasErrors_sampleDocument
    rw [any_isError_diagnostics, herrors, hroot, Bool.not_true, Bool.and_false]
    rfl
  have hunit : ∃ unit, ofDocument sampleDocument ⟨.asIs, true⟩ = .ok unit :=
    ofDocument_eq_ok hasErrors_sampleDocument hclean
  obtain ⟨unit, hunit⟩ := hunit
  have hload : Document.load sampleAlone "main" = .ok sampleDocument := by
    have hread : sampleAlone.read? "main" = some sampleRoot := by decide
    unfold Document.load Sources.expand
    rw [hread]
    rfl
  have hrun : run sampleAlone "main" ⟨.asIs, true⟩ = .ok unit := by
    unfold run
    rw [hload]
    exact hunit
  obtain ⟨d, hd, -, -, -, -, hsources⟩ := run_bodies hrun
  cases hload.symm.trans hd
  have hfunctions : sampleDocument.bodies = x.overrides.bodies.map (·.2.2) := by
    rw [Document.bodies, classes_sampleDocument, hroots, elementBodies, hpreorder,
      List.flatMap_singleton]
    rfl
  refine ⟨unit, hrun, ?_⟩
  rw [← hsources, lintRequests, hfunctions, List.map_map, List.map_map]
  exact hbodies

end Compilation

end PageLang
