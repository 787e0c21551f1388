import Mathlib.Data.List.Count
import Mathlib.Data.List.Nodup
import Mathlib.Data.List.Perm.Basic
import PageLang.Proofs.ClassTable.Blocks
import PageLang.Proofs.Hierarchy.Functions

/-!
# No name is used twice

The variables, methods, style properties and named children of a class share one namespace. A class
that uses a name of it twice has a fault, whatever the order of its declarations. Without one, no
declaration takes the place of another when they are filed, and the names of the class are just the
ones that are declared.

* `UniqueMembers.uses`: how often a name is declared.
* `UniqueMembers.mem_repeated_iff`: the names that come in again.
* `Members.perm_sharedNames_foldl_insert`: filing declarations whose names are all different.
* `MaskedText.sharedNames_unique`: the names of the classes of a table, and the faults of any class.
-/

namespace PageLang

/-! ## The check -/

namespace UniqueMembers

/-- How often a name is declared in the shared namespace, by declarations and by children. -/
def uses (declarations : List Declaration) (children : List Element) (name : Text) : Nat :=
  declarations.countP (fun d => d.content.sharesNamespace && d.name == name) +
    children.countP (fun e => e.name == some name)

theorem count_named (ds : List Declaration) (es : List Element) (name : Text) :
    ((named ds es).map Prod.fst).count name = uses ds es name := by
  have hds : ((ds.filter (fun d => d.content.sharesNamespace)).map (fun d => d.name)).count name =
      ds.countP (fun d => d.content.sharesNamespace && d.name == name) := by
    simp [List.count, List.countP_map, List.countP_filter, Function.comp_def, Bool.and_comm]
  have hes : (es.filterMap (fun e => e.name)).count name =
      es.countP (fun e => e.name == some name) := by
    rw [List.count, List.countP_filterMap]
    congr 1
    funext e
    cases e.name <;> simp
  rw [uses, ← hds, ← hes, ← List.count_append]
  simp [named, List.map_filterMap, Function.comp_def]

/-- The names that come in again are those that were seen before, and those that are there twice. -/
theorem mem_repeated_iff {seen : List Text} {entries : List (Text × Span)} {name : Text} :
    name ∈ (repeated seen entries).map Prod.fst ↔
      name ∈ seen ∧ name ∈ entries.map Prod.fst ∨ 2 ≤ (entries.map Prod.fst).count name := by
  induction entries generalizing seen with
  | nil => simp [repeated]
  | cons e entries ih =>
    obtain ⟨own, span⟩ := e
    have hpos : name ∈ entries.map Prod.fst ↔ 1 ≤ (entries.map Prod.fst).count name :=
      List.count_pos_iff.symm
    have hcount : ((own, span) :: entries).map Prod.fst = own :: entries.map Prod.fst := rfl
    rw [repeated, hcount, List.count_cons]
    split
    · next hseen =>
      rw [List.contains_iff_mem] at hseen
      rw [List.map_cons, List.mem_cons, ih, List.mem_cons]
      by_cases hname : name = own
      · exact ⟨fun _ => .inl ⟨hname ▸ hseen, .inl hname⟩, fun _ => .inl hname⟩
      · simp [hname, Ne.symm hname]
    · next hseen =>
      rw [List.contains_iff_mem] at hseen
      rw [ih, List.mem_cons, List.mem_cons]
      by_cases hname : name = own
      · subst hname
        simp only [hseen, hpos, true_or, true_and, false_and, false_or, beq_self_eq_true,
          if_true]
        omega
      · simp [hname, Ne.symm hname]

theorem earliest?_eq_some {entries : List (Text × Span)} {e : Text × Span}
    (h : earliest? entries = some e) : e ∈ entries := by
  induction entries generalizing e with
  | nil => cases h
  | cons first rest ih =>
    rw [earliest?] at h
    split at h
    · cases h
      exact .head _
    · next other hother =>
      cases h
      split
      · exact .tail _ (ih hother)
      · exact .head _

theorem earliest?_eq_none {entries : List (Text × Span)} :
    earliest? entries = none ↔ entries = [] := by
  cases entries with
  | nil => simp [earliest?]
  | cons first rest =>
    rw [earliest?]
    split <;> simp

theorem mem_names_repeated {ds : List Declaration} {es : List Element} {name : Text} :
    name ∈ (repeated [] (named ds es)).map Prod.fst ↔ 2 ≤ uses ds es name := by
  rw [mem_repeated_iff, count_named]
  simp

/-- A class has a fault exactly if some name is declared twice in the shared namespace. -/
theorem fault?_ne_none_iff {className : Text} {ds : List Declaration} {es : List Element} :
    fault? className ds es ≠ none ↔ ∃ name, 2 ≤ uses ds es name := by
  unfold fault?
  rw [Ne, Option.map_eq_none_iff, earliest?_eq_none]
  constructor
  · intro hne
    obtain ⟨e, he⟩ := List.exists_mem_of_ne_nil _ hne
    exact ⟨e.1, mem_names_repeated.1 (List.mem_map.2 ⟨e, he, rfl⟩)⟩
  · rintro ⟨name, hname⟩ hnil
    have hmem := mem_names_repeated.2 hname
    rw [hnil] at hmem
    cases hmem

/-- The name that is reported is declared twice. -/
theorem uses_of_fault? {className : Text} {ds : List Declaration} {es : List Element} {fault : Fault}
    (h : fault? className ds es = some fault) :
    ∃ name, fault.problem = .duplicateMember className name ∧ 2 ≤ uses ds es name := by
  unfold fault? at h
  obtain ⟨e, he, rfl⟩ := Option.map_eq_some_iff.1 h
  exact ⟨e.1, rfl, mem_names_repeated.1 (List.mem_map.2 ⟨e, earliest?_eq_some he, rfl⟩)⟩

theorem nodup_of_fault? {className : Text} {ds : List Declaration} {es : List Element}
    (h : fault? className ds es = none) : ((named ds es).map Prod.fst).Nodup := by
  rw [List.nodup_iff_count_le_one]
  intro name
  by_contra hlt
  rw [count_named] at hlt
  exact fault?_ne_none_iff.2 ⟨name, by omega⟩ h

end UniqueMembers

/-! ## Filing -/

/-- The names of all three maps. -/
def ByAccess.names {β : Type} (m : ByAccess β) : List Text := m.entries.map Prod.fst

/-- The names of the variables, the methods and the style properties. -/
def Members.sharedNames (m : Members) : List Text := m.vars.names ++ m.methods.names ++ m.style.keys

/-- The names of the variables, the methods, the style properties and the named children. -/
def ClassDefinition.sharedNames (d : ClassDefinition) : List Text :=
  d.members.sharedNames ++ d.children.filterMap (fun e => e.name)

theorem OrderedMap.perm_keys_insert {β : Type} {m : OrderedMap β} {key : Text} (value : β)
    (h : key ∉ m.keys) : (m.insert key value).keys.Perm (key :: m.keys) := by
  rw [keys_insert, if_neg h]
  exact List.perm_append_singleton key m.keys

theorem ByAccess.perm_names_insert {β : Type} {m : ByAccess β} {access : Access} {key : Text}
    (value : β) (h : key ∉ m.names) : (m.insert access key value).names.Perm (key :: m.names) := by
  simp only [names, entries, List.map_append, List.mem_append, not_or] at h ⊢
  obtain ⟨⟨hpub, hprot⟩, hpriv⟩ := h
  cases access with
  | pub =>
    exact ((OrderedMap.perm_keys_insert value hpub).append_right _).append_right _
  | prot =>
    exact (((OrderedMap.perm_keys_insert value hprot).append_left _).trans
      List.perm_middle).append_right _
  | priv =>
    exact ((OrderedMap.perm_keys_insert value hpriv).append_left _).trans List.perm_middle

namespace Members

variable {m : Members} {d : Declaration}

/-- A declaration of the shared namespace whose name is new adds it there. -/
theorem perm_sharedNames_insert (hshares : d.content.sharesNamespace = true)
    (hnew : d.name ∉ m.sharedNames) : (m.insert d).sharedNames.Perm (d.name :: m.sharedNames) := by
  obtain ⟨name, content, span⟩ := d
  simp only [sharedNames, List.mem_append, not_or] at hnew
  obtain ⟨⟨hvar, hmethod⟩, hstyle⟩ := hnew
  cases content with
  | var access value =>
    exact ((ByAccess.perm_names_insert value hvar).append_right _).append_right _
  | method access f =>
    exact (((ByAccess.perm_names_insert f hmethod).append_left _).trans
      List.perm_middle).append_right _
  | style value =>
    exact ((OrderedMap.perm_keys_insert value hstyle).append_left _).trans List.perm_middle
  | getter | setter | eventHandler | attr | state => cases hshares

theorem sharedNames_insert (hshares : ¬ d.content.sharesNamespace = true) :
    (m.insert d).sharedNames = m.sharedNames := by
  obtain ⟨name, content, span⟩ := d
  cases content with
  | var | method | style => exact absurd rfl hshares
  | getter | setter | eventHandler | attr | state => rfl

/-- Declarations whose names of the shared namespace are all different, and not among those of the
members they are filed into, keep their place there. -/
theorem perm_sharedNames_foldl_insert {ds : List Declaration} (h : (m.sharedNames ++
      (ds.filter (fun d => d.content.sharesNamespace)).map (fun d => d.name)).Nodup) :
    (ds.foldl insert m).sharedNames.Perm (m.sharedNames ++
      (ds.filter (fun d => d.content.sharesNamespace)).map (fun d => d.name)) := by
  induction ds generalizing m with
  | nil => simp
  | cons d ds ih =>
    rw [List.foldl_cons]
    by_cases hshares : d.content.sharesNamespace = true
    · rw [List.filter_cons_of_pos (by simpa using hshares), List.map_cons] at h ⊢
      have hnew : d.name ∉ m.sharedNames := fun hmem =>
        List.disjoint_of_nodup_append h hmem (.head _)
      have hstep := (perm_sharedNames_insert hshares hnew).append_right
        ((ds.filter (fun d => d.content.sharesNamespace)).map (fun d => d.name))
      have hmiddle := hstep.trans List.perm_middle.symm
      exact (ih (hmiddle.nodup_iff.2 h)).trans hmiddle
    · rw [List.filter_cons_of_neg (by simpa using hshares)] at h ⊢
      have hsame := sharedNames_insert (m := m) hshares
      have hrest := ih (m := m.insert d) (hsame.symm ▸ h)
      rwa [hsame] at hrest

end Members

/-! ## Classes -/

namespace MaskedText

theorem nodup_sharedNames {s : MaskedText} {d : ClassDefinition} {opening close : Nat}
    (h : s.Owns d opening close) (hfault : UniqueMembers.fault? d.name
      (s.classBody opening close).declarations d.children = none) : d.sharedNames.Nodup := by
  have hnodup := UniqueMembers.nodup_of_fault? hfault
  have hnames : (UniqueMembers.named (s.classBody opening close).declarations d.children).map
      Prod.fst = ((s.classBody opening close).declarations.filter
        (fun d => d.content.sharesNamespace)).map (fun d => d.name) ++
          d.children.filterMap (fun e => e.name) := by
    simp [UniqueMembers.named, List.map_filterMap, Function.comp_def]
  rw [hnames] at hnodup
  have hperm := Members.perm_sharedNames_foldl_insert (m := ∅)
    (hnodup.sublist (List.sublist_append_left _ _))
  unfold ClassDefinition.sharedNames
  rw [h.members]
  exact (hperm.append_right _).nodup_iff.2 hnodup

/-- In a table without faults no class uses a name of its shared namespace twice. Of any
declarations and children, in any order, there is a fault exactly if some name is declared twice,
and the name it reports is. -/
theorem sharedNames_unique (s : MaskedText) (file : Text) (start : Nat) :
    (∀ table, s.classes file start = .ok table → ∀ d ∈ table.values, d.sharedNames.Nodup) ∧
    ∀ (className : Text) (ds : List Declaration) (es : List Element),
      (UniqueMembers.fault? className ds es ≠ none ↔ ∃ name, 2 ≤ UniqueMembers.uses ds es name) ∧
      ∀ fault, UniqueMembers.fault? className ds es = some fault →
        ∃ name, fault.problem = .duplicateMember className name ∧
          2 ≤ UniqueMembers.uses ds es name := by
  refine ⟨fun table htable d hd => ?_, fun className ds es =>
    ⟨UniqueMembers.fault?_ne_none_iff, fun fault => UniqueMembers.uses_of_fault?⟩⟩
  obtain ⟨opening, close, howns, -, hfault⟩ := exists_owns_of_mem_classes htable hd
  exact nodup_sharedNames howns hfault

end MaskedText

end PageLang
