import PageLang.ClassTable.UniqueMembers
import PageLang.Proofs.RoundTrip.Block

/-!
# Members in their maps

The declarations that the members of a block are read as are filed one after another. As no two
members of a kind share a name, each of them comes in at the end of its map, and in the end the
maps hold the members kind by kind, in the order in which they were written.

* `Files.insert`: one more member.
* `files_ofDeclarations`: the members of a block.
-/

namespace PageLang

theorem OrderedMap.entries_insert {β : Type} {m : OrderedMap β} {key : Text} (value : β)
    (h : key ∉ m.entries.map Prod.fst) :
    (m.insert key value).entries = m.entries ++ [(key, value)] := by
  rw [insert, dif_neg (show key ∉ m.keys from h)]

theorem ByAccess.get_insert {β : Type} (m : ByAccess β) (a b : Access) (key : Text) (value : β) :
    (m.insert a key value).get b = if b = a then (m.get a).insert key value else m.get b := by
  cases a <;> cases b <;> rfl

namespace Written

/-- Each declaration is what the member in its place stands for. -/
def DeclaresAll : List Member → List Declaration → Prop
  | [], ds => ds = []
  | m :: ms, ds => ∃ d ds', ds = d :: ds' ∧ m.Declares d ∧ DeclaresAll ms ds'

@[simp] theorem strings_append (slot : StringSlot) (ms ms' : List Member) :
    strings slot (ms ++ ms') = strings slot ms ++ strings slot ms' := List.filterMap_append

@[simp] theorem functions_append (slot : FunctionSlot) (ms ms' : List Member) :
    functions slot (ms ++ ms') = functions slot ms ++ functions slot ms' := List.filterMap_append

section
variable {ms : List Member} {m : Member}

theorem notMem_strings {slot : StringSlot} (hapart : ∀ a ∈ ms, Apart a m)
    (hslot : m.slot = .inl slot) : m.name ∉ (strings slot ms).map Prod.fst := by
  intro hmem
  obtain ⟨e, he, hname⟩ := List.mem_map.1 hmem
  obtain ⟨a, ha, hsome⟩ := List.mem_filterMap.1 he
  cases a with
  | function => simp at hsome
  | string slot' name value h h' =>
    obtain ⟨rfl, rfl⟩ : slot' = slot ∧ (name, .scalar (.string value)) = e := by simpa using hsome
    exact hapart _ ha hslot.symm hname

theorem notMem_functions {slot : FunctionSlot} (hapart : ∀ a ∈ ms, Apart a m)
    (hslot : m.slot = .inr slot) : m.name ∉ (functions slot ms).map Prod.fst := by
  intro hmem
  obtain ⟨e, he, hname⟩ := List.mem_map.1 hmem
  obtain ⟨a, ha, hsome⟩ := List.mem_filterMap.1 he
  cases a with
  | string => simp at hsome
  | function slot' name parameters body semicolon h h' h'' =>
    obtain ⟨rfl, rfl⟩ : slot' = slot ∧ (name, parameters, body) = e := by simpa using hsome
    exact hapart _ ha hslot.symm hname

end

/-! ## One more declaration -/

section
variable {m : Members} {name : Text} {span : Span}

theorem filedStrings_insert_string {slot : StringSlot} {value : Scalar} (slot' : StringSlot)
    (hnew : name ∉ (filedStrings m slot).map Prod.fst) :
    filedStrings (m.insert ⟨name, slot.content value, span⟩) slot' =
      filedStrings m slot' ++ if slot = slot' then [(name, .scalar value)] else [] := by
  by_cases hslot : slot = slot'
  · subst hslot
    rw [if_pos rfl]
    cases slot with
    | var access =>
      have := OrderedMap.entries_insert (Value.scalar value) hnew
      simpa [filedStrings, Members.insert, StringSlot.content, ByAccess.get_insert] using this
    | attr =>
      have : (m.attributes.insert name value).entries = m.attributes.entries ++ [(name, value)] :=
        OrderedMap.entries_insert value (by simpa [filedStrings] using hnew)
      simp [filedStrings, Members.insert, StringSlot.content, this]
    | style =>
      have : (m.style.insert name value).entries = m.style.entries ++ [(name, value)] :=
        OrderedMap.entries_insert value (by simpa [filedStrings] using hnew)
      simp [filedStrings, Members.insert, StringSlot.content, this]
  · rw [if_neg hslot, List.append_nil]
    cases slot with
    | var a =>
      cases slot' with
      | var b =>
        have : b ≠ a := fun h => hslot (by rw [h])
        simp [filedStrings, Members.insert, StringSlot.content, ByAccess.get_insert, this]
      | attr | style => rfl
    | attr => cases slot' <;> first | rfl | exact absurd rfl hslot
    | style => cases slot' <;> first | rfl | exact absurd rfl hslot

theorem filedFunctions_insert_function {slot : FunctionSlot} {f : Behavior} (slot' : FunctionSlot)
    (hnew : name ∉ (filedFunctions m slot).map Prod.fst) :
    filedFunctions (m.insert ⟨name, slot.content f, span⟩) slot' =
      filedFunctions m slot' ++ if slot = slot' then [(name, f.parameters, f.body)] else [] := by
  have into {map : OrderedMap Behavior}
      (h : name ∉ (map.entries.map fun e => (e.1, e.2.parameters, e.2.body)).map Prod.fst) :
      (map.insert name f).entries.map (fun e => (e.1, e.2.parameters, e.2.body)) =
        map.entries.map (fun e => (e.1, e.2.parameters, e.2.body)) ++
          [(name, f.parameters, f.body)] := by
    rw [OrderedMap.entries_insert f (by simpa [Function.comp_def] using h)]
    simp
  by_cases hslot : slot = slot'
  · subst hslot
    rw [if_pos rfl]
    cases slot with
    | method access =>
      have := into hnew
      simpa [filedFunctions, Members.insert, FunctionSlot.content, ByAccess.get_insert] using this
    | getter | setter | eventHandler => exact into hnew
  · rw [if_neg hslot, List.append_nil]
    cases slot with
    | method a =>
      cases slot' with
      | method b =>
        have : b ≠ a := fun h => hslot (by rw [h])
        simp [filedFunctions, Members.insert, FunctionSlot.content, ByAccess.get_insert, this]
      | getter | setter | eventHandler => rfl
    | getter | setter | eventHandler => cases slot' <;> first | rfl | exact absurd rfl hslot

theorem filedFunctions_insert_string {slot : StringSlot} {value : Scalar} (slot' : FunctionSlot) :
    filedFunctions (m.insert ⟨name, slot.content value, span⟩) slot' = filedFunctions m slot' := by
  cases slot <;> cases slot' <;> rfl

theorem filedStrings_insert_function {slot : FunctionSlot} {f : Behavior} (slot' : StringSlot) :
    filedStrings (m.insert ⟨name, slot.content f, span⟩) slot' = filedStrings m slot' := by
  cases slot <;> cases slot' <;> rfl

end

namespace Files

variable {ms : List Member} {members : Members}

theorem empty : Files [] ∅ where
  strings slot := by rcases slot with (_ | _ | _) | _ | _ <;> rfl
  functions slot := by rcases slot with (_ | _ | _) | _ | _ | _ <;> rfl
  states := rfl

/-- A member whose name is new among those of its kind comes in at the end of its map. -/
theorem insert (h : Files ms members) {m : Member} {d : Declaration} (hd : m.Declares d)
    (hapart : ∀ a ∈ ms, Apart a m) : Files (ms ++ [m]) (members.insert d) := by
  obtain ⟨name, content, span⟩ := d
  cases m with
  | string slot name' value hname hvalue =>
    obtain ⟨rfl, rfl⟩ := hd
    refine ⟨fun slot' => ?_, fun slot' => ?_, ?_⟩
    · rw [filedStrings_insert_string, h.strings, strings_append]
      · by_cases hslot : slot = slot' <;> simp [Written.strings, hslot]
      · rw [h.strings]
        exact notMem_strings hapart rfl
    · rw [filedFunctions_insert_string, h.functions, functions_append]
      simp [Written.functions]
    · cases slot <;> exact h.states
  | function slot name' parameters body semicolon hname hparameters hbody =>
    obtain ⟨rfl, bodySpan, rfl⟩ := hd
    refine ⟨fun slot' => ?_, fun slot' => ?_, ?_⟩
    · rw [filedStrings_insert_function, h.strings, strings_append]
      simp [Written.strings]
    · rw [filedFunctions_insert_function, h.functions, functions_append]
      · by_cases hslot : slot = slot' <;> simp [Written.functions, hslot]
      · rw [h.functions]
        exact notMem_functions hapart rfl
    · cases slot <;> exact h.states

/-- The members of a block, one after another. -/
theorem foldl {ms' : List Member} {ds : List Declaration} (h : Files ms members)
    (hds : DeclaresAll ms' ds) (hapart : (ms ++ ms').Pairwise Apart) :
    Files (ms ++ ms') (ds.foldl Members.insert members) := by
  induction ms' generalizing ms members ds with
  | nil =>
    obtain rfl : ds = [] := hds
    simpa using h
  | cons m ms' ih =>
    obtain ⟨d, ds, rfl, hd, hds⟩ := hds
    have hm : ∀ a ∈ ms, Apart a m := fun a ha =>
      (List.pairwise_append.1 hapart).2.2 a ha m (.head _)
    rw [List.append_cons] at hapart ⊢
    rw [List.foldl_cons]
    exact ih (h.insert hd hm) hds hapart

end Files

theorem files_ofDeclarations {ms : List Member} {ds : List Declaration} (hds : DeclaresAll ms ds)
    (hapart : ms.Pairwise Apart) : Files ms (Members.ofDeclarations ds) :=
  Files.empty.foldl hds hapart

/-! ## The shared namespace -/

theorem Member.Declares.sharesNamespace {m : Member} {d : Declaration} (h : m.Declares d) :
    d.name = m.name ∧ d.content.sharesNamespace = m.sharesNamespace := by
  cases m with
  | string slot name value hname hvalue =>
    obtain ⟨hd, hcontent⟩ := h
    rw [hcontent]
    refine ⟨hd, ?_⟩
    cases slot <;> rfl
  | function slot name parameters body semicolon hname hparameters hbody =>
    obtain ⟨hd, span, hcontent⟩ := h
    rw [hcontent]
    refine ⟨hd, ?_⟩
    cases slot <;> rfl

theorem map_name_filter {ms : List Member} {ds : List Declaration} (h : DeclaresAll ms ds) :
    (ds.filter (fun d => d.content.sharesNamespace)).map Declaration.name =
      (ms.filter Member.sharesNamespace).map Member.name := by
  induction ms generalizing ds with
  | nil =>
    obtain rfl : ds = [] := h
    rfl
  | cons m ms ih =>
    obtain ⟨d, ds, rfl, hd, hds⟩ := h
    obtain ⟨hname, hshares⟩ := hd.sharesNamespace
    cases hm : m.sharesNamespace <;> simp [hshares, hm, hname, ih hds]

theorem Block.Children.filterMap_name {b : Block} {es : List Element} (h : b.Children es) :
    es.filterMap Element.name = b.childNames := by
  induction b generalizing es with
  | done =>
    obtain rfl : es = [] := h
    rfl
  | member _ _ rest ih => exact ih h
  | leaf _ hd rest ih =>
    obtain ⟨e, es, rfl, hname, -, -, -, hes⟩ := h
    cases hn : hd.name <;> simp [childNames, hname, hn, ih hes]
  | node _ hd _ _ rest _ ih =>
    obtain ⟨e, es, rfl, hname, -, -, -, hes⟩ := h
    cases hn : hd.name <;> simp [childNames, hname, hn, ih hes]

theorem repeated_eq_nil {seen : List Text} {entries : List (Text × Span)}
    (hseen : ∀ e ∈ entries, e.1 ∉ seen) (h : (entries.map Prod.fst).Nodup) :
    UniqueMembers.repeated seen entries = [] := by
  induction entries generalizing seen with
  | nil => rfl
  | cons e entries ih =>
    rw [List.map_cons, List.nodup_cons] at h
    have he : seen.contains e.1 = false := by simpa using hseen e (.head _)
    rw [UniqueMembers.repeated, he]
    refine ih (fun f hf hmem => ?_) h.2
    rcases List.mem_cons.1 hmem with hmem | hmem
    · exact h.1 (List.mem_map.2 ⟨f, hf, hmem⟩)
    · exact hseen f (.tail _ hf) hmem

/-- A class whose names of the shared namespace are all different has no fault there. -/
theorem fault?_eq_none {b : Block} {ds : List Declaration} {es : List Element}
    (hds : DeclaresAll b.members ds) (hes : b.Children es)
    (hnodup : ((b.members.filter Member.sharesNamespace).map Member.name ++ b.childNames).Nodup)
    (className : Text) : UniqueMembers.fault? className ds es = none := by
  have hnames : (UniqueMembers.named ds es).map Prod.fst =
      (b.members.filter Member.sharesNamespace).map Member.name ++ b.childNames := by
    rw [← map_name_filter hds, ← hes.filterMap_name]
    simp [UniqueMembers.named, List.map_filterMap, Function.comp_def]
  rw [UniqueMembers.fault?, repeated_eq_nil (by simp) (by rwa [hnames])]
  rfl

end Written

end PageLang
