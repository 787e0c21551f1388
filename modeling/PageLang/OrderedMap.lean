import PageLang.Text.Basic

/-!
# Maps that keep their order

A map from names to values whose entries stand in the order in which their names first came in. A
name that comes in again keeps its place and takes the new value.

* `OrderedMap.get?_insert`: what a name stands for after an insertion.
* `OrderedMap.keys_insert`, `OrderedMap.keys_insertNew`: a new name goes to the end.
* `OrderedMap.keys_fill`, `OrderedMap.get?_fill`: a map filled with entries.
* `OrderedMap.insertAll_insert`: a map merged into another, entry by entry.
-/

namespace PageLang

/-- Entries in order of first appearance, with distinct names. -/
structure OrderedMap (β : Type) where
  entries : List (Text × β)
  nodup : (entries.map Prod.fst).Nodup
  deriving DecidableEq

namespace OrderedMap

variable {β γ : Type}

/-- The map without entries. -/
def empty : OrderedMap β := ⟨[], List.nodup_nil⟩

instance : EmptyCollection (OrderedMap β) := ⟨empty⟩
instance : Inhabited (OrderedMap β) := ⟨empty⟩

/-- The names in order. -/
def keys (m : OrderedMap β) : List Text := m.entries.map Prod.fst
/-- The values in the order of their names. -/
def values (m : OrderedMap β) : List β := m.entries.map Prod.snd
/-- The number of entries. -/
def size (m : OrderedMap β) : Nat := m.entries.length
/-- The value of a name. -/
def get? (m : OrderedMap β) (key : Text) : Option β := m.entries.lookup key
/-- Whether a name has a value. -/
def contains (m : OrderedMap β) (key : Text) : Bool := m.keys.contains key

/-- The map with `value` under `key`, in the old place of `key` or at the end. -/
def insert (m : OrderedMap β) (key : Text) (value : β) : OrderedMap β :=
  if h : key ∈ m.keys then
    ⟨m.entries.map (fun e => if e.1 = key then (key, value) else e), by
      have keep : (m.entries.map (fun e => if e.1 = key then (key, value) else e)).map Prod.fst =
          m.entries.map Prod.fst := by
        rw [List.map_map]
        apply List.map_congr_left
        intro e _
        by_cases he : e.1 = key <;> simp [he]
      rw [keep]
      exact m.nodup⟩
  else
    ⟨m.entries ++ [(key, value)], by
      rw [List.map_append, List.nodup_append]
      refine ⟨m.nodup, by simp, ?_⟩
      intro a ha b hb
      simp only [List.map_cons, List.map_nil, List.mem_singleton] at hb
      subst hb
      exact fun e => h (e ▸ ha)⟩

/-- The map with `value` under `key`, unless `key` has a value. -/
def insertNew (m : OrderedMap β) (key : Text) (value : β) : OrderedMap β :=
  if m.contains key then m else m.insert key value

/-- The map with all entries of `other` inserted in order. -/
def insertAll (m other : OrderedMap β) : OrderedMap β :=
  other.entries.foldl (fun m e => m.insert e.1 e.2) m

/-- The map with the entries of a list inserted in order, as far as their names are new. -/
def fill (m : OrderedMap β) (entries : List (Text × β)) : OrderedMap β :=
  entries.foldl (fun m e => m.insertNew e.1 e.2) m

/-- The map of a list of entries, where a later entry takes over the value of its name. -/
def ofList (entries : List (Text × β)) : OrderedMap β :=
  entries.foldl (fun m e => m.insert e.1 e.2) empty

/-- Every value replaced by a function of it. -/
def map (m : OrderedMap β) (f : β → γ) : OrderedMap γ :=
  ⟨m.entries.map (fun e => (e.1, f e.2)), by simpa [Function.comp_def] using m.nodup⟩

/-! ## What the operations do -/

theorem keys_insert (m : OrderedMap β) (key : Text) (value : β) :
    (m.insert key value).keys = if key ∈ m.keys then m.keys else m.keys ++ [key] := by
  unfold insert
  split
  · simp only [keys, List.map_map]
    apply List.map_congr_left
    intro e _
    by_cases he : e.1 = key <;> simp [he]
  · simp [keys]

theorem mem_keys_iff {m : OrderedMap β} {key : Text} : key ∈ m.keys ↔ m.contains key = true := by
  simp [contains]

theorem keys_insertNew (m : OrderedMap β) (key : Text) (value : β) :
    (m.insertNew key value).keys = if key ∈ m.keys then m.keys else m.keys ++ [key] := by
  unfold insertNew
  by_cases h : key ∈ m.keys
  · simp [mem_keys_iff.1 h, h]
  · have : m.contains key = false := by simpa [contains] using h
    simp [this, keys_insert, h]

theorem lookup_replace (entries : List (Text × β)) (key name : Text) (value : β) :
    (entries.map (fun e => if e.1 = key then (key, value) else e)).lookup name =
      if name = key then (entries.lookup key).map (fun _ => value) else entries.lookup name := by
  induction entries with
  | nil => simp
  | cons e rest ih =>
    obtain ⟨k, v⟩ := e
    by_cases hk : k = key
    · subst hk
      by_cases hn : name = k
      · subst hn
        simp
      · have : (name == k) = false := by simpa using hn
        simp only [List.map_cons, ↓reduceIte, List.lookup_cons, this, hn, ih]
    · by_cases hn : name = k
      · subst hn
        simp [hk]
      · have : (name == k) = false := by simpa using hn
        have hk' : (key == k) = false := by simpa using Ne.symm hk
        simp only [List.map_cons, hk, ↓reduceIte, List.lookup_cons, this, hk', ih]

theorem lookup_append (a b : List (Text × β)) (name : Text) :
    (a ++ b).lookup name = (a.lookup name).or (b.lookup name) := by
  induction a with
  | nil => simp
  | cons e rest ih =>
    obtain ⟨k, v⟩ := e
    by_cases h : (name == k) = true
    · simp [List.lookup_cons, h]
    · simp [List.lookup_cons, h, ih]

theorem lookup_eq_none {entries : List (Text × β)} {name : Text} :
    entries.lookup name = none ↔ name ∉ entries.map Prod.fst := by
  induction entries with
  | nil => simp
  | cons e rest ih =>
    obtain ⟨k, v⟩ := e
    by_cases h : name = k
    · subst h
      simp
    · have : (name == k) = false := by simpa using h
      simp [List.lookup_cons, this, ih, h]

theorem get?_eq_none {m : OrderedMap β} {name : Text} : m.get? name = none ↔ name ∉ m.keys :=
  lookup_eq_none

theorem get?_insert (m : OrderedMap β) (key name : Text) (value : β) :
    (m.insert key value).get? name = if name = key then some value else m.get? name := by
  unfold insert get?
  split
  · next h =>
    rw [lookup_replace]
    by_cases hn : name = key
    · cases hl : m.entries.lookup key with
      | none => exact absurd h (lookup_eq_none.1 hl)
      | some v => simp [hn]
    · simp [hn]
  · next h =>
    rw [lookup_append]
    by_cases hn : name = key
    · subst hn
      rw [lookup_eq_none.2 h]
      simp
    · have : (name == key) = false := by simpa using hn
      simp [List.lookup_cons, this, hn]

theorem get?_insertNew (m : OrderedMap β) (key name : Text) (value : β) :
    (m.insertNew key value).get? name =
      (m.get? name).or (if name = key then some value else none) := by
  unfold insertNew
  by_cases h : key ∈ m.keys
  · rw [if_pos (mem_keys_iff.1 h)]
    by_cases hn : name = key
    · subst hn
      cases hget : m.get? name with
      | none => exact absurd h (get?_eq_none.1 hget)
      | some v => rfl
    · rw [if_neg hn, Option.or_none]
  · rw [if_neg (fun hc => h (mem_keys_iff.2 hc)), get?_insert]
    by_cases hn : name = key
    · subst hn
      rw [if_pos rfl, get?_eq_none.2 h, if_pos rfl, Option.none_or]
    · rw [if_neg hn, if_neg hn, Option.or_none]

/-! ## Filling maps -/

theorem fill_cons (m : OrderedMap β) (e : Text × β) (rest : List (Text × β)) :
    m.fill (e :: rest) = (m.insertNew e.1 e.2).fill rest := rfl

theorem fill_append (m : OrderedMap β) (a b : List (Text × β)) :
    m.fill (a ++ b) = (m.fill a).fill b :=
  List.foldl_append

theorem eraseDups_of_nodup {l : List Text} (h : l.Nodup) : l.eraseDups = l := by
  induction l with
  | nil => rfl
  | cons key l ih =>
    obtain ⟨hkey, hl⟩ := List.nodup_cons.1 h
    have hfilter : l.filter (fun k => !k == key) = l := by
      apply List.filter_eq_self.2
      intro k hk
      have hne : k ≠ key := fun e => hkey (e ▸ hk)
      simpa using hne
    rw [List.eraseDups_cons, hfilter, ih hl]

theorem eraseDups_append_cons_of_mem {l rest : List Text} {key : Text} (h : key ∈ l) :
    (l ++ key :: rest).eraseDups = (l ++ rest).eraseDups := by
  rw [List.eraseDups_append, List.eraseDups_append]
  congr 2
  simp [List.removeAll, h]

/-- The names of a filled map stand in order of first appearance. -/
theorem keys_fill (m : OrderedMap β) (entries : List (Text × β)) :
    (m.fill entries).keys = (m.keys ++ entries.map Prod.fst).eraseDups := by
  induction entries generalizing m with
  | nil =>
    rw [List.map_nil, List.append_nil]
    exact (eraseDups_of_nodup m.nodup).symm
  | cons e rest ih =>
    rw [fill_cons, ih, keys_insertNew]
    by_cases h : e.1 ∈ m.keys
    · rw [if_pos h, List.map_cons, eraseDups_append_cons_of_mem h]
    · rw [if_neg h, List.append_assoc]
      rfl

/-- A name of a filled map keeps the value it had, or has the first one of the new entries. -/
theorem get?_fill (m : OrderedMap β) (entries : List (Text × β)) (name : Text) :
    (m.fill entries).get? name = (m.get? name).or (entries.lookup name) := by
  induction entries generalizing m with
  | nil => exact (Option.or_none ..).symm
  | cons e rest ih =>
    have hlookup : (e :: rest).lookup name =
        (if name = e.1 then some e.2 else none).or (rest.lookup name) := by
      by_cases hn : name = e.1
      · rw [if_pos hn, hn, List.lookup_cons_self]
        rfl
      · rw [if_neg hn, Option.none_or, List.lookup_cons, beq_false_of_ne hn]
    rw [fill_cons, ih, get?_insertNew, Option.or_assoc, hlookup]

/-! ## Names not seen yet -/

/-- The number of names that are not among `seen`. -/
def unseen (m : OrderedMap β) (seen : List Text) : Nat :=
  (m.keys.filter (fun k => !seen.contains k)).length

theorem length_filter_unseen_lt {names seen : List Text} {name : Text} (hname : name ∈ names)
    (hseen : name ∉ seen) : (names.filter (fun k => !(name :: seen).contains k)).length <
      (names.filter (fun k => !seen.contains k)).length := by
  have split : names.filter (fun k => !(name :: seen).contains k) =
      (names.filter (fun k => !seen.contains k)).filter (fun k => k != name) := by
    rw [List.filter_filter]
    apply List.filter_congr
    intro k _
    by_cases h : k = name <;> simp [h, bne]
  rw [split, List.length_filter_lt_length_iff_exists]
  exact ⟨name, by simp [hname, hseen], by simp⟩

/-- Seeing a name for the first time leaves fewer. -/
theorem unseen_cons_lt {m : OrderedMap β} {seen : List Text} {key : Text} (hkey : key ∈ m.keys)
    (hseen : key ∉ seen) : m.unseen (key :: seen) < m.unseen seen :=
  length_filter_unseen_lt hkey hseen

theorem mem_keys_of_get? {m : OrderedMap β} {key : Text} {value : β} (h : m.get? key = some value) :
    key ∈ m.keys := by
  rcases Decidable.em (key ∈ m.keys) with hk | hk
  · exact hk
  · rw [get?_eq_none.2 hk] at h
    simp at h

theorem mem_entries_of_get? {m : OrderedMap β} {key : Text} {value : β}
    (h : m.get? key = some value) : (key, value) ∈ m.entries := by
  obtain ⟨before, after, hentries, _⟩ := List.lookup_eq_some_iff.1 h
  rw [hentries]
  simp

theorem mem_values_of_get? {m : OrderedMap β} {key : Text} {value : β}
    (h : m.get? key = some value) : value ∈ m.values :=
  List.mem_map_of_mem (mem_entries_of_get? h)

theorem mem_keys_insert {m : OrderedMap β} {key name : Text} {value : β} :
    name ∈ (m.insert key value).keys ↔ name = key ∨ name ∈ m.keys := by
  rw [keys_insert]
  split
  · next hmem => exact ⟨.inr, fun h => h.elim (fun e => e ▸ hmem) id⟩
  · rw [List.mem_append, List.mem_singleton, or_comm]

theorem mem_keys_insertAll {m other : OrderedMap β} {name : Text} :
    name ∈ (m.insertAll other).keys ↔ name ∈ m.keys ∨ name ∈ other.keys := by
  unfold insertAll
  rw [show other.keys = other.entries.map Prod.fst from rfl]
  generalize other.entries = entries
  induction entries generalizing m with
  | nil => simp
  | cons e rest ih =>
    rw [List.foldl_cons, ih, mem_keys_insert, List.map_cons, List.mem_cons, or_assoc,
      or_left_comm]

/-! ## Inserting entries -/

/-- A map is known from its names and what they stand for. -/
theorem ext_get? {m m' : OrderedMap β} (hkeys : m.keys = m'.keys)
    (hget : ∀ name, m.get? name = m'.get? name) : m = m' := by
  obtain ⟨entries, hnodup⟩ := m
  obtain ⟨entries', hnodup'⟩ := m'
  suffices h : entries = entries' by
    subst h
    rfl
  simp only [keys, get?] at hkeys hget
  induction entries generalizing entries' with
  | nil => exact (List.map_eq_nil_iff.1 hkeys.symm).symm
  | cons e rest ih =>
    cases entries' with
    | nil => cases hkeys
    | cons e' rest' =>
      obtain ⟨key, value⟩ := e
      obtain ⟨key', value'⟩ := e'
      obtain ⟨rfl, hrest⟩ := List.cons.inj hkeys
      have hvalue := hget key
      rw [List.lookup_cons_self, List.lookup_cons_self] at hvalue
      cases hvalue
      obtain ⟨hkey, hdistinct⟩ := List.nodup_cons.1 hnodup
      obtain ⟨hkey', hdistinct'⟩ := List.nodup_cons.1 hnodup'
      rw [ih hdistinct rest' hdistinct' hrest fun name => ?_]
      by_cases hname : name = key
      · subst hname
        rw [lookup_eq_none.2 hkey, lookup_eq_none.2 hkey']
      · have hother := hget name
        rwa [List.lookup_cons, List.lookup_cons, beq_false_of_ne hname] at hother

/-- Names inserted in order stand in order of first appearance. -/
theorem keys_foldl_insert (m : OrderedMap β) (entries : List (Text × β)) :
    (entries.foldl (fun m e => m.insert e.1 e.2) m).keys =
      (m.keys ++ entries.map Prod.fst).eraseDups := by
  induction entries generalizing m with
  | nil =>
    rw [List.foldl_nil, List.map_nil, List.append_nil]
    exact (eraseDups_of_nodup m.nodup).symm
  | cons e rest ih =>
    rw [List.foldl_cons, ih, keys_insert, List.map_cons]
    split
    · next hmem => rw [eraseDups_append_cons_of_mem hmem]
    · rw [List.append_assoc, List.singleton_append]

/-- Of the entries inserted under a name the last one counts. -/
theorem get?_foldl_insert (m : OrderedMap β) (entries : List (Text × β)) (name : Text) :
    (entries.foldl (fun m e => m.insert e.1 e.2) m).get? name =
      (entries.reverse.lookup name).or (m.get? name) := by
  induction entries generalizing m with
  | nil => rfl
  | cons e rest ih =>
    have hhere : (m.insert e.1 e.2).get? name = (List.lookup name [e]).or (m.get? name) := by
      rw [get?_insert, List.lookup_cons]
      by_cases hname : name = e.1
      · rw [if_pos hname, beq_iff_eq.2 hname]
        rfl
      · rw [if_neg hname, beq_false_of_ne hname]
        rfl
    rw [List.foldl_cons, ih, hhere, List.reverse_cons, lookup_append, Option.or_assoc]

/-- Where names are distinct, a value is found from either end. -/
theorem lookup_reverse {entries : List (Text × β)} (h : (entries.map Prod.fst).Nodup)
    (name : Text) : entries.reverse.lookup name = entries.lookup name := by
  induction entries with
  | nil => rfl
  | cons e rest ih =>
    obtain ⟨key, value⟩ := e
    obtain ⟨hkey, hrest⟩ := List.nodup_cons.1 h
    rw [List.reverse_cons, lookup_append, ih hrest]
    by_cases hname : name = key
    · subst hname
      rw [lookup_eq_none.2 hkey, List.lookup_cons_self, List.lookup_cons_self]
      rfl
    · rw [List.lookup_cons, List.lookup_cons, beq_false_of_ne hname]
      exact Option.or_none

theorem get?_insertAll (m other : OrderedMap β) (name : Text) :
    (m.insertAll other).get? name = (other.get? name).or (m.get? name) := by
  unfold insertAll
  rw [get?_foldl_insert, lookup_reverse other.nodup]
  rfl

/-- Merging a map with one more entry is merging it and inserting the entry. -/
theorem insertAll_insert (m other : OrderedMap β) (key : Text) (value : β) :
    m.insertAll (other.insert key value) = (m.insertAll other).insert key value := by
  by_cases h : key ∈ other.keys
  · have hkeys : (other.insert key value).keys = other.keys := by
      rw [keys_insert, if_pos h]
    refine ext_get? ?_ fun name => ?_
    · rw [keys_insert, if_pos (mem_keys_insertAll.2 (.inr h))]
      unfold insertAll
      rw [keys_foldl_insert, keys_foldl_insert]
      exact congrArg (fun names => (m.keys ++ names).eraseDups) hkeys
    · rw [get?_insertAll, get?_insert, get?_insert, get?_insertAll]
      split <;> rfl
  · have hentries : (other.insert key value).entries = other.entries ++ [(key, value)] := by
      unfold insert
      rw [dif_neg h]
    unfold insertAll
    rw [hentries, List.foldl_append]
    rfl

/-! ## Distinct names -/

theorem lookup_of_mem {entries : List (Text × β)} (h : (entries.map Prod.fst).Nodup) {key : Text}
    {value : β} (hmem : (key, value) ∈ entries) : entries.lookup key = some value := by
  induction entries with
  | nil => cases hmem
  | cons e rest ih =>
    obtain ⟨hkey, hrest⟩ := List.nodup_cons.1 h
    rcases List.mem_cons.1 hmem with rfl | hmem
    · exact List.lookup_cons_self
    · have hne : key ≠ e.1 := fun heq => hkey (heq ▸ List.mem_map_of_mem hmem)
      rw [List.lookup_cons, beq_false_of_ne hne]
      exact ih hrest hmem

theorem get?_eq_some {m : OrderedMap β} {key : Text} {value : β} :
    m.get? key = some value ↔ (key, value) ∈ m.entries :=
  ⟨mem_entries_of_get?, lookup_of_mem m.nodup⟩

/-- The map of entries with distinct names finds each of them. -/
theorem get?_ofList {entries : List (Text × β)} (h : (entries.map Prod.fst).Nodup) (name : Text) :
    (ofList entries).get? name = entries.lookup name := by
  unfold ofList
  rw [get?_foldl_insert, lookup_reverse h]
  exact Option.or_none

/-! ## Values -/

theorem mem_entries_insert {m : OrderedMap β} {key : Text} {value : β} {e : Text × β}
    (h : e ∈ (m.insert key value).entries) : e = (key, value) ∨ e ∈ m.entries := by
  unfold insert at h
  split at h
  · obtain ⟨old, hold, rfl⟩ := List.mem_map.1 h
    by_cases hk : old.1 = key
    · exact .inl (if_pos hk)
    · exact .inr ((if_neg hk).symm ▸ hold)
  · rcases List.mem_append.1 h with h | h
    · exact .inr h
    · exact .inl (List.mem_singleton.1 h)

theorem mem_values_insert {m : OrderedMap β} {key : Text} {value v : β}
    (h : v ∈ (m.insert key value).values) : v = value ∨ v ∈ m.values := by
  obtain ⟨e, he, rfl⟩ := List.mem_map.1 h
  rcases mem_entries_insert he with rfl | he
  · exact .inl rfl
  · exact .inr (List.mem_map_of_mem he)

theorem mem_values_insertAll {m other : OrderedMap β} {v : β}
    (h : v ∈ (m.insertAll other).values) : v ∈ m.values ∨ v ∈ other.values := by
  unfold insertAll at h
  unfold values at h ⊢
  generalize other.entries = entries at h ⊢
  induction entries generalizing m with
  | nil => exact .inl h
  | cons e rest ih =>
    rcases ih h with h | h
    · rcases mem_values_insert h with h | h
      · exact .inr (by simp [h])
      · exact .inl h
    · exact .inr (List.mem_cons_of_mem _ h)

theorem values_map (m : OrderedMap β) (f : β → γ) : (m.map f).values = m.values.map f := by
  simp [values, map]

theorem map_eq_self {m : OrderedMap β} {f : β → β} (h : ∀ v ∈ m.values, f v = v) : m.map f = m := by
  obtain ⟨entries, nodup⟩ := m
  have hentries : entries.map (fun e => (e.1, f e.2)) = entries := by
    refine (List.map_congr_left fun e he => ?_).trans (List.map_id entries)
    rw [h e.2 (List.mem_map_of_mem he)]
    rfl
  unfold map
  simp only [hentries]

end OrderedMap

end PageLang
