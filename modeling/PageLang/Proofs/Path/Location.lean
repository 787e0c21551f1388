import Mathlib.Data.List.Induction
import Mathlib.Logic.Relation
import PageLang.Proofs.Path.Normalize

/-!
# Where a path leads

By the text alone a path leads so many directories up and from there down along names: each step up
is cancelled against the name before it, and what is left over climbs. Normalising takes away
whatever stands last, a step up that was kept included, so of the steps that climb it keeps one or
none. Two paths have one name exactly if they go down along the same names and the numbers of
directories that they climb are both even or both odd.

* `Path.Cancels`: one step up cancelled.
* `Path.location`, `Path.leadsTo_iff`: where a path leads, and that it leads nowhere else.
* `Path.foldl_resolve`: what is kept of a location.
* `Path.ofText_normalize_eq_iff`: which paths are taken for one.
-/

namespace PageLang.Path

/-- So many directories up, and from there down along names. -/
structure Location where
  climbs : Nat
  names : List Text
  deriving DecidableEq

/-- A step up is cancelled against the name before it. -/
inductive Cancels : List Text → List Text → Prop
  | pair (front back : List Text) {c : Text} : c ≠ up →
      Cancels (front ++ c :: up :: back) (front ++ back)

namespace Location

/-- The location of a path without components. -/
def here : Location := ⟨0, []⟩

/-- One component further. -/
def step (l : Location) (c : Text) : Location :=
  if c ≠ up then { l with names := l.names ++ [c] }
  else if l.names = [] then { l with climbs := l.climbs + 1 }
  else { l with names := l.names.dropLast }

/-- The components that climb and then go down. -/
def components (l : Location) : List Text := List.replicate l.climbs up ++ l.names

/-- What normalising keeps of a location: of the steps that climb, one if their number is odd. -/
def kept (l : Location) : List Text := (if l.climbs % 2 = 1 then [up] else []) ++ l.names

variable {l l' : Location} {c : Text}

theorem step_name (l : Location) (hc : c ≠ up) : l.step c = { l with names := l.names ++ [c] } :=
  if_pos hc

theorem step_up_nil (n : Nat) : step ⟨n, []⟩ up = ⟨n + 1, []⟩ := rfl

theorem step_up_concat (n : Nat) (names : List Text) (c : Text) :
    step ⟨n, names ++ [c]⟩ up = ⟨n, names⟩ := by
  simp [step]

/-- No name of a location is a step up. -/
theorem notMem_step (h : up ∉ l.names) (c : Text) : up ∉ (l.step c).names := by
  unfold step
  split
  · next hc => simpa [h] using Ne.symm hc
  · split
    · exact h
    · exact fun hup => h (List.dropLast_subset _ hup)

theorem notMem_foldl_step (h : up ∉ l.names) (cs : List Text) :
    up ∉ (cs.foldl step l).names := by
  induction cs generalizing l with
  | nil => exact h
  | cons c cs ih => exact ih (notMem_step h c)

/-- Resolving a component of what is kept takes the location one component further. -/
theorem resolve_kept (l : Location) (c : Text) : resolve l.kept c = (l.step c).kept := by
  obtain ⟨n, names⟩ := l
  by_cases hc : c = up
  · subst hc
    rcases List.eq_nil_or_concat names with rfl | ⟨names, d, rfl⟩
    · -- a step up that was kept is taken away by the next one
      rw [step_up_nil]
      rcases Nat.mod_two_eq_zero_or_one n with hn | hn
      · simp [kept, resolve, hn, Nat.add_mod]
      · simp [kept, resolve, hn, Nat.add_mod]
    · rw [List.concat_eq_append, step_up_concat]
      unfold resolve kept
      dsimp only
      rw [if_pos ⟨rfl, by simp⟩, ← List.append_assoc, List.dropLast_concat]
  · rw [step_name _ hc, resolve, if_neg fun h => hc h.1]
    exact List.append_assoc ..

/-- Different names or another parity leave different components. -/
theorem kept_inj (h : up ∉ l.names) (h' : up ∉ l'.names) :
    l.kept = l'.kept ↔ l.names = l'.names ∧ l.climbs % 2 = l'.climbs % 2 := by
  unfold kept
  rcases Nat.mod_two_eq_zero_or_one l.climbs with hn | hn <;>
    rcases Nat.mod_two_eq_zero_or_one l'.climbs with hn' | hn'
  · simp [hn, hn']
  · simp only [hn, hn']
    refine ⟨fun heq => absurd ?_ h, nofun⟩
    have hnames : l.names = up :: l'.names := by simpa using heq
    simp [hnames]
  · simp only [hn, hn']
    refine ⟨fun heq => absurd ?_ h', nofun⟩
    have hnames : up :: l.names = l'.names := by simpa using heq
    simp [← hnames]
  · simp [hn, hn']

end Location

open Location

/-- Where a path leads. -/
def location (p : Path) : Location := p.components.foldl step here

/-- Cancelling steps up makes a path climb and then go down to a location. -/
def LeadsTo (p : Path) (l : Location) : Prop :=
  up ∉ l.names ∧ Relation.ReflTransGen Cancels p.components l.components

theorem notMem_location (p : Path) : up ∉ p.location.names :=
  notMem_foldl_step (l := here) List.not_mem_nil _

/-! ## Cancelling -/

theorem Cancels.append_right {cs ds : List Text} (h : Cancels cs ds) (more : List Text) :
    Cancels (cs ++ more) (ds ++ more) := by
  obtain ⟨front, back, hc⟩ := h
  simpa using Cancels.pair front (back ++ more) hc

/-- Cancelling a step up changes no location. -/
theorem Cancels.foldl_step {cs ds : List Text} (h : Cancels cs ds) (l : Location) :
    cs.foldl step l = ds.foldl step l := by
  obtain ⟨front, back, hc⟩ := h
  rw [List.foldl_append, List.foldl_append, List.foldl_cons, List.foldl_cons, step_name _ hc,
    step_up_concat]

/-- Steps that climb and then go down lead to where they say. -/
theorem foldl_step_components {l : Location} (h : up ∉ l.names) :
    l.components.foldl step here = l := by
  have hclimb (n : Nat) : (List.replicate n up).foldl step here = ⟨n, []⟩ := by
    induction n with
    | zero => rfl
    | succ n ih =>
      rw [List.replicate_succ', List.foldl_append, ih, List.foldl_cons, List.foldl_nil,
        step_up_nil]
  have hdown (cs : List Text) (hcs : up ∉ cs) (n : Nat) (names : List Text) :
      cs.foldl step ⟨n, names⟩ = ⟨n, names ++ cs⟩ := by
    induction cs generalizing names with
    | nil => rw [List.append_nil, List.foldl_nil]
    | cons c cs ih =>
      obtain ⟨hc, hcs⟩ := not_or.1 (mt List.mem_cons.2 hcs)
      rw [List.foldl_cons, step_name _ (Ne.symm hc), ih hcs, List.append_assoc,
        List.singleton_append]
  rw [Location.components, List.foldl_append, hclimb, hdown _ h, List.nil_append]

/-- Every list of components can be cancelled down to its location. -/
theorem cancels_foldl_step (cs : List Text) :
    Relation.ReflTransGen Cancels cs (cs.foldl step here).components := by
  induction cs using List.reverseRecOn with
  | nil => exact .refl
  | append_singleton cs c ih =>
    have hnames : up ∉ (cs.foldl step here).names := notMem_foldl_step List.not_mem_nil cs
    rw [List.foldl_append, List.foldl_cons, List.foldl_nil]
    refine (ih.lift (· ++ [c]) fun _ _ h => h.append_right [c]).trans ?_
    generalize cs.foldl step here = l at hnames
    obtain ⟨n, names⟩ := l
    by_cases hc : c = up
    · subst hc
      rcases List.eq_nil_or_concat names with rfl | ⟨names, d, rfl⟩
      · rw [step_up_nil, Location.components, Location.components, List.append_nil,
          List.append_nil, List.replicate_succ']
      · have hd : d ≠ up := by
          rintro rfl
          exact hnames (by simp)
        have hcancel := Cancels.pair (List.replicate n up ++ names) [] hd
        rw [List.concat_eq_append, step_up_concat]
        refine .single ?_
        simpa [Location.components] using hcancel
    · have hsame : Location.components ⟨n, names ++ [c]⟩ =
          Location.components ⟨n, names⟩ ++ [c] := (List.append_assoc ..).symm
      rw [step_name _ hc, hsame]

/-- A path leads to its location and nowhere else. -/
theorem leadsTo_iff {p : Path} {l : Location} : p.LeadsTo l ↔ l = p.location := by
  constructor
  · intro ⟨hnames, hcancel⟩
    have hsame {cs : List Text} (h : Relation.ReflTransGen Cancels p.components cs) :
        p.components.foldl step here = cs.foldl step here := by
      induction h with
      | refl => rfl
      | tail _ hlast ih => rw [ih, hlast.foldl_step]
    rw [location, hsame hcancel, foldl_step_components hnames]
  · rintro rfl
    exact ⟨p.notMem_location, cancels_foldl_step p.components⟩

/-! ## Normalising -/

theorem foldl_resolve (l : Location) (cs : List Text) :
    cs.foldl resolve l.kept = (cs.foldl step l).kept := by
  induction cs generalizing l with
  | nil => rfl
  | cons c cs ih => rw [List.foldl_cons, List.foldl_cons, resolve_kept, ih]

/-- Normalising keeps the names and the parity of the climb. -/
theorem normalize_eq_kept (p : Path) : p.normalize = ⟨p.absolute, p.location.kept⟩ :=
  congrArg (Path.mk p.absolute) (foldl_resolve here p.components)

theorem normalize_eq_iff (p q : Path) : p.normalize = q.normalize ↔ p.absolute = q.absolute ∧
    p.location.names = q.location.names ∧ p.location.climbs % 2 = q.location.climbs % 2 := by
  rw [normalize_eq_kept, normalize_eq_kept, Path.mk.injEq,
    kept_inj p.notMem_location q.notMem_location]

/-- Of readable paths the names of the files are the same exactly if the normalised paths are. -/
theorem Readable.key_inj {p q : Path} (hp : p.Readable) (hq : q.Readable) :
    p.key = q.key ↔ p.normalize = q.normalize := by
  refine ⟨fun hkey => ?_, fun heq => by rw [key, key, heq]⟩
  rw [← ofText_toText hp.normalize, ← ofText_toText hq.normalize]
  exact congrArg ofText hkey

/-- Two paths that are written in texts have one normal form, and lead to one file, exactly if both
or none of them start at the root, they go down along the same names, and the numbers of
directories that they climb have the same parity. -/
theorem ofText_normalize_eq_iff (t u : Text) :
    let p := ofText t
    let q := ofText u
    (∀ l, p.LeadsTo l ↔ l = p.location) ∧
    (p.normalize = q.normalize ↔ p.absolute = q.absolute ∧
      p.location.names = q.location.names ∧ p.location.climbs % 2 = q.location.climbs % 2) ∧
    (p.key = q.key ↔ p.normalize = q.normalize) :=
  ⟨fun _ => leadsTo_iff, normalize_eq_iff _ _, (readable_ofText t).key_inj (readable_ofText u)⟩

/-- Two directories up is taken for none. -/
example : (ofText "../../a").key = (ofText "a").key ∧
    (ofText "../../a").location ≠ (ofText "a").location := by decide

end PageLang.Path
