import PageLang.Proofs.Qualify.Reading
import PageLang.Proofs.Text.Replace

/-!
# The ranges that are qualified

Whatever the events of a body are, and however the spellings of its names overlap, what is replaced
are ranges that lie apart, one behind the other, and each of them is a live spelling of a name that
resolves. `Progress.Made` is the invariant: reading one event keeps it, since a reference in front of
the end of the last replacement is passed over.

* `Qualify.Replaced`, `Qualify.exists_replaced`: the references that are replaced.
* `Qualify.qualify_ranges`: a qualified body is the body with these ranges replaced.
-/

namespace PageLang

theorem MaskedText.slice_ofText (mode : Mode) (t : Text) (i j : Nat) :
    (ofText mode t).slice i j = t.slice i j := by
  simp [slice, ofText, Text.slice, List.extract_eq_take_drop]

/-- The references among the events. -/
theorem MaskedText.mem_events_reference {s : MaskedText} {names : List Text} {i : Nat}
    {r : Qualify.Reference} :
    (i, .refers r) ∈ s.events names ↔ i = r.offset ∧ r ∈ names.flatMap s.references := by
  rw [mem_events]
  constructor
  · rintro ((hr | ⟨d, -, hd⟩) | ⟨r', hr', heq⟩)
    · obtain ⟨-, -, ⟨-, he⟩ | ⟨-, he⟩⟩ := mem_braces.1 hr <;> cases he
    · cases hd
    · cases heq
      exact ⟨rfl, hr'⟩
  · rintro ⟨rfl, hr⟩
    exact .inr ⟨r, hr, rfl⟩

namespace Qualify

open MaskedText

/-- What takes the place of a reference. -/
def Reference.replacement (body : MaskedText) (prot : List Text) (context : BodyContext)
    (r : Reference) : Replacement :=
  ⟨r.offset, r.width, qualified context (prot.contains r.name) r
    (body.slice r.offset (r.offset + r.width))⟩

/-- A live spelling of a name, which is no part of a longer word, no property and no key. -/
structure Reference.Stands (body : MaskedText) (r : Reference) : Prop where
  live : body.isLive r.offset = true
  spelled : (body.slice r.offset (r.offset + r.width), r.form) ∈ spellings r.name
  pos : 0 < r.width
  le : r.offset + r.width ≤ body.size
  before : body.joinsBefore r.offset = false
  after : body.joinsAfter r.offset (r.offset + r.width) = false

theorem stands_of_mem_references {body : MaskedText} {name : Text} {r : Reference}
    (h : r ∈ body.references name) : r.Stands body ∧ r.name = name := by
  obtain ⟨⟨pattern, form⟩, hspelling, h⟩ := List.mem_flatMap.1 h
  obtain ⟨k, hk, rfl⟩ := List.mem_map.1 h
  obtain ⟨hk, hjoins⟩ := List.mem_filter.1 hk
  simp only [Bool.not_eq_true', Bool.or_eq_false_iff] at hjoins
  obtain ⟨-, hstarts, hmask, hne⟩ := mem_occurrences hk
  have hslice : body.slice k (k + pattern.length) = pattern := by simpa [startsAt] using hstarts
  have hpos : 0 < pattern.length := List.length_pos_iff.2 hne
  have hle : k + pattern.length ≤ body.size := by
    have := length_slice body k (k + pattern.length)
    rw [hslice] at this
    omega
  refine ⟨⟨?_, ?_, hpos, hle, hjoins.1, hjoins.2⟩, rfl⟩
  · simp [isLive, hmask]
    omega
  · rwa [hslice]

/-- The names that references may mean. -/
theorem mem_candidates_iff {names : ResolvableNames} {parameters : List Text} {n : Text} :
    n ∈ candidates names parameters ↔
      (n ∈ names.pub ∨ n ∈ names.prot) ∧ (∀ p ∈ parameters, n ∉ Pattern.names p) ∧ n ≠ [] := by
  simp [candidates, Text.mem_sorted, or_and_right]

/-! ## Reading the events -/

section
variable {body : MaskedText} {prot : List Text} {context : BodyContext} {names : List Text}

/-- What has been made so far are replacements of the references `rs`, which lie apart in front of
the offset that is covered. -/
structure Progress.Made (body : MaskedText) (prot : List Text) (context : BodyContext)
    (names : List Text) (p : Progress) (rs : List Reference) : Prop where
  made : p.made = (rs.map (·.replacement body prot context)).reverse
  apart : rs.Pairwise (fun a b => a.offset + a.width ≤ b.offset)
  covered : ∀ r ∈ rs, r.offset + r.width ≤ p.covered
  found : ∀ r ∈ rs, r ∈ names.flatMap body.references

/-- A reference behind what is covered is replaced. -/
theorem Progress.Made.replace {p : Progress} {rs : List Reference}
    (h : p.Made body prot context names rs) {r : Reference} (hcovered : p.covered ≤ r.offset)
    (hfound : r ∈ names.flatMap body.references) :
    Made body prot context names { p with
      covered := r.offset + r.width
      made := r.replacement body prot context :: p.made } (rs ++ [r]) where
  made := by simp [h.made]
  apart := by
    refine List.pairwise_append.2 ⟨h.apart, List.pairwise_singleton _ _, fun a ha b hb => ?_⟩
    rw [List.mem_singleton.1 hb]
    exact Nat.le_trans (h.covered a ha) hcovered
  covered := by
    intro a ha
    rcases List.mem_append.1 ha with ha | ha
    · have := h.covered a ha
      dsimp only
      omega
    · obtain rfl := List.mem_singleton.1 ha
      exact Nat.le_refl _
  found := by
    intro a ha
    rcases List.mem_append.1 ha with ha | ha
    · exact h.found a ha
    · rwa [List.mem_singleton.1 ha]

/-- One event makes at most one replacement more, behind the others. -/
theorem Progress.Made.step {p : Progress} {rs : List Reference}
    (h : p.Made body prot context names rs) {x : Nat × Event}
    (hx : ∀ r, x.2 = .refers r → r ∈ names.flatMap body.references) :
    ∃ rs', (p.step body prot context x).Made body prot context names rs' := by
  obtain ⟨offset, event⟩ := x
  cases event with
  | opens => exact ⟨rs, h.made, h.apart, h.covered, h.found⟩
  | closes => exact ⟨rs, h.made, h.apart, h.covered, h.found⟩
  | declares d => exact ⟨rs, h.made, h.apart, h.covered, h.found⟩
  | refers r =>
    unfold Progress.step
    dsimp only
    split
    · exact ⟨rs, h⟩
    · next hmade =>
      simp only [Bool.or_eq_true, decide_eq_true_eq, not_or] at hmade
      exact ⟨_, h.replace (by omega) (hx r rfl)⟩

theorem Progress.Made.foldl (events : List (Nat × Event)) :
    ∀ {p : Progress} {rs : List Reference}, p.Made body prot context names rs →
    (∀ i r, (i, .refers r) ∈ events → r ∈ names.flatMap body.references) →
    ∃ rs', (events.foldl (Progress.step body prot context) p).Made body prot context names rs' := by
  induction events with
  | nil => exact fun h _ => ⟨_, h⟩
  | cons x events ih =>
    intro p rs h hevents
    obtain ⟨rs', h'⟩ := h.step (x := x) fun r hr => hevents x.1 r (by rw [← hr]; exact .head _)
    exact ih h' fun i r hr => hevents i r (.tail _ hr)

end

/-- The references `rs` are those that are replaced in a body. -/
structure Replaced (body : MaskedText) (names : ResolvableNames) (parameters : List Text)
    (context : BodyContext) (rs : List Reference) : Prop where
  made : replacements body names parameters context =
    rs.map (·.replacement body names.prot context)
  apart : rs.Pairwise (fun a b => a.offset + a.width ≤ b.offset)
  found : ∀ r ∈ rs, r ∈ (candidates names parameters).flatMap body.references

theorem exists_replaced (body : MaskedText) (names : ResolvableNames) (parameters : List Text)
    (context : BodyContext) : ∃ rs, Replaced body names parameters context rs := by
  have hstart : Progress.Made body names.prot context (candidates names parameters)
      ⟨.start, 0, []⟩ [] := ⟨rfl, .nil, by simp, by simp⟩
  obtain ⟨rs, h⟩ := hstart.foldl (body.events (candidates names parameters))
    fun i r hr => (mem_events_reference.1 hr).2
  refine ⟨rs, ?_, h.apart, h.found⟩
  rw [replacements, h.made, List.reverse_reverse]

section
variable {body : MaskedText} {names : ResolvableNames} {parameters : List Text}
  {context : BodyContext} {rs : List Reference}

theorem Replaced.stands (h : Replaced body names parameters context rs) {r : Reference}
    (hr : r ∈ rs) : r.Stands body ∧ r.name ∈ candidates names parameters := by
  obtain ⟨n, hn, hr⟩ := List.mem_flatMap.1 (h.found r hr)
  obtain ⟨hstands, hname⟩ := stands_of_mem_references hr
  exact ⟨hstands, by rwa [hname]⟩

/-- No two of the references begin at one offset. -/
theorem Replaced.eq_of_offset (h : Replaced body names parameters context rs) {r r' : Reference}
    (hr : r ∈ rs) (hr' : r' ∈ rs) (heq : r.offset = r'.offset) : r = r' := by
  have hlt : (rs.map fun r => (r.offset, r)).Pairwise (·.1 < ·.1) := by
    refine List.pairwise_map.2 (h.apart.imp_of_mem fun ha _ hle => ?_)
    have := (h.stands ha).1.pos
    dsimp only
    omega
  exact congrArg Prod.snd (Script.eq_of_fst_eq hlt (List.mem_map_of_mem hr)
    (List.mem_map_of_mem hr') heq)

end

/-- A qualified body is the body with some ranges replaced, each by its qualified form. The ranges
lie apart in increasing order; each of them starts in live text and holds a spelling of a name that
resolves and that no parameter binds. Replaced one by one from the back they give the same text. -/
theorem qualify_ranges (body : Text) (names : ResolvableNames) (parameters : List Text)
    (context : BodyContext) :
    let s := MaskedText.ofText .code body
    ∃ rs : List Reference,
      rs.Pairwise (fun a b => a.offset + a.width ≤ b.offset) ∧
      (∀ r ∈ rs, s.isLive r.offset = true ∧ 0 < r.width ∧ r.offset + r.width ≤ body.length ∧
        (body.slice r.offset (r.offset + r.width), r.form) ∈ spellings r.name ∧
        (r.name ∈ names.pub ∨ r.name ∈ names.prot) ∧
        ∀ p ∈ parameters, r.name ∉ Pattern.names p) ∧
      let made := rs.map fun r => (⟨r.offset, r.width, qualified context (r.name ∈ names.prot) r
        (body.slice r.offset (r.offset + r.width))⟩ : Replacement)
      qualify body names parameters context = body.replaceAll made ∧
      qualify body names parameters context = made.foldr Replacement.apply body := by
  intro s
  obtain ⟨rs, hrs⟩ := exists_replaced s names parameters context
  have hslice (i j : Nat) : s.slice i j = body.slice i j := slice_ofText _ _ _ _
  have hle (r : Reference) (hr : r ∈ rs) : r.offset + r.width ≤ body.length := by
    have := (hrs.stands hr).1.le
    rwa [size_ofText] at this
  have hqualify : qualify body names parameters context = body.replaceAll (rs.map fun r =>
      (⟨r.offset, r.width, qualified context (r.name ∈ names.prot) r
        (body.slice r.offset (r.offset + r.width))⟩ : Replacement)) := by
    rw [qualify, hrs.made]
    congr 2
    funext r
    simp [Reference.replacement, hslice]
  refine ⟨rs, hrs.apart, fun r hr => ?_, hqualify, hqualify.trans (Text.replaceAll_eq_foldr ?_ ?_)⟩
  · obtain ⟨hr', hname⟩ := hrs.stands hr
    obtain ⟨hname, hbound, -⟩ := mem_candidates_iff.1 hname
    have hspelled := hr'.spelled
    rw [hslice] at hspelled
    exact ⟨hr'.live, hr'.pos, hle r hr, hspelled, hname, hbound⟩
  · exact List.pairwise_map.2 hrs.apart
  · intro r' hr'
    obtain ⟨r, hr, rfl⟩ := List.mem_map.1 hr'
    exact hle r hr

end Qualify

end PageLang
