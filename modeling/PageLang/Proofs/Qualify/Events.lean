import PageLang.Proofs.MaskedText.Occurrences
import PageLang.Proofs.Qualify.Pieces

/-!
# The events of pieces

The events of a body can be read off its pieces (`Script.events`): a word is a reference if it is
one of the names looked for and no dot stands in front of it, a keyword declares the names of its
line, a brace opens or closes a block. They stand in order of their offsets.

* `mem_events_brace`, `mem_events_refers`, `mem_events_declares`: the events of each kind.
* `exists_word`, `liveByte?_mark`: what a live byte of the text is a part of.
* `mem_braces_iff`: the scan for braces finds those of the pieces.
-/

namespace PageLang.Script

open Cell Qualify

/-! ## Events of pieces -/

/-- The event of a mark at offset `i`. -/
def braceEvents (i : Nat) (b : UInt8) : List (Nat × Event) :=
  if b = Byte.lbrace then [(i, .opens)] else if b = Byte.rbrace then [(i, .closes)] else []

/-- The event of an operand at offset `i`, behind the mark `last`. -/
def Operand.events (names : List Text) (last : Option UInt8) (i : Nat) :
    Operand → List (Nat × Event)
  | word t =>
    if last ≠ some Byte.dot ∧ t ∈ names then [(i, .refers ⟨i, t.length, t, .bare⟩)] else []
  | _ => []

/-- The events of a piece at offset `i`. -/
def Piece.events (names : List Text) (last : Option UInt8) (i : Nat) : Piece → List (Nat × Event)
  | marked o m => o.events names last i ++ braceEvents (i + o.cells.length + m.before.length) m.byte
  | keyword _ _ declared => [(i, .declares ⟨i, declared, .block⟩)]

/-- The events of pieces from offset `i` on, in order. -/
def events (names : List Text) : (last : Option UInt8) → (i : Nat) → List Piece →
    List (Nat × Event)
  | _, _, [] => []
  | last, i, p :: ps => p.events names last i ++ events names (some p.mark) (i + p.cells.length) ps

theorem mem_events {names : List Text} {last : Option UInt8} {i : Nat} {ps : List Piece}
    {x : Nat × Event} : x ∈ events names last i ps ↔ ∃ pre p post, ps = pre ++ p :: post ∧
      x ∈ p.events names (lastMark last pre) (i + (cells pre).length) := by
  induction ps generalizing last i with
  | nil => simp [events]
  | cons q ps ih =>
    rw [events, List.mem_append, ih]
    constructor
    · rintro (hx | ⟨pre, p, post, rfl, hx⟩)
      · exact ⟨[], q, ps, rfl, by simpa [lastMark] using hx⟩
      · exact ⟨q :: pre, p, post, rfl, by simpa [lastMark, Nat.add_assoc] using hx⟩
    · rintro ⟨pre, p, post, hps, hx⟩
      cases pre with
      | nil =>
        obtain ⟨rfl, rfl⟩ := List.cons.inj hps
        exact .inl (by simpa [lastMark] using hx)
      | cons r pre =>
        obtain ⟨rfl, rfl⟩ := List.cons.inj hps
        exact .inr ⟨pre, p, post, rfl, by simpa [lastMark, Nat.add_assoc] using hx⟩

theorem mem_braceEvents {i j : Nat} {b : UInt8} {e : Event} : (j, e) ∈ braceEvents i b ↔
    j = i ∧ (b = Byte.lbrace ∧ e = .opens ∨ b = Byte.rbrace ∧ e = .closes) := by
  unfold braceEvents
  split
  · next hb => simp +decide [hb]
  · split
    · next hb => simp +decide [hb]
    · simp_all

theorem Operand.mem_events {names : List Text} {last : Option UInt8} {i : Nat} {o : Operand}
    {x : Nat × Event} : x ∈ o.events names last i ↔ ∃ t, o = .word t ∧ last ≠ some Byte.dot ∧
      t ∈ names ∧ x = (i, .refers ⟨i, t.length, t, .bare⟩) := by
  cases o with
  | word t =>
    simp only [Operand.events, Operand.word.injEq, exists_eq_left']
    split
    · simp_all
    · simp_all
  | none => simp [Operand.events]
  | string t => simp [Operand.events]

/-- The braces of pieces. -/
theorem mem_events_brace {names : List Text} {last : Option UInt8} {i j : Nat} {ps : List Piece}
    {b : UInt8} {e : Event} (hb : b = Byte.lbrace ∧ e = .opens ∨ b = Byte.rbrace ∧ e = .closes) :
    (j, e) ∈ events names last i ps ↔ ∃ pre o m post, ps = pre ++ .marked o m :: post ∧
      m.byte = b ∧ j = i + (cells pre).length + o.cells.length + m.before.length := by
  rw [Script.mem_events]
  constructor
  · rintro ⟨pre, p, post, rfl, hx⟩
    cases p with
    | marked o m =>
      rcases List.mem_append.1 hx with hx | hx
      · obtain ⟨t, -, -, -, hx⟩ := Operand.mem_events.1 hx
        rcases hb with ⟨-, rfl⟩ | ⟨-, rfl⟩ <;> simp at hx
      · obtain ⟨hj, hm⟩ := mem_braceEvents.1 hx
        refine ⟨pre, o, m, post, rfl, ?_, hj⟩
        rcases hb with ⟨rfl, rfl⟩ | ⟨rfl, rfl⟩ <;> simpa using hm
    | keyword word space declared =>
      rcases hb with ⟨-, rfl⟩ | ⟨-, rfl⟩ <;> simp [Piece.events] at hx
  · rintro ⟨pre, o, m, post, rfl, rfl, rfl⟩
    exact ⟨pre, .marked o m, post, rfl, List.mem_append_right _ (mem_braceEvents.2 ⟨rfl, hb⟩)⟩

/-- The references of pieces. -/
theorem mem_events_refers {names : List Text} {last : Option UInt8} {i j : Nat} {ps : List Piece}
    {r : Reference} : (j, .refers r) ∈ events names last i ps ↔
      ∃ pre t m post, ps = pre ++ .marked (.word t) m :: post ∧
        lastMark last pre ≠ some Byte.dot ∧ t ∈ names ∧ j = i + (cells pre).length ∧
        r = ⟨j, t.length, t, .bare⟩ := by
  rw [Script.mem_events]
  constructor
  · rintro ⟨pre, p, post, rfl, hx⟩
    cases p with
    | marked o m =>
      rcases List.mem_append.1 hx with hx | hx
      · obtain ⟨t, rfl, hlast, ht, hx⟩ := Operand.mem_events.1 hx
        obtain ⟨rfl, hr⟩ := Prod.mk.inj hx
        exact ⟨pre, t, m, post, rfl, hlast, ht, rfl, Event.refers.inj hr⟩
      · simp [mem_braceEvents] at hx
    | keyword word space declared => simp [Piece.events] at hx
  · rintro ⟨pre, t, m, post, rfl, hlast, ht, rfl, rfl⟩
    exact ⟨pre, .marked (.word t) m, post, rfl,
      List.mem_append_left _ (Operand.mem_events.2 ⟨t, rfl, hlast, ht, rfl⟩)⟩

/-- The declarations of pieces. -/
theorem mem_events_declares {names : List Text} {last : Option UInt8} {i j : Nat}
    {ps : List Piece} {d : LocalDeclaration} : (j, .declares d) ∈ events names last i ps ↔
      ∃ pre word space declared post, ps = pre ++ .keyword word space declared :: post ∧
        j = i + (cells pre).length ∧ d = ⟨j, declared, .block⟩ := by
  rw [Script.mem_events]
  constructor
  · rintro ⟨pre, p, post, rfl, hx⟩
    cases p with
    | marked o m =>
      rcases List.mem_append.1 hx with hx | hx
      · obtain ⟨t, -, -, -, hx⟩ := Operand.mem_events.1 hx
        simp at hx
      · simp [mem_braceEvents] at hx
    | keyword word space declared =>
      obtain ⟨rfl, rfl⟩ : j = _ ∧ d = _ := by simpa [Piece.events] using hx
      exact ⟨pre, word, space, declared, post, rfl, rfl, rfl⟩
  · rintro ⟨pre, word, space, declared, post, rfl, rfl, rfl⟩
    exact ⟨pre, .keyword word space declared, post, rfl, by simp [Piece.events]⟩

theorem Piece.pairwise_events {p : Piece} (hp : p.Fits) (names : List Text) (last : Option UInt8)
    (i : Nat) : (p.events names last i).Pairwise (·.1 < ·.1) ∧
      ∀ x ∈ p.events names last i, i ≤ x.1 ∧ x.1 < i + p.cells.length := by
  cases p with
  | marked o m =>
    have hlen : (Piece.marked o m).cells.length =
        o.cells.length + m.before.length + 1 + m.after.length := by
      simp [Piece.cells, Mark.text]
      omega
    have hbrace : ∀ x ∈ braceEvents (i + o.cells.length + m.before.length) m.byte,
        x.1 = i + o.cells.length + m.before.length := by
      unfold braceEvents
      split
      · simp
      · split <;> simp
    have hbraces : (braceEvents (i + o.cells.length + m.before.length) m.byte).Pairwise
        (·.1 < ·.1) := by
      unfold braceEvents
      split
      · simp
      · split <;> simp
    have hword : ∀ x ∈ o.events names last i, x.1 = i ∧ 0 < o.cells.length := by
      intro x hx
      cases o with
      | word t =>
        have hne := List.length_pos_iff.2 hp.1.1
        simp only [Operand.events] at hx
        split at hx
        · simp_all [Operand.cells]
        · simp at hx
      | none => simp [Operand.events] at hx
      | string t => simp [Operand.events] at hx
    have hwords : (o.events names last i).Pairwise (·.1 < ·.1) := by
      unfold Operand.events
      split
      · split <;> simp
      · simp
    refine ⟨List.pairwise_append.2 ⟨hwords, hbraces, fun x hx y hy => ?_⟩, fun x hx => ?_⟩
    · have := hword x hx
      have := hbrace y hy
      omega
    · rcases List.mem_append.1 hx with hx | hx
      · have := hword x hx
        omega
      · have := hbrace x hx
        omega
  | keyword word space declared =>
    obtain ⟨-, hne, -⟩ := hp
    have hpos := List.length_pos_iff.2 hne
    refine ⟨by simp [events], fun x hx => ?_⟩
    obtain rfl : x = _ := by simpa [events] using hx
    simp [cells]
    omega

/-- The offsets of events increase. -/
theorem pairwise_events {ps : List Piece} (hps : ∀ p ∈ ps, p.Fits) (names : List Text)
    (last : Option UInt8) (i : Nat) : (events names last i ps).Pairwise (·.1 < ·.1) ∧
      ∀ x ∈ events names last i ps, i ≤ x.1 := by
  induction ps generalizing last i with
  | nil => simp [events]
  | cons p ps ih =>
    obtain ⟨hp, hrange⟩ := Piece.pairwise_events (hps p (.head _)) names last i
    obtain ⟨hrest, hle⟩ := ih (fun q hq => hps q (.tail _ hq)) (some p.mark) (i + p.cells.length)
    refine ⟨List.pairwise_append.2 ⟨hp, hrest, fun x hx y hy => ?_⟩, fun x hx => ?_⟩
    · have := (hrange x hx).2
      have := hle y hy
      omega
    · rcases List.mem_append.1 hx with hx | hx
      · exact (hrange x hx).1
      · have := hle x hx
        omega

/-! ## Live bytes -/

section
variable {s : MaskedText} {lead : Text} {ps : List Piece} (hlead : Space lead)
  (hps : Tidy none ps) (h : s.Rest 0 (live lead ++ cells ps))
include h

/-- The offset of a piece. -/
theorem rest_of_split {pre post : List Piece} {p : Piece} (hsplit : ps = pre ++ p :: post) :
    s.Rest (lead.length + (cells pre).length) (p.cells ++ cells post) := by
  subst hsplit
  have := h
  rw [cells_append, cells_cons, ← List.append_assoc] at this
  simpa using this.skip

include hlead hps

/-- The text before a piece. -/
theorem ends_before {pre post : List Piece} {p : Piece} (hsplit : ps = pre ++ p :: post) :
    Ends (lastMark none pre) (lead ++ bytes (cells pre)) ∧ p.Fits ∧
      ∀ j, s.byte? j = (lead ++ bytes (cells pre) ++ bytes (p.cells ++ cells post))[j]? := by
  subst hsplit
  obtain ⟨hends, hp, -⟩ := hps.split (.start hlead)
  exact ⟨hends, hp, fun j => by rw [h.byte?_eq]; simp⟩

/-- A live byte that may stand in a word stands in the word of a piece. -/
theorem exists_word {j : Nat} {b : UInt8} (hj : s.liveByte? j = some b)
    (hb : Byte.isWord b = true) : ∃ pre p post x y behind, ps = pre ++ p :: post ∧
      p.word? = some (x ++ b :: y, behind) ∧ j = lead.length + (cells pre).length + x.length := by
  obtain ⟨u, v, huv, rfl⟩ := h.liveByte?_eq_some.1 hj
  rcases exists_of_live hlead hps.fits huv with hspace |
    ⟨pre, p, post, u', v', x, y, behind, rfl, rfl, -, hin⟩ | ⟨pre, o, m, post, rfl, rfl, rfl, -⟩
  · exact absurd hspace (by simp [not_space_of_isWord b hb])
  · exact ⟨pre, p, post, x, y, behind, rfl, hin.word, by simp [hin.before]; omega⟩
  · have hm := (hps.fits _ (List.mem_append_right _ (.head _))).2.1.byte
    exact absurd hm (not_space_of_isWord _ hb).2

/-- A mark is live only where a piece has it. -/
theorem liveByte?_mark {b : UInt8} (hb : b ∈ marks) {j : Nat} :
    s.liveByte? j = some b ↔ ∃ pre o m post, ps = pre ++ .marked o m :: post ∧ m.byte = b ∧
      j = lead.length + (cells pre).length + o.cells.length + m.before.length := by
  rw [h.liveByte?_eq_some]
  constructor
  · rintro ⟨u, v, huv, rfl⟩
    rcases exists_of_live hlead hps.fits huv with hspace |
      ⟨pre, p, post, u', v', x, y, behind, rfl, rfl, -, hin⟩ | ⟨pre, o, m, post, rfl, hm, rfl, -⟩
    · exact absurd hb (not_word_of_isSpace b hspace).2
    · have hp := hps.fits p (List.mem_append_right _ (.head _))
      have hword := (Piece.forall_of_word? hp hin.word).2.1 b (by simp)
      exact absurd hb (not_space_of_isWord b hword).2
    · exact ⟨pre, o, m, post, rfl, hm, by simp; omega⟩
  · rintro ⟨pre, o, m, post, rfl, rfl, rfl⟩
    exact ⟨live lead ++ cells pre ++ o.cells ++ live m.before, live m.after ++ cells post,
      by simp [Piece.cells, Mark.text], by simp; omega⟩

/-- Nothing is live but blanks, words and marks. -/
theorem liveByte?_ne {b : UInt8} (hspace : Byte.isSpace b = false) (hword : Byte.isWord b = false)
    (hmark : b ∉ marks) (j : Nat) : s.liveByte? j ≠ some b := by
  intro hj
  obtain ⟨u, v, huv, rfl⟩ := h.liveByte?_eq_some.1 hj
  rcases exists_of_live hlead hps.fits huv with hb |
    ⟨pre, p, post, u', v', x, y, behind, rfl, rfl, -, hin⟩ | ⟨pre, o, m, post, rfl, rfl, rfl, -⟩
  · simp [hspace] at hb
  · have hp := hps.fits p (List.mem_append_right _ (.head _))
    have := (Piece.forall_of_word? hp hin.word).2.1 b (by simp)
    simp [hword] at this
  · exact hmark (hps.fits _ (List.mem_append_right _ (.head _))).2.1.byte

/-! ## Braces -/

theorem mem_braces_iff {j : Nat} {b : UInt8} {e : Event} (names : List Text)
    (hb : b = Byte.lbrace ∧ e = .opens ∨ b = Byte.rbrace ∧ e = .closes) :
    (j, e) ∈ s.braces 0 s.size ↔ (j, e) ∈ events names none lead.length ps := by
  have hmark : b ∈ marks := by
    rcases hb with ⟨rfl, -⟩ | ⟨rfl, -⟩ <;> decide
  rw [mem_events_brace hb, ← liveByte?_mark hlead hps h hmark, MaskedText.mem_braces]
  constructor
  · rintro ⟨-, -, hj⟩
    rcases hb with ⟨rfl, rfl⟩ | ⟨rfl, rfl⟩ <;> simpa using hj
  · intro hj
    have hlt := MaskedText.byte?_eq_some_lt (MaskedText.liveByte?_eq_some hj).2
    refine ⟨Nat.zero_le _, by omega, ?_⟩
    rcases hb with ⟨rfl, rfl⟩ | ⟨rfl, rfl⟩
    · exact .inl ⟨hj, rfl⟩
    · exact .inr ⟨hj, rfl⟩

end

end PageLang.Script
