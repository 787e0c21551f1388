import Mathlib.Data.Prod.Lex
import PageLang.Diagnostic.Basic
import PageLang.Proofs.Text.Place

/-!
# Places in the order of offsets

Reading on takes a place forward: a newline to the next line, the first byte of a character to the
next column, and no byte takes it back. So of two characters the later one has the later place, and
the place of a character tells its offset. All offsets inside a character have its place, and those
behind the text have the place of its end. A diagnostic about a span therefore never ends in front
of where it starts.

* `Place.rank`: places in the order in which a text is read.
* `Text.place_strictMono`, `Text.place_mono`: the places of characters, and of all offsets.
* `Text.place_of_inside`: the offsets inside a character.
* `Text.place_strictMonoOn`: all of it, and what it says of diagnostics.
-/

namespace PageLang

/-- The line, then the column: places in the order in which a text is read. -/
def Place.rank (p : Place) : ℕ ×ₗ ℕ := toLex (p.line, p.column)

namespace Place

variable {p q : Place} {b : UInt8}

theorem rank_lt_iff : p.rank < q.rank ↔ p.line < q.line ∨ p.line = q.line ∧ p.column < q.column :=
  Prod.Lex.toLex_lt_toLex

theorem rank_le_iff : p.rank ≤ q.rank ↔ p.line < q.line ∨ p.line = q.line ∧ p.column ≤ q.column :=
  Prod.Lex.toLex_le_toLex

/-- The first byte of a character takes the place forward. -/
theorem rank_lt_after (p : Place) (hb : Byte.isContinuation b = false) :
    p.rank < (p.after b).rank := by
  rw [rank_lt_iff]
  unfold Place.after
  split
  · exact .inl (Nat.lt_succ_self _)
  · rw [if_neg (by simp [hb])]
    exact .inr ⟨rfl, Nat.lt_succ_self _⟩

/-- No byte takes the place back. -/
theorem rank_le_after (p : Place) (b : UInt8) : p.rank ≤ (p.after b).rank := by
  cases hb : Byte.isContinuation b with
  | false => exact (p.rank_lt_after hb).le
  | true =>
    have hne : b ≠ Byte.newline := by
      rintro rfl
      cases hb
    have hstays : p.after b = p := by simp [Place.after, hb, hne]
    rw [hstays]

theorem rank_le_foldl (t : Text) (p : Place) : p.rank ≤ (t.foldl Place.after p).rank := by
  induction t generalizing p with
  | nil => exact le_rfl
  | cons b t ih => exact (p.rank_le_after b).trans (ih (p.after b))

end Place

namespace Text

variable {t : Text} {a j k : Nat}

/-! ## Characters -/

theorem le_length_of_isBoundary (h : t.isBoundary k = true) : k ≤ t.length := by
  unfold isBoundary at h
  split at h
  · next hb => exact Nat.le_of_lt (List.getElem?_eq_some_iff.1 hb).1
  · exact (beq_iff_eq.1 h).le

theorem floorBoundary_of_isBoundary (h : t.isBoundary k = true) : t.floorBoundary k = k := by
  unfold isBoundary at h
  cases hb : t[k]? with
  | some b =>
    rw [hb] at h
    exact floorBoundary_of_boundary hb (by simpa using h)
  | none =>
    rw [hb] at h
    obtain rfl : k = t.length := by simpa using h
    exact floorBoundary_of_length_le (Nat.le_refl _)

/-- The character around an offset inside it starts where no later one does. -/
theorem floorBoundary_of_inside (ha : t.isBoundary a = true) (hak : a ≤ k)
    (hinside : ∀ j, a < j → j ≤ k → t.isBoundary j = false) : t.floorBoundary k = a := by
  induction k, hak using Nat.le_induction with
  | base => exact floorBoundary_of_isBoundary ha
  | succ k hak ih =>
    have hnone := hinside (k + 1) (Nat.lt_succ_of_le hak) (Nat.le_refl _)
    rw [← ih fun j hj hjk => hinside j hj (Nat.le_succ_of_le hjk)]
    unfold isBoundary at hnone
    cases hb : t[k + 1]? with
    | some b =>
      rw [hb] at hnone
      exact floorBoundary_succ hb (by simpa using hnone)
    | none =>
      -- behind the end there is no character, but the end itself would be a boundary
      rw [hb] at hnone
      have hne : k + 1 ≠ t.length := by simpa using hnone
      have hle := List.getElem?_eq_none_iff.1 hb
      rw [floorBoundary_of_length_le hle, floorBoundary_of_length_le (by omega)]

/-! ## Places -/

theorem place_of_isBoundary (h : t.isBoundary k = true) :
    t.place k = (t.take k).foldl Place.after ⟨1, 1⟩ := by
  rw [place, floorBoundary_of_isBoundary h]

/-- A later offset has no earlier place. -/
theorem place_mono (t : Text) : Monotone fun k => (t.place k).rank := by
  intro j k hjk
  have hfloor := floorBoundary_mono t hjk
  dsimp only
  unfold place
  rw [← Nat.add_sub_cancel' hfloor, List.take_add, List.foldl_append]
  exact Place.rank_le_foldl _ _

/-- A later character has a later place: its first byte alone takes the place forward. -/
theorem place_strictMono (ha : t.isBoundary a = true) (hk : t.isBoundary k = true) (hak : a < k) :
    (t.place a).rank < (t.place k).rank := by
  have hle := le_length_of_isBoundary hk
  obtain ⟨b, hb⟩ : ∃ b, t[a]? = some b := ⟨_, List.getElem?_eq_getElem (by omega)⟩
  have hcont : Byte.isContinuation b = false := by simpa [isBoundary, hb] using ha
  have htake : t.take k = t.take a ++ b :: (t.drop (a + 1)).take (k - (a + 1)) := by
    conv => lhs; rw [← Nat.add_sub_cancel' (Nat.succ_le_of_lt hak)]
    rw [List.take_add, List.take_add_one, hb, List.append_assoc]
    rfl
  rw [place_of_isBoundary ha, place_of_isBoundary hk, htake, List.foldl_append, List.foldl_cons]
  exact (Place.rank_lt_after _ hcont).trans_le (Place.rank_le_foldl _ _)

theorem place_of_inside (ha : t.isBoundary a = true) (hak : a ≤ k)
    (hinside : ∀ j, a < j → j ≤ k → t.isBoundary j = false) : t.place k = t.place a := by
  rw [place, floorBoundary_of_inside ha hak hinside, place, floorBoundary_of_isBoundary ha]

theorem place_of_length_le (h : t.length ≤ k) : t.place k = t.place t.length := by
  rw [place, floorBoundary_of_length_le h, place, floorBoundary_of_length_le (Nat.le_refl _)]

end Text

/-! ## Diagnostics -/

namespace Diagnostic

/-- A diagnostic that is located ends where it starts or behind. -/
def Ordered (d : Diagnostic) : Prop :=
  d.line.first ≤ d.line.last ∧ (d.line.first = d.line.last → d.column.first ≤ d.column.last)

/-- A span that ends in front of its start is taken to end there. -/
theorem ordered_located {d : Diagnostic} {span : Span} (h : d.span = some span) (text : Text) :
    (d.located text).Ordered := by
  have hmono := text.place_mono (Nat.le_max_right span.stop span.start)
  unfold Ordered located
  rw [h]
  simp only [Extent.first_spanning, Extent.last_spanning]
  rcases Place.rank_le_iff.1 hmono with hlt | ⟨heq, hle⟩
  · exact ⟨hlt.le, fun heq => absurd heq hlt.ne⟩
  · exact ⟨heq.le, fun _ => hle⟩

end Diagnostic

/-- Of two characters the later one has the later place, the offsets inside a character have the
place of its start, and those behind the text the place of its end. So a diagnostic about a span,
whatever its ends are, ends on no earlier line than it starts, and on one line in no earlier
column. -/
theorem Text.place_strictMonoOn (t : Text) :
    StrictMonoOn (fun k => (t.place k).rank) {k | t.isBoundary k = true} ∧
    (∀ a k, t.isBoundary a = true → a ≤ k →
      (∀ j, a < j → j ≤ k → t.isBoundary j = false) → t.place k = t.place a) ∧
    (∀ k, t.length ≤ k → t.place k = t.place t.length) ∧
    ∀ (code : Code) (message file : Text) (span : Span),
      (Diagnostic.spanning code message file t span).Ordered := by
  refine ⟨fun a ha k hk hak => place_strictMono ha hk hak, fun a k => place_of_inside,
    fun k => place_of_length_le, fun code message file span => ?_⟩
  exact Diagnostic.ordered_located rfl t

/-- A character of two bytes, and a newline behind it. -/
def sampleAccent : Text := "aé\nb"

theorem Text.place_strictMonoOn_sampleAccent :
    (sampleAccent.place 1).rank < (sampleAccent.place 3).rank ∧
    sampleAccent.place 2 = sampleAccent.place 1 ∧
    sampleAccent.place 9 = sampleAccent.place 5 ∧
    (Diagnostic.spanning .lint "note" "page" sampleAccent ⟨3, 1⟩).Ordered := by
  obtain ⟨hlater, hinside, hbehind, hordered⟩ := place_strictMonoOn sampleAccent
  have hfirst : sampleAccent.isBoundary 1 = true := by decide
  have hlast : sampleAccent.isBoundary 3 = true := by decide
  refine ⟨hlater hfirst hlast (by decide), hinside 1 2 hfirst (by decide) ?_,
    hbehind 9 (by decide), hordered .lint "note" "page" ⟨3, 1⟩⟩
  intro j hj hle
  obtain rfl : j = 2 := by omega
  decide

/-- A newline ends the line it stands on, and both bytes of a character have one place. -/
example : (List.range 6).map sampleAccent.place =
    [⟨1, 1⟩, ⟨1, 2⟩, ⟨1, 2⟩, ⟨1, 3⟩, ⟨2, 1⟩, ⟨2, 2⟩] := by decide

end PageLang
