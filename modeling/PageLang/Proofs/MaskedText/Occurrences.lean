import PageLang.Proofs.MaskedText.Cells
import PageLang.Proofs.MaskedText.FirstLive
import PageLang.Proofs.Text.Trim
import PageLang.Script.Qualify

/-!
# What scans over a text find

A scan answers with offsets. Here is what stands at the offsets that it finds, and when it finds an
offset.

* `mem_braces`: all live braces are found.
* `mem_occurrences_of_free`: a live text is found unless another one overlaps it. A
  search that passes over an occurrence cannot pass over the start of a word.
-/

namespace PageLang.MaskedText

open Cell Qualify

namespace Rest

variable {s : MaskedText} {i : Nat} {w u v : List Cell}

/-- A live byte cuts the cells in two. -/
theorem liveByte?_eq_some {j : Nat} {b : UInt8} (h : s.Rest 0 w) :
    s.liveByte? j = some b ↔ ∃ u v, w = u ++ (b, false) :: v ∧ u.length = j := by
  have hlive := h.liveByte? j
  rw [Nat.zero_add] at hlive
  rw [hlive]
  constructor
  · intro hj
    obtain ⟨c, hc, hb⟩ := Option.bind_eq_some_iff.1 hj
    obtain ⟨hlt, hget⟩ := List.getElem?_eq_some_iff.1 hc
    have hcell : c = (b, false) := by
      obtain ⟨b', m⟩ := c
      cases m <;> simp_all
    refine ⟨w.take j, w.drop (j + 1), ?_, by simp; omega⟩
    rw [← hcell, ← hget, List.getElem_cons_drop, List.take_append_drop]
  · rintro ⟨u, v, rfl, rfl⟩
    simp

theorem byte?_add (h : s.Rest i w) (j : Nat) : s.byte? (i + j) = (Cell.bytes w)[j]? := by
  rw [h.byte? j, Cell.bytes, List.getElem?_map]

/-- The bytes of the whole text. -/
theorem byte?_eq (h : s.Rest 0 w) (j : Nat) : s.byte? j = (Cell.bytes w)[j]? := by
  have := h.byte?_add j
  rwa [Nat.zero_add] at this

end Rest

/-! ## Braces -/

theorem mem_braces {s : MaskedText} {i n j : Nat} {e : Event} :
    (j, e) ∈ s.braces i n ↔ i ≤ j ∧ j < i + n ∧
      (s.liveByte? j = some Byte.lbrace ∧ e = .opens ∨
        s.liveByte? j = some Byte.rbrace ∧ e = .closes) := by
  induction n generalizing i with
  | zero =>
    simp only [braces, List.not_mem_nil, false_iff]
    omega
  | succ n ih =>
    have hsplit : i ≤ j ∧ j < i + (n + 1) ↔ j = i ∨ i + 1 ≤ j ∧ j < i + 1 + n := by omega
    rw [← and_assoc, hsplit, or_and_right, and_assoc, ← ih, braces]
    split
    · next hb =>
      rw [List.mem_cons, Prod.mk.injEq]
      refine or_congr (and_congr_right fun hj => ?_) Iff.rfl
      subst hj
      simp +decide [hb]
    · next hb =>
      rw [List.mem_cons, Prod.mk.injEq]
      refine or_congr (and_congr_right fun hj => ?_) Iff.rfl
      subst hj
      simp +decide [hb]
    · next hl hr =>
      refine ⟨.inr, fun h => h.resolve_left ?_⟩
      rintro ⟨rfl, ⟨hb, -⟩ | ⟨hb, -⟩⟩
      · exact hl hb
      · exact hr hb

theorem pairwise_braces (s : MaskedText) (i n : Nat) : (s.braces i n).Pairwise (·.1 < ·.1) := by
  induction n generalizing i with
  | zero => exact .nil
  | succ n ih =>
    have hlt (x : Nat × Event) (hx : x ∈ s.braces (i + 1) n) : i < x.1 := (mem_braces.1 hx).1
    rw [braces]
    split
    · exact .cons hlt (ih _)
    · exact .cons hlt (ih _)
    · exact ih _

/-! ## Occurrences -/

theorem mem_occurrences {s : MaskedText} {pattern : Text} {start k : Nat}
    (h : k ∈ s.occurrences pattern start) :
    start ≤ k ∧ s.startsAt pattern k = true ∧ s.isMasked k = false ∧ pattern ≠ [] := by
  fun_induction s.occurrences pattern start with
  | case1 start hp => simp at h
  | case2 start hp hnone => simp at h
  | case3 start hp i hsome ih =>
    have hle := (indexOf?_eq_some hsome hp).1
    rcases List.mem_cons.1 h with rfl | h
    · exact ⟨hle, (searchFrom?_eq_some hsome).2.2.1, (searchFrom?_eq_some hsome).2.2.2, hp⟩
    · obtain ⟨h1, h2⟩ := ih h
      exact ⟨by omega, h2⟩

theorem pairwise_occurrences (s : MaskedText) (pattern : Text) (start : Nat) :
    (s.occurrences pattern start).Pairwise (· < ·) := by
  fun_induction s.occurrences pattern start with
  | case1 start hp => exact .nil
  | case2 start hp hnone => exact .nil
  | case3 start hp i hsome ih =>
    refine List.pairwise_cons.2 ⟨fun k hk => ?_, ih⟩
    have hle := (mem_occurrences hk).1
    have hpos := List.length_pos_iff.2 hp
    omega

section
variable {s : MaskedText} {pattern : Text} {k : Nat}

/-- A search does not go past a live occurrence that no earlier one overlaps. -/
theorem indexOf?_le {start : Nat} (hk : start ≤ k) (hat : s.StandsAt pattern k)
    (hlive : s.isMasked k = false)
    (hfree : ∀ j < k, s.startsAt pattern j = true → j + pattern.length ≤ k) :
    ∃ j ≤ k, s.indexOf? pattern start = some j := by
  refine exists_indexOf?_of_meets (meets_of_apart hat ?_ fun j hj hjk => ?_) hlive
  · exact Nat.le_trans (Nat.min_le_left ..) hk
  · exact hfree j hjk hj.standsAt.2

/-- An occurrence that no earlier one overlaps is found. -/
theorem mem_occurrences_of_free (hp : pattern ≠ []) {start : Nat} (hk : start ≤ k)
    (hat : s.StandsAt pattern k) (hlive : s.isMasked k = false)
    (hfree : ∀ j < k, s.startsAt pattern j = true → j + pattern.length ≤ k) :
    k ∈ s.occurrences pattern start := by
  fun_induction s.occurrences pattern start with
  | case1 start hp' => exact absurd hp' hp
  | case2 start hp' hnone =>
    obtain ⟨j, -, hj⟩ := indexOf?_le hk hat hlive hfree
    simp [hj] at hnone
  | case3 start hp' i hsome ih =>
    obtain ⟨j, hle, hj⟩ := indexOf?_le hk hat hlive hfree
    obtain rfl : j = i := Option.some.inj (hj.symm.trans hsome)
    rcases Nat.eq_or_lt_of_le hle with rfl | hlt
    · exact .head _
    · exact .tail _ (ih (hfree j hlt (searchFrom?_eq_some hj).2.2.1))

end

end PageLang.MaskedText
