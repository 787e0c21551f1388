import Mathlib.Data.List.Induction

/-!
# First appearances

A list without its repetitions keeps of each element the first appearance.

* `nodup_eraseDups`, `eraseDups_concat`: what is left, and what one more element adds to it.
* `find?_eraseDups`: a search finds the same in what is left.
-/

namespace PageLang

variable {α : Type} [BEq α] [LawfulBEq α]

theorem eraseDups_concat (l : List α) (x : α) :
    (l ++ [x]).eraseDups = if x ∈ l then l.eraseDups else l.eraseDups ++ [x] := by
  rw [List.eraseDups_append]
  split
  · next hmem => simp [List.removeAll, hmem]
  · next hmem => simp [List.removeAll, hmem, List.eraseDups_cons]

theorem nodup_eraseDups (l : List α) : l.eraseDups.Nodup := by
  induction l using List.reverseRecOn with
  | nil => exact List.nodup_nil
  | append_singleton l x ih =>
    rw [eraseDups_concat]
    split
    · exact ih
    · next hmem =>
      refine List.nodup_append.2 ⟨ih, List.pairwise_singleton _ x, fun y hy z hz heq => hmem ?_⟩
      rwa [← List.mem_singleton.1 hz, ← heq, ← List.mem_eraseDups]

theorem eraseDups_eraseDups (l : List α) : l.eraseDups.eraseDups = l.eraseDups := by
  induction l using List.reverseRecOn with
  | nil => rfl
  | append_singleton l x ih =>
    rw [eraseDups_concat]
    split
    · exact ih
    · next hmem => rw [eraseDups_concat, ih, if_neg (mt List.mem_eraseDups.1 hmem)]

/-- What comes behind is compared with the first appearances only. -/
theorem eraseDups_eraseDups_append (l more : List α) :
    (l.eraseDups ++ more).eraseDups = (l ++ more).eraseDups := by
  have hmore : more.removeAll l.eraseDups = more.removeAll l := by
    apply List.filter_congr
    intro x _
    simp [List.mem_eraseDups]
  rw [List.eraseDups_append, List.eraseDups_append, eraseDups_eraseDups, hmore]

theorem find?_eraseDups (p : α → Bool) (l : List α) : l.eraseDups.find? p = l.find? p := by
  induction l using List.reverseRecOn with
  | nil => rfl
  | append_singleton l x ih =>
    rw [eraseDups_concat, List.find?_append, ← ih]
    split
    · next hmem =>
      -- where the repeated element would be found, the first appearance is
      cases hfind : l.eraseDups.find? p with
      | some y => rfl
      | none =>
        have hno : ¬ p x = true := List.find?_eq_none.1 hfind x (List.mem_eraseDups.2 hmem)
        simp [hno]
    · exact List.find?_append

end PageLang
