import Mathlib.Order.Monotone.Basic
import PageLang.Proofs.Text.Replace

/-!
# Insertions

`weave ins 0 l` is the list `l` with `ins i` put in front of the element at offset `i`, for all
offsets at once. Every element of `l` is copied, so an offset of `l` has a place in the woven list
(`shift`), and every element of the woven list is a copy or lies in an insertion.

* `getElem?_weave_copied`, `getElem?_weave_inserted`: the elements of a woven list.
* `exists_of_lt_length_weave`: what an offset of a woven list belongs to.
* `Text.replaceAll_eq_weave`: replacements that keep the replaced part at their end are insertions.
-/

namespace PageLang

variable {α : Type}

/-- A list whose first element is at offset `i`, with `ins j` in front of the element at `j`. -/
def weave (ins : Nat → List α) : (i : Nat) → List α → List α
  | _, [] => []
  | i, a :: l => ins i ++ a :: weave ins (i + 1) l

/-- Where the insertion in front of offset `i` begins. -/
def shift (ins : Nat → List α) : Nat → Nat
  | 0 => 0
  | i + 1 => shift ins i + (ins i).length + 1

section
variable (ins : Nat → List α)

theorem weave_append (i : Nat) (l l' : List α) :
    weave ins i (l ++ l') = weave ins i l ++ weave ins (i + l.length) l' := by
  induction l generalizing i with
  | nil => rfl
  | cons a l ih => simp [weave, ih, Nat.add_assoc, Nat.add_comm 1]

/-- Where nothing is inserted, the list is copied. -/
theorem weave_eq_self {ins : Nat → List α} {i : Nat} {l : List α}
    (h : ∀ j, i ≤ j → j < i + l.length → ins j = []) : weave ins i l = l := by
  induction l generalizing i with
  | nil => rfl
  | cons a l ih =>
    have hi : ins i = [] := h i (Nat.le_refl i) (by simp)
    rw [weave, hi, ih fun j h1 h2 => h j (by omega) (by simp; omega)]
    rfl

/-- Where something is inserted in front of the first element only, the list is copied behind it. -/
theorem weave_eq_append {ins : Nat → List α} {i : Nat} {l : List α} (hne : l ≠ [])
    (h : ∀ j, i < j → j < i + l.length → ins j = []) : weave ins i l = ins i ++ l := by
  obtain ⟨a, l, rfl⟩ := List.exists_cons_of_ne_nil hne
  rw [weave, weave_eq_self fun j h1 h2 => h j h1 (by rw [List.length_cons]; omega)]

theorem shift_succ (i : Nat) : shift ins (i + 1) = shift ins i + (ins i).length + 1 := rfl

theorem shift_lt_succ (i : Nat) : shift ins i < shift ins (i + 1) := by
  rw [shift_succ]
  omega

theorem shift_strictMono : StrictMono (shift ins) := strictMono_nat_of_lt_succ (shift_lt_succ ins)

/-- Where nothing is inserted, offsets move alike. -/
theorem shift_add {i w : Nat} (h : ∀ j, i ≤ j → j < i + w → ins j = []) :
    shift ins (i + w) = shift ins i + w := by
  induction w with
  | zero => rfl
  | succ w ih =>
    rw [← Nat.add_assoc, shift_succ, ih fun j h1 h2 => h j h1 (by omega),
      h (i + w) (by omega) (by omega)]
    rfl

theorem lt_shift {i n : Nat} (hi : i < n) (h : ins i ≠ []) : n < shift ins n := by
  have hpos := List.length_pos_iff.2 h
  have hle (m : Nat) : m ≤ shift ins m := by
    induction m with
    | zero => exact Nat.zero_le _
    | succ m ih => rw [shift_succ]; omega
  induction n with
  | zero => omega
  | succ n ih =>
    rw [shift_succ]
    rcases Nat.eq_or_lt_of_le (Nat.le_of_lt_succ hi) with rfl | hlt
    · have := hle i
      omega
    · have := ih hlt
      omega

/-- The part of a woven list that belongs to the first elements. -/
theorem length_weave_take {l : List α} {i : Nat} (h : i ≤ l.length) :
    (weave ins 0 (l.take i)).length = shift ins i := by
  induction i with
  | zero => simp [weave, shift]
  | succ i ih =>
    rw [List.take_add_one, List.getElem?_eq_getElem (by omega), Option.toList_some, weave_append,
      List.length_append, ih (by omega), List.length_take_of_le (by omega), shift_succ]
    simp [weave, Nat.add_assoc]

theorem length_weave (l : List α) : (weave ins 0 l).length = shift ins l.length := by
  rw [← length_weave_take ins (Nat.le_refl l.length), List.take_length]

/-- A woven list, cut at an offset of the list. -/
theorem weave_split {l : List α} {i : Nat} {a : α} (h : l[i]? = some a) :
    weave ins 0 l = weave ins 0 (l.take i) ++
      (ins i ++ a :: weave ins (i + 1) (l.drop (i + 1))) := by
  obtain ⟨hlt, hget⟩ := List.getElem?_eq_some_iff.1 h
  have hl : l = l.take i ++ a :: l.drop (i + 1) := by
    rw [← hget, List.getElem_cons_drop, List.take_append_drop]
  conv_lhs => rw [hl]
  rw [weave_append, List.length_take_of_le (by omega), Nat.zero_add]
  rfl

theorem drop_weave {l : List α} {i : Nat} (h : i ≤ l.length) :
    (weave ins 0 l).drop (shift ins i) = weave ins i (l.drop i) := by
  conv_lhs => rw [← List.take_append_drop i l, weave_append, ← length_weave_take ins h]
  rw [List.drop_left, List.length_take_of_le h, Nat.zero_add]

/-- An element is copied behind what is put in front of it. -/
theorem getElem?_weave_copied {l : List α} {i : Nat} (h : i < l.length) :
    (weave ins 0 l)[shift ins i + (ins i).length]? = l[i]? := by
  have hget := List.getElem?_eq_getElem h
  rw [weave_split ins hget, hget, ← List.getElem?_drop,
    List.drop_left' (length_weave_take ins (Nat.le_of_lt h)), List.getElem?_append_right (by simp)]
  simp

theorem getElem?_weave_inserted {l : List α} {i k : Nat} (h : i < l.length)
    (hk : k < (ins i).length) : (weave ins 0 l)[shift ins i + k]? = (ins i)[k]? := by
  have hget := List.getElem?_eq_getElem h
  rw [weave_split ins hget, ← List.getElem?_drop,
    List.drop_left' (length_weave_take ins (Nat.le_of_lt h)), List.getElem?_append_left hk]

end

/-- An offset of a woven list is that of a copy, or it lies in what is put in front of one. -/
theorem exists_of_lt_shift {ins : Nat → List α} {n p : Nat} (h : p < shift ins n) :
    ∃ i < n, p = shift ins i + (ins i).length ∨ ∃ k < (ins i).length, p = shift ins i + k := by
  induction n with
  | zero => cases h
  | succ n ih =>
    rcases Nat.lt_or_ge p (shift ins n) with hlt | hge
    · obtain ⟨i, hi, hp⟩ := ih hlt
      exact ⟨i, by omega, hp⟩
    · rw [shift_succ] at h
      refine ⟨n, Nat.lt_succ_self n, ?_⟩
      rcases Nat.lt_or_ge (p - shift ins n) (ins n).length with hk | hk
      · exact .inr ⟨p - shift ins n, hk, by omega⟩
      · exact .inl (by omega)

theorem exists_of_lt_length_weave {ins : Nat → List α} {l : List α} {p : Nat}
    (h : p < (weave ins 0 l).length) :
    ∃ i < l.length,
      p = shift ins i + (ins i).length ∨ ∃ k < (ins i).length, p = shift ins i + k :=
  exists_of_lt_shift (by rwa [length_weave] at h)

namespace Text

theorem weave_drop {ins : Nat → Text} {t : Text} {i j : Nat} (hij : i ≤ j) (hj : j ≤ t.length) :
    weave ins i (t.drop i) = weave ins i (t.slice i j) ++ weave ins j (t.drop j) := by
  rw [← slice_append_drop hij, weave_append, length_slice_of_le hj, show i + (j - i) = j by omega]

theorem replaceFrom_eq_weave {ins : Nat → Text} {t : Text} {rs : List Replacement} {i : Nat}
    (happart : Replacement.Apart rs) (hstart : ∀ r ∈ rs, i ≤ r.start)
    (htext : ∀ r ∈ rs, 0 < r.width ∧ r.stop ≤ t.length ∧
      r.text = ins r.start ++ t.slice r.start r.stop)
    (hins : ∀ j, i ≤ j → ins j ≠ [] → ∃ r ∈ rs, r.start = j) :
    replaceFrom i (t.drop i) rs = weave ins i (t.drop i) := by
  induction rs generalizing i with
  | nil =>
    refine (weave_eq_self fun j hj _ => ?_).symm
    by_contra hne
    obtain ⟨r, hr, -⟩ := hins j hj hne
    cases hr
  | cons r rs ih =>
    obtain ⟨hbehind, happart⟩ := List.pairwise_cons.1 happart
    obtain ⟨hwidth, hstop, hr⟩ := htext r (.head _)
    have hi := hstart r (.head _)
    unfold Replacement.stop at hbehind hstop hr
    -- nothing is inserted but at the start of a replacement
    have hnone (j : Nat) (hij : i ≤ j) (hne : j ≠ r.start) (hj : j < r.start + r.width) :
        ins j = [] := by
      by_contra hins'
      obtain ⟨r', hr', rfl⟩ := hins j hij hins'
      rcases List.mem_cons.1 hr' with rfl | hr'
      · exact hne rfl
      · have := hbehind r' hr'
        omega
    have hrest := ih (i := r.stop) happart hbehind (fun r' hr' => htext r' (.tail _ hr'))
      fun j hj hne => by
        obtain ⟨r', hr', rfl⟩ := hins j (by unfold Replacement.stop at hj; omega) hne
        rcases List.mem_cons.1 hr' with rfl | hr'
        · unfold Replacement.stop at hj
          omega
        · exact ⟨r', hr', rfl⟩
    have hle : r.start ≤ r.start + r.width := Nat.le_add_right _ _
    have hlength : (t.slice r.start (r.start + r.width)).length = r.width := by
      rw [length_slice_of_le hstop, Nat.add_sub_cancel_left]
    have hfirst : weave ins i (t.slice i r.start) = t.slice i r.start :=
      weave_eq_self fun j h1 h2 => by
        rw [length_slice_of_le (Nat.le_trans hle hstop)] at h2
        exact hnone j h1 (by omega) (by omega)
    have hsecond : weave ins r.start (t.slice r.start (r.start + r.width)) =
        ins r.start ++ t.slice r.start (r.start + r.width) :=
      weave_eq_append (List.ne_nil_of_length_pos (by omega))
        fun j h1 h2 => hnone j (by omega) (by omega) (by omega)
    rw [replaceFrom_cons hi, hrest, hr, weave_drop hi (Nat.le_trans hle hstop),
      weave_drop hle hstop, hfirst, hsecond]
    simp only [Replacement.stop, List.append_assoc]

/-- Replacements that keep what they replace at their end put something in front of it. -/
theorem replaceAll_eq_weave {ins : Nat → Text} {t : Text} {rs : List Replacement}
    (happart : Replacement.Apart rs)
    (htext : ∀ r ∈ rs, 0 < r.width ∧ r.stop ≤ t.length ∧
      r.text = ins r.start ++ t.slice r.start r.stop)
    (hins : ∀ j, ins j ≠ [] → ∃ r ∈ rs, r.start = j) :
    t.replaceAll rs = weave ins 0 t := by
  have := replaceFrom_eq_weave (i := 0) happart (fun _ _ => Nat.zero_le _) htext
    fun j _ => hins j
  rwa [List.drop_zero] at this

end Text

end PageLang
