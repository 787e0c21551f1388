import PageLang.Script.Qualify

/-!
# Replacing parts of a text

Replacements in increasing order are made from the front. Each of them leaves what stands before it
and behind it as it is, so the text between two replacements is copied, and it makes no difference
if they are made one by one from the back.

* `Text.replaceFrom_skip`: what stands in front of the first replacement.
* `Text.replaceAll_eq_foldr`: replacements made from the back.
-/

namespace PageLang

/-- The first offset behind a replaced part. -/
def Replacement.stop (r : Replacement) : Nat := r.start + r.width

/-- One replacement made in a text. -/
def Replacement.apply (r : Replacement) (t : Text) : Text :=
  t.take r.start ++ r.text ++ t.drop r.stop

/-- Replacements in increasing order, each behind the one before. -/
def Replacement.Apart (rs : List Replacement) : Prop := rs.Pairwise (fun a b => a.stop ≤ b.start)

namespace Text

/-! ## Parts of a text -/

section
variable {t : Text} {i j k : Nat}

theorem slice_append_drop (hij : i ≤ j) : t.slice i j ++ t.drop j = t.drop i := by
  have h := List.take_append_drop (j - i) (t.drop i)
  rwa [List.drop_drop, show i + (j - i) = j by omega] at h

theorem slice_append_slice (hij : i ≤ j) (hjk : j ≤ k) : t.slice i j ++ t.slice j k = t.slice i k := by
  rw [slice, slice, slice, show k - i = (j - i) + (k - j) by omega, List.take_add, List.drop_drop,
    show i + (j - i) = j by omega]

theorem length_slice_of_le (hj : j ≤ t.length) : (t.slice i j).length = j - i := by
  rw [slice, List.length_take, List.length_drop]
  omega

end

/-! ## Replacements from an offset on -/

section
variable {t : Text} {rs : List Replacement} {i : Nat}

theorem replaceFrom_cons {r : Replacement} (hi : i ≤ r.start) :
    replaceFrom i (t.drop i) (r :: rs) =
      t.slice i r.start ++ r.text ++ replaceFrom r.stop (t.drop r.stop) rs := by
  have hstop : i + (r.start + r.width - i) = r.start + r.width := by omega
  rw [replaceFrom, List.drop_drop, hstop]
  rfl

/-- What stands in front of the first replacement is copied. -/
theorem replaceFrom_skip {j : Nat} (hij : i ≤ j) (h : ∀ r ∈ rs, j ≤ r.start) :
    replaceFrom i (t.drop i) rs = t.slice i j ++ replaceFrom j (t.drop j) rs := by
  cases rs with
  | nil => exact (slice_append_drop hij).symm
  | cons r rs =>
    have hr := h r (.head _)
    rw [replaceFrom_cons (Nat.le_trans hij hr), replaceFrom_cons hr, ← slice_append_slice hij hr]
    simp only [List.append_assoc]

end

/-! ## Replacements from the back -/

/-- A replacement behind a part of a text leaves the part as it is. -/
theorem take_apply {r : Replacement} {i : Nat} {t : Text} (hi : i ≤ r.start) (ht : i ≤ t.length) :
    (r.apply t).take i = t.take i := by
  have hle : i ≤ (t.take r.start).length := by
    rw [List.length_take]
    omega
  rw [Replacement.apply, List.append_assoc, List.take_append_of_le_length hle, List.take_take,
    Nat.min_eq_left hi]

theorem drop_apply {r : Replacement} {i : Nat} {t : Text} (hi : i ≤ r.start) (ht : i ≤ t.length) :
    (r.apply t).drop i = (t.drop i).take (r.start - i) ++ r.text ++ t.drop r.stop := by
  have hle : i ≤ (t.take r.start).length := by
    rw [List.length_take]
    omega
  rw [Replacement.apply, List.append_assoc, List.drop_append_of_le_length hle, List.drop_take,
    List.append_assoc]

/-- Replacements behind a part of a text, made from the back, leave the part as it is. -/
theorem take_foldr_apply {rs : List Replacement} {i : Nat} {t : Text}
    (h : ∀ r ∈ rs, i ≤ r.start) (ht : i ≤ t.length) :
    (rs.foldr Replacement.apply t).take i = t.take i ∧
      i ≤ (rs.foldr Replacement.apply t).length := by
  induction rs with
  | nil => exact ⟨rfl, ht⟩
  | cons r rs ih =>
    obtain ⟨htake, hle⟩ := ih (fun r' hr' => h r' (.tail _ hr'))
    have hr := h r (.head _)
    refine ⟨(take_apply hr hle).trans htake, ?_⟩
    have := congrArg List.length (take_apply (r := r) hr hle)
    simp only [List.length_take] at this
    rw [List.foldr_cons]
    omega

theorem drop_foldr_apply {rs : List Replacement} {i : Nat} {t : Text}
    (happart : Replacement.Apart rs) (hstart : ∀ r ∈ rs, i ≤ r.start)
    (hstop : ∀ r ∈ rs, r.stop ≤ t.length) (ht : i ≤ t.length) :
    (rs.foldr Replacement.apply t).drop i = replaceFrom i (t.drop i) rs := by
  induction rs generalizing i with
  | nil => rfl
  | cons r rs ih =>
    obtain ⟨hr, happart⟩ := List.pairwise_cons.1 happart
    have hi := hstart r (.head _)
    have hle : r.stop ≤ t.length := hstop r (.head _)
    have hwidth : r.start ≤ r.stop := Nat.le_add_right _ _
    have hbehind : ∀ r' ∈ rs, r.start ≤ r'.start := fun r' hr' => Nat.le_trans hwidth (hr r' hr')
    obtain ⟨htake, hlen⟩ := take_foldr_apply (t := t) hbehind (by omega)
    have hinner := ih happart hr (fun r' hr' => hstop r' (.tail _ hr')) hle
    have hcopied : ((rs.foldr Replacement.apply t).drop i).take (r.start - i) =
        t.slice i r.start := by
      rw [slice, ← List.drop_take, htake, List.drop_take]
    rw [List.foldr_cons, drop_apply hi (by omega), hcopied, hinner, replaceFrom_cons hi]

/-- Replacements that lie apart can be made one by one from the back. -/
theorem replaceAll_eq_foldr {rs : List Replacement} {t : Text} (happart : Replacement.Apart rs)
    (hstop : ∀ r ∈ rs, r.stop ≤ t.length) :
    t.replaceAll rs = rs.foldr Replacement.apply t := by
  have := drop_foldr_apply (i := 0) happart (fun _ _ => Nat.zero_le _) hstop (Nat.zero_le _)
  rw [List.drop_zero, List.drop_zero] at this
  exact this.symm

end Text

end PageLang
