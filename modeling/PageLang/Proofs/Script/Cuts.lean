import PageLang.Proofs.Script.Binding

/-!
# Where a text is cut

A list is cut at the separators outside brackets, byte by byte. What a text does to the pieces
depends on the brackets open in front of it, and what follows depends on the brackets it leaves open
(`Text.balance`).

* `Text.splitTopLevel_cons`, `Text.splitTopLevel_separator`: one byte.
* `Text.split_append`: a text in one piece, and what follows.
* `Text.firstPiece_append_of_ne`: a text that is cut holds the first piece.
-/

namespace PageLang.Text

/-- How many more brackets of any kind a text opens than it closes. -/
def balance (t : Text) : Int := t.countP Byte.isOpening - t.countP Byte.isClosing

/-- The text in front of the first cut. -/
def firstPiece (separator : UInt8) (depth : Int) (t : Text) : Text :=
  (splitTopLevel separator depth t).headD []

theorem balance_nil : balance [] = 0 := rfl

theorem balance_append (t u : Text) : (t ++ u).balance = t.balance + u.balance := by
  simp only [balance, List.countP_append]
  omega

theorem balance_cons (b : UInt8) (t : Text) : balance (b :: t) = balance [b] + balance t :=
  balance_append [b] t

theorem balance_of_forall {t : Text}
    (h : ∀ b ∈ t, Byte.isOpening b = false ∧ Byte.isClosing b = false) : balance t = 0 := by
  rw [balance, List.countP_eq_zero.2 fun b hb => by simp [h b hb],
    List.countP_eq_zero.2 fun b hb => by simp [h b hb]]
  rfl

theorem balance_of_isSpace {t : Text} (h : ∀ b ∈ t, Byte.isSpace b = true) : balance t = 0 :=
  balance_of_forall fun b hb => by
    rcases eq_of_isSpace (h b hb) with rfl | rfl | rfl | rfl | rfl <;> decide

theorem balance_of_isWord {t : Text} (h : ∀ b ∈ t, Byte.isWord b = true) : balance t = 0 :=
  balance_of_forall fun b hb => by
    obtain ⟨hopening, hclosing, -⟩ := Byte.not_bracket_of_isWord b (h b hb)
    exact ⟨hopening, hclosing⟩

/-! ## One byte -/

/-- Whether a text is cut at its first byte. An equals sign in front of `>` or `=` cuts nothing. -/
def CutsAt (separator : UInt8) (depth : Int) (b : UInt8) (rest : Text) : Prop :=
  b = separator ∧ depth = 0 ∧ ¬ (separator = Byte.equals ∧
    (rest.head? = some Byte.greater ∨ rest.head? = some Byte.equals))

variable {separator b : UInt8} {depth : Int} {t u : Text}

/-- A byte that does not cut is put in front of the first piece. -/
theorem splitTopLevel_cons (hb : ¬ CutsAt separator depth b t) :
    splitTopLevel separator depth (b :: t) =
      consPiece b (splitTopLevel separator (depth + balance [b]) t) := by
  rw [splitTopLevel]
  by_cases hopening : Byte.isOpening b = true
  · have hclosing : Byte.isClosing b = false := by
      simp only [Byte.isOpening, Bool.or_eq_true, beq_iff_eq] at hopening
      rcases hopening with (rfl | rfl) | rfl <;> rfl
    simp [hopening, hclosing, balance]
  by_cases hclosing : Byte.isClosing b = true
  · simp [hopening, hclosing, balance, Int.sub_eq_add_neg]
  have hbalance : depth + balance [b] = depth := by simp [balance, hopening, hclosing]
  rw [if_neg hopening, if_neg hclosing, hbalance]
  split
  · rfl
  · next hequals =>
    refine if_neg fun hcut => hb ⟨hcut.1, hcut.2, fun hskip => hequals ⟨hskip.1, ?_, hskip.2⟩⟩
    rw [hcut.1, hskip.1]

/-- A byte that cuts ends the first piece. -/
theorem splitTopLevel_separator (hseparator : Binding.Separates separator)
    (hb : CutsAt separator depth b t) :
    splitTopLevel separator depth (b :: t) = [] :: splitTopLevel separator 0 t := by
  obtain ⟨rfl, rfl, hskip⟩ := hb
  rw [splitTopLevel, if_neg (by simp [hseparator.plain.1]), if_neg (by simp [hseparator.plain.2.1]),
    if_neg fun h => hskip ⟨h.1, h.2.2⟩, if_pos ⟨rfl, rfl⟩]

theorem balance_separator (h : Binding.Separates separator) : balance [separator] = 0 :=
  balance_of_forall fun b hb => by
    obtain rfl := List.mem_singleton.1 hb
    exact ⟨h.plain.1, h.plain.2.1⟩

/-! ## Texts without cuts -/

theorem firstPiece_eq {p : Text} {ps : List Text} (h : splitTopLevel separator depth t = p :: ps) :
    firstPiece separator depth t = p := by
  rw [firstPiece, h]
  rfl

theorem firstPiece_prefix (separator : UInt8) (depth : Int) (t : Text) :
    firstPiece separator depth t <+: t := by
  induction t generalizing depth with
  | nil => exact List.prefix_refl _
  | cons b t ih =>
    have hcons (depth' : Int) : (consPiece b (splitTopLevel separator depth' t)).headD [] <+:
        b :: t := by
      obtain ⟨p, ps, heq⟩ := List.exists_cons_of_ne_nil (splitTopLevel_ne_nil separator depth' t)
      have := ih depth'
      rw [firstPiece_eq heq] at this
      rw [heq]
      exact List.cons_prefix_cons.2 ⟨rfl, this⟩
    rw [firstPiece, splitTopLevel]
    split
    · exact hcons _
    split
    · exact hcons _
    split
    · exact hcons _
    split
    · exact List.nil_prefix
    · exact hcons _

theorem consPiece_eq_singleton {pieces : List Text} :
    consPiece b pieces = [b :: t] ↔ pieces = [] ∧ t = [] ∨ pieces = [t] := by
  cases pieces <;> simp [consPiece]

/-- What follows a text cuts it nowhere, -/
theorem CutsAt.of_append (h : CutsAt separator depth b (t ++ u)) : CutsAt separator depth b t := by
  refine ⟨h.1, h.2.1, fun hskip => h.2.2 ⟨hskip.1, ?_⟩⟩
  cases t with
  | nil => exact absurd hskip.2 (by simp)
  | cons c t => exact hskip.2

/-- and takes no cut away, unless it makes another mark of an equals sign. -/
theorem CutsAt.append (h : CutsAt separator depth b t)
    (hu : ∀ c ∈ u.head?, c ≠ Byte.equals ∧ c ≠ Byte.greater) :
    CutsAt separator depth b (t ++ u) := by
  refine ⟨h.1, h.2.1, fun hskip => h.2.2 ⟨hskip.1, ?_⟩⟩
  cases t with
  | nil => exact hskip.2.elim (fun hc => absurd rfl (hu _ hc).2) fun hc => absurd rfl (hu _ hc).1
  | cons c t => exact hskip.2

section
variable (hseparator : Binding.Separates separator)
include hseparator

/-- A text stays in one piece if its first byte does not cut it, and the rest stays in one piece. -/
theorem split_cons_iff : splitTopLevel separator depth (b :: t) = [b :: t] ↔
    ¬ CutsAt separator depth b t ∧ splitTopLevel separator (depth + balance [b]) t = [t] := by
  by_cases hb : CutsAt separator depth b t
  · rw [splitTopLevel_separator hseparator hb]
    simp [hb]
  · rw [splitTopLevel_cons hb, consPiece_eq_singleton]
    simp [hb, splitTopLevel_ne_nil]

theorem split_of_forall_ne (h : ∀ b ∈ t, b ≠ separator) :
    splitTopLevel separator depth t = [t] := by
  induction t generalizing depth with
  | nil => rfl
  | cons b t ih =>
    rw [List.forall_mem_cons] at h
    exact (split_cons_iff hseparator).2 ⟨fun hcut => h.1 hcut.1, ih h.2⟩

/-- A text in one piece is put in front of the first piece of what follows. -/
theorem split_append (h : splitTopLevel separator depth t = [t]) (u : Text) :
    splitTopLevel separator depth (t ++ u) =
      prepend t (splitTopLevel separator (depth + balance t) u) := by
  induction t generalizing depth with
  | nil =>
    rw [balance_nil, Int.add_zero, List.nil_append]
    obtain ⟨p, ps, heq⟩ := List.exists_cons_of_ne_nil (splitTopLevel_ne_nil separator depth u)
    rw [heq]
    rfl
  | cons b t ih =>
    obtain ⟨hb, ht⟩ := (split_cons_iff hseparator).1 h
    rw [List.cons_append, splitTopLevel_cons fun hcut => hb hcut.of_append, ih ht, consPiece_prepend,
      balance_cons b t, Int.add_assoc]

theorem split_append_eq (ht : splitTopLevel separator depth t = [t])
    (hu : splitTopLevel separator (depth + balance t) u = [u]) :
    splitTopLevel separator depth (t ++ u) = [t ++ u] := by
  rw [split_append hseparator ht, hu]
  rfl

/-- What stands behind a text in one piece is in one piece if both together are. -/
theorem split_of_append_right (ht : splitTopLevel separator depth t = [t])
    (h : splitTopLevel separator depth (t ++ u) = [t ++ u]) :
    splitTopLevel separator (depth + balance t) u = [u] := by
  obtain ⟨p, ps, heq⟩ :=
    List.exists_cons_of_ne_nil (splitTopLevel_ne_nil separator (depth + balance t) u)
  rw [split_append hseparator ht, heq, prepend, List.cons.injEq, List.append_cancel_left_eq] at h
  rw [heq, h.1, h.2]

theorem firstPiece_append (h : splitTopLevel separator depth t = [t]) (u : Text) :
    firstPiece separator depth (t ++ u) = t ++ firstPiece separator (depth + balance t) u := by
  obtain ⟨p, ps, heq⟩ :=
    List.exists_cons_of_ne_nil (splitTopLevel_ne_nil separator (depth + balance t) u)
  rw [firstPiece, firstPiece, split_append hseparator h, heq]
  rfl

/-- The first piece of a text that is cut is the same if something follows. -/
theorem firstPiece_append_of_ne (h : splitTopLevel separator depth t ≠ [t])
    (hu : ∀ c ∈ u.head?, c ≠ Byte.equals ∧ c ≠ Byte.greater) :
    firstPiece separator depth (t ++ u) = firstPiece separator depth t := by
  have hcons {b : UInt8} {depth : Int} {t : Text} (hb : ¬ CutsAt separator depth b t) :
      firstPiece separator depth (b :: t) =
        b :: firstPiece separator (depth + balance [b]) t := by
    obtain ⟨p, ps, heq⟩ :=
      List.exists_cons_of_ne_nil (splitTopLevel_ne_nil separator (depth + balance [b]) t)
    rw [firstPiece, firstPiece, splitTopLevel_cons hb, heq]
    rfl
  induction t generalizing depth with
  | nil => exact absurd rfl h
  | cons b t ih =>
    by_cases hb : CutsAt separator depth b t
    · rw [List.cons_append, firstPiece, firstPiece, splitTopLevel_separator hseparator hb,
        splitTopLevel_separator hseparator (hb.append hu)]
      rfl
    · have ht : splitTopLevel separator (depth + balance [b]) t ≠ [t] :=
        fun ht => h ((split_cons_iff hseparator).2 ⟨hb, ht⟩)
      rw [List.cons_append, hcons hb, hcons fun hcut => hb hcut.of_append, ih ht]

/-- A single piece is the whole text. -/
theorem eq_of_split_singleton {p : Text} (h : splitTopLevel separator depth t = [p]) : p = t := by
  induction t generalizing depth p with
  | nil => simpa [splitTopLevel] using h.symm
  | cons b t ih =>
    by_cases hb : CutsAt separator depth b t
    · rw [splitTopLevel_separator hseparator hb] at h
      exact absurd (List.cons.inj h).2 (splitTopLevel_ne_nil separator 0 t)
    · rw [splitTopLevel_cons hb] at h
      obtain ⟨q, qs, heq⟩ :=
        List.exists_cons_of_ne_nil (splitTopLevel_ne_nil separator (depth + balance [b]) t)
      rw [heq, consPiece] at h
      obtain ⟨rfl, rfl⟩ := List.cons.inj h
      rw [ih heq]

theorem held_of_split {floor : Int} (h : ∀ depth, floor ≤ depth → splitTopLevel separator depth t = [t])
    (hbalance : balance t = 0) : Held separator floor t := by
  intro depth hdepth more
  rw [split_append hseparator (h depth hdepth), hbalance, Int.add_zero]

/-- A text without brackets is cut only at its separators. -/
theorem held_of_unbracketed {floor : Int} (ht : ∀ b ∈ t, Byte.isOpening b = false ∧
    Byte.isClosing b = false ∧ (b = separator → 0 < floor)) : Held separator floor t := by
  refine held_of_split hseparator (fun depth hdepth => ?_) (balance_of_forall fun b hb =>
    ⟨(ht b hb).1, (ht b hb).2.1⟩)
  induction t with
  | nil => rfl
  | cons b t ih =>
    obtain ⟨⟨hopening, hclosing, hfloor⟩, ht⟩ := List.forall_mem_cons.1 ht
    refine (split_cons_iff hseparator).2 ⟨fun hcut => ?_, ?_⟩
    · have hdeep := hfloor hcut.1
      have hzero := hcut.2.1
      omega
    · rw [show balance [b] = 0 by simp [balance, hopening, hclosing], Int.add_zero]
      exact ih ht

/-- A text that is cut nowhere closes its brackets, or else it moves the cuts of what follows. -/
theorem Held.balance_eq_zero {floor : Int} (h : Held separator floor t) : balance t = 0 := by
  obtain ⟨n, hn⟩ : ∃ n : Nat, floor ≤ n := ⟨floor.toNat, by omega⟩
  have hclosers (depth : Int) :
      splitTopLevel separator depth (List.replicate n Byte.rbracket ++ [separator]) =
        prepend (List.replicate n Byte.rbracket) (splitTopLevel separator (depth - n) [separator]) := by
    have hne : ∀ b ∈ List.replicate n Byte.rbracket, b ≠ separator := by
      rintro b hb rfl
      have := hseparator.plain.2.1
      rw [List.eq_of_mem_replicate hb] at this
      cases this
    have hbalance : balance (List.replicate n Byte.rbracket) = -n := by
      have hrbracket : Byte.isOpening Byte.rbracket = false ∧ Byte.isClosing Byte.rbracket = true := by
        decide
      rw [balance, List.countP_replicate, List.countP_replicate, hrbracket.1, hrbracket.2]
      simp
    rw [split_append hseparator (split_of_forall_ne hseparator hne), hbalance, Int.sub_eq_add_neg]
  by_contra hbalance
  have hcut : splitTopLevel separator 0 [separator] = [[], []] :=
    splitTopLevel_separator hseparator ⟨rfl, rfl, fun hskip => by simp at hskip⟩
  have hwhole : splitTopLevel separator (balance t) [separator] = [[separator]] :=
    (split_cons_iff hseparator).2 ⟨fun hcut => hbalance hcut.2.1, rfl⟩
  have hheld := h n hn (List.replicate n Byte.rbracket ++ [separator])
  rw [split_append hseparator (h.whole hn), hclosers, hclosers, Int.sub_self, hcut,
    show (n : Int) + balance t - n = balance t by omega, hwhole] at hheld
  simp [prepend] at hheld

variable (hequals : separator ≠ Byte.equals)
include hequals

/-- A front of a text in one piece is in one piece. -/
theorem split_of_append (h : splitTopLevel separator depth (t ++ u) = [t ++ u]) :
    splitTopLevel separator depth t = [t] := by
  induction t generalizing depth with
  | nil => rfl
  | cons b t ih =>
    obtain ⟨hb, ht⟩ := (split_cons_iff hseparator).1 h
    refine (split_cons_iff hseparator).2 ⟨fun hcut => hb ⟨hcut.1, hcut.2.1, ?_⟩, ih ht⟩
    exact fun hskip => hequals hskip.1

/-- A text is cut at a separator behind a part that closes all brackets. -/
theorem split_append_separator (hzero : depth + balance t = 0) (u : Text) :
    splitTopLevel separator depth (t ++ separator :: u) =
      splitTopLevel separator depth t ++ splitTopLevel separator 0 u := by
  have hcut (rest : Text) : CutsAt separator 0 separator rest :=
    ⟨rfl, rfl, fun hskip => hequals hskip.1⟩
  induction t generalizing depth with
  | nil =>
    obtain rfl : depth = 0 := by rwa [balance_nil, Int.add_zero] at hzero
    rw [List.nil_append, splitTopLevel_separator hseparator (hcut u)]
    rfl
  | cons b t ih =>
    rw [balance_cons] at hzero
    by_cases hb : CutsAt separator depth b t
    · have hbehind : CutsAt separator depth b (t ++ separator :: u) :=
        ⟨hb.1, hb.2.1, fun hskip => hequals hskip.1⟩
      obtain ⟨rfl, rfl, -⟩ := hb
      rw [List.cons_append, splitTopLevel_separator hseparator hbehind,
        splitTopLevel_separator hseparator (hcut t), ih (by
          rw [balance_separator hseparator] at hzero
          omega)]
      rfl
    · obtain ⟨p, ps, heq⟩ :=
        List.exists_cons_of_ne_nil (splitTopLevel_ne_nil separator (depth + balance [b]) t)
      rw [List.cons_append, splitTopLevel_cons fun hcut => hb hcut.of_append, splitTopLevel_cons hb,
        ih (by omega), heq]
      rfl

end

/-- Blanks behind a text stand behind its last piece. -/
theorem split_append_blank (hseparator : Binding.Separates separator) {gap : Text}
    (hgap : ∀ c ∈ gap, Byte.isSpace c = true) (depth : Int) (t : Text) : ∃ front p,
      splitTopLevel separator depth t = front ++ [p] ∧
        splitTopLevel separator depth (t ++ gap) = front ++ [p ++ gap] := by
  have hhead : ∀ c ∈ gap.head?, c ≠ Byte.equals ∧ c ≠ Byte.greater := fun c hc => by
    rcases eq_of_isSpace (hgap c (List.mem_of_mem_head? hc)) with rfl | rfl | rfl | rfl | rfl <;>
      decide
  induction t generalizing depth with
  | nil =>
    refine ⟨[], [], rfl, ?_⟩
    have hheld : Held separator depth gap :=
      Pattern.held_of_isSpace hgap hseparator.plain.2.2.2.1
    exact hheld.whole (Int.le_refl depth)
  | cons b t ih =>
    by_cases hb : CutsAt separator depth b t
    · obtain ⟨front, p, ht, htgap⟩ := ih 0
      refine ⟨[] :: front, p, ?_, ?_⟩
      · rw [splitTopLevel_separator hseparator hb, ht, List.cons_append]
      · rw [List.cons_append, splitTopLevel_separator hseparator (hb.append hhead), htgap,
          List.cons_append]
    · obtain ⟨front, p, ht, htgap⟩ := ih (depth + balance [b])
      rw [List.cons_append, splitTopLevel_cons hb, splitTopLevel_cons fun hcut => hb hcut.of_append,
        ht, htgap]
      cases front with
      | nil => exact ⟨[], b :: p, rfl, rfl⟩
      | cons q front => exact ⟨(b :: q) :: front, p, rfl, rfl⟩

end PageLang.Text

namespace PageLang.Binding

open Script

/-- A mark with blanks around it is cut only if it separates. -/
theorem Separates.held_around {separator b : UInt8} (h : Separates separator) {floor : Int}
    (hb : Byte.isOpening b = false ∧ Byte.isClosing b = false) (hfloor : b = separator → 0 < floor)
    (sp : Spacing) : Text.Held separator floor (sp.around b) :=
  ((h.held_blank floor sp.before).append (Text.held_of_unbracketed h fun c hc => by
    obtain rfl := List.mem_singleton.1 hc
    exact ⟨hb.1, hb.2, hfloor⟩)).append (h.held_blank floor sp.after)

end PageLang.Binding
