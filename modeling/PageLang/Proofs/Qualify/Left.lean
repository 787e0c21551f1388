import PageLang.Proofs.Qualify.Apart
import PageLang.Proofs.Qualify.Woven

/-!
# The references that are left

A qualified body has no new references. A qualifier is not one, where no name looked for is that of
the receiver or of the global object; a reference that has been qualified is a property, and so none
any more; and all other references stand where they stood, moved by what is inserted in front of
them. Only a quoted reference directly in front of one that has been qualified is lost.

* `Qualified.stands_moved_iff`: a reference and the same one in the qualified body.
* `Qualified.exists_of_stands`: where references of a qualified body come from.
* `Qualified.mem_references_iff`: the references of a qualified body.
-/

namespace PageLang.Qualify

open MaskedText

/-- A reference at its place in a text with insertions. -/
def Reference.moved (ins : Nat → Text) (r : Reference) : Reference :=
  { r with offset := shift ins r.offset }

theorem slice_weave {t : Text} {ins : Nat → Text} {i w : Nat} (hle : i + w ≤ t.length)
    (h : ∀ j, i ≤ j → j < i + w → ins j = []) :
    Text.slice (weave ins 0 t) (shift ins i) (shift ins i + w) = t.slice i (i + w) := by
  have hlength : (t.slice i (i + w)).length = w := by
    rw [Text.length_slice_of_le hle, Nat.add_sub_cancel_left]
  have hcopied : weave ins i (t.slice i (i + w)) = t.slice i (i + w) :=
    weave_eq_self fun j h1 h2 => h j h1 (by omega)
  rw [Text.slice, drop_weave ins (by omega), Nat.add_sub_cancel_left,
    Text.weave_drop (Nat.le_add_right i w) hle, hcopied]
  exact List.take_left' hlength

namespace Qualified

variable {t : Text} {ins : Nat → Text} (h : Qualified t ins)
include h

/-- What is inserted stands in front of live bytes. -/
theorem isMasked_of_ins {i : Nat} (hi : ins i ≠ []) :
    (MaskedText.ofText .code t).isMasked i = false := by
  have hlt := (h.qualifier i hi).1
  have := h.insertable.bits i _ (List.getElem?_eq_getElem hlt) (by rwa [Nat.zero_add])
  simp [isMasked, ofText, this]

/-- Nothing is inserted inside a reference. -/
theorem ins_inside {r : Reference} (hr : r.Stands (.ofText .code t))
    (hname : r.name.isIdentifier = true) {j : Nat} (hj : r.offset < j)
    (hlt : j < r.offset + r.width) : ins j = [] := by
  by_contra hins
  rcases hr.inside hname hj hlt (h.isMasked_of_ins hins) with ⟨c, hc, hword⟩ | ⟨c, hc, hword, hne⟩
  · obtain ⟨k, rfl⟩ : ∃ k, j = k + 1 := ⟨j - 1, by omega⟩
    have := not_word_of_joinsBefore (h.before _ hins) c (by rw [byte?_ofText]; exact hc)
    rw [hword] at this
    cases this
  · exact hins (h.ins_eq_nil hc hword hne)

/-- A range in which nothing is inserted is a reference where it is one in the body, if nothing is
inserted behind it. -/
theorem stands_moved_iff {r : Reference} (hle : r.offset + r.width ≤ t.length)
    (hnone : ∀ j, r.offset ≤ j → j < r.offset + r.width → ins j = []) :
    (r.moved ins).Stands (.ofText .code (weave ins 0 t)) ↔
      r.Stands (.ofText .code t) ∧ ins (r.offset + r.width) = [] := by
  have hstop : shift ins r.offset + r.width = shift ins (r.offset + r.width) :=
    (shift_add ins hnone).symm
  have hbefore := h.joinsBefore_shift (i := r.offset) (by omega)
  have hafter (hins : ins (r.offset + r.width) = []) :=
    h.joinsAfter_shift (i := r.offset) (by omega) hle hins
  have hslice : (MaskedText.ofText .code (weave ins 0 t)).slice (shift ins r.offset)
      (shift ins r.offset + r.width) =
        (MaskedText.ofText .code t).slice r.offset (r.offset + r.width) := by
    rw [slice_ofText, slice_ofText, slice_weave hle hnone]
  have hlive (hpos : 0 < r.width) :
      (MaskedText.ofText .code (weave ins 0 t)).isLive (shift ins r.offset) =
        (MaskedText.ofText .code t).isLive r.offset := by
    have hlt : r.offset < t.length := by omega
    have hmask := h.isMasked_copied hlt
    rw [hnone r.offset (Nat.le_refl _) (by omega), List.length_nil, Nat.add_zero] at hmask
    rw [isLive, isLive, hmask, size_weave, size_ofText, decide_eq_true hlt,
      decide_eq_true (shift_strictMono ins hlt)]
  constructor
  · intro h'
    have hins : ins (r.offset + r.width) = [] := by
      by_contra hins
      have := h'.after
      rw [show (r.moved ins).offset + (r.moved ins).width = shift ins (r.offset + r.width) from hstop,
        show (r.moved ins).offset = shift ins r.offset from rfl, h.joinsAfter_inserted hins] at this
      cases this
    refine ⟨⟨?_, ?_, h'.pos, by rwa [size_ofText], ?_, ?_⟩, hins⟩
    · rw [← hlive h'.pos]
      exact h'.live
    · rw [← hslice]
      exact h'.spelled
    · rw [← hbefore]
      exact h'.before
    · rw [← hafter hins, ← hstop]
      exact h'.after
  · rintro ⟨hr, hins⟩
    refine ⟨?_, ?_, hr.pos, ?_, ?_, ?_⟩
    · exact (hlive hr.pos).trans hr.live
    · exact (congrArg (fun u => (u, r.form)) hslice ▸ hr.spelled :
        ((MaskedText.ofText .code (weave ins 0 t)).slice (shift ins r.offset)
          (shift ins r.offset + r.width), r.form) ∈ spellings r.name)
    · rw [size_weave]
      exact hstop ▸ (shift_strictMono ins).monotone hle
    · exact hbefore.trans hr.before
    · exact (congrArg _ hstop).trans ((hafter hins).trans hr.after)

/-- A reference does not stand behind a qualifier, and in it only at its start. -/
theorem eq_shift_of_stands {r : Reference} (hr : r.Stands (.ofText .code (weave ins 0 t))) :
    ∃ i < t.length, r.offset = shift ins i := by
  have hlt : r.offset < (weave ins 0 t).length := by
    have := hr.le
    have := hr.pos
    rw [size_ofText] at *
    omega
  have hjoined {i k : Nat} (hi : i < t.length) (hk : k < (ins i).length)
      (heq : r.offset = shift ins i + (k + 1)) : False := by
    have := hr.before
    rw [heq, h.joinsBefore_inserted hi hk] at this
    cases this
  obtain ⟨i, hi, hoffset | ⟨k, hk, hoffset⟩⟩ := exists_of_lt_length_weave hlt
  · refine ⟨i, hi, ?_⟩
    rcases hlength : (ins i).length with _ | k
    · rw [hoffset, hlength, Nat.add_zero]
    · exact (hjoined (k := k) hi (by omega) (by rw [hoffset, hlength])).elim
  · refine ⟨i, hi, ?_⟩
    cases k with
    | zero => exact hoffset
    | succ k => exact (hjoined hi (by omega) hoffset).elim

/-- The word at the start of a qualifier is the receiver or the global object. -/
theorem takeWhile_ins {i : Nat} (hins : ins i ≠ []) :
    (weave ins i (t.drop i)).takeWhile Byte.isWord = receiver ∨
      (weave ins i (t.drop i)).takeWhile Byte.isWord = globalNamespace := by
  obtain ⟨hlt, context, isProtected, form, hq⟩ := h.qualifier i hins
  have hword : (ins i).takeWhile Byte.isWord = receiver ∨
      (ins i).takeWhile Byte.isWord = globalNamespace := by
    rw [hq]
    cases context <;> cases isProtected <;> cases form <;> decide
  have hb : t[i]? = some t[i] := List.getElem?_eq_getElem hlt
  rw [List.drop_eq_getElem_cons hlt, weave, List.takeWhile_append]
  split
  · next hall =>
    -- a qualifier that is one word stands in front of a bracket
    have hself := (List.takeWhile_prefix Byte.isWord (l := ins i)).eq_of_length hall
    have hnot : Byte.isWord t[i] = false := by
      refine Bool.eq_false_iff.2 fun hb' => ?_
      obtain ⟨q, c, hc⟩ : ∃ q c, ins i = q ++ [c] := by
        rcases List.eq_nil_or_concat (ins i) with hnil | ⟨q, c, hq⟩
        · exact absurd hnil hins
        · exact ⟨q, c, by simpa using hq⟩
      have hlast := (h.insertable.apart i _ hb (by rwa [Nat.zero_add]) hb').1 c
        (by rw [Nat.zero_add, hc]; simp)
      have hmem : c ∈ (ins i).takeWhile Byte.isWord := by rw [hself, hc]; simp
      rw [List.all_eq_true.1 List.all_takeWhile c hmem] at hlast
      cases hlast
    rw [List.takeWhile_cons_of_neg (by simp [hnot]), List.append_nil]
    rwa [hself] at hword
  · exact hword

section
variable {r : Reference} (hr : r.Stands (.ofText .code (weave ins 0 t)))
  (hname : r.name.isIdentifier = true) {i : Nat} (hoffset : r.offset = shift ins i)
include hr hname hoffset

/-- A qualifier is no reference. -/
theorem ins_eq_nil_of_stands (hi : i < t.length) (hreceiver : r.name ≠ receiver)
    (hglobal : r.name ≠ globalNamespace) : ins i = [] := by
  by_contra hins
  obtain ⟨c, hc, hword⟩ := h.head_ins hins
  obtain ⟨b, hb, hfirst⟩ := hr.first hname
  have hbyte := byte?_inserted (t := t) hi (List.length_pos_iff.2 hins)
  rw [Nat.add_zero, ← hoffset, hb, hc] at hbyte
  obtain rfl := Option.some.inj hbyte
  rcases hfirst with ⟨hform, -⟩ | ⟨-, rfl⟩
  · have hwhole := (hr.takeWhile hname).1
    rw [show r.nameStart = shift ins i by rw [Reference.nameStart, hform, ← hoffset],
      drop_weave ins (Nat.le_of_lt hi)] at hwhole
    rcases h.takeWhile_ins hins with heq | heq
    · exact hreceiver (hwhole.symm.trans heq)
    · exact hglobal (hwhole.symm.trans heq)
  · simp +decide at hword

/-- Nothing is inserted inside a reference of the qualified body. -/
theorem ins_inside_of_stands (hins : ins i = []) {w : Nat} (hw : w ≤ r.width) :
    ∀ j, i ≤ j → j < i + w → ins j = [] := by
  induction w with
  | zero => exact fun j h1 h2 => absurd h1 (by omega)
  | succ w ih =>
    have hnone := ih (by omega)
    intro j h1 h2
    rcases Nat.lt_or_ge j (i + w) with hlt | hge
    · exact hnone j h1 hlt
    obtain rfl : j = i + w := by omega
    rcases w with _ | w
    · exact hins
    -- an insertion inside the reference would be live in it
    by_contra hj
    obtain ⟨hjlt, -⟩ := h.qualifier _ hj
    have hpos := List.length_pos_iff.2 hj
    have hlive := h.isMasked_inserted hjlt hpos
    have hbyte := byte?_inserted (t := t) hjlt hpos
    rw [Nat.add_zero, shift_add ins hnone, ← hoffset] at hlive hbyte
    obtain ⟨c, hc, hword⟩ := h.head_ins hj
    rcases hr.inside hname (by omega) (by omega) hlive with ⟨d, hd, hdword⟩ | ⟨d, hd, hdword, -⟩
    · have hcopied := byte?_copied (t := t) ins (show i + w < t.length by omega)
      rw [hnone (i + w) (by omega) (by omega), List.length_nil, Nat.add_zero,
        shift_add ins fun j' h1' h2' => hnone j' h1' (by omega), byte?_ofText, ← hoffset] at hcopied
      rw [show r.offset + (w + 1) - 1 = r.offset + w by omega, hcopied] at hd
      have := not_word_of_joinsBefore (h.before _ hj) d (by rw [byte?_ofText]; exact hd)
      rw [hdword] at this
      cases this
    · rw [byte?_ofText, hd, hc] at hbyte
      obtain rfl := Option.some.inj hbyte
      rw [hword] at hdword
      cases hdword

end

/-- A reference of a qualified body is one of the body that has not been qualified. -/
theorem exists_of_stands {r : Reference} (hr : r.Stands (.ofText .code (weave ins 0 t)))
    (hname : r.name.isIdentifier = true) (hreceiver : r.name ≠ receiver)
    (hglobal : r.name ≠ globalNamespace) :
    ∃ r₀ : Reference, r = r₀.moved ins ∧ r₀.Stands (.ofText .code t) ∧
      ins r₀.offset = [] ∧ ins (r₀.offset + r₀.width) = [] := by
  obtain ⟨i, hi, hoffset⟩ := h.eq_shift_of_stands hr
  have hins := h.ins_eq_nil_of_stands hr hname hoffset hi hreceiver hglobal
  have hnone := h.ins_inside_of_stands hr hname hoffset hins (Nat.le_refl _)
  have hle : i + r.width ≤ t.length := by
    have := hr.le
    rw [size_weave, hoffset, ← shift_add ins hnone] at this
    exact (shift_strictMono ins).le_iff_le.1 this
  have hmoved : r = Reference.moved ins { r with offset := i } := by
    rw [Reference.moved, ← hoffset]
  rw [hmoved] at hr
  obtain ⟨hstands, hstop⟩ := (h.stands_moved_iff (r := { r with offset := i }) hle hnone).1 hr
  exact ⟨_, hmoved, hstands, hins, hstop⟩

/-- The references of a qualified body are those of the body that have not been qualified and do not
stand directly in front of one that has been. -/
theorem mem_references_iff {names : List Text} (hnames : ∀ n ∈ names,
      n.isIdentifier = true ∧ n ≠ receiver ∧ n ≠ globalNamespace) {r : Reference} :
    r ∈ names.flatMap (MaskedText.ofText .code (weave ins 0 t)).references ↔
      ∃ r₀ ∈ names.flatMap (MaskedText.ofText .code t).references,
        ins r₀.offset = [] ∧ ins (r₀.offset + r₀.width) = [] ∧ r = r₀.moved ins := by
  simp only [List.mem_flatMap]
  constructor
  · rintro ⟨n, hn, hr⟩
    obtain ⟨hname, hreceiver, hglobal⟩ := hnames n hn
    obtain ⟨hstands, rfl⟩ := stands_of_mem_references hr
    obtain ⟨r₀, rfl, hr₀, hoffset, hstop⟩ := h.exists_of_stands hstands hname hreceiver hglobal
    exact ⟨r₀, ⟨_, hn, (Qualify.mem_references_iff hname).2 ⟨hr₀, rfl⟩⟩, hoffset, hstop, rfl⟩
  · rintro ⟨r₀, ⟨n, hn, hr₀⟩, hoffset, hstop, rfl⟩
    obtain ⟨hname, -⟩ := hnames n hn
    obtain ⟨hstands, rfl⟩ := stands_of_mem_references hr₀
    have hle := hstands.le
    rw [size_ofText] at hle
    have hnone (j : Nat) (h1 : r₀.offset ≤ j) (h2 : j < r₀.offset + r₀.width) : ins j = [] := by
      rcases Nat.eq_or_lt_of_le h1 with rfl | hlt
      · exact hoffset
      · exact h.ins_inside hstands hname hlt h2
    exact ⟨_, hn, (Qualify.mem_references_iff (r := r₀.moved ins) hname).2
      ⟨(h.stands_moved_iff hle hnone).2 ⟨hstands, hstop⟩, rfl⟩⟩

end Qualified

end PageLang.Qualify
