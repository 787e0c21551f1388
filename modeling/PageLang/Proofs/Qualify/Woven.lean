import PageLang.Proofs.Qualify.Lexical

/-!
# Qualified bodies seen by a search

A qualified body is the body with qualifiers inserted, so what a search sees in it is what it sees in
the body, moved by what is inserted in front (`shift`). A qualifier can be the start of no word and
no property that was not there: what stands behind it is read as a property of it.

* `Qualified`: what is inserted in a body, and where.
* `Qualified.byte?_copied`, `Qualified.isMasked_copied`: the body in the qualified body.
* `Qualified.joinsBefore_shift`, `Qualified.joinsAfter_shift`: what stands around a range.
-/

namespace PageLang

namespace MaskedText

theorem text_ofText (mode : Mode) (t : Text) : (ofText mode t).text = t := rfl

/-- `n` dots stand in front of an offset. -/
def dotsBefore (s : MaskedText) : (n i : Nat) → Prop
  | 0, _ => True
  | _ + 1, 0 => False
  | n + 1, i + 1 => s.byte? i = some Byte.dot ∧ s.dotsBefore n i

theorem dotsBefore_iff (s : MaskedText) (i : Nat) :
    s.dotsBefore 3 i ↔ 3 ≤ i ∧ s.slice (i - 3) i = Text.ofString "..." := by
  have hdots : Text.ofString "..." = [Byte.dot, Byte.dot, Byte.dot] := by decide
  match i with
  | 0 => simp [dotsBefore]
  | 1 => simp [dotsBefore]
  | 2 => simp [dotsBefore]
  | i + 3 =>
    have hbyte (k : Nat) (hk : k < 3) : (s.slice i (i + 3))[k]? = s.byte? (i + k) :=
      getElem?_slice (by omega)
    simp only [dotsBefore, and_true, hdots, Nat.le_add_left, true_and, Nat.add_sub_cancel]
    constructor
    · rintro ⟨h2, h1, h0⟩
      have hlen := length_slice s i (i + 3)
      have := byte?_eq_some_lt h2
      refine List.ext_getElem? fun k => ?_
      match k with
      | 0 => rw [hbyte 0 (by omega)]; exact h0
      | 1 => rw [hbyte 1 (by omega)]; exact h1
      | 2 => rw [hbyte 2 (by omega)]; exact h2
      | k + 3 =>
        rw [List.getElem?_eq_none (by omega)]
        rfl
    · intro h
      rw [h] at hbyte
      exact ⟨(hbyte 2 (by omega)).symm, (hbyte 1 (by omega)).symm, (hbyte 0 (by omega)).symm⟩

/-- A word joins what stands behind it, and so does a dot that is none of three. -/
theorem joinsBefore_iff {s : MaskedText} {i : Nat} : s.joinsBefore i = true ↔
    i ≠ 0 ∧ ∃ b, s.byte? (i - 1) = some b ∧
      (Byte.isWord b = true ∨ b = Byte.dot ∧ ¬ s.dotsBefore 3 i) := by
  have hdot : Byte.isWord Byte.dot = false := by decide
  unfold joinsBefore
  rw [dotsBefore_iff]
  split
  · next hi => simp [hi]
  · next hi =>
    cases hb : s.byte? (i - 1) with
    | none => simp
    | some b =>
      by_cases hbdot : b = Byte.dot
      · subst hbdot
        by_cases h3 : 3 ≤ i <;> simp [hi, hdot, h3]
      · simp [hi, hbdot]

/-- The first byte behind white space. -/
theorem byte?_skipSpace {s : MaskedText} {i : Nat} (hi : i ≤ s.size) :
    s.byte? (s.skipSpace i) = ((s.text.drop i).dropWhile Byte.isSpace).head? := by
  have htext : s.text = s.cells.map Prod.fst := by
    simp [text, cells, List.map_fst_zip, s.size_mask]
  have hrest : s.Rest i ((s.cells.drop i).takeWhile (Byte.isSpace ∘ Prod.fst) ++
      (s.cells.drop i).dropWhile (Byte.isSpace ∘ Prod.fst)) :=
    ⟨hi, (List.takeWhile_append_dropWhile ..).symm⟩
  have hskip := hrest.skipSpace (fun d hd => List.all_eq_true.1 List.all_takeWhile d hd)
    fun d hd => by
      have := List.head?_dropWhile_not (Byte.isSpace ∘ Prod.fst) (s.cells.drop i)
      rwa [hd] at this
  rw [hskip, hrest.skip.byte?_zero, htext, ← List.map_drop, List.dropWhile_map, List.head?_map]

end MaskedText

namespace Qualify

open MaskedText

/-- A byte of a qualifier stands in a word, or it is a dot behind one. -/
theorem getElem?_qualifier (context : BodyContext) (isProtected : Bool) (form : Form) :
    let q := qualifier context isProtected form
    ∀ k < q.length, q[k]?.any Byte.isWord = true ∨
      q[k]? = some Byte.dot ∧ 0 < k ∧ q[k - 1]?.any Byte.isWord = true := by
  cases context <;> cases isProtected <;> cases form <;> decide

/-- Qualifiers are inserted in a body, where its mask allows it. -/
structure Qualified (t : Text) (ins : Nat → Text) : Prop where
  insertable : Mask.Insertable ins 0 (Mask.ofText .code t) [] t
  qualifier : ∀ i, ins i ≠ [] → i < t.length ∧
    ∃ context isProtected form, ins i = qualifier context isProtected form
  before : ∀ i, ins i ≠ [] → (MaskedText.ofText .code t).joinsBefore i = false

theorem Replaced.qualified {t : Text} {names : ResolvableNames} {parameters : List Text}
    {context : BodyContext} {rs : List Reference}
    (h : Replaced (.ofText .code t) names parameters context rs)
    (hnames : ∀ n, n ∈ names.pub ∨ n ∈ names.prot → n.isIdentifier = true) :
    Qualified t (insertion names.prot context rs) where
  insertable := h.insertable hnames
  qualifier i hi := by
    obtain ⟨r, hr, rfl, heq⟩ := exists_of_insertion hi
    have hstands := (h.stands hr).1
    have hle := hstands.le
    rw [size_ofText] at hle
    have := hstands.pos
    exact ⟨by omega, _, _, _, heq⟩
  before i hi := by
    obtain ⟨r, hr, rfl, -⟩ := exists_of_insertion hi
    exact (h.stands hr).1.before

/-! ## Bytes and bits -/

section
variable {t : Text} {ins : Nat → Text}

variable (ins) in
theorem byte?_copied {i : Nat} (hi : i < t.length) :
    (MaskedText.ofText .code (weave ins 0 t)).byte? (shift ins i + (ins i).length) = t[i]? := by
  rw [byte?_ofText, getElem?_weave_copied ins hi]

theorem byte?_inserted {i k : Nat} (hi : i < t.length) (hk : k < (ins i).length) :
    (MaskedText.ofText .code (weave ins 0 t)).byte? (shift ins i + k) = (ins i)[k]? := by
  rw [byte?_ofText, getElem?_weave_inserted ins hi hk]

theorem size_weave : (MaskedText.ofText .code (weave ins 0 t)).size = shift ins t.length := by
  rw [size_ofText, length_weave]

theorem shift_replicate (i : Nat) :
    shift (fun j => List.replicate (ins j).length false) i = shift ins i := by
  induction i with
  | zero => rfl
  | succ i ih => rw [shift_succ, shift_succ, ih, List.length_replicate]

namespace Qualified

variable (h : Qualified t ins)
include h

/-- In front of a byte that is no part of a word and no bracket nothing is inserted. -/
theorem ins_eq_nil {i : Nat} {b : UInt8} (hb : t[i]? = some b) (hword : Byte.isWord b = false)
    (hbracket : b ≠ Byte.lbracket) : ins i = [] := by
  by_contra hins
  rcases h.insertable.byte i b hb (by rwa [Nat.zero_add]) with hb | hb
  · rw [hb] at hword
    cases hword
  · exact hbracket hb

theorem isMasked_eq (p : Nat) : (MaskedText.ofText .code (weave ins 0 t)).isMasked p =
    (weave (fun j => List.replicate (ins j).length false) 0 (Mask.ofText .code t))[p]?.getD false := by
  simp [isMasked, ofText, Mask.ofText_weave h.insertable]

theorem isMasked_copied {i : Nat} (hi : i < t.length) :
    (MaskedText.ofText .code (weave ins 0 t)).isMasked (shift ins i + (ins i).length) =
      (MaskedText.ofText .code t).isMasked i := by
  have := getElem?_weave_copied (fun j => List.replicate (ins j).length false)
    (show i < (Mask.ofText .code t).length by rwa [Mask.length_ofText])
  rw [shift_replicate, List.length_replicate] at this
  rw [h.isMasked_eq, this]
  simp [isMasked, ofText]

theorem isMasked_inserted {i k : Nat} (hi : i < t.length) (hk : k < (ins i).length) :
    (MaskedText.ofText .code (weave ins 0 t)).isMasked (shift ins i + k) = false := by
  have := getElem?_weave_inserted (fun j => List.replicate (ins j).length false)
    (show i < (Mask.ofText .code t).length by rwa [Mask.length_ofText])
    (show k < (List.replicate (ins i).length false).length by rwa [List.length_replicate])
  rw [shift_replicate] at this
  rw [h.isMasked_eq, this]
  simp [hk]

/-- A byte that is inserted nowhere, and nothing in front of it, is live where it was. -/
theorem liveByte?_weave {b : UInt8} (hb : Byte.isWord b = false) (hdot : b ≠ Byte.dot)
    (hbracket : b ≠ Byte.lbracket) {p : Nat} :
    (MaskedText.ofText .code (weave ins 0 t)).liveByte? p = some b ↔
      ∃ i, p = shift ins i ∧ (MaskedText.ofText .code t).liveByte? i = some b := by
  constructor
  · intro hp
    obtain ⟨hmask, hbyte⟩ := liveByte?_eq_some hp
    have hlt := byte?_eq_some_lt hbyte
    rw [size_ofText] at hlt
    obtain ⟨i, hi, rfl | ⟨k, hk, rfl⟩⟩ := exists_of_lt_length_weave hlt
    · rw [byte?_copied ins hi] at hbyte
      rw [h.isMasked_copied hi] at hmask
      refine ⟨i, by rw [h.ins_eq_nil hbyte hb hbracket]; rfl, ?_⟩
      rw [liveByte?, hmask, byte?_ofText, hbyte]
      rfl
    · rw [byte?_inserted hi hk] at hbyte
      rcases h.insertable.tame i b (List.mem_of_getElem? hbyte) with hword | hword
      · rw [hb] at hword
        cases hword
      · exact absurd hword hdot
  · rintro ⟨i, rfl, hi⟩
    obtain ⟨hmask, hbyte⟩ := liveByte?_eq_some hi
    have hlt := byte?_eq_some_lt hbyte
    rw [size_ofText] at hlt
    rw [byte?_ofText] at hbyte
    have hcopied := byte?_copied (t := t) ins hlt
    have hmask' := h.isMasked_copied hlt
    rw [h.ins_eq_nil hbyte hb hbracket, List.length_nil, Nat.add_zero] at hcopied hmask'
    rw [liveByte?, hmask', hmask, hcopied, hbyte]
    rfl

/-! ## What stands in front -/

/-- The last byte that is not blank is the same. -/
theorem inkBefore?_shift {i : Nat} (hi : i ≤ t.length) :
    (MaskedText.ofText .code (weave ins 0 t)).inkBefore? (shift ins i) =
      (MaskedText.ofText .code t).inkBefore? i := by
  induction i with
  | zero => rfl
  | succ i ih =>
    have hlt : i < t.length := hi
    obtain ⟨b, hb⟩ : ∃ b, t[i]? = some b := ⟨_, List.getElem?_eq_getElem hlt⟩
    rw [shift_succ, inkBefore?, inkBefore?, byte?_copied ins hlt, byte?_ofText, hb]
    dsimp only
    split
    · next hspace =>
      have hnone : ins i = [] := by
        refine h.ins_eq_nil hb (Script.not_word_of_isSpace b hspace).1 ?_
        rintro rfl
        simp +decide at hspace
      rw [hnone, List.length_nil, Nat.add_zero, ih (Nat.le_of_lt hlt)]
    · rfl

theorem dotsBefore_shift (n : Nat) {i : Nat} (hi : i ≤ t.length) :
    (MaskedText.ofText .code (weave ins 0 t)).dotsBefore n (shift ins i) ↔
      (MaskedText.ofText .code t).dotsBefore n i := by
  induction n generalizing i with
  | zero => exact Iff.rfl
  | succ n ih =>
    cases i with
    | zero => exact Iff.rfl
    | succ i =>
      rw [shift_succ, dotsBefore, dotsBefore, byte?_copied ins hi, byte?_ofText]
      refine and_congr_right fun hb => ?_
      rw [h.ins_eq_nil hb (by decide) (by decide), List.length_nil, Nat.add_zero,
        ih (Nat.le_of_lt hi)]

/-- What stands in front of an offset joins it or not, as in the body. -/
theorem joinsBefore_shift {i : Nat} (hi : i ≤ t.length) :
    (MaskedText.ofText .code (weave ins 0 t)).joinsBefore (shift ins i) =
      (MaskedText.ofText .code t).joinsBefore i := by
  rw [Bool.eq_iff_iff, joinsBefore_iff, joinsBefore_iff, h.dotsBefore_shift 3 hi]
  cases i with
  | zero => simp [shift]
  | succ i =>
    rw [shift_succ, Nat.add_sub_cancel, Nat.add_sub_cancel, byte?_copied ins hi, byte?_ofText]
    simp

/-- What stands behind a qualifier, or in it, is joined. -/
theorem joinsBefore_inserted {i k : Nat} (hi : i < t.length) (hk : k < (ins i).length) :
    (MaskedText.ofText .code (weave ins 0 t)).joinsBefore (shift ins i + (k + 1)) = true := by
  obtain ⟨-, context, isProtected, form, hq⟩ := h.qualifier i (List.ne_nil_of_length_pos (by omega))
  have hbyte := byte?_inserted (t := t) hi hk
  rw [joinsBefore_iff]
  refine ⟨by omega, ?_⟩
  rw [show shift ins i + (k + 1) - 1 = shift ins i + k by omega, hbyte]
  rcases getElem?_qualifier context isProtected form k (by rwa [← hq]) with
    hword | ⟨hdot, hpos, hword⟩
  · obtain ⟨c, hc, hword⟩ := Option.any_eq_true _ _ |>.1 hword
    exact ⟨c, by rw [hq, hc], .inl hword⟩
  · refine ⟨_, by rw [hq, hdot], .inr ⟨rfl, ?_⟩⟩
    -- the byte in front of the dot is no dot
    obtain ⟨j, rfl⟩ : ∃ j, k = j + 1 := ⟨k - 1, by omega⟩
    obtain ⟨c, hc, hword⟩ := Option.any_eq_true _ _ |>.1 hword
    rintro ⟨-, hdots, -⟩
    have hbyte : (MaskedText.ofText .code (weave ins 0 t)).byte? (shift ins i + j) = some c := by
      rw [byte?_inserted hi (by omega), hq]
      exact hc
    obtain rfl := Option.some.inj (hbyte.symm.trans hdots)
    simp +decide at hword

/-! ## What stands behind -/

/-- Whether a colon follows is the same. -/
theorem head?_dropWhile_weave {i : Nat} (hi : i ≤ t.length) :
    ((weave ins i (t.drop i)).dropWhile Byte.isSpace).head? = some Byte.colon ↔
      ((t.drop i).dropWhile Byte.isSpace).head? = some Byte.colon := by
  induction hn : t.length - i generalizing i with
  | zero => rw [List.drop_of_length_le (by omega), weave]
  | succ n ih =>
    have hlt : i < t.length := by omega
    obtain ⟨b, hb⟩ : ∃ b, t[i]? = some b := ⟨_, List.getElem?_eq_getElem hlt⟩
    have hdrop : t.drop i = b :: t.drop (i + 1) := by
      obtain ⟨_, rfl⟩ := List.getElem?_eq_some_iff.1 hb
      exact List.drop_eq_getElem_cons hlt
    have hrest := ih (i := i + 1) hlt (by omega)
    rw [hdrop, weave]
    cases hins : ins i with
    | nil =>
      rw [List.nil_append]
      by_cases hspace : Byte.isSpace b = true
      · rwa [List.dropWhile_cons_of_pos hspace, List.dropWhile_cons_of_pos hspace]
      · rw [List.dropWhile_cons_of_neg hspace, List.dropWhile_cons_of_neg hspace]
        rfl
    | cons c q =>
      -- neither what is inserted nor what it stands in front of is blank or a colon
      have hc := Mask.tame_byte c ((h.insertable.tame i c (by simp [hins])).imp_right .inl)
      have hb := Mask.tame_byte b
        ((h.insertable.byte i b hb (by simp [hins])).imp_right .inr)
      have hplain : ∀ d, Byte.isPlain d = true → d ≠ Byte.colon := by
        rintro d hd rfl
        simp +decide at hd
      rw [List.cons_append, List.dropWhile_cons_of_neg (by simp [hc.2.1]),
        List.dropWhile_cons_of_neg (by simp [hb.2.1])]
      simp [hplain c hc.1, hplain b hb.1]

/-- What stands behind an offset joins it or not, as in the body, if nothing is inserted there. -/
theorem joinsAfter_shift {i j : Nat} (hi : i ≤ t.length) (hj : j ≤ t.length) (hins : ins j = []) :
    (MaskedText.ofText .code (weave ins 0 t)).joinsAfter (shift ins i) (shift ins j) =
      (MaskedText.ofText .code t).joinsAfter i j := by
  have hbyte : (MaskedText.ofText .code (weave ins 0 t)).byte? (shift ins j) =
      (MaskedText.ofText .code t).byte? j := by
    rcases Nat.eq_or_lt_of_le hj with rfl | hlt
    · rw [byte?_ofText, byte?_ofText, List.getElem?_eq_none (by rw [length_weave]),
        List.getElem?_eq_none (Nat.le_refl _)]
    · have := byte?_copied ins hlt
      rwa [hins, List.length_nil, Nat.add_zero, ← byte?_ofText .code] at this
  have hcolon : (MaskedText.ofText .code (weave ins 0 t)).byte?
        ((MaskedText.ofText .code (weave ins 0 t)).skipSpace (shift ins j)) = some Byte.colon ↔
      (MaskedText.ofText .code t).byte? ((MaskedText.ofText .code t).skipSpace j) =
        some Byte.colon := by
    rw [byte?_skipSpace (by rw [size_weave]; exact (shift_strictMono ins).monotone hj),
      byte?_skipSpace (by rwa [size_ofText]), text_ofText, text_ofText, drop_weave ins hj]
    exact h.head?_dropWhile_weave hj
  unfold joinsAfter
  rw [hbyte, h.inkBefore?_shift hi]
  cases (MaskedText.ofText .code t).byte? j with
  | none => rfl
  | some b =>
    rw [Bool.eq_iff_iff]
    simp only [Bool.or_eq_true, Bool.and_eq_true, beq_iff_eq, hcolon]

/-- What is inserted begins with a word. -/
theorem head_ins {i : Nat} (hins : ins i ≠ []) :
    ∃ c, (ins i)[0]? = some c ∧ Byte.isWord c = true := by
  obtain ⟨-, context, isProtected, form, hq⟩ := h.qualifier i hins
  have hpos := List.length_pos_iff.2 hins
  have hfirst := getElem?_qualifier context isProtected form 0 (by rwa [← hq])
  rw [← hq] at hfirst
  exact Option.any_eq_true _ _ |>.1 (hfirst.resolve_right (by simp))

/-- A qualifier joins what stands in front of it. -/
theorem joinsAfter_inserted {i j : Nat} (hj : ins j ≠ []) :
    (MaskedText.ofText .code (weave ins 0 t)).joinsAfter (shift ins i) (shift ins j) = true := by
  obtain ⟨c, hc, hword⟩ := h.head_ins hj
  have hbyte := byte?_inserted (t := t) (h.qualifier j hj).1 (List.length_pos_iff.2 hj)
  rw [Nat.add_zero, hc] at hbyte
  unfold joinsAfter
  simp [hbyte, hword]

end Qualified

end

end Qualify

end PageLang
