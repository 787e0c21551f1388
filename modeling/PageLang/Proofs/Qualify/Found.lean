import PageLang.Proofs.MaskedText.Ranges
import PageLang.Proofs.Qualify.Events
import PageLang.Proofs.Script.Recogniser

/-!
# What recognisers find in pieces

A word that a recogniser looks for is found in one range of the body at a time, and only text before
and behind it inside of the range is looked at. If it is live, it stands in the word of a piece:
at its start or behind a dollar sign, since a dollar sign is no word character to the recognisers.

* `exists_of_found`: the piece around a word that is found, and the text behind it.
* `cutWord_of_marked`: what stands behind it where the word of the piece is followed by a mark.
-/

namespace PageLang.MaskedText

open Cell

theorem Rest.slice_eq {s : MaskedText} {w : List Cell} (h : s.Rest 0 w) (i j : Nat) :
    s.slice i j = ((Cell.bytes w).drop i).take (j - i) := by
  have hbytes : s.bytes.toList = s.cells.map Prod.fst := by
    unfold cells
    rw [List.map_fst_zip (by simp [s.size_mask])]
  unfold MaskedText.slice
  rw [Array.toList_extract, List.extract_eq_take_drop, hbytes, show s.cells = w from h.2]
  rfl

theorem drop_slice (s : MaskedText) (i j k : Nat) :
    (s.slice i j).drop k = s.slice (i + k) j := by
  unfold slice
  rw [Array.toList_extract, Array.toList_extract, List.extract_eq_take_drop,
    List.extract_eq_take_drop, List.drop_take, List.drop_drop, Nat.sub_sub]

end PageLang.MaskedText

namespace PageLang

theorem Text.hasInfix_append (x pattern y : Text) :
    hasInfix (x ++ (pattern ++ y)) pattern = true := by
  induction x with
  | nil =>
    have hpre : pattern.isPrefixOf (pattern ++ y) = true :=
      List.isPrefixOf_iff_prefix.2 (List.prefix_append _ _)
    unfold hasInfix
    simp [hpre]
  | cons c x ih =>
    rw [List.cons_append, hasInfix, ih, Bool.or_true]

end PageLang

namespace PageLang.Script

open Cell Qualify

/-- A word at the start of a text that holds a longer word, and is cut off anywhere. -/
theorem exists_of_take {kw t z rest : Text} {n : Nat} (hkw : ∀ c ∈ kw, Byte.isWord c = true)
    (hz : ∀ c ∈ z.head?, Byte.isWord c = false) (h : (t ++ z).take n = kw ++ rest) :
    ∃ y, t = kw ++ y ∧ rest = (y ++ z).take (n - kw.length) := by
  induction kw generalizing t n with
  | nil => exact ⟨t, rfl, by simpa using h.symm⟩
  | cons c kw ih =>
    have hc := hkw c (.head _)
    cases n with
    | zero => simp at h
    | succ n =>
      cases t with
      | nil =>
        cases z with
        | nil => simp at h
        | cons d z =>
          obtain ⟨rfl, -⟩ := List.cons.inj h
          simp [hc] at hz
      | cons d t =>
        obtain ⟨rfl, htail⟩ := List.cons.inj h
        obtain ⟨y, rfl, hrest⟩ := ih (fun e he => hkw e (.tail _ he)) htail
        exact ⟨y, rfl, by simpa using hrest⟩

theorem eq_of_append_eq_take {u v w t : Text} {n : Nat} (h : u ++ v = (w ++ t).take n)
    (hlen : u.length = w.length) : u = w ∧ v = t.take (n - w.length) := by
  rw [List.take_append] at h
  have hle : w.length ≤ n := by
    have := congrArg List.length h
    simp only [List.length_append, List.length_take] at this
    omega
  rw [List.take_of_length_le hle] at h
  exact List.append_inj h hlen

/-- A word character stands before no word that is found: only a dollar sign may. -/
theorem dollar_of_endsWord {u x : Text} (hx : ∀ c ∈ x, Byte.isWord c = true)
    (hends : Text.endsWord (u ++ x).reverse = false) : x = [] ∨ ∃ x', x = x' ++ [Byte.dollar] := by
  rcases List.eq_nil_or_concat x with rfl | ⟨x', c, rfl⟩
  · exact .inl rfl
  · obtain ⟨-, hcont, hdollar⟩ := Text.startsWord_of_isWord c (hx c (by simp))
    rw [List.concat_eq_append, ← List.append_assoc, List.reverse_append, List.reverse_singleton,
      List.singleton_append, Text.endsWord_cons hcont] at hends
    rcases hdollar with rfl | hdollar
    · exact .inr ⟨x', by simp⟩
    · simp [hdollar] at hends

/-- A word in front of a mark, from anywhere in it on. -/
theorem cutWord_of_marked {m : Mark} (hm : m.Fits) {rest word z : Text} {n : Nat}
    (hword : ∀ c ∈ word, Byte.isWord c = true) (hrest : rest = (word ++ (m.text ++ z)).take n) :
    Recogniser.CutWord rest word m.before m.byte where
  cut := ⟨m.after ++ z, n, by simpa [Mark.text] using hrest⟩
  word := hword
  gap := hm.before
  ink := isInk_of_mem_marks _ hm.byte
  not_word := (not_word_of_mem_marks _ hm.byte).1

section
variable {s : MaskedText} {lead : Text} {ps : List Piece} (hlead : Space lead)
  (hps : Tidy none ps) (h : s.Rest 0 (live lead ++ cells ps))
include hlead hps h

/-- A range does not start inside of a word. -/
theorem start_le_of_word {r : Nat × Nat} (hr : r ∈ s.statementRanges) {pre post : List Piece}
    {p : Piece} {x y behind : Text} (hsplit : ps = pre ++ p :: post)
    (hword : p.word? = some (x ++ y, behind))
    (hle : r.1 ≤ lead.length + (cells pre).length + x.length) :
    r.1 ≤ lead.length + (cells pre).length := by
  have hp := (ends_before hlead hps h hsplit).2.1
  obtain ⟨-, hall, -, hcells⟩ := Piece.forall_of_word? hp hword
  have hrest := rest_of_split h hsplit
  rw [hcells] at hrest
  refine MaskedText.start_of_mem_statementRanges hr hle fun j hj => ?_
  have hbyte : s.byte? (lead.length + (cells pre).length + j) = some x[j] := by
    rw [hrest.byte?_add]
    simp [List.getElem?_append_left, hj]
  have hc := hall x[j] (by simp)
  unfold MaskedText.endsRange
  rw [Option.any_eq_false]
  intro b hb
  obtain rfl : x[j] = b := by
    rw [(MaskedText.liveByte?_eq_some hb).2] at hbyte
    exact (Option.some.inj hbyte).symm
  have hne : x[j] ≠ Byte.semicolon ∧ x[j] ≠ Byte.newline := by
    refine ⟨fun heq => ?_, fun heq => ?_⟩ <;> simp +decide [heq] at hc
  simp [hne]

/-- The piece around a live word that is found, where it stands in the word of the piece, what
stands before it in the range, and the text behind it as far as the range reaches. -/
theorem exists_of_found {r : Nat × Nat} (hr : r ∈ s.statementRanges) {u kw rest : Text}
    (hslice : s.slice r.1 r.2 = u ++ (kw ++ rest)) (hlive : s.isLive (r.1 + u.length) = true)
    (hne : kw ≠ []) (hkw : ∀ c ∈ kw, Byte.isWord c = true)
    (hends : Text.endsWord u.reverse = false) :
    ∃ pre p post x y behind, ps = pre ++ p :: post ∧ p.word? = some (x ++ (kw ++ y), behind) ∧
      r.1 + u.length = lead.length + (cells pre).length + x.length ∧
      (x = [] ∨ ∃ x', x = x' ++ [Byte.dollar]) ∧
      u = (lead ++ bytes (cells pre)).drop r.1 ++ x ∧
      ∃ n, rest = (y ++ (behind ++ bytes (cells post))).take n := by
  obtain ⟨b, kw', rfl⟩ := List.exists_cons_of_ne_nil hne
  have hbytes := h.slice_eq r.1 r.2
  rw [hslice] at hbytes
  have hlen := congrArg List.length hbytes
  simp only [List.length_append, List.length_take, List.length_cons] at hlen
  -- the first byte of the word is live
  have hlive? : s.liveByte? (r.1 + u.length) = some b := by
    have hbyte := MaskedText.getElem?_slice (s := s) (show r.1 + u.length < r.2 by omega)
    rw [hslice, List.getElem?_append_right (Nat.le_refl _), Nat.sub_self] at hbyte
    simp only [MaskedText.isLive, Bool.and_eq_true, Bool.not_eq_true'] at hlive
    simp [MaskedText.liveByte?, hlive.2, ← hbyte]
  obtain ⟨pre, p, post, x, y', behind, hsplit, hword, hoffset⟩ :=
    exists_word hlead hps h hlive? (hkw b (.head _))
  have hstart := start_le_of_word hlead hps h hr hsplit hword (by omega)
  obtain ⟨-, hall, ⟨c, behind', rfl, hc⟩, hcells⟩ :=
    Piece.forall_of_word? (hps.fits p (by simp [hsplit])) hword
  have htext : (bytes (live lead ++ cells ps)).drop r.1 =
      (lead ++ bytes (cells pre)).drop r.1 ++ x ++
        (b :: y' ++ (c :: behind' ++ bytes (cells post))) := by
    rw [List.append_assoc, ← List.drop_append_of_le_length (by simpa using hstart)]
    simp [hsplit, hcells]
  rw [htext] at hbytes
  have hlength : u.length = ((lead ++ bytes (cells pre)).drop r.1 ++ x).length := by
    rw [List.length_append, List.length_drop, List.length_append, length_bytes]
    omega
  obtain ⟨hu, hrest⟩ := eq_of_append_eq_take hbytes hlength
  have hhead : ∀ d ∈ (c :: behind' ++ bytes (cells post)).head?, Byte.isWord d = false := by
    simpa using hc
  obtain ⟨y, hy, hrest⟩ := exists_of_take hkw hhead hrest.symm
  rw [hy] at hword
  rw [hu] at hends
  refine ⟨pre, p, post, x, y, c :: behind', hsplit, hword, hoffset, ?_, hu, _, hrest⟩
  exact dollar_of_endsWord (fun d hd => hall d (by simp [hd])) hends

/-- A word that is part of no declaring keyword is found in front of a mark only. -/
theorem marked_of_found {r : Nat × Nat} (hr : r ∈ s.statementRanges) {u kw rest : Text}
    (hslice : s.slice r.1 r.2 = u ++ (kw ++ rest)) (hlive : s.isLive (r.1 + u.length) = true)
    (hne : kw ≠ []) (hkw : ∀ c ∈ kw, Byte.isWord c = true)
    (hends : Text.endsWord u.reverse = false)
    (hlet : Text.hasInfix "let" kw = false ∧ Text.hasInfix "const" kw = false) :
    ∃ x y m, .marked (.word (x ++ (kw ++ y))) m ∈ ps ∧
      (x = [] ∨ ∃ x', x = x' ++ [Byte.dollar]) ∧ Recogniser.CutWord rest y m.before m.byte := by
  obtain ⟨pre, p, post, x, y, behind, hsplit, hword, -, hx, -, n, hrest⟩ :=
    exists_of_found hlead hps h hr hslice hlive hne hkw hends
  have hp := hps.fits p (by simp [hsplit])
  have hall := (Piece.forall_of_word? hp hword).2.1
  cases p with
  | marked o m =>
    cases o with
    | word t =>
      obtain ⟨rfl, rfl⟩ : t = x ++ (kw ++ y) ∧ m.text = behind := by
        simpa [Piece.word?] using hword
      exact ⟨x, y, m, by simp [hsplit], hx,
        cutWord_of_marked hp.2.1 (fun c hc => hall c (by simp [hc])) hrest⟩
    | none => simp [Piece.word?] at hword
    | string t => simp [Piece.word?] at hword
  | keyword word space names =>
    obtain ⟨rfl, -⟩ : word = x ++ (kw ++ y) ∧ space = behind := by
      simpa [Piece.word?] using hword
    have hinfix := Text.hasInfix_append x kw y
    rcases hp.1 with heq | heq
    · rw [heq, hlet.1] at hinfix
      simp at hinfix
    · rw [heq, hlet.2] at hinfix
      simp at hinfix

end

end PageLang.Script
