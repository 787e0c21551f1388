import PageLang.Proofs.Qualify.Events

/-!
# References

A name is searched for as a text. Of its occurrences those count that are no part of a longer word
and no property that is read; in a body of pieces, these are the words that spell the name and have
no dot in front. The quoted spellings of a name do not occur.

* `joinsBefore_of_ends`: what the byte before a piece says.
* `mem_references`: the references that are found are those of the pieces.
-/

namespace PageLang.Script

open Cell Qualify

/-! ## The byte before -/

/-- The last byte in front of a piece. -/
theorem Ends.last_byte {last : Option UInt8} {t : Text} (h : Ends last t) :
    (t = [] ∧ last ≠ some Byte.dot) ∨
      (∃ t' c, t = t' ++ [c] ∧ Byte.isWord c = false ∧ c ≠ Byte.dot ∧ last ≠ some Byte.dot) ∨
      ∃ t' c, t = t' ++ [c, Byte.dot] ∧ c ≠ Byte.dot ∧ last = some Byte.dot := by
  have hspace (c : UInt8) (hc : Byte.isSpace c = true) : Byte.isWord c = false ∧ c ≠ Byte.dot :=
    ⟨(not_word_of_isSpace c hc).1, by rintro rfl; simp +decide at hc⟩
  cases h with
  | start ht =>
    rcases List.eq_nil_or_concat t with rfl | ⟨t, c, rfl⟩
    · exact .inl ⟨rfl, by simp⟩
    · have hc := hspace c (ht c (by simp))
      exact .inr (.inl ⟨t, c, by simp, hc.1, hc.2, by simp⟩)
  | @space t c hc => exact .inr (.inl ⟨t, c, rfl, (hspace c hc).1, (hspace c hc).2, by decide⟩)
  | @mark t b after hb hafter hdot =>
    have hne : some b ≠ some Byte.dot := by simpa using hdot
    rcases List.eq_nil_or_concat after with rfl | ⟨after, c, rfl⟩
    · exact .inr (.inl ⟨t, b, rfl, (not_word_of_mem_marks b hb).1, hdot, hne⟩)
    · have hc := hspace c (hafter c (by simp))
      exact .inr (.inl ⟨t ++ b :: after, c, by simp, hc.1, hc.2, hne⟩)
  | @dot t c hc => exact .inr (.inr ⟨t, c, rfl, by rintro rfl; simp +decide at hc, rfl⟩)

theorem Ends.not_word {last : Option UInt8} {t : Text} (h : Ends last t) :
    ∀ c ∈ t.getLast?, Byte.isWord c = false := by
  rcases h.last_byte with ⟨rfl, -⟩ | ⟨t, c, rfl, hc, -⟩ | ⟨t, c, rfl, -⟩
  · simp
  · simpa using hc
  · simp +decide

/-- What starts behind the text `t` reads a property only if the mark before is a dot. -/
theorem joinsBefore_of_ends {s : MaskedText} {last : Option UInt8} {t rest : Text}
    (hends : Ends last t) (h : ∀ j, s.byte? j = (t ++ rest)[j]?) :
    s.joinsBefore t.length = true ↔ last = some Byte.dot := by
  have hbyte (t' : Text) (c : UInt8) (ht : t = t' ++ [c]) : s.byte? (t.length - 1) = some c := by
    rw [h, ht]
    simp
  unfold MaskedText.joinsBefore
  rcases hends.last_byte with ⟨rfl, hlast⟩ | ⟨t, c, rfl, hc, hdot, hlast⟩ | ⟨t, c, rfl, hc, hlast⟩
  · simpa using hlast
  · rw [if_neg (by simp), hbyte t c rfl]
    simp [hdot, hc, hlast]
  · rw [if_neg (by simp), hbyte (t ++ [c]) Byte.dot (by simp)]
    -- a word stands before the dot, so this is no spread
    have hspread : ¬ (3 ≤ (t ++ [c, Byte.dot]).length ∧
        s.slice ((t ++ [c, Byte.dot]).length - 3) (t ++ [c, Byte.dot]).length =
          Text.ofString "...") := by
      rintro ⟨hlen, heq⟩
      have hmid := MaskedText.getElem?_slice (s := s) (k := 1)
        (show (t ++ [c, Byte.dot]).length - 3 + 1 < (t ++ [c, Byte.dot]).length by omega)
      rw [heq, show (t ++ [c, Byte.dot]).length - 3 + 1 = t.length by simp at hlen ⊢; omega, h,
        show (Text.ofString "...")[1]? = some Byte.dot by decide] at hmid
      simp at hmid
      exact hc hmid.symm
    simp only [if_true, Bool.not_eq_true', Bool.and_eq_false_iff, decide_eq_false_iff_not,
      beq_eq_false_iff_ne, hlast, iff_true]
    exact Decidable.not_and_iff_or_not.1 hspread

theorem joinsBefore_of_word {s : MaskedText} {k : Nat} {c : UInt8} (hk : k ≠ 0)
    (hc : s.byte? (k - 1) = some c) (hword : Byte.isWord c = true) : s.joinsBefore k = true := by
  have hdot : c ≠ Byte.dot := by rintro rfl; simp +decide at hword
  unfold MaskedText.joinsBefore
  rw [if_neg hk, hc]
  simp [hdot, hword]

theorem not_word_of_joinsAfter {s : MaskedText} {k stop : Nat} (h : s.joinsAfter k stop = false) :
    ∀ c ∈ s.byte? stop, Byte.isWord c = false := by
  intro c hc
  unfold MaskedText.joinsAfter at h
  rw [hc] at h
  simp only [Bool.or_eq_false_iff] at h
  exact h.1

/-! ## The words that spell a name -/

theorem IsName.exists_cons {n : Text} (hn : IsName n) :
    ∃ b rest, n = b :: rest ∧ (∀ c ∈ n, Byte.isWord c = true) ∧ Byte.isWordStart b = true := by
  obtain ⟨b, rest, rfl, hb, hrest⟩ := Text.exists_of_isIdentifier hn.1
  exact ⟨b, rest, rfl, List.forall_mem_cons.2 ⟨by simp [Byte.isWord, hb], hrest⟩, hb⟩

/-- A word that spells a text up to a byte that is no part of it. -/
theorem eq_of_word {n t : Text} (rest : Text) (hn : ∀ c ∈ n, Byte.isWord c = true)
    (ht : ∀ c ∈ t, Byte.isWord c = true) (hrest : ∀ c ∈ rest.head?, Byte.isWord c = false)
    (hpre : (t ++ rest).take n.length = n)
    (hend : ∀ c ∈ (t ++ rest)[n.length]?, Byte.isWord c = false) : n = t := by
  rcases Nat.lt_trichotomy n.length t.length with hlt | heq | hgt
  · -- the word goes on behind the text
    have hget : (t ++ rest)[n.length]? = some t[n.length] := by
      rw [List.getElem?_append_left hlt, List.getElem?_eq_getElem hlt]
    have := hend _ (by rw [hget]; rfl)
    simp [ht _ (List.getElem_mem hlt)] at this
  · rw [← hpre, heq, List.take_left]
  · -- the text goes on behind the word
    have hget : n[t.length]? = rest.head? := by
      rw [← hpre, List.getElem?_take_of_lt hgt, List.getElem?_append_right (Nat.le_refl _),
        Nat.sub_self, List.head?_eq_getElem?]
    rw [List.getElem?_eq_getElem hgt] at hget
    have := hrest _ (by rw [← hget]; rfl)
    simp [hn _ (List.getElem_mem hgt)] at this

/-- In front of a mark of the pieces no word goes on, and no name turns out to be a key. -/
theorem joinsAfter_of_mark {s : MaskedText} {m : Mark} (hm : m.Fits) {start stop : Nat}
    {v : List Cell} (hbehind : s.Rest stop (live m.before ++ (m.byte, false) :: v)) :
    s.joinsAfter start stop = false := by
  have hskip := hbehind.skipSpace (by simpa [live] using hm.before)
    (by simpa using (not_word_of_mem_marks _ hm.byte).2)
  have hmark : s.byte? (s.skipSpace stop) = some m.byte := by
    rw [hskip, hbehind.skip.byte?_zero]
    rfl
  have hcolon : m.byte ≠ Byte.colon := fun heq => absurd (heq ▸ hm.byte) (by decide)
  unfold MaskedText.joinsAfter
  split
  · rfl
  · next c hc =>
    have hc : Byte.isWord c = false := by
      rw [hbehind.byte?_zero] at hc
      cases hbefore : m.before with
      | nil =>
        obtain rfl : m.byte = c := by simpa [hbefore] using hc
        exact (not_word_of_mem_marks _ hm.byte).1
      | cons d before =>
        obtain rfl : d = c := by simpa [hbefore] using hc
        exact (not_word_of_isSpace _ (hm.before d (by simp [hbefore]))).1
    simp [hc, hmark, hcolon]

section
variable {s : MaskedText} {lead : Text} {ps : List Piece} (hlead : Space lead)
  (hps : Tidy none ps) (h : s.Rest 0 (live lead ++ cells ps))
include hlead hps h

/-- What a name that is found says of the pieces. -/
theorem exists_of_mem_occurrences {n : Text} (hn : IsName n) {k : Nat}
    (hk : k ∈ s.occurrences n 0) (hbefore : s.joinsBefore k = false)
    (hafter : s.joinsAfter k (k + n.length) = false) :
    ∃ pre m post, ps = pre ++ .marked (.word n) m :: post ∧
      lastMark none pre ≠ some Byte.dot ∧ k = lead.length + (cells pre).length := by
  obtain ⟨b, rest, hcons, hwords, -⟩ := hn.exists_cons
  obtain ⟨-, hstarts, hmask, -⟩ := MaskedText.mem_occurrences hk
  have hbyte : s.byte? k = some b := by
    have := MaskedText.byte?_add_of_startsAt (k := 0) hstarts (by simp [hcons])
    simpa [hcons] using this
  have hlive : s.liveByte? k = some b := by simp [MaskedText.liveByte?, hmask, hbyte]
  obtain ⟨pre, p, post, x, y, behind, hsplit, hword, rfl⟩ :=
    exists_word hlead hps h hlive (hwords b (by simp [hcons]))
  obtain ⟨hends, hp, hbytes⟩ := ends_before hlead hps h hsplit
  obtain ⟨-, hall, ⟨c, behind', rfl, hc⟩, hcells⟩ := Piece.forall_of_word? hp hword
  have hrest := rest_of_split h hsplit
  rw [hcells] at hrest
  -- the name begins where the word begins
  obtain rfl : x = [] := by
    rcases List.eq_nil_or_concat x with rfl | ⟨x, d, rfl⟩
    · rfl
    · have hd : s.byte? (lead.length + (cells pre).length + (x.concat d).length - 1) = some d := by
        have := hrest.byte?_add x.length
        simpa using this
      rw [joinsBefore_of_word (by simp) hd (hall d (by simp))] at hbefore
      simp at hbefore
  rw [List.length_nil, Nat.add_zero] at hstarts hbefore hafter
  have hlast : lastMark none pre ≠ some Byte.dot := by
    intro hdot
    have := (joinsBefore_of_ends hends hbytes).2 hdot
    rw [List.length_append, length_bytes, hbefore] at this
    simp at this
  -- and ends where the word ends
  have hname : n = b :: y := by
    have hpre := hrest.startsAt n
    rw [hstarts] at hpre
    refine eq_of_word (c :: behind' ++ bytes (cells post)) hwords hall (by simpa using hc)
      (by simpa using hpre.symm) ?_
    have hend := not_word_of_joinsAfter hafter
    rw [hrest.byte?_add] at hend
    simpa using hend
  cases p with
  | marked o m =>
    cases o with
    | word w =>
      obtain ⟨hw, -⟩ : w = b :: y ∧ m.text = c :: behind' := by simpa [Piece.word?] using hword
      exact ⟨pre, m, post, by rw [hsplit, hname, hw], hlast, by simp⟩
    | none => simp [Piece.word?] at hword
    | string t => simp [Piece.word?] at hword
  | keyword word space declared =>
    -- a keyword is no name
    obtain ⟨hw, -⟩ : word = b :: y ∧ space = c :: behind' := by simpa [Piece.word?] using hword
    rw [hname, ← hw] at hn
    rcases hp.1 with rfl | rfl
    · exact absurd hn (by decide)
    · exact absurd hn (by decide)

/-- A word of the pieces is found by its name. -/
theorem mem_occurrences_of_split {n : Text} (hn : IsName n) {pre post : List Piece} {m : Mark}
    (hsplit : ps = pre ++ .marked (.word n) m :: post) (hlast : lastMark none pre ≠ some Byte.dot) :
    lead.length + (cells pre).length ∈ s.occurrences n 0 ∧
      s.joinsBefore (lead.length + (cells pre).length) = false ∧
      s.joinsAfter (lead.length + (cells pre).length)
        (lead.length + (cells pre).length + n.length) = false := by
  obtain ⟨b, rest, hcons, hwords, hstart⟩ := hn.exists_cons
  obtain ⟨hends, ⟨-, hm, -⟩, hbytes⟩ := ends_before hlead hps h hsplit
  have hrest : s.Rest (lead.length + (cells pre).length)
      (live n ++ (live m.before ++ (m.byte, false) :: (live m.after ++ cells post))) := by
    simpa [Piece.cells, Operand.cells, Mark.text] using rest_of_split h hsplit
  have hlen : (lead ++ bytes (cells pre)).length = lead.length + (cells pre).length := by simp
  have hlive : s.liveByte? (lead.length + (cells pre).length) = some b := by
    rw [hcons] at hrest
    exact hrest.liveByte?_zero
  obtain ⟨hmask, hbyte⟩ := MaskedText.liveByte?_eq_some hlive
  refine ⟨MaskedText.mem_occurrences_of_free (by simp [hcons]) (Nat.zero_le _) ⟨?_, ?_⟩ hmask
    fun j hj hstarts => ?_, ?_, ?_⟩
  · have : Byte.isContinuation b = false := not_continuation_of_isWord b (hwords b (by simp [hcons]))
    simp [MaskedText.isBoundary, hbyte, this]
  · rw [hrest.startsAt]
    simp
  · -- an earlier occurrence that reaches up to here would hold the byte before
    refine Nat.le_of_not_lt fun hlt => ?_
    have hword := MaskedText.byte?_add_of_startsAt (k := lead.length + (cells pre).length - 1 - j)
      hstarts (by omega)
    rw [show j + (lead.length + (cells pre).length - 1 - j) =
      (lead ++ bytes (cells pre)).length - 1 by omega, hbytes,
      List.getElem?_append_left (by omega), ← List.getLast?_eq_getElem?,
      List.getElem?_eq_getElem (by omega)] at hword
    have := hends.not_word _ hword
    simp [hwords _ (List.getElem_mem _)] at this
  · rw [← hlen]
    exact Bool.eq_false_iff.2 fun htrue => hlast ((joinsBefore_of_ends hends hbytes).1 htrue)
  · have hbehind := hrest.skip
    rw [length_live] at hbehind
    exact joinsAfter_of_mark hm hbehind

/-! ## All spellings -/

/-- The quoted spellings of a name do not occur: no bracket is live. -/
theorem occurrences_bracket (pattern : Text) : s.occurrences (Byte.lbracket :: pattern) 0 = [] := by
  refine List.eq_nil_iff_forall_not_mem.2 fun k hk => ?_
  obtain ⟨-, hstarts, hmask, -⟩ := MaskedText.mem_occurrences hk
  have hbyte : s.byte? k = some Byte.lbracket :=
    MaskedText.byte?_add_of_startsAt (k := 0) hstarts (by simp)
  exact liveByte?_ne hlead hps h (b := Byte.lbracket) (by decide) (by decide) (by decide) k
    (by simp [MaskedText.liveByte?, hmask, hbyte])

theorem references_eq (n : Text) : s.references n = s.referencesAs n n .bare := by
  have hnone (pattern : Text) (form : Form) :
      s.referencesAs n (Byte.lbracket :: pattern) form = [] := by
    simp [MaskedText.referencesAs, occurrences_bracket hlead hps h]
  have hquote : Text.ofString "['" = [Byte.lbracket, Byte.singleQuote] := by decide
  have hdouble : Text.ofString "[\"" = [Byte.lbracket, Byte.doubleQuote] := by decide
  simp [MaskedText.references, spellings, hquote, hdouble, hnone]

/-- The references that are found are those of the pieces. -/
theorem mem_references {names : List Text} (hnames : ∀ n ∈ names, IsName n) {r : Reference} :
    r ∈ names.flatMap s.references ↔
      (r.offset, .refers r) ∈ events names none lead.length ps := by
  rw [mem_events_refers, List.mem_flatMap]
  constructor
  · rintro ⟨n, hn, hr⟩
    rw [references_eq hlead hps h] at hr
    obtain ⟨k, hk, rfl⟩ := List.mem_map.1 hr
    obtain ⟨hk, hjoins⟩ := List.mem_filter.1 hk
    simp only [Bool.not_eq_true', Bool.or_eq_false_iff] at hjoins
    obtain ⟨pre, m, post, hsplit, hlast, rfl⟩ :=
      exists_of_mem_occurrences hlead hps h (hnames n hn) hk hjoins.1 hjoins.2
    exact ⟨pre, n, m, post, hsplit, hlast, hn, rfl, rfl⟩
  · rintro ⟨pre, n, m, post, hsplit, hlast, hn, hoffset, hr⟩
    obtain ⟨hk, hbefore, hafter⟩ := mem_occurrences_of_split hlead hps h (hnames n hn) hsplit hlast
    refine ⟨n, hn, ?_⟩
    rw [references_eq hlead hps h, hr, hoffset]
    refine List.mem_map.2 ⟨_, List.mem_filter.2 ⟨hk, ?_⟩, rfl⟩
    simp [hbefore, hafter]

/-- No reference is found twice. -/
theorem nodup_references {names : List Text} (hnames : names.Nodup) :
    (names.flatMap s.references).Nodup := by
  refine List.nodup_iff_pairwise_ne.2 (List.pairwise_flatMap.2 ⟨fun n _ => ?_, ?_⟩)
  · rw [references_eq hlead hps h]
    refine List.pairwise_map.2 (.imp ?_ (.filter _ (s.pairwise_occurrences n 0)))
    intro i j hij heq
    have := congrArg Reference.offset heq
    simp at this
    omega
  · refine (List.nodup_iff_pairwise_ne.1 hnames).imp fun hne r hr r' hr' heq => hne ?_
    rw [references_eq hlead hps h] at hr hr'
    obtain ⟨_, _, rfl⟩ := List.mem_map.1 hr
    obtain ⟨_, _, rfl⟩ := List.mem_map.1 hr'
    exact congrArg Reference.name heq

end

end PageLang.Script
