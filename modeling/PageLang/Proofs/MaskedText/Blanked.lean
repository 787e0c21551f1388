import PageLang.Proofs.Mask.Comment
import PageLang.Proofs.MaskedText.Cells
import PageLang.Proofs.MaskedText.Trivia

/-!
# Searching around blank space in the place of a comment

Two masked texts that differ in one comment, which the second has blanked. Live bytes are found
alike in both, and so are the braces that match. What is read by its spelling alone, ranges of bytes
and the gaps between statements, is alike as long as it stands in front of the comment or behind it,
and a gap also if it passes over the comment.

* `MaskedText.Blanked`: a text with a comment, and the text with the comment blanked.
* `MaskedText.Crosses`, `MaskedText.crosses_iff`: a gap that comes to the comment.
* `MaskedText.Blanked.findAny?_eq`, `MaskedText.Blanked.closing?_eq`: searches for live bytes.
* `MaskedText.Blanked.slice_eq`, `MaskedText.Blanked.skipTrivia_eq`: ranges and gaps.
-/

namespace PageLang.MaskedText

/-- `s'` is the text `s` with blank space in the place of the comment from `a` up to `e`. -/
structure Blanked (s s' : MaskedText) (a e : Nat) : Prop where
  lt : a < e
  le : e ≤ s.size
  size_eq : s'.size = s.size
  byte? : ∀ i, i < a ∨ e ≤ i → s'.byte? i = s.byte? i
  isMasked : ∀ i, i < a ∨ e ≤ i → s'.isMasked i = s.isMasked i
  masked : ∀ i, a ≤ i → i < e → s.isMasked i = true
  blank : ∀ i, a ≤ i → i < e → ∃ b, s'.byte? i = some b ∧ Byte.isSpace b = true
  slash : s.byte? a = some Byte.slash
  /-- The comment is skipped. -/
  gapEnd : s.gapEnd .blank a (s.size - a) = s.gapEnd .blank e (s.size - e)

/-- The gap that has come to `i` goes on in blank space at `a`. -/
inductive Crosses (s : MaskedText) (a : Nat) : Gap → Nat → Prop
  | here : Crosses s a .blank a
  | step {gap next : Gap} {i : Nat} : i < a → s.gapNext? gap i = some next →
    Crosses s a next (i + 1) → Crosses s a gap i

namespace Crosses

variable {s : MaskedText} {a i : Nat} {gap : Gap}

theorem le (h : s.Crosses a gap i) : i ≤ a := by
  cases h with
  | here => exact Nat.le_refl _
  | step hi _ _ => exact Nat.le_of_lt hi

theorem gapEnd (h : s.Crosses a gap i) (n : Nat) :
    s.gapEnd gap i (a - i + n) = s.gapEnd .blank a n := by
  induction h with
  | here => rw [Nat.sub_self, Nat.zero_add]
  | @step gap next i hi hnext _ ih =>
    rw [show a - i + n = a - (i + 1) + n + 1 by omega, gapEnd_succ, hnext]
    exact ih

end Crosses

/-- A gap that does not end in front of live text goes on there. -/
theorem crosses_of_le {t : Text} {a i : Nat} {gap : Gap} (hlive : (stateAt t a).region = .live)
    (ha : a ≤ t.length) (hi : i ≤ a) (hregion : (stateAt t i).region = gap.region)
    (h : a ≤ (ofText .declarations t).gapEnd gap i (t.length - i)) :
    (ofText .declarations t).Crosses a gap i := by
  induction hn : a - i generalizing i gap with
  | zero =>
    obtain rfl : i = a := by omega
    obtain rfl : gap = .blank := by
      rw [hregion] at hlive
      cases gap <;> cases hlive
      rfl
    exact .here
  | succ n ih =>
    rw [show t.length - i = t.length - (i + 1) + 1 by omega, gapEnd_succ] at h
    cases hnext : (ofText .declarations t).gapNext? gap i with
    | none =>
      rw [hnext] at h
      dsimp only at h
      omega
    | some next =>
      rw [hnext] at h
      have hpasses := passes_of_gapNext? (List.getElem?_eq_getElem (by omega)) hregion hnext
      exact .step (by omega) hnext (ih (by omega) hpasses.region h (by omega))

/-- In live text the gap from `i` comes to `a` if it is skipped as far as that. -/
theorem crosses_iff {t : Text} {a i : Nat} (hlive : (stateAt t a).region = .live)
    (ha : a ≤ t.length) (hi : i ≤ a) (hstart : (stateAt t i).region = .live) :
    (ofText .declarations t).Crosses a .blank i ↔ a ≤ (ofText .declarations t).skipTrivia i := by
  unfold skipTrivia
  rw [size_ofText, Nat.min_eq_left (Nat.le_trans hi ha)]
  refine ⟨fun hcross => ?_, crosses_of_le hlive ha hi hstart⟩
  rw [show t.length - i = a - i + (t.length - a) by omega, hcross.gapEnd]
  exact (MaskedText.le_gapEnd _ .blank a _).1

theorem firstFrom?_congr {p p' : Nat → Bool} {start count : Nat}
    (h : ∀ k, start ≤ k → p' k = p k) : firstFrom? p' start count = firstFrom? p start count := by
  induction count generalizing start with
  | zero => rfl
  | succ count ih =>
    unfold firstFrom?
    rw [h start (Nat.le_refl _), ih fun k hk => h k (by omega)]

namespace Blanked

variable {s s' : MaskedText} {a e : Nat} (h : Blanked s s' a e)
include h

/-! ## Live bytes -/

theorem liveByte?_eq {i : Nat} (hi : i < a ∨ e ≤ i) : s'.liveByte? i = s.liveByte? i := by
  unfold liveByte?
  rw [h.byte? i hi, h.isMasked i hi]

/-- In the place of the comment nothing is live, or a blank is. -/
theorem liveByte?_inside {i : Nat} (ha : a ≤ i) (he : i < e) :
    s.liveByte? i = none ∧ ∀ b, s'.liveByte? i = some b → Byte.isSpace b = true := by
  refine ⟨?_, fun b hb => ?_⟩
  · unfold liveByte?
    rw [if_pos (h.masked i ha he)]
  · obtain ⟨c, hc, hspace⟩ := h.blank i ha he
    rw [(liveByte?_eq_some hb).2] at hc
    cases hc
    exact hspace

/-- A live byte stands outside the comment. -/
theorem outside_of_liveByte? {i : Nat} {b : UInt8} (hb : s.liveByte? i = some b) :
    i < a ∨ e ≤ i := by
  rcases Nat.lt_or_ge i a with hlt | hge
  · exact .inl hlt
  · refine .inr (Nat.le_of_not_lt fun hlt => ?_)
    rw [(h.liveByte?_inside hge hlt).1] at hb
    cases hb

theorem any_liveByte?_eq {p : UInt8 → Bool} (hp : ∀ b, Byte.isSpace b = true → p b = false)
    (i : Nat) : (s'.liveByte? i).any p = (s.liveByte? i).any p := by
  by_cases hi : i < a ∨ e ≤ i
  · rw [h.liveByte?_eq hi]
  · obtain ⟨hnone, hspace⟩ := h.liveByte?_inside (i := i) (by omega) (by omega)
    rw [hnone, Option.any_none]
    cases hb : s'.liveByte? i with
    | none => rfl
    | some b => exact hp b (hspace b hb)

/-- Searches for live bytes other than blanks find the same. -/
theorem findAny?_eq {set : Text} (hset : set.any Byte.isSpace = false) (start : Nat) :
    s'.findAny? set start = s.findAny? set start := by
  have hnone (b : UInt8) (hb : Byte.isSpace b = true) : set.contains b = false := by
    refine Bool.eq_false_iff.2 fun hmem => ?_
    exact Bool.false_ne_true
      (hset.symm.trans (List.any_eq_true.2 ⟨b, List.contains_iff_mem.1 hmem, hb⟩))
  have hfirst : firstFrom? (fun i => (s'.liveByte? i).any set.contains) start (s.size - start) =
      firstFrom? (fun i => (s.liveByte? i).any set.contains) start (s.size - start) :=
    firstFrom?_congr fun k _ => h.any_liveByte?_eq hnone k
  unfold findAny?
  rw [h.size_eq, hfirst]
  cases hat : firstFrom? (fun i => (s.liveByte? i).any set.contains) start (s.size - start) with
  | none => rfl
  | some i =>
    obtain ⟨b, hb, -⟩ := (Option.any_eq_true _ _).1 (firstFrom?_eq_some hat).2.2.1
    simp only [Option.bind_eq_bind, Option.bind_some, h.byte? i (h.outside_of_liveByte? hb)]

/-- A bracket is matched by the same one. -/
theorem closing?_eq {opens closes : UInt8 → Bool}
    (hopens : ∀ b, Byte.isSpace b = true → opens b = false)
    (hcloses : ∀ b, Byte.isSpace b = true → closes b = false) (depth i count : Nat) :
    s'.closing? opens closes depth i count = s.closing? opens closes depth i count := by
  induction count generalizing depth i with
  | zero => rfl
  | succ count ih =>
    unfold closing?
    simp only [ih]
    by_cases hi : i < a ∨ e ≤ i
    · rw [h.liveByte?_eq hi]
    · obtain ⟨hnone, hspace⟩ := h.liveByte?_inside (i := i) (by omega) (by omega)
      rw [hnone]
      cases hb : s'.liveByte? i with
      | none => rfl
      | some b =>
        dsimp only
        rw [hopens b (hspace b hb), hcloses b (hspace b hb), if_neg Bool.false_ne_true,
          if_neg Bool.false_ne_true]

theorem closingBrace?_eq (opening : Nat) : s'.closingBrace? opening = s.closingBrace? opening := by
  unfold closingBrace?
  rw [h.size_eq]
  refine h.closing?_eq (fun b hb => ?_) (fun b hb => ?_) _ _ _ <;>
  · refine Bool.eq_false_iff.2 fun heq => ?_
    rw [eq_of_beq heq] at hb
    cases hb

theorem closingParen?_eq (opening : Nat) : s'.closingParen? opening = s.closingParen? opening := by
  unfold closingParen?
  rw [h.size_eq]
  refine h.closing?_eq (fun b hb => ?_) (fun b hb => ?_) _ _ _ <;>
  · refine Bool.eq_false_iff.2 fun heq => ?_
    rw [eq_of_beq heq] at hb
    cases hb

/-! ## Ranges -/

theorem take_slice_eq {i j n : Nat} (hi : i + n ≤ a ∨ e ≤ i) :
    (s'.slice i j).take n = (s.slice i j).take n := by
  have hlength : (s'.slice i j).length = (s.slice i j).length := by
    rw [length_slice, length_slice, h.size_eq]
  refine List.ext_getElem? fun k => ?_
  rw [List.getElem?_take, List.getElem?_take]
  split
  · next hk =>
    by_cases hkj : i + k < j
    · rw [getElem?_slice hkj, getElem?_slice hkj, h.byte? _ (by omega)]
    · rw [List.getElem?_eq_none (by rw [length_slice]; omega),
        List.getElem?_eq_none (by rw [length_slice]; omega)]
  · rfl

/-- A range in front of the comment or behind it holds the same bytes. -/
theorem slice_eq {i j : Nat} (hi : j ≤ a ∨ e ≤ i) : s'.slice i j = s.slice i j := by
  have hwhole (s : MaskedText) : (s.slice i j).take (j - i) = s.slice i j :=
    List.take_of_length_le (by rw [length_slice]; omega)
  rcases Nat.lt_or_ge j i with hji | hij
  · have hnil (s : MaskedText) : s.slice i j = [] :=
      List.length_eq_zero_iff.1 (by rw [length_slice]; omega)
    rw [hnil, hnil]
  · rw [← hwhole s, ← hwhole s', h.take_slice_eq (by omega)]

theorem startsAt_eq {pattern : Text} {i : Nat} (hi : i + pattern.length ≤ a ∨ e ≤ i) :
    s'.startsAt pattern i = s.startsAt pattern i := by
  unfold startsAt
  rw [h.slice_eq hi]

/-- A pattern that holds no blank and no slash does not reach into the comment. -/
theorem startsAt_across {pattern : Text} {i : Nat} (hslash : Byte.slash ∉ pattern)
    (hspace : pattern.any Byte.isSpace = false) (hi : i ≤ a) (ha : a < i + pattern.length) :
    s'.startsAt pattern i = false ∧ s.startsAt pattern i = false := by
  obtain ⟨k, rfl⟩ := Nat.exists_eq_add_of_le hi
  have hk : k < pattern.length := by omega
  have hmem : pattern[k] ∈ pattern := List.getElem_mem hk
  refine ⟨Bool.eq_false_iff.2 fun hat => ?_, Bool.eq_false_iff.2 fun hat => ?_⟩
  · obtain ⟨b, hb, hblank⟩ := h.blank (i + k) (Nat.le_refl _) h.lt
    rw [byte?_add_of_startsAt hat hk, List.getElem?_eq_getElem hk] at hb
    cases hb
    exact Bool.false_ne_true (hspace.symm.trans (List.any_eq_true.2 ⟨_, hmem, hblank⟩))
  · have hb := h.slash
    rw [byte?_add_of_startsAt hat hk, List.getElem?_eq_getElem hk] at hb
    rw [Option.some.inj hb] at hmem
    exact hslash hmem

theorem skipSpace_behind {i : Nat} (hi : e ≤ i) : s'.skipSpace i = s.skipSpace i := by
  unfold skipSpace findRaw?
  rw [h.size_eq, firstFrom?_congr (p := fun i => (s.byte? i).any fun b => !Byte.isSpace b)
    fun k hk => by rw [h.byte? k (by omega)]]

theorem skipSpace_front {i : Nat} (hi : s.skipSpace i < a) : s'.skipSpace i = s.skipSpace i := by
  have := h.lt
  have := h.le
  unfold skipSpace at hi ⊢
  cases hfind : s.findRaw? (fun b => !Byte.isSpace b) i with
  | none =>
    rw [hfind] at hi
    simp only [Option.getD_none] at hi
    omega
  | some j =>
    rw [hfind] at hi
    simp only [Option.getD_some] at hi
    obtain ⟨h1, h2, hj, hleast⟩ := firstFrom?_eq_some hfind
    have hfind' : s'.findRaw? (fun b => !Byte.isSpace b) i = some j := by
      refine firstFrom?_of_least h1 (by rw [h.size_eq]; exact h2) ?_ fun k hk hkj => ?_
      · rw [h.byte? j (.inl hi)]
        exact hj
      · rw [h.byte? k (by omega)]
        exact hleast k hk hkj
    rw [hfind']
    rfl

/-- White space that comes to the comment ends there, and goes on behind it if it is blanked. -/
theorem skipSpace_across {i : Nat} (hi : i ≤ a) (hend : a ≤ s.skipSpace i) :
    s.skipSpace i = a ∧ s'.skipSpace i = s.skipSpace e := by
  have hlt := h.lt
  have hle := h.le
  have hblank : ∀ k, i ≤ k → k < a → (s.byte? k).any (fun b => !Byte.isSpace b) = false := by
    unfold skipSpace at hend
    intro k hk hka
    cases hfind : s.findRaw? (fun b => !Byte.isSpace b) i with
    | none => exact firstFrom?_eq_none.1 hfind k hk (by omega)
    | some j =>
      rw [hfind] at hend
      exact (firstFrom?_eq_some hfind).2.2.2 k hk (Nat.lt_of_lt_of_le hka hend)
  constructor
  · have hfind : s.findRaw? (fun b => !Byte.isSpace b) i = some a :=
      firstFrom?_of_least hi (by omega) (by rw [h.slash]; rfl) hblank
    unfold skipSpace
    rw [hfind]
    rfl
  · have hskip : ∀ k < e - i, (s'.byte? (i + k)).any (fun b => !Byte.isSpace b) = false := by
      intro k hk
      rcases Nat.lt_or_ge (i + k) a with hka | hka
      · rw [h.byte? _ (.inl hka)]
        exact hblank _ (Nat.le_add_right i k) hka
      · obtain ⟨b, hb, hspace⟩ := h.blank (i + k) hka (by omega)
        rw [hb, Option.any_some, hspace]
        rfl
    have hfind : s'.findRaw? (fun b => !Byte.isSpace b) i =
        s'.findRaw? (fun b => !Byte.isSpace b) e := by
      unfold findRaw?
      have hfirst := firstFrom?_skip (p := fun k => (s'.byte? k).any fun b => !Byte.isSpace b)
        (n := s'.size - e) hskip
      have := h.size_eq
      rwa [show e - i + (s'.size - e) = s'.size - i by omega,
        show i + (e - i) = e by omega] at hfirst
    rw [← h.skipSpace_behind (Nat.le_refl e)]
    unfold skipSpace
    rw [hfind, h.size_eq, Nat.max_eq_right (by omega), Nat.max_eq_right hle]

/-! ## Gaps -/

theorem gapNext?_eq {gap : Gap} {i : Nat} (hi : i + 1 < a ∨ e ≤ i) :
    s'.gapNext? gap i = s.gapNext? gap i := by
  have hbyte := h.byte? i (by omega)
  have hline : s'.startsAt "//" i = s.startsAt "//" i :=
    h.startsAt_eq (by rw [show (Text.ofString "//").length = 2 from rfl]; omega)
  have hblock : s'.startsAt "/*" i = s.startsAt "/*" i :=
    h.startsAt_eq (by rw [show (Text.ofString "/*").length = 2 from rfl]; omega)
  cases gap <;> simp only [gapNext?, hbyte, hline, hblock]

/-- A gap that goes on in blank space right in front of the comment goes on there too if the
comment is blanked. -/
theorem gapNext?_blank {gap : Gap} {i : Nat} (hi : i < a) (hnext : s.gapNext? gap i = some .blank) :
    s'.gapNext? gap i = some .blank := by
  have hbyte := h.byte? i (.inl hi)
  cases gap with
  | blank =>
    rw [gapNext?] at hnext ⊢
    rw [hbyte]
    split at hnext
    · next hspace => rw [if_pos hspace]
    · split at hnext
      · cases hnext
      · split at hnext <;> cases hnext
  | line | opening | block star =>
    rw [gapNext?] at hnext ⊢
    first | rw [hbyte]; exact hnext | exact hnext

theorem crosses {gap : Gap} {i : Nat} (hcross : s.Crosses a gap i) : s'.Crosses a gap i := by
  induction hcross with
  | here => exact .here
  | @step gap next i hi hnext hcross ih =>
    refine .step hi ?_ ih
    rcases Nat.lt_or_ge (i + 1) a with hlt | hge
    · rw [h.gapNext?_eq (.inl hlt), hnext]
    · -- the comment stands right behind
      have hle := hcross.le
      obtain rfl : i + 1 = a := by omega
      cases hcross with
      | here => exact h.gapNext?_blank hi hnext
      | step hlt => exact absurd hlt (Nat.lt_irrefl _)

theorem gapEnd_behind {gap : Gap} {i : Nat} (hi : e ≤ i) (n : Nat) :
    s'.gapEnd gap i n = s.gapEnd gap i n := by
  induction n generalizing gap i with
  | zero => cases gap <;> rfl
  | succ n ih =>
    rw [gapEnd_succ, gapEnd_succ, h.gapNext?_eq (.inr hi)]
    split
    · exact ih (by omega)
    · rfl

/-- A slash right in front of the comment opens another comment with its first slash. -/
theorem startsAt_slashes {i : Nat} (hi : i + 1 = a) (hslash : s.byte? i = some Byte.slash) :
    s.startsAt "//" i = true := by
  have hnext : s.byte? (i + 1) = some Byte.slash := hi ▸ h.slash
  have hslice : s.slice i (i + 2) = [Byte.slash, Byte.slash] := by
    refine List.ext_getElem? fun k => ?_
    match k with
    | 0 => rw [getElem?_slice (by omega)]; exact hslash
    | 1 => rw [getElem?_slice (by omega)]; exact hnext
    | k + 2 =>
      rw [List.getElem?_eq_none (by rw [length_slice]; omega)]
      rfl
  unfold startsAt
  rw [show (Text.ofString "//").length = 2 from rfl, hslice]
  rfl

/-- What opens a comment does not stand in front of the comment where no slash does. -/
theorem startsAt_of_not_slash {pattern : Text} (hpattern : pattern.head? = some Byte.slash)
    {i : Nat} (hi : i < a) (hslash : s.byte? i ≠ some Byte.slash) :
    s'.startsAt pattern i = false := by
  refine Bool.eq_false_iff.2 fun hat => hslash ?_
  cases pattern with
  | nil => cases hpattern
  | cons b rest =>
    have hfirst := byte?_add_of_startsAt hat (Nat.succ_pos _)
    rw [Nat.add_zero, h.byte? i (.inl hi)] at hfirst
    rw [hfirst]
    exact hpattern

/-- A gap that ends in front of the comment ends there too if the comment is blanked. -/
theorem gapNext?_none {gap : Gap} {i : Nat} (hi : i < a) (hnext : s.gapNext? gap i = none) :
    s'.gapNext? gap i = none := by
  rcases Nat.lt_or_ge (i + 1) a with hlt | hge
  · rw [h.gapNext?_eq (.inl hlt), hnext]
  have hlast : i + 1 = a := by omega
  cases gap with
  | line | opening | block star => cases hnext
  | blank =>
    have hslash : s.byte? i ≠ some Byte.slash := by
      intro hslash
      rw [gapNext?, hslash, Option.any_some, if_neg (by decide),
        if_pos (h.startsAt_slashes hlast hslash)] at hnext
      cases hnext
    rw [gapNext?] at hnext ⊢
    rw [h.byte? i (.inl hi), h.startsAt_of_not_slash rfl hi hslash,
      h.startsAt_of_not_slash rfl hi hslash]
    split at hnext
    · cases hnext
    · next hspace => rw [if_neg hspace, if_neg Bool.false_ne_true, if_neg Bool.false_ne_true]

/-- In front of the comment a gap ends where it did. -/
theorem gapEnd_front {gap : Gap} {i n : Nat} (hend : s.gapEnd gap i n < a) :
    s'.gapEnd gap i n = s.gapEnd gap i n := by
  induction n generalizing gap i with
  | zero => cases gap <;> rfl
  | succ n ih =>
    rw [gapEnd_succ] at hend ⊢
    rw [gapEnd_succ]
    cases hnext : s.gapNext? gap i with
    | some next =>
      rw [hnext] at hend
      dsimp only at hend
      have hle := (s.le_gapEnd next (i + 1) n).1
      rw [h.gapNext?_eq (.inl (by omega)), hnext]
      exact ih hend
    | none =>
      rw [hnext] at hend
      rw [h.gapNext?_none hend hnext]

/-- A gap that comes to an offset in front of the comment does so if the comment is blanked. -/
theorem le_gapEnd {gap : Gap} {i n k : Nat} (hk : k < a) (hend : k ≤ s.gapEnd gap i n) :
    k ≤ s'.gapEnd gap i n := by
  induction n generalizing gap i with
  | zero => cases gap <;> exact hend
  | succ n ih =>
    rcases Nat.lt_or_ge i k with hlt | hge
    · rw [gapEnd_succ] at hend ⊢
      rw [h.gapNext?_eq (.inl (by omega))]
      split at hend
      · exact ih hend
      · exact hend
    · exact Nat.le_trans hge (s'.le_gapEnd gap i (n + 1)).1

theorem gapEnd_blanks {i n : Nat} (ha : a ≤ i) (hi : i ≤ e) :
    s'.gapEnd .blank i (e - i + n) = s'.gapEnd .blank e n := by
  induction hm : e - i generalizing i with
  | zero =>
    obtain rfl : i = e := by omega
    rw [Nat.zero_add]
  | succ m ih =>
    obtain ⟨b, hb, hspace⟩ := h.blank i ha (by omega)
    rw [show m + 1 + n = m + n + 1 by omega, gapEnd_succ,
      show s'.gapNext? .blank i = some .blank by rw [gapNext?, hb, Option.any_some, if_pos hspace]]
    exact ih (by omega) (by omega) (by omega)

end Blanked

/-- The gap from `i` on ends in front of the comment from `a` up to `e`, or starts behind it, or
passes over it. -/
def Keeps (s : MaskedText) (a e i : Nat) : Prop :=
  e ≤ i ∨ s.skipTrivia i < a ∨ s.Crosses a .blank i

namespace Blanked

variable {s s' : MaskedText} {a e : Nat} (h : Blanked s s' a e)
include h

theorem skipTrivia_of_crosses {i : Nat} (hcross : s.Crosses a .blank i) :
    s.skipTrivia i = s.gapEnd .blank e (s.size - e) := by
  have hle := hcross.le
  have := h.lt
  have := h.le
  unfold skipTrivia
  rw [Nat.min_eq_left (by omega), show s.size - i = a - i + (s.size - a) by omega, hcross.gapEnd,
    h.gapEnd]

/-- A gap that stands in front of the comment or behind it, or passes over it, ends where it did. -/
theorem skipTrivia_eq {i : Nat} (hi : s.Keeps a e i) : s'.skipTrivia i = s.skipTrivia i := by
  have := h.lt
  have := h.le
  rcases hi with hi | hi | hcross
  · unfold skipTrivia
    rw [h.size_eq]
    refine h.gapEnd_behind ?_ _
    omega
  · unfold skipTrivia at hi ⊢
    rw [h.size_eq]
    exact h.gapEnd_front hi
  · have hle := hcross.le
    rw [h.skipTrivia_of_crosses hcross]
    unfold skipTrivia
    rw [h.size_eq, Nat.min_eq_left (by omega), show s.size - i = a - i + (s.size - a) by omega,
      (h.crosses hcross).gapEnd, show s.size - a = e - a + (s.size - e) by omega,
      h.gapEnd_blanks (Nat.le_refl _) (by omega), h.gapEnd_behind (Nat.le_refl _)]

/-- Such a gap does not end in the comment. -/
theorem outside_skipTrivia {i : Nat} (hi : s.Keeps a e i) :
    s.skipTrivia i < a ∨ e ≤ s.skipTrivia i := by
  rcases hi with hi | hi | hcross
  · right
    have := h.le
    have := (s.le_gapEnd .blank (min i s.size) (s.size - i)).1
    unfold skipTrivia
    omega
  · exact .inl hi
  · right
    rw [h.skipTrivia_of_crosses hcross]
    exact (s.le_gapEnd .blank e _).1

theorem le_skipTrivia {i k : Nat} (hk : k < a) (hi : k ≤ s.skipTrivia i) : k ≤ s'.skipTrivia i := by
  unfold skipTrivia at hi ⊢
  rw [h.size_eq]
  exact h.le_gapEnd hk hi

theorem skipSemicolon_eq {i : Nat} (hi : s.Keeps a e i) :
    s'.skipSemicolon i = s.skipSemicolon i := by
  unfold skipSemicolon
  dsimp only
  rw [h.skipTrivia_eq hi, h.byte? _ (h.outside_skipTrivia hi)]

end Blanked

end PageLang.MaskedText
