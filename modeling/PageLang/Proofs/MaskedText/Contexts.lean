import PageLang.Proofs.Mask.Contexts
import PageLang.Proofs.Mask.Values
import PageLang.Proofs.MaskedText.Bodies
import PageLang.Proofs.MaskedText.Braces

/-!
# The mask behind gaps, parameter lists and blocks

A gap leaves the mask in the context in which it starts, and so does a parameter list. A block does
so too, as long as the lists in it close the braces that they open: the brace that the parser takes
for the end of the block is then the one that the mask does.

* `MaskedText.gapEnd_fits`: a gap in live text or behind a parameter list.
* `MaskedText.region_behind_list`: the text behind the parenthesis that ends a list.
* `MaskedText.ListsMatch`: the parameter lists that begin in a stretch of text.
* `MaskedText.BlockAt.counts`, `MaskedText.BlockAt.stateAt_close`: the mask in a block, and behind
  it.
-/

namespace PageLang

open Mask

theorem Mask.State.eq_of_into {s s' : State} (h : s.into .live = s'.into .live)
    (hregion : s.region = s'.region) : s = s' := by
  obtain ⟨region, mode, depth, outer⟩ := s
  obtain ⟨region', mode', depth', outer'⟩ := s'
  cases hregion
  cases h
  rfl

namespace MaskedText

open Cell

variable {t : Text} {i : Nat}

/-! ## Gaps -/

/-- What the mask may stand in at a byte of a gap: what the gap takes the byte for, or the mask
still waits for a body behind a parameter list. -/
def Gap.Fits (gap : Gap) (region : Mask.Region) : Prop :=
  region = gap.region ∨ gap = .blank ∧ region = .afterParameters

/-- A byte of a gap is masked or blank, fits what the gap goes on as, and opens no context. -/
structure GapByte (t : Text) (i : Nat) (next : Gap) : Prop where
  live : ∀ b, (ofText .declarations t).liveByte? i = some b → Byte.isSpace b = true
  fits : next.Fits (stateAt t (i + 1)).region
  context : (stateAt t (i + 1)).into .live = (stateAt t i).into .live

theorem GapByte.of_masked {b : UInt8} {next : Gap} (hb : t[i]? = some b)
    (hread : (stateAt t i).read (t.take i).reverse b (t.drop (i + 1)) =
      (true, (stateAt t i).into next.region)) : GapByte t i next := by
  have hpasses : Passes t i next := passes_masked hb (by rw [hread]) (by rw [hread]; rfl)
  exact ⟨hpasses.live, .inl hpasses.region, by rw [stateAt_succ hb, hread]; rfl⟩

theorem GapByte.of_space {b : UInt8} (hb : t[i]? = some b) (hspace : Byte.isSpace b = true)
    (hregion : (stateAt t i).region = .live ∨ (stateAt t i).region = .afterParameters) :
    GapByte t i .blank := by
  have hlive : ∀ c, (ofText .declarations t).liveByte? i = some c → Byte.isSpace c = true := by
    intro c hc
    rw [byte_of_liveByte? hc] at hb
    cases hb
    exact hspace
  rcases hregion with hregion | hregion
  · have hnext : stateAt t (i + 1) = (stateAt t i).into .live := by
      rw [stateAt_succ hb, State.read_space hregion hspace]
    exact ⟨hlive, .inl (by rw [hnext]; rfl), by rw [hnext]; rfl⟩
  · have hnext : stateAt t (i + 1) = stateAt t i := by
      rw [stateAt_succ hb]
      unfold State.read
      rw [hregion]
      dsimp only [State.readAfterParameters]
      rw [if_pos hspace]
    exact ⟨hlive, .inr ⟨rfl, by rw [hnext, hregion]⟩, by rw [hnext]⟩

/-- A slash behind a parameter list is read as in live text. -/
theorem read_slash {s : State} (h : s.region = .live ∨ s.region = .afterParameters)
    (before rest : Text) : s.read before Byte.slash rest = s.readLive before Byte.slash rest := by
  unfold State.read
  rcases h with h | h
  · rw [h]
  · rw [h]
    rfl

theorem gapByte_of_blank {b : UInt8} {next : Gap} (hb : t[i]? = some b)
    (hregion : (stateAt t i).region = .live ∨ (stateAt t i).region = .afterParameters)
    (h : (ofText .declarations t).gapNext? .blank i = some next) : GapByte t i next := by
  rw [gapNext?, byte?_ofText, hb, Option.any_some] at h
  split at h
  · next hspace =>
    cases h
    exact .of_space hb hspace hregion
  split at h
  · next hline =>
    cases h
    obtain ⟨hslash, hnext⟩ :=
      bytes_of_startsAt (a := Byte.slash) (c := Byte.slash) (by decide) hline
    refine .of_masked hslash ?_
    rw [read_slash hregion]
    unfold State.readLive
    rw [if_neg (by decide), if_neg (by decide), if_pos ⟨rfl, hnext⟩]
    rfl
  split at h
  · next hblock =>
    cases h
    obtain ⟨hslash, hnext⟩ :=
      bytes_of_startsAt (a := Byte.slash) (c := Byte.star) (by decide) hblock
    refine .of_masked hslash ?_
    rw [read_slash hregion]
    unfold State.readLive
    rw [if_neg (by decide), if_neg (by decide), if_neg (by rw [hnext]; decide),
      if_pos ⟨rfl, hnext⟩]
    rfl
  · cases h

theorem gapByte_of_comment {b : UInt8} {gap next : Gap} (hb : t[i]? = some b)
    (hgap : gap ≠ .blank) (hregion : (stateAt t i).region = gap.region)
    (h : (ofText .declarations t).gapNext? gap i = some next) : GapByte t i next := by
  have hpasses := passes_of_gapNext? hb hregion h
  refine ⟨hpasses.live, .inl hpasses.region, ?_⟩
  rw [stateAt_succ hb]
  unfold State.read
  rw [hregion]
  cases gap with
  | blank => exact absurd rfl hgap
  | opening | block star => rfl
  | line =>
    dsimp only [Gap.region]
    split <;> rfl

theorem gapByte {b : UInt8} {gap next : Gap} (hb : t[i]? = some b)
    (hfits : gap.Fits (stateAt t i).region)
    (h : (ofText .declarations t).gapNext? gap i = some next) : GapByte t i next := by
  rcases hfits with hregion | ⟨rfl, hregion⟩
  · by_cases hgap : gap = .blank
    · subst hgap
      exact gapByte_of_blank hb (.inl hregion) h
    · exact gapByte_of_comment hb hgap hregion h
  · exact gapByte_of_blank hb (.inr hregion) h

/-- A gap in live text, or behind a parameter list, hides no live byte but blank space and leaves
the mask in its context. Where it ends inside the text, the text is live, or the mask waits for a
body. -/
theorem gapEnd_fits {gap : Gap} {count : Nat} (hcount : i + count = t.length)
    (hfits : gap.Fits (stateAt t i).region) {stop : Nat}
    (hstop : (ofText .declarations t).gapEnd gap i count = stop) :
    (∀ k, i ≤ k → k < stop → ∀ b, (ofText .declarations t).liveByte? k = some b →
      Byte.isSpace b = true) ∧
    (stateAt t stop).into .live = (stateAt t i).into .live ∧
    (stop < t.length →
      (stateAt t stop).region = .live ∨ (stateAt t stop).region = .afterParameters) := by
  induction count generalizing gap i with
  | zero =>
    rw [gapEnd] at hstop
    subst hstop
    exact ⟨fun k h1 h2 => absurd h2 (Nat.not_lt.2 h1), rfl, fun h => by omega⟩
  | succ count ih =>
    rw [gapEnd_succ] at hstop
    cases hnext : (ofText .declarations t).gapNext? gap i with
    | none =>
      rw [hnext] at hstop
      subst hstop
      -- only a blank gap ends
      obtain rfl : gap = .blank := by cases gap <;> first | rfl | cases hnext
      exact ⟨fun k h1 h2 => absurd h2 (Nat.not_lt.2 h1), rfl, fun _ => hfits.imp id And.right⟩
    | some next =>
      rw [hnext] at hstop
      have hbyte := gapByte (List.getElem?_eq_getElem (by omega)) hfits hnext
      obtain ⟨hhidden, hcontext, hend⟩ := ih (by omega) hbyte.fits hstop
      refine ⟨fun k hk => ?_, hcontext.trans hbyte.context, hend⟩
      rcases Nat.eq_or_lt_of_le hk with rfl | hlt
      · exact fun _ => hbyte.live
      · exact hhidden k hlt

/-- The same for the gap that is skipped from an offset on. -/
theorem skipTrivia_fits (hi : i ≤ t.length)
    (hregion : (stateAt t i).region = .live ∨ (stateAt t i).region = .afterParameters) :
    (∀ k, i ≤ k → k < (ofText .declarations t).skipTrivia i → ∀ b,
      (ofText .declarations t).liveByte? k = some b → Byte.isSpace b = true) ∧
    (stateAt t ((ofText .declarations t).skipTrivia i)).into .live = (stateAt t i).into .live ∧
    ((ofText .declarations t).skipTrivia i < t.length →
      (stateAt t ((ofText .declarations t).skipTrivia i)).region = .live ∨
        (stateAt t ((ofText .declarations t).skipTrivia i)).region = .afterParameters) := by
  have hfits : Gap.blank.Fits (stateAt t i).region := hregion.imp id fun h => ⟨rfl, h⟩
  refine gapEnd_fits (Nat.add_sub_cancel' hi) hfits ?_
  unfold skipTrivia
  rw [size_ofText, Nat.min_eq_left hi]

/-- Behind a gap in live text the mask stands as in front of it. -/
theorem stateAt_skipTrivia (hlive : (stateAt t i).region = .live)
    (hlt : (ofText .declarations t).skipTrivia i < t.length) :
    stateAt t ((ofText .declarations t).skipTrivia i) = stateAt t i := by
  have hi : i ≤ t.length := by
    have hsize : (ofText .declarations t).skipTrivia i < (ofText .declarations t).size := by
      rw [size_ofText]
      exact hlt
    exact Nat.le_trans (le_skipTrivia_of_lt hsize) (Nat.le_of_lt hlt)
  refine State.eq_of_into (skipTrivia_fits hi (.inl hlive)).2.1 ?_
  rw [hlive]
  exact ((show Between t i from ⟨hi, fun _ => hlive⟩).startsStatement hlt).live

/-! ## Parameter lists -/

/-- If the mask stands in a parameter list at `i`, fewer than `n` parentheses are open in the list. -/
def ListBelow (t : Text) (n i : Nat) : Prop :=
  ∀ m, (stateAt t i).region = .parameters m → 0 < m ∧ m < n

namespace ListBelow

variable {n m : Nat} {b : UInt8}

/-- A list behind a byte goes on with the byte, or begins with it. -/
theorem region_succ (h : ListBelow t n i) (hb : t[i]? = some b)
    (hm : (stateAt t (i + 1)).region = .parameters m) :
    (∃ k, 0 < k ∧ k < n ∧ (stateAt t i).region = .parameters k ∧
      ((stateAt t i).readParameters k b).2.region = .parameters m) ∨
      (stateAt t i).region = .afterColon ∧ b = Byte.lparen ∧ m = 1 := by
  rw [stateAt_succ hb] at hm
  rcases State.region_eq_parameters hm with ⟨k, hk, hread⟩ | hnew
  · exact .inl ⟨k, (h k hk).1, (h k hk).2, hk, hread⟩
  · exact .inr hnew

/-- The bytes of a list are live, and so is the parenthesis that begins it. -/
theorem masked (h : ListBelow t n i) (hb : t[i]? = some b)
    (hlive : (ofText .declarations t).liveByte? i = none) : ListBelow t n (i + 1) := by
  intro m hm
  exfalso
  rcases h.region_succ hb hm with ⟨k, -, -, hk, -⟩ | ⟨hcolon, rfl, -⟩
  · rw [liveByte?_of_parameters (List.getElem?_eq_some_iff.1 hb).1 hk] at hlive
    cases hlive
  · rw [liveByte?_of_read hb (by unfold State.read; rw [hcolon]; rfl)] at hlive
    cases hlive

theorem lparen (h : ListBelow t n i) (hpos : 0 < n) (hb : t[i]? = some Byte.lparen) :
    ListBelow t (n + 1) (i + 1) := by
  intro m hm
  rcases h.region_succ hb hm with ⟨k, -, hkn, -, hread⟩ | ⟨-, -, rfl⟩
  · dsimp only [State.readParameters] at hread
    rw [if_pos rfl] at hread
    cases hread
    omega
  · omega

theorem rparen (h : ListBelow t n i) (hb : t[i]? = some Byte.rparen) :
    ListBelow t (n - 1) (i + 1) := by
  intro m hm
  rcases h.region_succ hb hm with ⟨k, -, hkn, -, hread⟩ | ⟨-, hparen, -⟩
  · dsimp only [State.readParameters] at hread
    rw [if_neg (by decide), if_pos rfl] at hread
    split at hread
    · cases hread
    · cases hread
      omega
  · cases hparen

theorem plain (h : ListBelow t n i) (hb : t[i]? = some b) (hl : b ≠ Byte.lparen)
    (hr : b ≠ Byte.rparen) : ListBelow t n (i + 1) := by
  intro m hm
  rcases h.region_succ hb hm with ⟨k, hk, hkn, hregion, hread⟩ | ⟨-, hparen, -⟩
  · dsimp only [State.readParameters] at hread
    rw [if_neg hl, if_neg hr, hregion] at hread
    cases hread
    exact ⟨hk, hkn⟩
  · exact absurd hparen hl

/-- With no list open, the text behind a live closing parenthesis is live. -/
theorem region_last (h : ListBelow t n i) (hn : n ≤ 1)
    (hlive : (ofText .declarations t).liveByte? i = some Byte.rparen) :
    (stateAt t (i + 1)).region = .live := by
  have hb := byte_of_liveByte? hlive
  have hmask := (liveByte?_eq_some hlive).1
  rw [isMasked_ofText hb] at hmask
  rw [stateAt_succ hb]
  refine State.region_of_rparen hmask fun m hm => ?_
  have hlt := h m hm
  omega

/-- Outside parameter lists, the text behind the parenthesis that the parser finds is live. -/
theorem region_closing? {count close : Nat} (hcount : i + count = t.length)
    (h : ListBelow t n i) (hpos : 0 < n)
    (hclose : (ofText .declarations t).closing? (· == Byte.lparen) (· == Byte.rparen) n i count =
      some close) :
    (stateAt t (close + 1)).region = .live := by
  induction count generalizing n i with
  | zero => simp [closing?] at hclose
  | succ count ih =>
    have hcount' : i + 1 + count = t.length := by omega
    have hbyte : t[i]? = some t[i] := List.getElem?_eq_getElem (by omega)
    unfold closing? at hclose
    cases hlive : (ofText .declarations t).liveByte? i with
    | none =>
      rw [hlive] at hclose
      exact ih hcount' (h.masked hbyte hlive) hpos hclose
    | some b =>
      rw [hlive] at hclose
      have hb := byte_of_liveByte? hlive
      dsimp only at hclose
      by_cases hl : b = Byte.lparen
      · rw [if_pos (beq_iff_eq.2 hl)] at hclose
        exact ih hcount' (h.lparen hpos (hl ▸ hb)) (Nat.succ_pos n) hclose
      rw [if_neg (mt beq_iff_eq.1 hl)] at hclose
      by_cases hr : b = Byte.rparen
      · rw [if_pos (beq_iff_eq.2 hr)] at hclose
        split at hclose
        · next hlast =>
          cases hclose
          exact h.region_last hlast (hr ▸ hlive)
        · exact ih hcount' (h.rparen (hr ▸ hb)) (by omega) hclose
      · rw [if_neg (mt beq_iff_eq.1 hr)] at hclose
        exact ih hcount' (h.plain hb hl hr) hpos hclose

end ListBelow

/-- Behind the parenthesis that ends the list of a declaration in live text, no list is open. -/
theorem region_behind_list {paren close : Nat}
    (hregion : (stateAt t paren).region = .live ∨ (stateAt t paren).region = .afterColon)
    (hparen : t[paren]? = some Byte.lparen)
    (hclose : (ofText .declarations t).closingParen? paren = some close) :
    (stateAt t (close + 1)).region = .live ∨ (stateAt t (close + 1)).region = .afterParameters := by
  by_cases hlist : (stateAt t paren).region = .afterColon ∧
      closesParens 1 (t.drop (paren + 1)) = true
  · exact .inr (ListsParameters.region_close ⟨hlist.1, hlist.2⟩ hparen hclose)
  · have hread : (stateAt t paren).read (t.take paren).reverse Byte.lparen (t.drop (paren + 1)) =
        (false, (stateAt t paren).into .live) := by
      unfold State.read
      rcases hregion with hregion | hregion
      · rw [hregion]
        rfl
      · rw [hregion]
        dsimp only [State.readAfterColon]
        rw [if_neg (by decide), if_pos rfl, if_neg fun hcloses => hlist ⟨hregion, hcloses⟩]
    have hlive : (ofText .declarations t).liveByte? paren = some Byte.lparen :=
      liveByte?_of_read hparen (by rw [hread])
    have hlt := (List.getElem?_eq_some_iff.1 hparen).1
    obtain ⟨count, hcount⟩ : ∃ count, paren + (count + 1) = t.length :=
      ⟨t.length - paren - 1, by omega⟩
    rw [closingParen?, size_ofText, show t.length - paren = count + 1 by omega, closing?,
      hlive] at hclose
    have hbelow : ListBelow t 1 (paren + 1) := by
      intro m hm
      rw [stateAt_succ hparen, hread] at hm
      cases hm
    exact .inl (hbelow.region_closing? (by omega) Nat.one_pos hclose)

/-! ## Blocks -/

/-- The parameter list that begins at `paren` ends in front of `stop`, for the mask as for the
parser, and the braces in it match. -/
def ListEnds (t : Text) (paren stop : Nat) : Prop :=
  ∃ last < stop, closesParens 1 (t.drop (paren + 1)) = true ∧
    (ofText .declarations t).closingParen? paren = some last ∧
    depth? 1 ((ofText .declarations t).piece paren (last + 1)) = some 1

instance (t : Text) (paren stop : Nat) : Decidable (ListEnds t paren stop) :=
  inferInstanceAs (Decidable (∃ last < stop, _))

/-- The parameter lists that begin behind `opening` and in front of `stop` end there, and the braces
in them match. -/
def ListsMatch (t : Text) (opening stop : Nat) : Prop :=
  ∀ paren < stop, opening < paren → (stateAt t paren).region = .afterColon →
    t[paren]? = some Byte.lparen → ListEnds t paren stop

instance (t : Text) (opening stop : Nat) : Decidable (ListsMatch t opening stop) :=
  inferInstanceAs (Decidable (∀ paren < stop, _ → _ → _ → ListEnds t paren stop))

theorem piece_succ {s : MaskedText} {b : UInt8} (hb : s.byte? i = some b) :
    s.piece i (i + 1) = [(b, s.isMasked i)] := by
  unfold piece
  rw [drop_cells hb, Nat.add_sub_cancel_left]
  rfl

theorem openAt_succ {s : MaskedText} {opening : Nat} {b : UInt8} (h : opening < i)
    (hb : s.byte? i = some b) : s.openAt opening (i + 1) =
      (s.openAt opening i).bind fun n => step? n (b, s.isMasked i) := by
  rw [openAt_trans h (Nat.le_succ i), piece_succ hb]
  simp only [depth?_cons, depth?_nil, Option.bind_fun_some]

section
variable {opening close : Nat}

/-- At `i` the mask stands outside all parameter lists in the block that begins at `opening`, with
as many braces open as the parser has counted. -/
structure Counts (t : Text) (opening i : Nat) : Prop where
  region : ∀ n, (stateAt t i).region ≠ .parameters n
  braces : ∃ k, (ofText .declarations t).openAt opening i = some k ∧
    (stateAt t opening).OpenIn k (stateAt t i)

/-- One byte of a block that begins no parameter list. -/
theorem Counts.succ (h : Counts t opening i) (hi : opening < i)
    (hclose : (ofText .declarations t).closingBrace? opening = some close) (hlt : i < close)
    (hlist : ¬ ((stateAt t i).region = .afterColon ∧ t[i]? = some Byte.lparen)) :
    Counts t opening (i + 1) := by
  obtain ⟨k, hopen, hin⟩ := h.braces
  have hsize := (closingBrace?_eq_some hclose).2
  rw [size_ofText] at hsize
  have hbyte : t[i]? = some t[i] := List.getElem?_eq_getElem (by omega)
  have hnext := openAt_succ (s := ofText .declarations t) hi (by rw [byte?_ofText]; exact hbyte)
  rw [hopen, Option.bind_some, isMasked_ofText hbyte] at hnext
  have hread := hin.read (t.take i).reverse t[i] (t.drop (i + 1)) fun _ => h.region
  have hsome := (isSome_openAt_iff hclose (by omega : opening < i + 1)).2 hlt
  rw [hnext] at hsome
  obtain ⟨n, hn⟩ := Option.isSome_iff_exists.1 hsome
  rw [hn] at hread
  refine ⟨fun m hm => ?_, n, hnext.trans hn, by rw [stateAt_succ hbyte]; exact hread⟩
  rw [stateAt_succ hbyte] at hm
  rcases State.region_eq_parameters hm with ⟨m', hm', -⟩ | ⟨hcolon, hparen, -⟩
  · exact h.region m' hm'
  · exact hlist ⟨hcolon, by rw [hbyte, hparen]⟩

/-- In a block in which the lists match, the mask counts the braces as the parser does. -/
theorem Counts.of_le (hlists : ListsMatch t opening close)
    (hclose : (ofText .declarations t).closingBrace? opening = some close)
    {q p : Nat} (hq : opening < q) (hqp : q ≤ p) (hp : p ≤ close) (h : Counts t opening q)
    (hregion : p = close ∨ ∀ n, (stateAt t p).region ≠ .parameters n) : Counts t opening p := by
  induction hn : p - q using Nat.strongRecOn generalizing q with
  | ind n ih =>
    rcases Nat.eq_or_lt_of_le hqp with rfl | hlt
    · exact h
    by_cases hlist : (stateAt t q).region = .afterColon ∧ t[q]? = some Byte.lparen
    · -- the list is passed over as a whole
      obtain ⟨last, hlast, hcloses, hrparen, hdepth⟩ := hlists q (by omega) hq hlist.1 hlist.2
      obtain ⟨hin, hend⟩ := ListsParameters.stateAt_close ⟨hlist.1, hcloses⟩ hlist.2 hrparen
      have hqlast := (closingParen?_eq_some hrparen).1
      have hlastp : last < p := by
        rcases hregion with rfl | hregion
        · exact hlast
        · refine Nat.lt_of_not_le fun hle => ?_
          obtain ⟨m, hm⟩ := hin p hlt hle
          exact hregion m hm
      obtain ⟨k, hopen, hopenIn⟩ := h.braces
      refine ih (p - (last + 1)) (by omega) (by omega) hlastp ⟨fun n hn => ?_, k, ?_, ?_⟩ rfl
      · rw [hend] at hn
        cases hn
      · rw [openAt_of_balanced hq (by omega) (balanced_of_depth? hdepth), hopen]
      · rw [hend]
        exact hopenIn.into _
    · exact ih (p - (q + 1)) (by omega) (by omega) hlt (h.succ hq hclose (by omega) hlist) rfl

end

/-- The lists of a block inside end in that block. -/
theorem ListsMatch.inner {opening stop inner last : Nat} (h : ListsMatch t opening stop)
    (hclose : (ofText .declarations t).closingBrace? inner = some last) (ho : opening < inner)
    (hlast : last ≤ stop) : ListsMatch t inner last := by
  intro paren hlt hin hregion hparen
  obtain ⟨close, -, hcloses, hrparen, hdepth⟩ := h paren (by omega) (by omega) hregion hparen
  refine ⟨close, ?_, hcloses, hrparen, hdepth⟩
  have hle := (closingParen?_eq_some hrparen).1
  have hopen := (isSome_openAt_iff hclose hin).2 (Nat.le_of_lt hlt)
  rw [← openAt_of_balanced hin (by omega) (balanced_of_depth? hdepth)] at hopen
  exact (isSome_openAt_iff hclose (by omega)).1 hopen

/-- A block outside all parameter lists, in which the lists match. -/
structure BlockAt (t : Text) (opening close : Nat) : Prop where
  lbrace : (ofText .declarations t).liveByte? opening = some Byte.lbrace
  closes : (ofText .declarations t).closingBrace? opening = some close
  region : ∀ n, (stateAt t opening).region ≠ .parameters n
  lists : ListsMatch t opening close

namespace BlockAt

variable {opening close : Nat} (h : BlockAt t opening close)
include h

/-- Behind the brace that opens the block, one brace is open, and the next one to close is live. -/
theorem first : (stateAt t opening).OpenIn 1 (stateAt t (opening + 1)) ∧
    (stateAt t (opening + 1)).closeBrace.1 = false := by
  have hbyte := byte_of_liveByte? h.lbrace
  have hmask := (liveByte?_eq_some h.lbrace).1
  rw [isMasked_ofText hbyte] at hmask
  rw [stateAt_succ hbyte]
  exact State.openIn_of_lbrace hmask h.region

theorem region_first : (stateAt t (opening + 1)).region = .live := by
  rcases live_or_parameters h.lbrace (.inr (.inl rfl)) with hlive | ⟨n, hn⟩
  · exact hlive
  · rw [stateAt_succ (byte_of_liveByte? h.lbrace)] at hn
    rcases State.region_eq_parameters hn with ⟨k, hk, -⟩ | ⟨-, hparen, -⟩
    · exact absurd hk (h.region k)
    · cases hparen

/-- In the block the mask counts the braces as the parser does. -/
theorem counts {p : Nat} (hp : opening < p) (hclose : p ≤ close)
    (hregion : p = close ∨ ∀ n, (stateAt t p).region ≠ .parameters n) : Counts t opening p := by
  refine .of_le h.lists h.closes (Nat.lt_succ_self opening) hp hclose
    ⟨fun n hn => ?_, 1, ?_, h.first.1⟩ hregion
  · rw [h.region_first] at hn
    cases hn
  · unfold openAt piece
    rw [Nat.sub_self]
    rfl

/-- Behind the block the mask stands in live text, in the context in front of the block. -/
theorem stateAt_close : stateAt t (close + 1) = (stateAt t opening).into .live := by
  have hlt := (closingBrace?_eq_some h.closes).1
  obtain ⟨hregion, k, hopen, hin⟩ := h.counts hlt (Nat.le_refl close) (.inl rfl)
  obtain rfl : 1 = k := Option.some.inj ((openAt_close h.closes).symm.trans hopen)
  have hlive := liveByte?_of_closingBrace? h.closes
  have hbyte := byte_of_liveByte? hlive
  have hmask := (liveByte?_eq_some hlive).1
  have hread := hin.read (t.take close).reverse Byte.rbrace (t.drop (close + 1)) fun _ => hregion
  rw [isMasked_ofText hbyte] at hmask
  rw [hmask] at hread
  rw [stateAt_succ hbyte]
  exact hread

/-- A block inside. -/
theorem inner {inside last : Nat}
    (hlive : (ofText .declarations t).liveByte? inside = some Byte.lbrace)
    (hlast : (ofText .declarations t).closingBrace? inside = some last) (ho : opening < inside)
    (hi : inside < close) (hregion : ∀ n, (stateAt t inside).region ≠ .parameters n) :
    last < close ∧ BlockAt t inside last := by
  have hle := closingBrace?_lt h.closes hlive hlast ho hi
  exact ⟨hle, hlive, hlast, hregion, h.lists.inner hlast ho (Nat.le_of_lt hle)⟩

/-- Between the statements of the block, a closing brace is live. -/
theorem liveByte?_rbrace {p : Nat} (hstate : stateAt t p = stateAt t (opening + 1))
    (hbyte : t[p]? = some Byte.rbrace) :
    (ofText .declarations t).liveByte? p = some Byte.rbrace := by
  refine liveByte?_of_read hbyte ?_
  unfold State.read
  rw [hstate, h.region_first]
  exact h.first.2

/-- In the context of the block a live closing brace is the one that closes the block. -/
theorem eq_close {p : Nat} (hp : opening < p) (hclose : p ≤ close)
    (hlive : (ofText .declarations t).liveByte? p = some Byte.rbrace)
    (hregion : ∀ n, (stateAt t p).region ≠ .parameters n)
    (hcontext : (stateAt t p).into .live = stateAt t (opening + 1)) : p = close := by
  refine (Nat.eq_or_lt_of_le hclose).resolve_right fun hlt => ?_
  obtain ⟨-, k, hopen, hin⟩ := h.counts hp hclose (.inr hregion)
  have hone := hin.into .live
  rw [hcontext] at hone
  obtain rfl := hone.unique h.first.1
  obtain ⟨hmask, hbyte⟩ := liveByte?_eq_some hlive
  have hnone := openAt_succ hp hbyte
  rw [hopen, hmask] at hnone
  have hsome := (isSome_openAt_iff h.closes (by omega : opening < p + 1)).2 hlt
  rw [hnone] at hsome
  cases hsome

end BlockAt

end MaskedText

end PageLang
