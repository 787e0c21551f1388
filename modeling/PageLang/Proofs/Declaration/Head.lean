import PageLang.Proofs.Declaration.WellFormed
import PageLang.Proofs.Element.Blanked
import PageLang.Proofs.MaskedText.Contexts
import PageLang.Proofs.RoundTrip.Member

/-!
# The head of a declaration

Where a declaration starts in live text, its name is live text up to the colon, and the value begins
behind a colon that opens one, or in live text. In a text of declarations the colon does open a
value, since the bytes of the name in front of it start no statement.

* `MaskedText.HeadAt`, `MaskedText.headAt_of_declaration?`: a name and the colon that ends it.
* `MaskedText.stateAt_nameEnd`: the mask at the colon.
* `MaskedText.HeadAt.stateAt_value`: the mask where the value begins.
* `MaskedText.stateAt_afterBlock`: the semicolon that belongs to a block.
-/

namespace PageLang

/-! ## Bytes of names -/

/-- A byte that may stand in front of the colon of a declaration: no rule of live text looks at it,
and it is no part of a parameter list or an end of a statement. -/
def Byte.isNaming (b : UInt8) : Bool :=
  isPlain b && !(b == lparen || b == rparen || b == semicolon)

namespace Text

/-- What holds of all marks, and of what is left behind them, holds of the whole text. -/
theorem forall_of_stripMarks {p : UInt8 → Prop} {marks : List Text} (hne : [] ∉ marks)
    (hmarks : ∀ m ∈ marks, ∀ b ∈ m, p b) {inside : Nat} {t : Text}
    (hinside : ∀ b ∈ t.take inside, p b) (h : ∀ b ∈ stripMarks marks inside t, p b) :
    ∀ b ∈ t, p b := by
  induction t generalizing inside with
  | nil => exact fun b hb => nomatch hb
  | cons c rest ih =>
    cases inside with
    | succ inside =>
      rw [List.take_succ_cons, List.forall_mem_cons] at hinside
      exact List.forall_mem_cons.2 ⟨hinside.1, ih hinside.2 h⟩
    | zero =>
      rw [stripMarks] at h
      split at h
      · next m hfind =>
        have hm := List.mem_of_find?_eq_some hfind
        obtain ⟨more, hmore⟩ := List.isPrefixOf_iff_prefix.1
          (List.find?_some (p := fun m => List.isPrefixOf m (c :: rest)) hfind)
        cases m with
        | nil => exact absurd hm hne
        | cons b m =>
          obtain ⟨rfl, rfl⟩ : b = c ∧ m ++ more = rest := by simpa using hmore
          have hmark := List.forall_mem_cons.1 (hmarks _ hm)
          refine List.forall_mem_cons.2 ⟨hmark.1, ih (fun d hd => hmark.2 d ?_) h⟩
          simpa using hd
      · exact h

/-- What holds of the bytes of blanks and of a trimmed text holds of the text. -/
theorem forall_of_trim {p : UInt8 → Prop} (hblanks : ∀ m ∈ blanks, ∀ b ∈ m, p b) {t : Text}
    (h : ∀ b ∈ trim t, p b) : ∀ b ∈ t, p b := by
  have hend : ∀ b ∈ trimStart t, p b := by
    have hmarks : ∀ m ∈ blanks.map List.reverse, ∀ b ∈ m, p b := by
      intro m hm b hb
      obtain ⟨m', hm', rfl⟩ := List.mem_map.1 hm
      exact hblanks m' hm' b (List.mem_reverse.1 hb)
    have hstrip : ∀ b ∈ stripMarks (blanks.map List.reverse) 0 (trimStart t).reverse, p b :=
      fun b hb => h b (List.mem_reverse.2 hb)
    intro b hb
    exact forall_of_stripMarks (by decide) hmarks (by simp) hstrip b (List.mem_reverse.2 hb)
  have hstart : ∀ b ∈ stripMarks blanks 0 t, p b := hend
  exact forall_of_stripMarks (by decide) hblanks (by simp) hstart

theorem subset_trim (t : Text) : trim t ⊆ t :=
  List.Subset.trans (prefix_trimEnd _).subset (suffix_stripMarks blanks 0 t).subset

end Text

theorem Byte.ne_of_isNaming : ∀ b, isNaming b = true →
    b ≠ lparen ∧ b ≠ lbrace ∧ b ≠ semicolon ∧ b ≠ rbrace :=
  forall_of_nibbles (by decide)

theorem Byte.isNaming_of_isNamePart : ∀ b, isNamePart b = true → isNaming b = true :=
  forall_of_nibbles (by decide)

theorem Declaration.splitSigil_cases (written : Text) : (splitSigil written).2 = written ∨
    ∃ b ∈ sigils, written = b :: (splitSigil written).2 := by
  cases written with
  | nil => exact .inl rfl
  | cons b rest =>
    rw [splitSigil]
    split
    · next hb => exact .inr ⟨b, List.contains_iff_mem.1 hb, rfl⟩
    · exact .inl rfl

/-- What stands in front of the colon of a declaration: bytes of the name, and possibly the colon
that is the sigil of a state. -/
theorem Declaration.naming_of_splitSigil {t : Text}
    (h : (splitSigil t.trim).2.isMemberName = true) :
    (∀ b ∈ t, Byte.isNaming b = true ∨ b = Byte.colon) ∧ ∃ b ∈ t, Byte.isNamePart b = true := by
  obtain ⟨b, rest, hname, hb, hall⟩ := Written.isMemberName_iff.1 h
  have hsigils : ∀ b ∈ sigils, Byte.isNaming b = true ∨ b = Byte.colon := by decide
  have hnaming : ∀ c ∈ (splitSigil t.trim).2, Byte.isNaming c = true ∨ c = Byte.colon :=
    fun c hc => .inl (Byte.isNaming_of_isNamePart c (hall c (hname ▸ hc)))
  obtain ⟨htrim, hfirst⟩ : (∀ c ∈ t.trim, Byte.isNaming c = true ∨ c = Byte.colon) ∧
      b ∈ t.trim := by
    rcases splitSigil_cases t.trim with heq | ⟨d, hd, heq⟩
    · rw [heq] at hname hnaming
      exact ⟨hnaming, hname ▸ .head _⟩
    · rw [heq]
      exact ⟨List.forall_mem_cons.2 ⟨hsigils d hd, hnaming⟩, .tail _ (hname ▸ .head _)⟩
  exact ⟨Text.forall_of_trim (by decide) htrim, b, Text.subset_trim t hfirst, hall b (.head _)⟩

/-! ## Names -/

namespace MaskedText

open Mask

variable {t : Text} {i colon : Nat}

theorem into_region {s : State} {region : Mask.Region} (h : s.region = region) :
    s.into region = s := by
  subst h
  rfl

/-- Bytes that no rule of live text looks at, and no parentheses, leave the mask as it is. -/
theorem stateAt_of_plain {a b : Nat} (hab : a ≤ b)
    (hregion : (stateAt t a).region = .live ∨ ∃ n, (stateAt t a).region = .parameters n)
    (hplain : ∀ k, a ≤ k → k < b → ∃ c, t[k]? = some c ∧ Byte.isPlain c = true ∧
      c ≠ Byte.lparen ∧ c ≠ Byte.rparen) : stateAt t b = stateAt t a := by
  induction hab with
  | refl => rfl
  | @step b hab ih =>
    have hsame := ih fun k hk hkb => hplain k hk (by omega)
    obtain ⟨c, hc, hcplain, hlparen, hrparen⟩ := hplain b hab (Nat.lt_succ_self b)
    rw [stateAt_succ hc, hsame]
    rcases hregion with hlive | ⟨n, hn⟩
    · rw [State.read_plain hlive hcplain]
      exact into_region hlive
    · unfold State.read
      rw [hn]
      dsimp only [State.readParameters]
      rw [if_neg hlparen, if_neg hrparen]

theorem read_colon {s : State} (h : s.region = .live ∨ s.region = .afterParameters)
    (before rest : Text) : s.read before Byte.colon rest = s.readLive before Byte.colon rest := by
  unfold State.read
  rcases h with h | h
  · rw [h]
  · rw [h]
    rfl

theorem liveByte?_colon (hregion : (stateAt t i).region = .live) (hb : t[i]? = some Byte.colon) :
    (ofText .declarations t).liveByte? i = some Byte.colon := by
  refine liveByte?_of_read hb ?_
  rw [read_colon (.inl hregion)]
  rcases State.readLive_colon_cases (stateAt t i) (t.take i).reverse (t.drop (i + 1)) with h | h <;>
    rw [h]

/-- What stands in front of the colon of a declaration. -/
def NamesFrom (t : Text) (i colon : Nat) : Prop :=
  ∀ k, i ≤ k → k < colon → ∃ b, t[k]? = some b ∧ (Byte.isNaming b = true ∨ b = Byte.colon)

theorem isNaming_iff {b : UInt8} : Byte.isNaming b = true ↔ Byte.isPlain b = true ∧
    b ≠ Byte.lparen ∧ b ≠ Byte.rparen ∧ b ≠ Byte.semicolon := by
  simp [Byte.isNaming, and_assoc]

/-- A name in live text is live text, as far as no live colon stands in it. -/
theorem stateAt_of_names {a : Nat} (hac : a ≤ colon) (hregion : (stateAt t a).region = .live)
    (hnames : NamesFrom t a colon)
    (hno : ∀ k, a ≤ k → k < colon → (ofText .declarations t).liveByte? k ≠ some Byte.colon) :
    stateAt t colon = stateAt t a := by
  have hprefix : ∀ b, a ≤ b → b ≤ colon → stateAt t b = stateAt t a := by
    intro b hab
    induction hab with
    | refl => exact fun _ => rfl
    | @step b hab ih =>
      intro hb
      have hsame := ih (by omega)
      obtain ⟨c, hc, hnaming | rfl⟩ := hnames b hab hb
      · rw [stateAt_succ hc, State.read_plain (hsame ▸ hregion) (isNaming_iff.1 hnaming).1, hsame]
        exact into_region hregion
      · exact absurd (liveByte?_colon (hsame ▸ hregion) hc) (hno b hab hb)
  exact hprefix colon hac (Nat.le_refl _)

/-- Behind a colon that opens a value, a name and a colon are masked. -/
theorem liveByte?_ne_of_afterColon {a : Nat} (hac : a ≤ colon)
    (hregion : (stateAt t a).region = .afterColon) (hnames : NamesFrom t a colon)
    (hcolon : t[colon]? = some Byte.colon) :
    (ofText .declarations t).liveByte? colon ≠ some Byte.colon := by
  -- the mask waits for the value, or reads it
  have hstays {k : Nat} {b : UInt8} (hb : Byte.isNaming b = true ∨ b = Byte.colon)
      (h : (stateAt t k).region = .afterColon ∧ Byte.isSpace b = false ∨
        (stateAt t k).region.isScalar = true) : ∃ r : Mask.Region, r.isScalar = true ∧
      (stateAt t k).read (t.take k).reverse b (t.drop (k + 1)) = (true, (stateAt t k).into r) := by
    have hne : b ≠ Byte.lparen ∧ b ≠ Byte.lbrace ∧ b ≠ Byte.semicolon ∧ b ≠ Byte.rbrace := by
      rcases hb with hb | rfl
      · exact Byte.ne_of_isNaming b hb
      · decide
    have hscalar : (stateAt t k).StaysScalar (t.take k).reverse b (t.drop (k + 1)) := by
      rcases h with ⟨hafter, hspace⟩ | hscalar
      · exact State.staysScalar_of_afterColon hafter hspace hne.1 hne.2.1
      · exact State.staysScalar_of_isScalar hscalar
    exact hscalar.resolve_right fun ⟨hend, _⟩ => hend.elim hne.2.2.1 hne.2.2.2
  have hwaits : ∀ b, a ≤ b → b ≤ colon →
      (stateAt t b).region = .afterColon ∨ (stateAt t b).region.isScalar = true := by
    intro b hab
    induction hab with
    | refl => exact fun _ => .inl hregion
    | @step b hab ih =>
      intro hb
      obtain ⟨c, hc, hnaming⟩ := hnames b hab hb
      rw [stateAt_succ hc]
      rcases ih (by omega) with hafter | hscalar
      · cases hspace : Byte.isSpace c with
        | true =>
          left
          unfold State.read
          rw [hafter]
          dsimp only [State.readAfterColon]
          rw [if_pos hspace, hafter]
        | false =>
          obtain ⟨r, hr, hread⟩ := hstays hnaming (.inl ⟨hafter, hspace⟩)
          rw [hread]
          exact .inr hr
      · obtain ⟨r, hr, hread⟩ := hstays hnaming (.inr hscalar)
        rw [hread]
        exact .inr hr
  intro hlive
  have hmask := (liveByte?_eq_some hlive).1
  obtain ⟨r, -, hread⟩ := hstays (k := colon) (.inr rfl)
    ((hwaits colon hac (Nat.le_refl _)).imp_left fun h => ⟨h, by decide⟩)
  rw [isMasked_ofText hcolon, hread] at hmask
  cases hmask

/-- The name of a declaration in live text is live text up to its colon. -/
theorem stateAt_nameEnd (hregion : (stateAt t i).region = .live)
    (hcolon : (ofText .declarations t).nameEnd? i = some colon) (hnames : NamesFrom t i colon) :
    stateAt t colon = stateAt t i := by
  obtain ⟨hle, hlive⟩ := nameEnd?_eq_some hcolon
  have hfind := announced?_of_nameEnd? hcolon
  unfold announced? at hfind
  have hno {a : Nat} (hfind : (ofText .declarations t).findAny?
      [Byte.colon, Byte.semicolon, Byte.lbrace, Byte.rbrace] a = some (colon, Byte.colon)) :
      ∀ k, a ≤ k → k < colon → (ofText .declarations t).liveByte? k ≠ some Byte.colon :=
    fun k hk hkc hc => not_mem_of_findAny? hfind hk hkc hc (.head _)
  by_cases hsigil : (ofText .declarations t).byte? i = some Byte.colon
  · rw [if_pos hsigil] at hfind
    rw [byte?_ofText] at hsigil
    have hin : i + 1 ≤ colon := (findAny?_eq_some hfind).1
    have hrest : NamesFrom t (i + 1) colon := fun k hk => hnames k (by omega)
    -- the sigil is live text, or else the colon behind the name is masked
    have hnext : (stateAt t (i + 1)).region = .afterColon ∨ stateAt t (i + 1) = stateAt t i := by
      rw [stateAt_succ hsigil, read_colon (.inl hregion)]
      rcases State.readLive_colon_cases (stateAt t i) (t.take i).reverse (t.drop (i + 1)) with
        h | h <;> rw [h]
      · exact .inl rfl
      · exact .inr (into_region hregion)
    rcases hnext with hafter | hsame
    · exact absurd hlive
        (liveByte?_ne_of_afterColon hin hafter hrest (byte_of_liveByte? hlive))
    · rw [← hsame] at hregion ⊢
      exact stateAt_of_names hin hregion hrest (hno hfind)
  · rw [if_neg hsigil] at hfind
    exact stateAt_of_names hle hregion hnames (hno hfind)

/-! ## Values -/

theorem blankFrom_skipSpace (h : (ofText .declarations t).skipSpace i < t.length) :
    BlankFrom t i ((ofText .declarations t).skipSpace i) := by
  intro k hk hlt
  rw [← byte?_ofText .declarations]
  exact isSpace_of_lt_skipSpace (by rwa [size_ofText]) hk hlt

/-- Blank space changes nothing in live text, behind a colon and in a parameter list. -/
theorem stateAt_of_blank {a b : Nat} (hab : a ≤ b)
    (hregion : (stateAt t a).region = .afterColon ∨ (stateAt t a).region = .live ∨
      ∃ n, (stateAt t a).region = .parameters n)
    (hblank : BlankFrom t a b) : stateAt t b = stateAt t a := by
  induction hab with
  | refl => rfl
  | @step b hab ih =>
    have hsame := ih fun k hk hkb => hblank k hk (by omega)
    obtain ⟨c, hc, hspace⟩ := (Option.any_eq_true _ _).1 (hblank b hab (Nat.lt_succ_self b))
    rw [stateAt_succ hc, hsame]
    rcases hregion with hcolon | hlive | ⟨n, hn⟩
    · unfold State.read
      rw [hcolon]
      dsimp only [State.readAfterColon]
      rw [if_pos hspace]
    · rw [State.read_space hlive hspace]
      exact into_region hlive
    · have hne : c ≠ Byte.lparen ∧ c ≠ Byte.rparen := by
        constructor <;>
        · rintro rfl
          cases hspace
      unfold State.read
      rw [hn]
      dsimp only [State.readParameters]
      rw [if_neg hne.1, if_neg hne.2]

/-- Behind bytes that end no statement, not all of them blank, no statement starts. -/
theorem startsStatement_append {w before : Text}
    (hw : ∀ b ∈ w, b ≠ Byte.semicolon ∧ b ≠ Byte.lbrace ∧ b ≠ Byte.rbrace)
    (hink : ∃ b ∈ w, Byte.isSpace b = false) : startsStatement (w ++ before) = false := by
  induction w with
  | nil =>
    obtain ⟨b, hb, -⟩ := hink
    cases hb
  | cons b w ih =>
    rw [List.forall_mem_cons] at hw
    unfold startsStatement
    rw [List.cons_append, List.dropWhile_cons]
    cases hspace : Byte.isSpace b with
    | true =>
      rw [if_pos rfl]
      refine ih hw.2 ?_
      obtain ⟨c, hc, hcspace⟩ := hink
      rcases List.mem_cons.1 hc with rfl | hc
      · rw [hspace] at hcspace
        cases hcspace
      · exact ⟨c, hc, hcspace⟩
    | false =>
      rw [if_neg Bool.false_ne_true]
      simp [hw.1]

/-- The head of a declaration that starts at `i`: its name, and the colon that ends it. -/
structure HeadAt (t : Text) (i colon : Nat) : Prop where
  nameEnd : (ofText .declarations t).nameEnd? i = some colon
  names : NamesFrom t i colon
  named : ∃ k, i ≤ k ∧ k < colon ∧ (t[k]?).any Byte.isNamePart = true

/-- A declaration that is read has a head, and a value behind it. -/
theorem headAt_of_declaration? {start next : Nat} {d : Declaration}
    (h : (ofText .declarations t).declaration? start = .ok (some (d, next))) :
    ∃ colon written, HeadAt t ((ofText .declarations t).skipTrivia start) colon ∧
      (ofText .declarations t).value ((ofText .declarations t).skipTrivia start)
        ((ofText .declarations t).skipSpace (colon + 1)) written =
          .ok (d.content.value, next) := by
  obtain ⟨-, colon, hcolon, hname, hmember, hvalue, -⟩ := parts_of_declaration? h
  generalize (ofText .declarations t).skipTrivia start = i at hcolon hname hmember hvalue ⊢
  obtain ⟨hle, hlive⟩ := nameEnd?_eq_some hcolon
  have hlt := byte?_eq_some_lt (liveByte?_eq_some hlive).2
  rw [size_ofText] at hlt
  obtain ⟨hall, b, hb, hpart⟩ := Declaration.naming_of_splitSigil hmember
  refine ⟨colon, _, ⟨hcolon, fun k hk hkc => ⟨t[k], List.getElem?_eq_getElem (by omega),
    hall _ ?_⟩, ?_⟩, hvalue⟩
  · rw [List.mem_iff_getElem?]
    refine ⟨k - i, ?_⟩
    rw [getElem?_slice (by omega), byte?_ofText, show i + (k - i) = k by omega]
    exact List.getElem?_eq_getElem (by omega)
  · obtain ⟨k, hk⟩ := List.mem_iff_getElem?.1 hb
    have hlength := (List.getElem?_eq_some_iff.1 hk).1
    rw [length_slice] at hlength
    rw [getElem?_slice (by omega), byte?_ofText] at hk
    exact ⟨i + k, by omega, by omega, by rw [hk]; exact hpart⟩

namespace HeadAt

variable (h : HeadAt t i colon)
include h

theorem live : (ofText .declarations t).liveByte? colon = some Byte.colon :=
  (nameEnd?_eq_some h.nameEnd).2

theorem byte : t[colon]? = some Byte.colon := byte_of_liveByte? h.live

theorem startsStatement_eq : startsStatement (t.take colon).reverse = false := by
  obtain ⟨k, hik, hkc, hk⟩ := h.named
  obtain ⟨c, hc, hpart⟩ := (Option.any_eq_true _ _).1 hk
  have hat {j : Nat} (hij : i ≤ j) (hjc : j < colon) :
      ((t.take colon).drop i)[j - i]? = t[j]? := by
    rw [List.getElem?_drop, show i + (j - i) = j by omega, List.getElem?_take_of_lt hjc]
  rw [← List.take_append_drop i (t.take colon), List.reverse_append]
  refine startsStatement_append (fun b hb => ?_) ⟨c, ?_, 
    Byte.isSpace_of_isInk c (Byte.isInk_of_isNamePart c hpart)⟩
  · obtain ⟨j, hj⟩ := List.mem_iff_getElem?.1 (List.mem_reverse.1 hb)
    have hlength := (List.getElem?_eq_some_iff.1 hj).1
    rw [List.length_drop, List.length_take] at hlength
    have hbyte := hat (j := i + j) (by omega) (by omega)
    rw [show i + j - i = j by omega, hj] at hbyte
    obtain ⟨b', hb', hnaming⟩ := h.names (i + j) (by omega) (by omega)
    rw [← hbyte] at hb'
    cases hb'
    rcases hnaming with hnaming | rfl
    · have hne := Byte.ne_of_isNaming b hnaming
      exact ⟨hne.2.2.1, hne.2.1, hne.2.2.2⟩
    · decide
  · rw [List.mem_reverse, List.mem_iff_getElem?]
    exact ⟨k - i, by rw [hat hik hkc, hc]⟩

/-- What the mask may stand in where the value begins. -/
theorem region_value (hlt : (ofText .declarations t).skipSpace (colon + 1) < t.length) :
    (stateAt t ((ofText .declarations t).skipSpace (colon + 1))).region = .afterColon ∨
      (stateAt t ((ofText .declarations t).skipSpace (colon + 1))).region = .live ∨
      ∃ n, (stateAt t ((ofText .declarations t).skipSpace (colon + 1))).region = .parameters n := by
  have hmask := (liveByte?_eq_some h.live).1
  rw [isMasked_ofText h.byte] at hmask
  have hregion := State.region_of_colon hmask
  rw [← stateAt_succ h.byte] at hregion
  rw [stateAt_of_blank (le_skipSpace _ _) hregion (blankFrom_skipSpace hlt)]
  exact hregion

/-- In live text the value begins behind a colon that opens one, or in live text. -/
theorem stateAt_value (hlive : (stateAt t i).region = .live)
    (hlt : (ofText .declarations t).skipSpace (colon + 1) < t.length) :
    stateAt t ((ofText .declarations t).skipSpace (colon + 1)) =
      (stateAt t i).into .afterColon ∨
    stateAt t ((ofText .declarations t).skipSpace (colon + 1)) = stateAt t i := by
  have hcolon := stateAt_nameEnd hlive h.nameEnd h.names
  have hnext : stateAt t (colon + 1) = (stateAt t i).into .afterColon ∨
      stateAt t (colon + 1) = stateAt t i := by
    rw [stateAt_succ h.byte, hcolon, read_colon (.inl hlive)]
    rcases State.readLive_colon_cases (stateAt t i) (t.take colon).reverse
      (t.drop (colon + 1)) with h | h <;> rw [h]
    · exact .inl rfl
    · exact .inr (into_region hlive)
  have hsame :
      stateAt t ((ofText .declarations t).skipSpace (colon + 1)) = stateAt t (colon + 1) := by
    refine stateAt_of_blank (le_skipSpace _ _) ?_ (blankFrom_skipSpace hlt)
    rcases hnext with hnext | hnext <;> rw [hnext]
    · exact .inl rfl
    · exact .inr (.inl hlive)
  rw [hsame]
  exact hnext

/-- Where the text is one of declarations, the colon opens a value. -/
theorem stateAt_value_of_declarations (hlive : (stateAt t i).region = .live)
    (hmode : (stateAt t i).mode = .declarations)
    (hlt : (ofText .declarations t).skipSpace (colon + 1) < t.length) :
    stateAt t ((ofText .declarations t).skipSpace (colon + 1)) =
      (stateAt t i).into .afterColon := by
  refine (h.stateAt_value hlive hlt).resolve_right fun hsame => ?_
  have hregion : (stateAt t (colon + 1)).region = .afterColon := by
    have hstart := h.startsStatement_eq
    have hcolon := stateAt_nameEnd hlive h.nameEnd h.names
    rw [stateAt_succ h.byte, hcolon, read_colon (.inl hlive)]
    generalize stateAt t i = s at hlive hmode
    obtain ⟨region, mode, depth, outer⟩ := s
    cases hlive
    cases hmode
    exact State.readLive_colon depth outer _ hstart
  rw [stateAt_of_blank (le_skipSpace _ _) (.inl hregion) (blankFrom_skipSpace hlt)] at hsame
  rw [hsame, hlive] at hregion
  cases hregion

end HeadAt

/-! ## Behind a block -/

/-- The semicolon that belongs to a block leaves live text as it is. -/
theorem stateAt_afterBlock {stop : Nat} (hlive : (stateAt t stop).region = .live) :
    stateAt t ((ofText .declarations t).afterBlock stop) = stateAt t stop := by
  unfold afterBlock
  dsimp only
  split
  · next hb =>
    rw [byte?_ofText] at hb
    have hlt := (List.getElem?_eq_some_iff.1 hb).1
    have hblank := stateAt_of_blank (le_skipSpace _ _) (.inr (.inl hlive)) (blankFrom_skipSpace hlt)
    rw [← hblank] at hlive
    rw [stateAt_succ hb, State.read_plain hlive (by decide), ← hblank]
    exact into_region hlive
  · rfl

theorem afterBlock_le {s : MaskedText} {stop close : Nat} (hstop : stop ≤ close)
    (hbyte : s.byte? close = some Byte.rbrace) : s.afterBlock stop ≤ close := by
  unfold afterBlock
  dsimp only
  split
  · next hb =>
    have hle := skipSpace_le hstop hbyte (by decide)
    refine Nat.lt_of_le_of_ne hle fun heq => ?_
    rw [heq, hbyte] at hb
    cases hb
  · exact hstop

end MaskedText

end PageLang
