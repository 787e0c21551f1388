import PageLang.Element.Parser
import PageLang.Proofs.Mask.Regions

/-!
# What gaps between statements hide

Blank space and comments are skipped by their spelling alone, while the mask follows what stands
before them. Where the text is live the two agree: the skipping passes over nothing live but blank
space, and the text is live behind it.

* `MaskedText.stateAt`: the state of the mask in front of an offset.
* `MaskedText.live_or_parameters`: the text behind a live brace or semicolon.
* `MaskedText.gapEnd_live`: a gap that starts in live text.
* `MaskedText.Between`: an offset between two statements, and what stands behind it.
-/

namespace PageLang.MaskedText

open Mask

/-- The state of the mask machine in front of an offset of declarations. -/
def stateAt (t : Text) (k : Nat) : State := (State.start .declarations).after [] k t

section
variable {t : Text} {k : Nat} {b : UInt8}

theorem stateAt_zero (t : Text) : stateAt t 0 = State.start .declarations :=
  State.after_zero _ _ _

theorem stateAt_succ (h : t[k]? = some b) :
    stateAt t (k + 1) = ((stateAt t k).read (t.take k).reverse b (t.drop (k + 1))).2 := by
  have := State.after_succ h (State.start .declarations) []
  rwa [List.append_nil] at this

theorem isMasked_ofText (h : t[k]? = some b) :
    (ofText .declarations t).isMasked k =
      ((stateAt t k).read (t.take k).reverse b (t.drop (k + 1))).1 := State.isMasked_ofText h

theorem byte_of_liveByte? (h : (ofText .declarations t).liveByte? k = some b) : t[k]? = some b := by
  rw [← byte?_ofText .declarations]
  exact (liveByte?_eq_some h).2

theorem liveByte?_of_read (h : t[k]? = some b)
    (hread : ((stateAt t k).read (t.take k).reverse b (t.drop (k + 1))).1 = false) :
    (ofText .declarations t).liveByte? k = some b := by
  unfold liveByte?
  rw [isMasked_ofText h, hread, byte?_ofText, if_neg Bool.false_ne_true, h]

/-- Behind a live brace or semicolon the text is live, or a parameter list is open. -/
theorem live_or_parameters (h : (ofText .declarations t).liveByte? k = some b)
    (hb : State.Ends b) :
    (stateAt t (k + 1)).region = .live ∨ ∃ n, (stateAt t (k + 1)).region = .parameters n := by
  have hbyte := byte_of_liveByte? h
  have hmask := (liveByte?_eq_some h).1
  rw [isMasked_ofText hbyte] at hmask
  rw [stateAt_succ hbyte]
  exact State.region_of_ends hb hmask

end

/-! ## Gaps -/

/-- What the mask takes a byte of a gap for. -/
def Gap.region : Gap → Mask.Region
  | .blank => .live
  | .line => .lineComment
  | .opening => .commentOpening
  | .block star => .blockComment star

/-- A statement starts at an offset: no blank space and no comment. -/
structure StartsStatement (t : Text) (i : Nat) : Prop where
  live : (stateAt t i).region = .live
  space : (t[i]?).any Byte.isSpace = false
  line : (ofText .declarations t).startsAt "//" i = false
  block : (ofText .declarations t).startsAt "/*" i = false

/-- A byte of a gap is masked or blank, and leads to what the gap says comes next. -/
structure Passes (t : Text) (i : Nat) (next : Gap) : Prop where
  live : ∀ b, (ofText .declarations t).liveByte? i = some b → Byte.isSpace b = true
  region : (stateAt t (i + 1)).region = next.region

section
variable {t : Text} {i : Nat} {b : UInt8}

theorem passes_masked {next : Gap} (h : t[i]? = some b)
    (hmask : ((stateAt t i).read (t.take i).reverse b (t.drop (i + 1))).1 = true)
    (hregion : ((stateAt t i).read (t.take i).reverse b (t.drop (i + 1))).2.region = next.region) :
    Passes t i next where
  live := by
    intro c hc
    have := (liveByte?_eq_some hc).1
    rw [isMasked_ofText h, hmask] at this
    cases this
  region := by rw [stateAt_succ h, hregion]

theorem passes_space (h : t[i]? = some b) (hregion : (stateAt t i).region = .live)
    (hb : Byte.isSpace b = true) : Passes t i .blank where
  live := by
    intro c hc
    rw [byte_of_liveByte? hc] at h
    cases h
    exact hb
  region := by
    rw [stateAt_succ h, State.read_space hregion hb]
    rfl

theorem bytes_of_startsAt {pattern : Text} {a c : UInt8} (hpattern : pattern = [a, c])
    (h : (ofText .declarations t).startsAt pattern i = true) :
    t[i]? = some a ∧ (t.drop (i + 1)).head? = some c := by
  subst hpattern
  have h0 := byte?_add_of_startsAt h (show 0 < 2 by decide)
  have h1 := byte?_add_of_startsAt h (show 1 < 2 by decide)
  rw [byte?_ofText] at h0 h1
  rw [List.head?_drop]
  exact ⟨h0, h1⟩

end

/-- What a gap goes on as behind the byte at an offset. At the start of a statement it ends. -/
def gapNext? (s : MaskedText) : Gap → Nat → Option Gap
  | .blank, i =>
    if (s.byte? i).any Byte.isSpace then some .blank
    else if s.startsAt "//" i then some .line
    else if s.startsAt "/*" i then some .opening
    else none
  | .line, i => some (if s.byte? i = some Byte.newline then .blank else .line)
  | .opening, _ => some (.block false)
  | .block star, i =>
    some (if star ∧ s.byte? i = some Byte.slash then .blank
      else .block (s.byte? i = some Byte.star))

theorem gapEnd_succ (s : MaskedText) (gap : Gap) (i count : Nat) :
    s.gapEnd gap i (count + 1) = match s.gapNext? gap i with
      | some next => s.gapEnd next (i + 1) count
      | none => i := by
  cases gap with
  | blank =>
    rw [gapEnd, gapNext?]
    repeat' split
    all_goals first | rfl | (next h => cases h; rfl) | (next h => cases h)
  | line | opening | block star => rfl

/-- What one byte does to a gap: a statement starts at it, or the gap goes on behind it. -/
def GapStep (t : Text) (gap : Gap) (i count : Nat) : Prop :=
  ((ofText .declarations t).gapEnd gap i (count + 1) = i ∧ StartsStatement t i) ∨
    ∃ next, (ofText .declarations t).gapEnd gap i (count + 1) =
      (ofText .declarations t).gapEnd next (i + 1) count ∧ Passes t i next

section
variable {t : Text} {i : Nat} {b : UInt8}

theorem passes_blank {next : Gap} (hb : t[i]? = some b) (hlive : (stateAt t i).region = .live)
    (h : (ofText .declarations t).gapNext? .blank i = some next) : Passes t i next := by
  rw [gapNext?, byte?_ofText, hb, Option.any_some] at h
  split at h
  · next hspace =>
    cases h
    exact passes_space hb hlive hspace
  split at h
  · next hline =>
    cases h
    obtain ⟨hslash, hnext⟩ :=
      bytes_of_startsAt (a := Byte.slash) (c := Byte.slash) (by decide) hline
    apply passes_masked hslash <;> rw [State.read_slash_slash hlive hnext]
    rfl
  split at h
  · next hblock =>
    cases h
    obtain ⟨hslash, hnext⟩ :=
      bytes_of_startsAt (a := Byte.slash) (c := Byte.star) (by decide) hblock
    apply passes_masked hslash <;> rw [State.read_slash_star hlive hnext]
    rfl
  · cases h

theorem passes_line (hb : t[i]? = some b) (hregion : (stateAt t i).region = .lineComment) :
    Passes t i
      (if (ofText .declarations t).byte? i = some Byte.newline then .blank else .line) := by
  rw [byte?_ofText, hb]
  by_cases hnewline : b = Byte.newline
  · rw [if_pos (by rw [hnewline])]
    refine ⟨fun c hc => ?_, ?_⟩
    · rw [byte_of_liveByte? hc] at hb
      cases hb
      rw [hnewline]
      rfl
    · rw [stateAt_succ hb]
      unfold State.read
      rw [hregion]
      simp only [if_pos hnewline]
      rfl
  · rw [if_neg (by simpa using hnewline)]
    apply passes_masked hb <;> unfold State.read <;> rw [hregion] <;>
      simp only [if_neg hnewline]
    exact hregion

theorem passes_opening (hb : t[i]? = some b) (hregion : (stateAt t i).region = .commentOpening) :
    Passes t i (.block false) := by
  apply passes_masked hb
  · unfold State.read
    rw [hregion]
  · unfold State.read
    rw [hregion]
    rfl

theorem passes_block {star : Bool} (hb : t[i]? = some b)
    (hregion : (stateAt t i).region = .blockComment star) :
    Passes t i (if star ∧ (ofText .declarations t).byte? i = some Byte.slash then .blank
      else .block ((ofText .declarations t).byte? i = some Byte.star)) := by
  rw [byte?_ofText, hb]
  apply passes_masked hb <;> unfold State.read <;> rw [hregion]
  simp only [State.into, Option.some.injEq]
  split <;> rfl

/-- A gap that starts as what the mask takes it for goes on so. -/
theorem passes_of_gapNext? {gap next : Gap} (hb : t[i]? = some b)
    (hregion : (stateAt t i).region = gap.region)
    (h : (ofText .declarations t).gapNext? gap i = some next) : Passes t i next := by
  cases gap with
  | blank => exact passes_blank hb hregion h
  | line => exact Option.some.inj h ▸ passes_line hb hregion
  | opening => exact Option.some.inj h ▸ passes_opening hb hregion
  | block star => exact Option.some.inj h ▸ passes_block hb hregion

/-- Only blank space can end a gap. -/
theorem startsStatement_of_gapNext? {gap : Gap} (hregion : (stateAt t i).region = gap.region)
    (h : (ofText .declarations t).gapNext? gap i = none) : StartsStatement t i := by
  cases gap with
  | line | opening | block star => cases h
  | blank =>
    rw [gapNext?, byte?_ofText] at h
    split at h
    · cases h
    next hspace =>
    split at h
    · cases h
    next hline =>
    split at h
    · cases h
    next hblock =>
    exact ⟨hregion, Bool.eq_false_iff.2 hspace, Bool.eq_false_iff.2 hline,
      Bool.eq_false_iff.2 hblock⟩

end

theorem gapStep {t : Text} (gap : Gap) {i : Nat} (count : Nat) (hlt : i < t.length)
    (hregion : (stateAt t i).region = gap.region) : GapStep t gap i count := by
  unfold GapStep
  rw [gapEnd_succ]
  cases hnext : (ofText .declarations t).gapNext? gap i with
  | none => exact .inl ⟨rfl, startsStatement_of_gapNext? hregion hnext⟩
  | some next =>
    exact .inr ⟨next, rfl, passes_of_gapNext? (List.getElem?_eq_getElem hlt) hregion hnext⟩

/-- A gap that starts as what the mask takes it for hides no live byte but blank space. Where it
ends inside the text, the text is live and a statement starts. -/
theorem gapEnd_live {t : Text} (gap : Gap) (i count : Nat) (hcount : i + count = t.length)
    (hregion : (stateAt t i).region = gap.region) :
    (∀ k, i ≤ k → k < (ofText .declarations t).gapEnd gap i count → ∀ b,
      (ofText .declarations t).liveByte? k = some b → Byte.isSpace b = true) ∧
    ((ofText .declarations t).gapEnd gap i count < t.length →
      StartsStatement t ((ofText .declarations t).gapEnd gap i count)) := by
  induction count generalizing gap i with
  | zero =>
    have hend : (ofText .declarations t).gapEnd gap i 0 = i := by rw [gapEnd]
    rw [hend]
    exact ⟨fun k h1 h2 => absurd h2 (Nat.not_lt.2 h1), fun h => by omega⟩
  | succ count ih =>
    rcases gapStep gap count (by omega) hregion with ⟨hend, hstarts⟩ | ⟨next, hend, hpasses⟩
    · rw [hend]
      exact ⟨fun k h1 h2 => absurd h2 (Nat.not_lt.2 h1), fun _ => hstarts⟩
    · obtain ⟨hhidden, hstarts⟩ := ih next (i + 1) (by omega) hpasses.region
      rw [hend]
      refine ⟨fun k hk => ?_, hstarts⟩
      rcases Nat.eq_or_lt_of_le hk with rfl | hlt
      · exact fun _ => hpasses.live
      · exact hhidden k hlt

/-! ## Between statements -/

/-- An offset between two statements: where text follows, it is live. -/
structure Between (t : Text) (p : Nat) : Prop where
  le : p ≤ t.length
  live : p < t.length → (stateAt t p).region = .live

section
variable {t : Text} {p : Nat}

theorem between_zero (t : Text) : Between t 0 where
  le := Nat.zero_le _
  live := by
    intro _
    rw [stateAt_zero]
    rfl

theorem between_length (t : Text) : Between t t.length where
  le := Nat.le_refl _
  live := fun h => absurd h (Nat.lt_irrefl _)

/-- Behind a live brace or semicolon, unless a parameter list is open. -/
theorem between_of_ends {b : UInt8} (h : (ofText .declarations t).liveByte? p = some b)
    (hb : State.Ends b) (hparameters : ∀ n, (stateAt t (p + 1)).region ≠ .parameters n) :
    Between t (p + 1) where
  le := (List.getElem?_eq_some_iff.1 (byte_of_liveByte? h)).1
  live := by
    intro _
    rcases live_or_parameters h hb with hlive | ⟨n, hn⟩
    · exact hlive
    · exact absurd hn (hparameters n)

theorem Between.gapEnd (h : Between t p) :
    (∀ k, p ≤ k → k < (ofText .declarations t).skipTrivia p → ∀ b,
      (ofText .declarations t).liveByte? k = some b → Byte.isSpace b = true) ∧
    ((ofText .declarations t).skipTrivia p < t.length →
      StartsStatement t ((ofText .declarations t).skipTrivia p)) := by
  have hle := h.le
  rcases Nat.eq_or_lt_of_le hle with heq | hlt
  · -- no text follows
    have hend : (ofText .declarations t).skipTrivia p = t.length := by
      rw [skipTrivia_of_size_le (by rw [size_ofText]; omega), size_ofText]
    rw [hend]
    exact ⟨fun k h1 h2 => by omega, fun h => absurd h (Nat.lt_irrefl _)⟩
  · unfold skipTrivia
    rw [size_ofText, Nat.min_eq_left hle]
    exact gapEnd_live .blank p (t.length - p) (by omega) (h.live hlt)

theorem Between.le_size (h : Between t p) : p ≤ (ofText .declarations t).size := by
  rw [size_ofText]
  exact h.le

theorem Between.le_skipTrivia (h : Between t p) : p ≤ (ofText .declarations t).skipTrivia p :=
  MaskedText.le_skipTrivia h.le_size

/-- Nothing live stands between two statements but blank space. -/
theorem Between.isSpace (h : Between t p) {k : Nat} {b : UInt8} (hk : p ≤ k)
    (hend : k < (ofText .declarations t).skipTrivia p)
    (hb : (ofText .declarations t).liveByte? k = some b) : Byte.isSpace b = true :=
  h.gapEnd.1 k hk hend b hb

theorem Between.startsStatement (h : Between t p)
    (hlt : (ofText .declarations t).skipTrivia p < t.length) :
    StartsStatement t ((ofText .declarations t).skipTrivia p) :=
  h.gapEnd.2 hlt

/-- A byte that opens nothing is live at the start of a statement, and so is the text behind it. -/
theorem StartsStatement.plain (h : StartsStatement t p) {b : UInt8} (hb : t[p]? = some b)
    (hplain : Byte.isPlain b = true) :
    (ofText .declarations t).liveByte? p = some b ∧ Between t (p + 1) := by
  have hread : (stateAt t p).read (t.take p).reverse b (t.drop (p + 1)) =
      (false, (stateAt t p).into .live) := State.read_plain h.live hplain
  refine ⟨liveByte?_of_read hb (by rw [hread]), ?_, fun _ => ?_⟩
  · exact (List.getElem?_eq_some_iff.1 hb).1
  · rw [stateAt_succ hb, hread]
    rfl

/-- A semicolon behind a statement leads on between two statements. -/
theorem Between.skipSemicolon (h : Between t p) :
    Between t ((ofText .declarations t).skipSemicolon p) := by
  unfold MaskedText.skipSemicolon
  dsimp only
  split
  · next hb =>
    rw [byte?_ofText] at hb
    have hlt := (List.getElem?_eq_some_iff.1 hb).1
    exact ((h.startsStatement hlt).plain hb (by decide)).2
  · exact h

end

end PageLang.MaskedText
