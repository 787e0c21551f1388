import PageLang.Proofs.Declaration.Head

/-!
# Where a declaration in a block ends

A declaration that starts in a block ends there, unless it is a function: the parenthesis that ends
its parameter list is looked for by parentheses alone, so the list may run over the brace that
closes the block, and then the whole body stands behind the block.

Where the parameter lists of the block match, no list does, and each declaration leads from a place
between two statements to another one.

* `MaskedText.StaysIn`: where a declaration of a block stands.
* `MaskedText.staysIn_of_declaration?`: every declaration that is read.
* `MaskedText.Rests`: a place between two statements of a block.
* `MaskedText.Rests.of_declaration?`: a declaration in a block in which the lists match.
-/

namespace PageLang

open Mask

theorem Mask.State.closeBrace_masked_congr {s s' : State} (h : s.into .live = s'.into .live) :
    s.closeBrace.1 = s'.closeBrace.1 := by
  have hinto (s : State) : (s.into .live).closeBrace.1 = s.closeBrace.1 := by
    obtain ⟨region, mode, depth, outer⟩ := s
    cases depth with
    | succ depth => rfl
    | zero =>
      cases outer with
      | nil => rfl
      | cons frame outer =>
        obtain ⟨enclosing, frameMode, frameDepth⟩ := frame
        cases enclosing <;> rfl
  rw [← hinto s, h, hinto]

theorem Content.function?_eq_some_iff {c : Content} {f : Behavior} :
    c.function? = some f ↔ c.value = .behavior f := by
  cases c with
  | var access value => cases value <;> simp [function?, value, Value.raw]
  | method | getter | setter | eventHandler | attr | style | state => simp [function?, value]

namespace MaskedText

/-! ## Up to the value -/

section
variable {s : MaskedText} {i close : Nat}

/-- The head of a declaration in a block stands in the block, and so does the first byte of the
value. -/
theorem nameEnd?_lt {colon : Nat} (hi : i ≤ close) (hlive : s.liveByte? close = some Byte.rbrace)
    (h : s.nameEnd? i = some colon) : colon < close ∧ s.skipSpace (colon + 1) ≤ close := by
  have hlt : colon < close := by
    refine Nat.lt_of_le_of_ne
      (le_of_announced? (announced?_of_nameEnd? h) hi hlive (.inr (.inr rfl))) fun heq => ?_
    have hcolon := (nameEnd?_eq_some h).2
    rw [heq, hlive] at hcolon
    cases hcolon
  exact ⟨hlt, skipSpace_le hlt (liveByte?_eq_some hlive).2 (by decide)⟩

theorem ne_of_byte? {b c : UInt8} {j : Nat} (hb : s.byte? i = some b) (hc : s.byte? j = some c)
    (hne : b ≠ c) : i ≠ j := by
  rintro rfl
  exact hne (Option.some.inj (hb.symm.trans hc))

end

section
variable {t : Text} {i colon : Nat}

/-- The byte that begins a function or a block as a value is live. -/
theorem HeadAt.liveByte?_value (h : HeadAt t i colon) {b : UInt8}
    (hb : t[(ofText .declarations t).skipSpace (colon + 1)]? = some b)
    (hopens : b = Byte.lparen ∨ b = Byte.lbrace) :
    (ofText .declarations t).liveByte? ((ofText .declarations t).skipSpace (colon + 1)) =
      some b := by
  refine liveByte?_of_read hb ?_
  unfold State.read
  rcases h.region_value (List.getElem?_eq_some_iff.1 hb).1 with hregion | hregion | ⟨n, hregion⟩ <;>
    rw [hregion] <;> rcases hopens with rfl | rfl <;> rfl

/-! ## Declarations in a block -/

/-- A gap in live text or behind a parameter list does not pass over the end of a block. -/
theorem skipTrivia_le {close : Nat} (hi : i ≤ close)
    (hregion : (stateAt t i).region = .live ∨ (stateAt t i).region = .afterParameters)
    (hlive : (ofText .declarations t).liveByte? close = some Byte.rbrace) :
    (ofText .declarations t).skipTrivia i ≤ close := by
  refine Nat.le_of_not_lt fun hlt => ?_
  have hsize := byte?_eq_some_lt (liveByte?_eq_some hlive).2
  rw [size_ofText] at hsize
  have hspace := (skipTrivia_fits (by omega) hregion).1 close hi hlt _ hlive
  cases hspace

/-- Where the declaration `r` stands that starts in a block closed at `close`. -/
structure StaysIn (t : Text) (close : Nat) (r : Declaration) : Prop where
  start : r.span.start < close
  /-- All but functions end in the block. -/
  plain : r.content.function? = none → r.span.stop ≤ close
  /-- The parameter list of a function begins in the block, and the body stands in the block or
  behind it. In live text the list decides between the two. -/
  function : ∀ f, r.content.function? = some f → ∃ paren last,
    (ofText .declarations t).FunctionAt f paren last ∧ r.span.start < paren ∧ paren < close ∧
      f.bodySpan.stop ≤ r.span.stop ∧
      (f.bodySpan.stop ≤ close + 1 ∨ close < f.bodySpan.start) ∧
      ((stateAt t r.span.start).region = .live → (r.span.stop ≤ close ↔ last < close))

/-- A function that is read as a value, and where reading goes on. -/
theorem functionAt_of_value {s : MaskedText} {start next : Nat} {written : Text} {f : Behavior}
    (h : s.value start i written = .ok (.behavior f, next)) :
    ∃ last, s.FunctionAt f i last ∧ next = s.afterBlock f.bodySpan.stop := by
  rcases value_cases h with ⟨g, hb, hg, hread⟩ | ⟨last, -, -, hf, -⟩ | ⟨stop, b, -, -, -, hf, -⟩
  · cases hg
    obtain ⟨last, stop, hlast, hbrace, hstop, hspan, htext, rfl⟩ := behavior_eq_ok hread
    refine ⟨last, ⟨hb, hlast, ?_, ?_, ⟨stop, ?_, ?_⟩, ?_⟩, ?_⟩ <;> rw [hspan]
    exacts [hbrace, hstop, htext]
  · cases hf
  · cases hf

namespace FunctionAt

variable {s : MaskedText} {f : Behavior} {paren last : Nat}

/-- The parts of a function, one behind the other. -/
theorem lt (h : s.FunctionAt f paren last) : paren ≤ last ∧ last < f.bodySpan.start ∧
    f.bodySpan.start < f.bodySpan.stop := by
  obtain ⟨stop, hstop, hspan⟩ := h.stop
  have hlist := (closingParen?_eq_some h.rparen).1
  have hbody := (closingBrace?_eq_some hstop).1
  have hgap : last + 1 ≤ s.skipTrivia (last + 1) :=
    le_skipTrivia_of_lt (by rw [← h.start]; exact byte?_eq_some_lt h.brace)
  rw [← h.start] at hgap
  omega

/-- The body of a function stands in the block, or it begins behind it. -/
theorem in_or_behind {opening close : Nat} (h : s.FunctionAt f paren last)
    (hclose : s.closingBrace? opening = some close) (ho : opening < f.bodySpan.start) :
    f.bodySpan.stop ≤ close + 1 ∨ close < f.bodySpan.start := by
  have hend := (liveByte?_eq_some (liveByte?_of_closingBrace? hclose)).2
  rcases Nat.lt_trichotomy f.bodySpan.start close with hlt | heq | hgt
  · obtain ⟨stop, hstop, hspan⟩ := h.stop
    obtain ⟨c, hc, hclose'⟩ := exists_closingBrace?_le hclose ho hlt
    rw [hstop] at hclose'
    cases hclose'
    rw [hspan]
    exact .inl (Nat.succ_le_succ hc)
  · exact absurd heq (ne_of_byte? h.brace hend (by decide))
  · exact .inr hgt

/-- A body behind a list in front of the end of the block stands in the block. -/
theorem stop_le {opening close : Nat} (h : (ofText .declarations t).FunctionAt f paren last)
    (hclose : (ofText .declarations t).closingBrace? opening = some close) (ho : opening < paren)
    (hregion : (stateAt t (last + 1)).region = .live ∨
      (stateAt t (last + 1)).region = .afterParameters) (hlast : last < close) :
    (ofText .declarations t).liveByte? f.bodySpan.start = some Byte.lbrace ∧
      f.bodySpan.start < close ∧ f.bodySpan.stop ≤ close := by
  have hend := liveByte?_of_closingBrace? hclose
  have hlt := h.lt
  have hle : f.bodySpan.start ≤ close := h.start ▸ skipTrivia_le hlast hregion hend
  have hne := ne_of_byte? h.brace (liveByte?_eq_some hend).2 (by decide)
  have hbrace := h.brace
  rw [byte?_ofText] at hbrace
  have hsize := (List.getElem?_eq_some_iff.1 hbrace).1
  have hlive : (ofText .declarations t).liveByte? f.bodySpan.start = some Byte.lbrace := by
    refine liveByte?_lbrace hbrace ?_
    have hin := (closingParen?_eq_some h.rparen).2
    rw [size_ofText] at hin
    rw [h.start] at hsize ⊢
    exact (skipTrivia_fits (by omega) hregion).2.2 hsize
  obtain ⟨stop, hstop, hspan⟩ := h.stop
  refine ⟨hlive, by omega, ?_⟩
  rw [hspan]
  exact closingBrace?_lt hclose hlive hstop (by omega) (by omega)

end FunctionAt

/-- A function that is read stands in the block in which it starts, unless its parameter list runs
over the end of the block. -/
theorem stop_le_iff {opening close next paren last : Nat} {f : Behavior}
    (hclose : (ofText .declarations t).closingBrace? opening = some close) (ho : opening < i)
    (hat : (ofText .declarations t).FunctionAt f paren last)
    (hhead : HeadAt t i colon) (hparen : (ofText .declarations t).skipSpace (colon + 1) = paren)
    (hnext : next = (ofText .declarations t).afterBlock f.bodySpan.stop)
    (hlive : (stateAt t i).region = .live) : next ≤ close ↔ last < close := by
  have hle := (nameEnd?_eq_some hhead.nameEnd).1
  have hspace := (ofText .declarations t).le_skipSpace (colon + 1)
  have hlt := hat.lt
  have hafter := (ofText .declarations t).le_afterBlock f.bodySpan.stop
  refine ⟨fun hin => by omega, fun hlast => ?_⟩
  have hlparen := hat.lparen
  rw [byte?_ofText] at hlparen
  have hsize := (List.getElem?_eq_some_iff.1 hlparen).1
  have hregion : (stateAt t paren).region = .live ∨ (stateAt t paren).region = .afterColon := by
    rw [← hparen] at hsize ⊢
    refine (hhead.stateAt_value hlive hsize).symm.imp (fun h => ?_) fun h => ?_ <;> rw [h]
    · exact hlive
    · rfl
  have hstop := hat.stop_le hclose (by omega) (region_behind_list hregion hlparen hat.rparen) hlast
  rw [hnext]
  exact afterBlock_le hstop.2.2 (liveByte?_eq_some (liveByte?_of_closingBrace? hclose)).2

/-- A scalar or a block that is read ends in the block in which it starts. -/
theorem stop_le_of_value {opening close next start : Nat} {written : Text} {v : RawValue}
    (hclose : (ofText .declarations t).closingBrace? opening = some close) (ho : opening < i)
    (hhead : HeadAt t i colon) (hv : (ofText .declarations t).skipSpace (colon + 1) ≤ close)
    (hvalue : (ofText .declarations t).value start ((ofText .declarations t).skipSpace (colon + 1))
      written = .ok (v, next)) (hplain : ∀ f, v ≠ .behavior f) : next ≤ close := by
  have hend := liveByte?_of_closingBrace? hclose
  have hbyte := (liveByte?_eq_some hend).2
  have hle := (nameEnd?_eq_some hhead.nameEnd).1
  have hspace := (ofText .declarations t).le_skipSpace (colon + 1)
  rcases value_cases hvalue with ⟨f, -, hf, -⟩ | ⟨last, hb, hlast, -, rfl⟩ |
    ⟨stop, b, -, -, hfind, -, rfl⟩
  · exact absurd hf (hplain f)
  · have hne := ne_of_byte? hb hbyte (by decide)
    rw [byte?_ofText] at hb
    have hlive := hhead.liveByte?_value hb (.inr rfl)
    exact afterBlock_le (closingBrace?_lt hclose hlive hlast (by omega) (by omega)) hbyte
  · have hstop : stop ≤ close := Nat.le_of_not_lt fun hlt =>
      not_mem_of_findAny? hfind hv hlt hend (by decide)
    split
    · next hb =>
      subst hb
      exact Nat.lt_of_le_of_ne hstop
        (ne_of_byte? (liveByte?_eq_some (findAny?_eq_some hfind).2.2.1).2 hbyte (by decide))
    · exact hstop

/-- Where a declaration stands that is read in a block. -/
theorem staysIn_of_declaration? {opening close next : Nat} {r : Declaration}
    (hclose : (ofText .declarations t).closingBrace? opening = some close) (ho : opening < i)
    (hi : i < close) (hskip : (ofText .declarations t).skipTrivia i = i)
    (h : (ofText .declarations t).declaration? i = .ok (some (r, next))) :
    r.span = ⟨i, next⟩ ∧ StaysIn t close r := by
  have hspan := (parts_of_declaration? h).1
  obtain ⟨colon, written, hhead, hvalue⟩ := headAt_of_declaration? h
  rw [hskip] at hspan hhead hvalue
  have hend := liveByte?_of_closingBrace? hclose
  have hle := (nameEnd?_eq_some hhead.nameEnd).1
  have hspace := (ofText .declarations t).le_skipSpace (colon + 1)
  obtain ⟨hcolon, hv⟩ := nameEnd?_lt (Nat.le_of_lt hi) hend hhead.nameEnd
  refine ⟨hspan, by rw [hspan]; exact hi, fun hplain => ?_, fun f hf => ?_⟩ <;> rw [hspan]
  · refine stop_le_of_value hclose ho hhead hv hvalue fun f hf => ?_
    rw [Content.function?_eq_some_iff.2 hf] at hplain
    cases hplain
  · rw [Content.function?_eq_some_iff.1 hf] at hvalue
    obtain ⟨last, hat, hnext⟩ := functionAt_of_value hvalue
    have hlt := hat.lt
    have hne := ne_of_byte? hat.lparen (liveByte?_eq_some hend).2 (by decide)
    refine ⟨_, last, hat, ?_, by omega, ?_, hat.in_or_behind hclose (by omega),
      stop_le_iff hclose ho hat hhead rfl hnext⟩
    · show i < _
      omega
    · rw [hnext]
      exact (ofText .declarations t).le_afterBlock _

/-! ## Between the statements of a block -/

/-- The mask stands at `p` in the context of the block that begins at `opening`, and a statement may
start there: the text is live, or a closing brace follows. -/
structure Rests (t : Text) (opening p : Nat) : Prop where
  context : (stateAt t p).into .live = stateAt t (opening + 1)
  ready : (stateAt t p).region = .live ∨
    (ofText .declarations t).liveByte? p = some Byte.rbrace ∧
      ∀ n, (stateAt t p).region ≠ .parameters n

theorem BlockAt.rests {opening close p : Nat} (h : BlockAt t opening close)
    (hstate : stateAt t p = stateAt t (opening + 1)) : Rests t opening p :=
  ⟨by rw [hstate, into_region h.region_first], .inl (by rw [hstate, h.region_first])⟩

theorem isSpace_of_skipSpace {b : UInt8}
    (hb : t[(ofText .declarations t).skipSpace i]? = some b) : Byte.isSpace b = false := by
  have hlt := (List.getElem?_eq_some_iff.1 hb).1
  unfold skipSpace at hb hlt
  cases hfind : (ofText .declarations t).findRaw? (fun b => !Byte.isSpace b) i with
  | none =>
    rw [hfind, Option.getD_none, size_ofText] at hlt
    omega
  | some j =>
    rw [hfind, Option.getD_some] at hb
    have hspace := (firstFrom?_eq_some hfind).2.2.1
    rw [byte?_ofText, hb] at hspace
    simpa using hspace

/-- The bytes of a scalar, up to the semicolon or the brace that ends it, are read in the context of
its colon. -/
theorem context_of_scalar {v stop : Nat} {b : UInt8} (hregion : (stateAt t v).region = .afterColon)
    (hfirst : ∀ c, t[v]? = some c → Byte.isSpace c = false ∧ c ≠ Byte.lparen ∧ c ≠ Byte.lbrace)
    (hclose : (stateAt t v).closeBrace.1 = false)
    (hfind : (ofText .declarations t).findAny? [Byte.semicolon, Byte.rbrace] v = some (stop, b)) :
    (stateAt t stop).into .live = (stateAt t v).into .live ∧
      (∀ n, (stateAt t stop).region ≠ .parameters n) ∧
      (b = Byte.semicolon → stateAt t (stop + 1) = (stateAt t v).into .live) := by
  obtain ⟨hle, hsize, hlive, -⟩ := findAny?_eq_some hfind
  rw [size_ofText] at hsize
  have stays {k : Nat} {c : UInt8} (hc : t[k]? = some c)
      (hk : k = v ∨ (stateAt t k).region.isScalar = true) :
      (stateAt t k).StaysScalar (t.take k).reverse c (t.drop (k + 1)) := by
    rcases hk with rfl | hscalar
    · obtain ⟨hspace, hlparen, hlbrace⟩ := hfirst c hc
      exact State.staysScalar_of_afterColon hregion hspace hlparen hlbrace
    · exact State.staysScalar_of_isScalar hscalar
  have hinside : ∀ k, v ≤ k → k ≤ stop → (stateAt t k).into .live = (stateAt t v).into .live ∧
      (k = v ∨ (stateAt t k).region.isScalar = true) := by
    intro k hvk
    induction hvk with
    | refl => exact fun _ => ⟨rfl, .inl rfl⟩
    | @step k hvk ih =>
      intro hk
      obtain ⟨hcontext, hscalar⟩ := ih (by omega)
      have hc : t[k]? = some t[k] := List.getElem?_eq_getElem (by omega)
      rcases stays hc hscalar with ⟨r, hr, hread⟩ | ⟨hends, hread⟩
      · rw [stateAt_succ hc, hread]
        exact ⟨hcontext, .inr hr⟩
      · -- in front of its end no byte ends the scalar
        have hmask :
            ((stateAt t k).readLive (t.take k).reverse t[k] (t.drop (k + 1))).1 = false := by
          rcases hends with hb | hb <;> rw [hb]
          · rfl
          · exact (State.closeBrace_masked_congr hcontext).trans hclose
        have hbyte := liveByte?_of_read hc (by rw [hread, hmask])
        refine absurd ?_ (not_mem_of_findAny? hfind hvk hk hbyte)
        simpa using hends
  obtain ⟨hcontext, hscalar⟩ := hinside stop hle (Nat.le_refl stop)
  refine ⟨hcontext, fun n hn => ?_, fun hb => ?_⟩
  · rcases hscalar with rfl | hscalar
    · rw [hregion] at hn
      cases hn
    · rw [hn] at hscalar
      cases hscalar
  · subst hb
    have hbyte := byte_of_liveByte? hlive
    have hmask := (liveByte?_eq_some hlive).1
    rw [isMasked_ofText hbyte] at hmask
    rcases stays hbyte hscalar with ⟨r, -, hread⟩ | ⟨-, hread⟩
    · rw [hread] at hmask
      cases hmask
    · rw [stateAt_succ hbyte, hread]
      exact hcontext

section
variable {opening close next start paren last : Nat} {written : Text} {f : Behavior}
  (hblock : BlockAt t opening close)
include hblock

/-- Behind a block that a value opens, and the semicolon behind it, a statement may start. -/
theorem rests_afterBlock {brace : Nat} (hinner : BlockAt t brace last)
    (hcontext : (stateAt t brace).into .live = stateAt t (opening + 1)) :
    Rests t opening ((ofText .declarations t).afterBlock (last + 1)) := by
  have hstate : stateAt t (last + 1) = stateAt t (opening + 1) :=
    hinner.stateAt_close.trans hcontext
  refine hblock.rests ?_
  rw [stateAt_afterBlock (by rw [hstate, hblock.region_first]), hstate]

/-- So behind the end of a scalar: a closing brace, or the byte behind a semicolon. -/
theorem rests_of_scalar {v stop : Nat} {b : UInt8}
    (hstate : stateAt t v = (stateAt t (opening + 1)).into .afterColon)
    (hfirst : ∀ c, t[v]? = some c → Byte.isSpace c = false ∧ c ≠ Byte.lparen ∧ c ≠ Byte.lbrace)
    (hfind : (ofText .declarations t).findAny? [Byte.semicolon, Byte.rbrace] v = some (stop, b)) :
    Rests t opening (if b = Byte.semicolon then stop + 1 else stop) := by
  have hclose : (stateAt t v).closeBrace.1 = false :=
    (State.closeBrace_masked_congr (by rw [hstate]; rfl)).trans hblock.first.2
  obtain ⟨hcontext, hregion, hnext⟩ :=
    context_of_scalar (by rw [hstate]; rfl) hfirst hclose hfind
  have hsame : (stateAt t v).into .live = stateAt t (opening + 1) := by
    rw [hstate]
    exact into_region hblock.region_first
  split
  · next hb => exact hblock.rests ((hnext hb).trans hsame)
  · next hb =>
    obtain ⟨-, -, hfound, hset⟩ := findAny?_eq_some hfind
    have hb : b = Byte.rbrace := by simpa [hb] using hset
    exact ⟨hcontext.trans hsame, .inr ⟨hb ▸ hfound, hregion⟩⟩

variable (ho : opening < i)
include ho

/-- Behind a function whose list ends in the block. -/
theorem rests_of_function (hat : (ofText .declarations t).FunctionAt f paren last)
    (hi : i ≤ paren) (hlt : paren < close)
    (hstate : stateAt t paren = (stateAt t (opening + 1)).into .afterColon) :
    (ofText .declarations t).afterBlock f.bodySpan.stop ≤ close ∧
      Rests t opening ((ofText .declarations t).afterBlock f.bodySpan.stop) := by
  have hlparen := hat.lparen
  rw [byte?_ofText] at hlparen
  obtain ⟨last', hlast, hcloses, hrparen, -⟩ :=
    hblock.lists paren hlt (by omega) (by rw [hstate]; rfl) hlparen
  obtain rfl : last = last' := Option.some.inj (hat.rparen.symm.trans hrparen)
  have hbehind := (ListsParameters.stateAt_close ⟨by rw [hstate]; rfl, hcloses⟩ hlparen hrparen).2
  have hregion : (stateAt t (last + 1)).region = .live ∨
      (stateAt t (last + 1)).region = .afterParameters := .inr (by rw [hbehind]; rfl)
  obtain ⟨hlive, hbrace, hstop⟩ := hat.stop_le hblock.closes (by omega) hregion hlast
  have hsize := byte?_eq_some_lt hat.brace
  rw [size_ofText] at hsize
  have hin := hat.lt
  obtain ⟨-, hgap, hend⟩ := skipTrivia_fits (by omega) hregion
  rw [← hat.start] at hgap hend
  -- the mask stands behind the body as in front of it
  obtain ⟨stop, hbody, hspan⟩ := hat.stop
  have hinner := (hblock.inner hlive hbody (by omega) hbrace fun n hn => by
    rcases hend hsize with h | h <;> rw [hn] at h <;> cases h).2
  have hcontext : (stateAt t f.bodySpan.start).into .live = stateAt t (opening + 1) := by
    rw [hgap, hbehind, hstate]
    exact into_region hblock.region_first
  refine ⟨afterBlock_le hstop (liveByte?_eq_some (liveByte?_of_closingBrace? hblock.closes)).2, ?_⟩
  rw [hspan]
  exact rests_afterBlock hblock hinner hcontext

/-- A declaration in a block in which the lists match ends in the block, between two statements. -/
theorem Rests.of_declaration? {r : Declaration}
    (hmode : (stateAt t (opening + 1)).mode = .declarations) (hi : i < close)
    (hstate : stateAt t i = stateAt t (opening + 1))
    (hskip : (ofText .declarations t).skipTrivia i = i)
    (h : (ofText .declarations t).declaration? i = .ok (some (r, next))) :
    next ≤ close ∧ Rests t opening next := by
  obtain ⟨colon, written, hhead, hvalue⟩ := headAt_of_declaration? h
  rw [hskip] at hhead hvalue
  have hend := liveByte?_of_closingBrace? hblock.closes
  have hbyte := (liveByte?_eq_some hend).2
  have hle := (nameEnd?_eq_some hhead.nameEnd).1
  have hspace := (ofText .declarations t).le_skipSpace (colon + 1)
  obtain ⟨hcolon, hv⟩ := nameEnd?_lt (Nat.le_of_lt hi) hend hhead.nameEnd
  have hsize := (closingBrace?_eq_some hblock.closes).2
  rw [size_ofText] at hsize
  have hlive : (stateAt t i).region = .live := by rw [hstate, hblock.region_first]
  have hcolon' := hhead.stateAt_value_of_declarations hlive (by rw [hstate, hmode]) (by omega)
  rw [hstate] at hcolon'
  by_cases hf : ∃ f, r.content.value = .behavior f
  · obtain ⟨f, hf⟩ := hf
    rw [hf] at hvalue
    obtain ⟨last, hat, rfl⟩ := functionAt_of_value hvalue
    have hne := ne_of_byte? hat.lparen hbyte (by decide)
    exact rests_of_function hblock ho hat (by omega) (by omega) hcolon'
  · rw [not_exists] at hf
    refine ⟨stop_le_of_value hblock.closes ho hhead hv hvalue hf, ?_⟩
    rcases value_cases hvalue with ⟨f, -, hv, -⟩ | ⟨last, hb, hlast, -, rfl⟩ |
      ⟨stop, b, hlparen, hlbrace, hfind, -, rfl⟩
    · exact absurd hv (hf f)
    · have hne := ne_of_byte? hb hbyte (by decide)
      rw [byte?_ofText] at hb
      have hinner := (hblock.inner (hhead.liveByte?_value hb (.inr rfl)) hlast (by omega) (by omega)
        fun n hn => by rw [hcolon'] at hn; cases hn).2
      refine rests_afterBlock hblock hinner ?_
      rw [hcolon']
      exact into_region hblock.region_first
    · refine rests_of_scalar hblock hcolon' (fun c hc => ?_) hfind
      rw [byte?_ofText, hc] at hlparen hlbrace
      exact ⟨isSpace_of_skipSpace hc, fun hc' => hlparen (congrArg some hc'),
        fun hc' => hlbrace (congrArg some hc')⟩

end

end

end MaskedText

end PageLang
