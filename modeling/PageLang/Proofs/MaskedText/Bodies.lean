import PageLang.Proofs.Hierarchy.Functions
import PageLang.Proofs.Mask.Inside
import PageLang.Proofs.MaskedText.Cells
import PageLang.Proofs.MaskedText.Trivia

/-!
# The mask of a function body

A body is cut out of its text by the braces that the mask of the text leaves live, and is searched
again under a mask of its own, as code. The two masks agree where the text reads the body as code.
It does so behind a parameter list and blank space. Behind a comment the mask has forgotten the
parameter list and reads the body as declarations, so that a colon in the body opens a value.

* `MaskedText.bodyMask`: what the mask of a text says of a body.
* `MaskedText.ListsParameters.stateAt_close`: a parameter list of the mask ends where the parser says.
* `MaskedText.region_of_gap`: what stands between the parameter list and the body.
* `MaskedText.bodyMask_eq`: the two masks of a body.
-/

namespace PageLang.MaskedText

open Cell Mask

/-- What the mask of a text says of the bytes of a function body. -/
def bodyMask (t : Text) (f : Behavior) : List Bool :=
  ((Mask.ofText .declarations t).drop f.bodySpan.start).take f.body.length

/-! ## Parameter lists -/

/-- The mask takes the parenthesis at `paren` for the one of a parameter list: it stands behind the
colon of a declaration, and as many parentheses are closed behind it, in whatever bytes. -/
structure ListsParameters (t : Text) (paren : Nat) : Prop where
  region : (stateAt t paren).region = .afterColon
  closes : closesParens 1 (t.drop (paren + 1)) = true

section
variable {t : Text}

/-- In a parameter list every byte is live. -/
theorem liveByte?_of_parameters {i n : Nat} (hi : i < t.length)
    (hregion : (stateAt t i).region = .parameters n) :
    (ofText .declarations t).liveByte? i = some t[i] := by
  refine liveByte?_of_read (List.getElem?_eq_getElem hi) ?_
  unfold State.read
  rw [hregion]
  dsimp only [State.readParameters]
  repeat' split
  all_goals rfl

/-- The parenthesis that the parser takes for the end of a parameter list is the one that the mask
does. Up to it the list goes on, in the context of its start. -/
theorem stateAt_of_closing? {n i count close : Nat} (hcount : i + count = t.length)
    (hregion : (stateAt t i).region = .parameters n)
    (hclose : (ofText .declarations t).closing? (· == Byte.lparen) (· == Byte.rparen) n i count =
      some close) :
    (∀ j, i ≤ j → j ≤ close → ∃ m, (stateAt t j).region = .parameters m) ∧
      stateAt t (close + 1) = (stateAt t i).into .afterParameters := by
  induction count generalizing n i with
  | zero => simp [closing?] at hclose
  | succ count ih =>
    have hi : i < t.length := by omega
    have hbyte : t[i]? = some t[i] := List.getElem?_eq_getElem hi
    have hnext : stateAt t (i + 1) = ((stateAt t i).readParameters n t[i]).2 := by
      rw [stateAt_succ hbyte]
      unfold State.read
      rw [hregion]
    -- the list goes on behind the byte
    have goesOn {m : Nat} (hm : stateAt t (i + 1) = (stateAt t i).into (.parameters m))
        (hclose : (ofText .declarations t).closing? (· == Byte.lparen) (· == Byte.rparen) m
          (i + 1) count = some close) :
        (∀ j, i ≤ j → j ≤ close → ∃ m, (stateAt t j).region = .parameters m) ∧
          stateAt t (close + 1) = (stateAt t i).into .afterParameters := by
      obtain ⟨hlist, hend⟩ := ih (by omega) (by rw [hm]; rfl) hclose
      refine ⟨fun j hij hj => ?_, by rw [hend, hm]; rfl⟩
      rcases Nat.eq_or_lt_of_le hij with rfl | hlt
      · exact ⟨n, hregion⟩
      · exact hlist j hlt hj
    rw [closing?, liveByte?_of_parameters hi hregion] at hclose
    unfold State.readParameters at hnext
    dsimp only at hclose
    by_cases hl : t[i] = Byte.lparen
    · rw [if_pos hl] at hnext
      rw [if_pos (beq_iff_eq.2 hl)] at hclose
      exact goesOn hnext hclose
    by_cases hr : t[i] = Byte.rparen
    · rw [if_neg hl, if_pos hr] at hnext
      rw [if_neg (mt beq_iff_eq.1 hl), if_pos (beq_iff_eq.2 hr)] at hclose
      by_cases hn : n ≤ 1
      · rw [if_pos hn] at hclose
        obtain rfl := Option.some.inj hclose
        refine ⟨fun j hij hj => ⟨n, ?_⟩, by rw [hnext, if_pos hn]⟩
        rw [Nat.le_antisymm hj hij]
        exact hregion
      · rw [if_neg hn] at hclose
        rw [if_neg hn] at hnext
        exact goesOn hnext hclose
    · rw [if_neg hl, if_neg hr] at hnext
      rw [if_neg (mt beq_iff_eq.1 hl), if_neg (mt beq_iff_eq.1 hr)] at hclose
      exact goesOn (hnext.trans (by rw [← hregion]; rfl)) hclose

/-- Behind the parenthesis that ends a parameter list the mask waits for the body, and up to it the
list goes on. -/
theorem ListsParameters.stateAt_close {paren close : Nat} (h : ListsParameters t paren)
    (hparen : t[paren]? = some Byte.lparen)
    (hclose : (ofText .declarations t).closingParen? paren = some close) :
    (∀ j, paren < j → j ≤ close → ∃ m, (stateAt t j).region = .parameters m) ∧
      stateAt t (close + 1) = (stateAt t paren).into .afterParameters := by
  have hlt := (List.getElem?_eq_some_iff.1 hparen).1
  have hread : (stateAt t paren).read (t.take paren).reverse Byte.lparen (t.drop (paren + 1)) =
      (false, (stateAt t paren).into (.parameters 1)) := by
    unfold State.read
    rw [h.region]
    dsimp only [State.readAfterColon]
    rw [if_neg (by decide), if_pos rfl, if_pos h.closes]
  have hnext : stateAt t (paren + 1) = (stateAt t paren).into (.parameters 1) := by
    rw [stateAt_succ hparen, hread]
  have hlive : (ofText .declarations t).liveByte? paren = some Byte.lparen :=
    liveByte?_of_read hparen (by rw [hread])
  obtain ⟨count, hcount⟩ : ∃ count, paren + (count + 1) = t.length :=
    ⟨t.length - paren - 1, by omega⟩
  rw [closingParen?, size_ofText, show t.length - paren = count + 1 by omega, closing?,
    hlive] at hclose
  obtain ⟨hlist, hend⟩ := stateAt_of_closing? (n := 1) (by omega) (by rw [hnext]; rfl) hclose
  exact ⟨hlist, by rw [hend, hnext]; rfl⟩

theorem ListsParameters.region_close {paren close : Nat} (h : ListsParameters t paren)
    (hparen : t[paren]? = some Byte.lparen)
    (hclose : (ofText .declarations t).closingParen? paren = some close) :
    (stateAt t (close + 1)).region = .afterParameters := by
  rw [(h.stateAt_close hparen hclose).2]
  rfl

/-! ## Between the parameter list and the body -/

/-- Nothing but blank space stands from `i` up to `stop`. -/
def BlankFrom (t : Text) (i stop : Nat) : Prop :=
  ∀ k, i ≤ k → k < stop → (t[k]?).any Byte.isSpace = true

/-- Behind a parameter list, a comment is read as in live text. -/
theorem region_comment {i : Nat} {gap : Gap} {c : UInt8}
    (hregion : (stateAt t i).region = .afterParameters) (hslash : t[i]? = some Byte.slash)
    (hnext : (t.drop (i + 1)).head? = some c)
    (hgap : c = Byte.slash ∧ gap = .line ∨ c = Byte.star ∧ gap = .opening) :
    (stateAt t (i + 1)).region = gap.region := by
  rw [stateAt_succ hslash]
  unfold State.read
  rw [hregion]
  dsimp only [State.readAfterParameters]
  rw [if_neg (by decide), if_neg (by decide)]
  unfold State.readLive
  rw [if_neg (by decide), if_neg (by decide), hnext]
  rcases hgap with ⟨rfl, rfl⟩ | ⟨rfl, rfl⟩ <;> rfl

/-- Behind a parameter list the mask waits for the body as long as the space is blank. Behind a
comment the text is live. -/
theorem region_of_gap {i count : Nat} (hcount : i + count = t.length)
    (hregion : (stateAt t i).region = .afterParameters) {stop : Nat}
    (hstop : (ofText .declarations t).gapEnd .blank i count = stop) (hlt : stop < t.length) :
    BlankFrom t i stop ∧ (stateAt t stop).region = .afterParameters ∨
      ¬ BlankFrom t i stop ∧ (stateAt t stop).region = .live := by
  induction count generalizing i with
  | zero =>
    rw [gapEnd] at hstop
    omega
  | succ count ih =>
    have hbyte : t[i]? = some t[i] := List.getElem?_eq_getElem (by omega)
    rw [gapEnd, byte?_ofText, hbyte, Option.any_some] at hstop
    -- a comment is passed over, and the text is live behind it
    have comment {c : UInt8} {gap : Gap} (hslash : t[i]? = some Byte.slash)
        (hnext : (t.drop (i + 1)).head? = some c)
        (hgap : c = Byte.slash ∧ gap = .line ∨ c = Byte.star ∧ gap = .opening)
        (hend : (ofText .declarations t).gapEnd gap (i + 1) count = stop) :
        ¬ BlankFrom t i stop ∧ (stateAt t stop).region = .live := by
      have hlive := (gapEnd_live gap (i + 1) count (by omega)
        (region_comment hregion hslash hnext hgap)).2
      rw [hend] at hlive
      refine ⟨fun hblank => ?_, (hlive hlt).live⟩
      have hle : i < stop := hend ▸ ((ofText .declarations t).le_gapEnd gap (i + 1) count).1
      have hspace := hblank i (Nat.le_refl i) hle
      rw [hslash] at hspace
      cases hspace
    cases hspace : Byte.isSpace t[i] with
    | true =>
      rw [if_pos hspace] at hstop
      have hnext : (stateAt t (i + 1)).region = .afterParameters := by
        rw [stateAt_succ hbyte]
        unfold State.read
        rw [hregion]
        dsimp only [State.readAfterParameters]
        rw [if_pos hspace, hregion]
      have hblank : BlankFrom t i stop ↔ BlankFrom t (i + 1) stop := by
        refine ⟨fun h k hk => h k (by omega), fun h k hk hk' => ?_⟩
        rcases Nat.eq_or_lt_of_le hk with rfl | hlt
        · rw [hbyte]
          exact hspace
        · exact h k hlt hk'
      rw [hblank]
      exact ih (by omega) hnext hstop
    | false =>
      rw [if_neg (Bool.eq_false_iff.1 hspace)] at hstop
      split at hstop
      · next hline =>
        obtain ⟨hslash, hnext⟩ :=
          bytes_of_startsAt (a := Byte.slash) (c := Byte.slash) (by decide) hline
        exact .inr (comment hslash hnext (.inl ⟨rfl, rfl⟩) hstop)
      split at hstop
      · next hblock =>
        obtain ⟨hslash, hnext⟩ :=
          bytes_of_startsAt (a := Byte.slash) (c := Byte.star) (by decide) hblock
        exact .inr (comment hslash hnext (.inr ⟨rfl, rfl⟩) hstop)
      · subst hstop
        exact .inl ⟨fun k h1 h2 => absurd h2 (Nat.not_lt.2 h1), hregion⟩

end

/-! ## Bodies -/

/-- In the body of `f`, a colon that opens a value stands in front of `k`, with nothing but blank
space behind it. -/
structure ValueIn (t : Text) (f : Behavior) (k : Nat) : Prop where
  lt : f.bodySpan.start + 1 < k
  stop : k < f.bodySpan.start + f.body.length
  region : (stateAt t k).region = .afterColon

section
variable {t : Text} {f : Behavior}

/-- The cells of a body whose first brace is live. -/
theorem FunctionAt.rest {s : MaskedText} {paren close : Nat} (h : s.FunctionAt f paren close)
    (hlive : s.liveByte? f.bodySpan.start = some Byte.lbrace) :
    ∃ v u, depth? 1 v = some 1 ∧
      s.Rest f.bodySpan.start (live [Byte.lbrace] ++ v ++ live [Byte.rbrace] ++ u) ∧
      f.body = Cell.bytes (live [Byte.lbrace] ++ v ++ live [Byte.rbrace]) := by
  obtain ⟨last, hlast, hstop⟩ := h.stop
  have hlt := byte?_eq_some_lt h.brace
  have hrest : s.Rest f.bodySpan.start
      ((Byte.lbrace, false) :: s.cells.drop (f.bodySpan.start + 1)) :=
    ⟨Nat.le_of_lt hlt, drop_cells_of_live hlive⟩
  have hlength : (s.cells.drop (f.bodySpan.start + 1)).length =
      s.size - (f.bodySpan.start + 1) := by
    rw [List.length_drop, length_cells]
  rw [closingBrace?, ← hlength] at hlast
  obtain ⟨v, u, hcells, rfl, hdepth⟩ := hrest.tail.split_of_closing? Nat.one_pos hlast
  have hsplit : (Byte.lbrace, false) :: s.cells.drop (f.bodySpan.start + 1) =
      live [Byte.lbrace] ++ v ++ live [Byte.rbrace] ++ u := by
    rw [hcells]
    simp [live]
  rw [hsplit] at hrest
  refine ⟨v, u, hdepth, hrest, ?_⟩
  rw [h.body, hstop, ← hrest.slice]
  congr 1
  simp [live]
  omega

theorem stateAt_add (j k : Nat) :
    (stateAt t j).after (t.take j).reverse k (t.drop j) = stateAt t (j + k) := by
  have h := State.after_add (.start .declarations) [] j k t
  rw [List.append_nil] at h
  exact h

theorem bits_cells (mode : Mode) (t : Text) :
    Cell.bits (ofText mode t).cells = Mask.ofText mode t := by
  unfold Cell.bits cells ofText
  rw [List.map_snd_zip (by simp)]

theorem bytes_cells (mode : Mode) (t : Text) : Cell.bytes (ofText mode t).cells = t := by
  unfold Cell.bytes cells ofText
  rw [List.map_fst_zip (by simp)]

/-- What the mask of a text says of a body whose text is read like the body alone. -/
theorem bodyMask_of_readsBlock {paren close : Nat}
    (h : (ofText .declarations t).FunctionAt f paren close)
    (hlive : (ofText .declarations t).liveByte? f.bodySpan.start = some Byte.lbrace)
    (hreads : (stateAt t f.bodySpan.start).ReadsBlock (t.take f.bodySpan.start).reverse
      (t.drop f.bodySpan.start) (f.body.length - 2)) :
    bodyMask t f = Mask.ofText .code f.body := by
  obtain ⟨v, u, hdepth, hrest, hbody⟩ := h.rest hlive
  generalize hw : live [Byte.lbrace] ++ v ++ live [Byte.rbrace] = w at hrest hbody
  have hlength : w.length = v.length + 2 := by
    rw [← hw]
    simp
  have hdrop : t.drop f.bodySpan.start = Cell.bytes w ++ Cell.bytes u := by
    rw [← bytes_append, ← hrest.2, Cell.bytes, List.map_drop]
    exact congrArg _ (bytes_cells .declarations t).symm
  have hmask : (Mask.ofText .declarations t).drop f.bodySpan.start =
      Cell.bits w ++ Cell.bits u := by
    rw [← bits_append, ← hrest.2, Cell.bits, List.map_drop]
    exact congrArg _ (bits_cells .declarations t).symm
  have hbits : ((stateAt t f.bodySpan.start).bits (t.take f.bodySpan.start).reverse
      (Cell.bytes w ++ Cell.bytes u)).take w.length = Cell.bits w := by
    have hdropped := State.drop_bits (.start .declarations) [] f.bodySpan.start t
    rw [List.append_nil] at hdropped
    rw [← hdrop]
    change ((stateAt t f.bodySpan.start).bits _ _).take _ = _
    rw [stateAt, ← hdropped]
    change ((Mask.ofText .declarations t).drop _).take _ = _
    rw [hmask]
    exact List.take_left' (List.length_map _)
  have hmaskBody : bodyMask t f = Cell.bits w := by
    rw [bodyMask, hmask, hbody, length_bytes]
    exact List.take_left' (List.length_map _)
  rw [hdrop, hbody, length_bytes, hlength] at hreads
  rw [hmaskBody, hbody, ← hw]
  rw [← hw] at hbits hreads
  exact (bits_block _ _ hdepth (by simpa using hbits) hreads).symm

/-- In live text, and behind a parameter list, a brace is live. -/
theorem liveByte?_lbrace {k : Nat} (hbyte : t[k]? = some Byte.lbrace)
    (hregion : (stateAt t k).region = .live ∨ (stateAt t k).region = .afterParameters) :
    (ofText .declarations t).liveByte? k = some Byte.lbrace := by
  refine liveByte?_of_read hbyte ?_
  unfold State.read
  rcases hregion with hregion | hregion <;> rw [hregion] <;> rfl

/-- A value that is no function, no block and not empty is masked from its first byte on. -/
theorem isMasked_of_afterColon {k : Nat} {b : UInt8} (hregion : (stateAt t k).region = .afterColon)
    (hbyte : t[k]? = some b) (hspace : Byte.isSpace b = false)
    (hb : b ∉ [Byte.lparen, Byte.lbrace, Byte.semicolon, Byte.rbrace]) :
    (ofText .declarations t).isMasked k = true := by
  simp only [List.mem_cons, List.not_mem_nil, or_false, not_or] at hb
  obtain ⟨hlparen, hlbrace, hsemicolon, hrbrace⟩ := hb
  rw [isMasked_ofText hbyte]
  unfold State.read
  rw [hregion]
  simp only [State.readAfterColon, State.readValue, hspace, hlparen, hlbrace, hsemicolon, hrbrace,
    Bool.false_eq_true, if_false]
  repeat' split
  all_goals rfl

theorem isMasked_bodyMask {k : Nat} (h : ValueIn t f k) :
    Mask.isMasked (bodyMask t f) (k - f.bodySpan.start) = (ofText .declarations t).isMasked k := by
  have hlt : k - f.bodySpan.start < f.body.length := by
    have := h.lt
    have := h.stop
    omega
  have hle : f.bodySpan.start + (k - f.bodySpan.start) = k := by
    have := h.lt
    omega
  unfold Mask.isMasked bodyMask MaskedText.isMasked
  rw [Array.getD_eq_getD_getElem?, List.getD_eq_getElem?_getD, List.getElem?_take_of_lt hlt,
    List.getElem?_drop, hle]
  simp only [ofText, List.getElem?_toArray]

/-- The function values that reading a text gives stand in it, each behind a parameter list. If the
mask reads the list too, and nothing but blank space stands between the list and the body, then the
mask of the text says of the body what the mask of the body alone does, as code. If a comment
stands there, the mask takes the body for live text of its surroundings. Then, and whenever the
body stands in live text, the masks agree if the text there is code or if no colon of the body
opens a value, and they do not if the value masks a byte that is live in code. -/
theorem bodyMask_eq (hf : (ofText .declarations t).Gives f) :
    ∃ paren close, (ofText .declarations t).FunctionAt f paren close ∧
      (ListsParameters t paren → BlankFrom t (close + 1) f.bodySpan.start →
        bodyMask t f = Mask.ofText .code f.body) ∧
      (ListsParameters t paren → ¬ BlankFrom t (close + 1) f.bodySpan.start →
        (stateAt t f.bodySpan.start).region = .live) ∧
      ((stateAt t f.bodySpan.start).region = .live →
        (stateAt t f.bodySpan.start).mode = .code ∨ (∀ k, ¬ ValueIn t f k) →
        bodyMask t f = Mask.ofText .code f.body) ∧
      ∀ k b, ValueIn t f k → t[k]? = some b → Byte.isSpace b = false →
        b ∉ [Byte.lparen, Byte.lbrace, Byte.semicolon, Byte.rbrace] →
        Mask.isMasked (Mask.ofText .code f.body) (k - f.bodySpan.start) = false →
        bodyMask t f ≠ Mask.ofText .code f.body := by
  obtain ⟨paren, close, h⟩ := hf.hasFunction
  have hbrace : t[f.bodySpan.start]? = some Byte.lbrace := by
    rw [← byte?_ofText .declarations]
    exact h.brace
  have hlparen : t[paren]? = some Byte.lparen := by
    rw [← byte?_ofText .declarations]
    exact h.lparen
  have hclose : close + 1 ≤ t.length := by
    have := (closingParen?_eq_some h.rparen).2
    rw [size_ofText] at this
    exact this
  have hstart : (ofText .declarations t).gapEnd .blank (close + 1) (t.length - (close + 1)) =
      f.bodySpan.start := by
    rw [h.start, skipTrivia, size_ofText, Nat.min_eq_left hclose]
  have hgap (hlist : ListsParameters t paren) := region_of_gap (Nat.add_sub_cancel' hclose)
    (hlist.region_close hlparen h.rparen) hstart (List.getElem?_eq_some_iff.1 hbrace).1
  refine ⟨paren, close, h, fun hlist hblank => ?_, fun hlist hcomment => ?_,
    fun hregion hquiet => ?_, fun k b hvalue hbyte hspace hb hlive heq => ?_⟩
  · have hregion := ((hgap hlist).resolve_right fun hno => hno.1 hblank).2
    exact bodyMask_of_readsBlock h (liveByte?_lbrace hbrace (.inr hregion)) (.parameters hregion)
  · exact ((hgap hlist).resolve_left fun hno => hcomment hno.1).2
  · refine bodyMask_of_readsBlock h (liveByte?_lbrace hbrace (.inl hregion)) ?_
    rcases hquiet with hmode | hquiet
    · exact .code hregion hmode
    · refine .quiet hregion fun k hk hvalue => hquiet (f.bodySpan.start + (k + 2)) ?_
      rw [stateAt_add] at hvalue
      exact ⟨by omega, by omega, hvalue⟩
  · have hmask := isMasked_of_afterColon hvalue.region hbyte hspace hb
    rw [← heq, isMasked_bodyMask hvalue, hmask] at hlive
    cases hlive

/-- A function with a comment in front of its body. -/
def sampleComment : Text := "class A \x7b f: (a) /* c */ \x7b return a ? 1 : 2; \x7d; \x7d;"

/-- The function of the sample. -/
def sampleFunction : Behavior where
  parameters := ["a"]
  body := "\x7b return a ? 1 : 2; \x7d"
  bodySpan := ⟨25, 46⟩

theorem declaration?_sampleComment : (ofText .declarations sampleComment).declaration? 10 =
    .ok (some (⟨"f", .method .pub sampleFunction, ⟨10, 47⟩⟩, 47)) := by
  have hread : ((ofText .declarations sampleComment).declaration? 10).toOption =
      some (some (⟨"f", .method .pub sampleFunction, ⟨10, 47⟩⟩, 47)) := by decide
  cases h : (ofText .declarations sampleComment).declaration? 10 with
  | error fault =>
    rw [h] at hread
    cases hread
  | ok read =>
    rw [h] at hread
    exact congrArg _ (Option.some.inj hread)

theorem body_sampleComment : (ofText .declarations sampleComment).body .classStatement 48 9 =
    ⟨[⟨"f", .method .pub sampleFunction, ⟨10, 47⟩⟩], [], none, 48⟩ := by
  have hfirst : (ofText .declarations sampleComment).skipTrivia 9 = 10 := by decide
  have hkind : (ofText .declarations sampleComment).statementKind 10 = .declaration := by
    decide
  have hlast : (ofText .declarations sampleComment).skipTrivia 47 = 48 := by decide
  rw [body_declaration hfirst (by decide) hkind declaration?_sampleComment,
    body_ended hlast (Nat.le_refl 48)]
  rfl

theorem gives_sampleComment : (ofText .declarations sampleComment).Gives sampleFunction := by
  have hat : (ofText .declarations sampleComment).classKeyword? 0 = some 0 := by decide
  have hopening : (ofText .declarations sampleComment).findAny?
      [Byte.lbrace, Byte.semicolon, Byte.rbrace] 0 = some (8, Byte.lbrace) := by decide
  have hclose : (ofText .declarations sampleComment).closingBrace? 8 = some 48 := by
    decide
  have hheader : ClassHeader.parse? ((ofText .declarations sampleComment).slice 0 8).trim =
      some (Text.ofString "A", []) := by decide
  have hread : (ofText .declarations sampleComment).classAt "main.nazca" 0 = _ :=
    classAt_of_body hopening hclose hheader body_sampleComment (by rfl)
  have hmem : ⟨"A", [], .ofDeclarations [⟨"f", .method .pub sampleFunction, ⟨10, 47⟩⟩], [],
      "main.nazca", ⟨0, 49⟩⟩ ∈
      (classesRead ((ofText .declarations sampleComment).classes "main.nazca" 0)).values := by
    rw [classes_single hat hread (by decide)]
    exact List.mem_singleton_self _
  exact .classes hmem (List.mem_append_left _ (List.mem_singleton_self _))

/-- The comment makes the mask read the body as declarations: the text behind the colon is live in
the body alone, and masked in its text. -/
theorem bodyMask_eq_sampleComment : (ofText .declarations sampleComment).Gives sampleFunction ∧
    ListsParameters sampleComment 13 ∧
    bodyMask sampleComment sampleFunction ≠ Mask.ofText .code sampleFunction.body := by
  obtain ⟨-, -, -, -, -, -, hvalue⟩ := bodyMask_eq gives_sampleComment
  exact ⟨gives_sampleComment, ⟨by decide, by decide⟩,
    hvalue 42 50 ⟨by decide, by decide, by decide⟩ (by decide) (by decide) (by decide)
      (by decide)⟩

end

end PageLang.MaskedText
