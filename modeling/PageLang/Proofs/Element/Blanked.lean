import PageLang.Proofs.Declaration.Blanked
import PageLang.Proofs.Element.Body

/-!
# Reading a body around a blanked comment

A body that stands in front of a comment or behind it is read alike if the comment is blanked, and
so is a body in which the comment stands between two statements, at whatever depth.

* `MaskedText.Clear`, `MaskedText.Blanked.body_clear`: a body that the comment does not stand in.
* `MaskedText.Leads`, `MaskedText.Comes`: the offsets at which the statements of a body start.
* `MaskedText.Blanked.body_leads`, `MaskedText.Blanked.body_comes`: a body with the comment in front
  of a statement.
-/

namespace PageLang

namespace MaskedText

/-! ## Nested blocks -/

section
variable {s : MaskedText} {opens closes : UInt8 → Bool} {depth i count close : Nat}

/-- Fewer open brackets are closed no later. -/
theorem exists_closing?_le {k : Nat} (hk : 0 < k) (hle : k ≤ depth)
    (h : s.closing? opens closes depth i count = some close) :
    ∃ c ≤ close, s.closing? opens closes k i count = some c := by
  induction count generalizing depth k i with
  | zero => simp [closing?] at h
  | succ count ih =>
    unfold closing? at h ⊢
    cases hb : s.liveByte? i with
    | none =>
      rw [hb] at h
      exact ih hk hle h
    | some b =>
      rw [hb] at h
      dsimp only at h ⊢
      by_cases hopens : opens b = true
      · rw [if_pos hopens] at h ⊢
        exact ih (Nat.succ_pos k) (Nat.succ_le_succ hle) h
      rw [if_neg hopens] at h ⊢
      by_cases hcloses : closes b = true
      · rw [if_pos hcloses] at h ⊢
        by_cases hlast : k ≤ 1
        · rw [if_pos hlast]
          refine ⟨i, ?_, rfl⟩
          split at h
          · cases h
            exact Nat.le_refl _
          · have := (closing?_eq_some h).1
            omega
        · rw [if_neg (by omega)] at h
          rw [if_neg hlast]
          exact ih (by omega) (by omega) h
      · rw [if_neg hcloses] at h ⊢
        exact ih hk hle h

/-- Inside the brackets some are still open. -/
theorem exists_closing?_behind {j : Nat} (hdepth : 0 < depth)
    (h : s.closing? opens closes depth i count = some close) (hi : i ≤ j) (hj : j < close) :
    ∃ d, 0 < d ∧ s.closing? opens closes d (j + 1) (i + count - (j + 1)) = some close := by
  induction count generalizing depth i with
  | zero => simp [closing?] at h
  | succ count ih =>
    have next {d : Nat} (hd : 0 < d)
        (h : s.closing? opens closes d (i + 1) count = some close) :
        ∃ d, 0 < d ∧
          s.closing? opens closes d (j + 1) (i + (count + 1) - (j + 1)) = some close := by
      rcases Nat.eq_or_lt_of_le hi with rfl | hlt
      · exact ⟨d, hd, by rwa [show i + (count + 1) - (i + 1) = count by omega]⟩
      · rw [show i + (count + 1) = i + 1 + count by omega]
        exact ih hd h hlt
    unfold closing? at h
    split at h
    · exact next hdepth h
    split at h
    · exact next (Nat.succ_pos _) h
    split at h
    · split at h
      · cases h
        omega
      · exact next (by omega) h
    · exact next hdepth h

/-- A block inside a block ends there. -/
theorem exists_closingBrace?_le {opening j : Nat} (h : s.closingBrace? opening = some close)
    (ho : opening < j) (hj : j < close) : ∃ c ≤ close, s.closingBrace? j = some c := by
  obtain ⟨d, hd, hclose⟩ := exists_closing?_behind Nat.one_pos h ho hj
  have hlt := (closingBrace?_eq_some h).2
  rw [show opening + 1 + (s.size - (opening + 1)) = s.size by omega] at hclose
  exact exists_closing?_le Nat.one_pos hd hclose

end

/-! ## Elements -/

theorem skipSpace_le {s : MaskedText} {i j : Nat} {b : UInt8} (hij : i ≤ j)
    (hb : s.byte? j = some b) (hspace : Byte.isSpace b = false) : s.skipSpace i ≤ j := by
  have hlt := byte?_eq_some_lt hb
  unfold skipSpace
  cases hfind : s.findRaw? (fun b => !Byte.isSpace b) i with
  | none =>
    have := firstFrom?_eq_none.1 hfind j hij (by omega)
    rw [hb, Option.any_some, hspace] at this
    cases this
  | some k =>
    refine Nat.le_of_not_lt fun hlt => ?_
    have := (firstFrom?_eq_some hfind).2.2.2 j hij hlt
    rw [hb, Option.any_some, hspace] at this
    cases this

/-- What announces the kind of the statement that starts at an offset: its first colon, semicolon or
brace. The colon of a sigil announces nothing. -/
def announced? (s : MaskedText) (i : Nat) : Option (Nat × UInt8) :=
  s.findAny? [Byte.colon, Byte.semicolon, Byte.lbrace, Byte.rbrace]
    (if s.byte? i = some Byte.colon then i + 1 else i)

theorem announced?_of_byte? {s : MaskedText} {i : Nat} {b : UInt8} (hb : s.byte? i = some b) :
    s.announced? i = s.findAny? [Byte.colon, Byte.semicolon, Byte.lbrace, Byte.rbrace]
      (if b = Byte.colon then i + 1 else i) := by
  unfold announced?
  rw [hb]
  simp only [Option.some.injEq]

theorem announced?_of_nameEnd? {s : MaskedText} {i colon : Nat} (h : s.nameEnd? i = some colon) :
    s.announced? i = some (colon, Byte.colon) := by
  unfold nameEnd? at h
  dsimp only at h
  split at h
  · next stop b hfind =>
    split at h
    · next hb =>
      cases h
      rw [announced?, hfind, hb]
    · cases h
  · cases h

/-- What announces a statement stands in front of every other byte that ends one. -/
theorem le_of_announced? {s : MaskedText} {i d stop : Nat} {b c : UInt8}
    (hfind : s.announced? i = some (stop, c)) (hd : i ≤ d) (hb : s.liveByte? d = some b)
    (hends : Mask.State.Ends b) : stop ≤ d := by
  have hbyte := (liveByte?_eq_some hb).2
  have hset : b ∈ [Byte.colon, Byte.semicolon, Byte.lbrace, Byte.rbrace] := by
    rcases hends with rfl | rfl | rfl <;> decide
  refine Nat.le_of_not_lt fun hlt => not_mem_of_findAny? hfind ?_ hlt hb hset
  split
  · next hcolon =>
    -- the colon of a sigil ends nothing
    refine Nat.lt_of_le_of_ne hd fun heq => ?_
    rw [heq, hbyte] at hcolon
    rcases hends with rfl | rfl | rfl <;> cases hcolon
  · exact hd

/-- The head of an element ends in front of every other byte that ends a statement. -/
theorem findAny?_of_element {s : MaskedText} {i : Nat} (hkind : s.statementKind i = .element) :
    ∃ stop b, s.findAny? [Byte.semicolon, Byte.lbrace] i = some (stop, b) ∧
      ∀ d c, i ≤ d → s.liveByte? d = some c → Mask.State.Ends c → stop ≤ d := by
  unfold statementKind at hkind
  split at hkind
  · cases hkind
  · cases hkind
  · cases hkind
  next hb =>
  dsimp only at hkind
  rw [← announced?_of_byte? hb] at hkind
  split at hkind
  · next stop c hfind =>
    split at hkind
    · cases hkind
    split at hkind
    · next hset =>
      have hleast (d : Nat) (c : UInt8) (hd : i ≤ d) (hc : s.liveByte? d = some c)
          (hends : Mask.State.Ends c) : stop ≤ d := le_of_announced? hfind hd hc hends
      obtain ⟨hle, -, hlive, -⟩ := findAny?_eq_some hfind
      refine ⟨stop, c, findAny?_of_least ?_ hlive ?_ fun k hk hlt d hd hmem => ?_, hleast⟩
      · split at hle <;> omega
      · rcases hset.1 with rfl | rfl <;> decide
      · have := hleast k d hk hd (by
          simp only [List.mem_cons, List.not_mem_nil, or_false] at hmem
          exact hmem.imp_right .inl)
        omega
    · cases hkind
  · cases hkind

namespace Blanked

variable {s s' : MaskedText} {a e : Nat} (h : Blanked s s' a e)
include h

theorem announced?_eq {i : Nat} (hi : i < a ∨ e ≤ i) : s'.announced? i = s.announced? i := by
  unfold announced?
  rw [h.byte? i hi, h.findAny?_eq (by decide)]

/-- A statement that announces itself in front of the comment or behind it does so alike. -/
theorem statementKind_eq {i : Nat}
    (hi : e ≤ i ∨ i < a ∧ ∀ stop b, s.announced? i = some (stop, b) → stop ≤ a) :
    s'.statementKind i = s.statementKind i := by
  have hout : i < a ∨ e ≤ i := hi.symm.imp And.left id
  have hbyte := h.byte? i hout
  unfold statementKind
  rw [hbyte]
  split
  · rfl
  · rfl
  · rfl
  next hb =>
  dsimp only
  rw [← announced?_of_byte? hb, ← announced?_of_byte? (hbyte.trans hb), h.announced?_eq hout]
  cases hfind : s.announced? i with
  | none => rfl
  | some found =>
    obtain ⟨stop, c⟩ := found
    dsimp only
    rw [h.slice_eq (hi.symm.imp (fun hfront => hfront.2 stop c hfind) id)]

theorem statementKind_of_ends {i d : Nat} {b : UInt8} (hi : i ≤ d) (hd : d < a)
    (hb : s.liveByte? d = some b) (hends : Mask.State.Ends b) :
    s'.statementKind i = s.statementKind i :=
  h.statementKind_eq (.inr ⟨by omega, fun _ _ hfind =>
    Nat.le_trans (le_of_announced? hfind hi hb hends) (Nat.le_of_lt hd)⟩)

/-- The head of an element in front of the comment or behind it is read alike, up to the semicolon
that may follow the element. -/
theorem elementHead_eq {i : Nat}
    (hi : e ≤ i ∨ ∀ stop b, s.findAny? [Byte.semicolon, Byte.lbrace] i = some (stop, b) →
      stop ≤ a) :
    s'.elementHead i = (s.elementHead i).map fun head => { head with
      next := match head.block with
        | some (_, close) => s'.skipSemicolon (close + 1)
        | none => head.next } := by
  unfold elementHead
  rw [h.findAny?_eq (by decide), h.size_eq]
  cases hfind : s.findAny? [Byte.semicolon, Byte.lbrace] i with
  | none => rfl
  | some found =>
    obtain ⟨stop, b⟩ := found
    dsimp only
    rw [h.slice_eq (hi.symm.imp (fun hfront => hfront stop b hfind) id), h.closingBrace?_eq]
    split
    · split
      · rfl
      · cases s.closingBrace? stop with
        | none => rfl
        | some close => rfl
    · rfl

end Blanked

/-- The block of an element, and what follows it. -/
theorem block_of_elementHead {s : MaskedText} {i opening last : Nat} {head : ElementHead}
    (hhead : s.elementHead i = .ok head) (hblock : head.block = some (opening, last)) :
    s.findAny? [Byte.semicolon, Byte.lbrace] i = some (opening, Byte.lbrace) ∧
      s.closingBrace? opening = some last ∧ head.next = s.skipSemicolon (last + 1) := by
  rcases elementHead_cases hhead with
    ⟨stop, -, hnone, -⟩ | ⟨opening', last', hfind, hlast, hat, hnext⟩
  · rw [hnone] at hblock
    cases hblock
  · rw [hat] at hblock
    cases hblock
    exact ⟨hfind, hlast, hnext⟩

/-- What ends the head of an element stands in front of what follows the element. -/
theorem ends_of_elementHead {s : MaskedText} {i : Nat} {head : ElementHead}
    (hhead : s.elementHead i = .ok head) :
    ∃ stop b, s.findAny? [Byte.semicolon, Byte.lbrace] i = some (stop, b) ∧ stop < head.next ∧
      Mask.State.Ends b := by
  rcases elementHead_cases hhead with
    ⟨stop, hfind, -, hnext⟩ | ⟨opening, last, hfind, hlast, -, hnext⟩
  · exact ⟨stop, _, hfind, by omega, .inl rfl⟩
  · have := lt_skipSemicolon_of_closingBrace? hlast
    exact ⟨opening, _, hfind, by omega, .inr (.inl rfl)⟩

/-- The block of an element inside a block ends there. -/
theorem block_le {s : MaskedText} {outer close i opening last : Nat} {head : ElementHead}
    (hclose : s.closingBrace? outer = some close) (hpos : outer < i) (hi : i < close)
    (hkind : s.statementKind i = .element) (hhead : s.elementHead i = .ok head)
    (hblock : head.block = some (opening, last)) :
    s.closingBrace? opening = some last ∧ last ≤ close := by
  obtain ⟨hfind, hlast, -⟩ := block_of_elementHead hhead hblock
  have hle := (findAny?_eq_some hfind).1
  have hend := liveByte?_of_closingBrace? hclose
  obtain ⟨stop', b', hfind', hleast⟩ := findAny?_of_element hkind
  rw [hfind] at hfind'
  cases hfind'
  have hopen := hleast close _ (Nat.le_of_lt hi) hend (.inr (.inr rfl))
  have hne : opening ≠ close := by
    rintro rfl
    rw [(findAny?_eq_some hfind).2.2.1] at hend
    cases hend
  obtain ⟨c, hc, hclose'⟩ := exists_closingBrace?_le hclose (by omega : outer < opening) (by omega)
  rw [hlast] at hclose'
  cases hclose'
  exact ⟨hlast, hc⟩

/-! ## Bodies -/

end MaskedText

/-- What a body holds, wherever its reading ended. -/
def Body.content (b : Body) : List Declaration × List Element × Option Fault :=
  (b.declarations, b.children, b.fault)

theorem Body.content_consDeclaration {b b' : Body} (d : Declaration)
    (h : b'.content = b.content) :
    (b'.consDeclaration d).content = (b.consDeclaration d).content := by
  simp only [content, Prod.mk.injEq] at h
  simp only [content, consDeclaration, h]

theorem Body.content_consChild {b b' : Body} (child : Element) (h : b'.content = b.content) :
    (b'.consChild child).content = (b.consChild child).content := by
  simp only [content, Prod.mk.injEq] at h
  simp only [content, consChild, h]

/-- An element is made of what its body holds. -/
theorem ElementHead.element_congr (head : ElementHead) (next : Nat) {b b' : Body}
    (h : b'.content = b.content) : { head with next }.element b' = head.element b := by
  simp only [Body.content, Prod.mk.injEq] at h
  simp only [element, h]

/-- The body of an element is made of what its block holds, whatever follows the element. -/
theorem ElementHead.element_innerBody_congr (s s' : MaskedText) (head : ElementHead) (next : Nat)
    (hblock : ∀ opening stop, head.block = some (opening, stop) →
      (s'.body .elementStatement stop (opening + 1)).content =
        (s.body .elementStatement stop (opening + 1)).content) :
    { head with next }.element (s'.innerBody { head with next }) =
      head.element (s.innerBody head) := by
  refine head.element_congr next ?_
  obtain ⟨name, classRefs, span, block, next'⟩ := head
  cases block with
  | none => rfl
  | some b => exact hblock b.1 b.2 rfl

namespace MaskedText

variable {s : MaskedText} {a e close pos : Nat}

/-- The body up to `close` stands from `pos` on behind the comment from `a` up to `e`, or it is the
rest of a block in front of it. -/
def Clear (s : MaskedText) (a e close pos : Nat) : Prop :=
  e ≤ pos ∨ ∃ opening, s.closingBrace? opening = some close ∧ opening < pos ∧ close < a

theorem Clear.mono {pos' : Nat} (hc : s.Clear a e close pos) (hle : pos ≤ pos') :
    s.Clear a e close pos' :=
  hc.imp (fun _ => by omega) fun ⟨opening, hclose, hlt, hfront⟩ =>
    ⟨opening, hclose, by omega, hfront⟩

theorem min_le_skipTrivia (s : MaskedText) (i : Nat) : min i s.size ≤ s.skipTrivia i :=
  (s.le_gapEnd .blank _ _).1

theorem skipTrivia_skipTrivia (s : MaskedText) (i : Nat) :
    s.skipTrivia (s.skipTrivia i) = s.skipTrivia i := by
  have hgap (gap : Gap) (i n : Nat) :
      s.gapEnd .blank (s.gapEnd gap i n) (i + n - s.gapEnd gap i n) = s.gapEnd gap i n := by
    induction n generalizing gap i with
    | zero =>
      have hend : s.gapEnd gap i 0 = i := by cases gap <;> rfl
      rw [hend, Nat.add_zero, Nat.sub_self]
      rfl
    | succ n ih =>
      rw [gapEnd_succ]
      cases hnext : s.gapNext? gap i with
      | some next =>
        rw [show i + (n + 1) = i + 1 + n by omega]
        exact ih next (i + 1)
      | none =>
        dsimp only
        obtain rfl : gap = .blank := by cases gap <;> first | rfl | cases hnext
        rw [show i + (n + 1) - i = n + 1 by omega, gapEnd_succ, hnext]
  have hend := hgap .blank (min i s.size) (s.size - i)
  rw [show min i s.size + (s.size - i) = s.size by omega] at hend
  change s.gapEnd .blank (min (s.skipTrivia i) s.size) _ = _
  rw [Nat.min_eq_left (s.skipTrivia_le_size i)]
  exact hend

/-- A body is read from its first statement on. -/
theorem body_skipTrivia (s : MaskedText) (unknown : Problem) (close pos : Nat) :
    s.body unknown close (s.skipTrivia pos) = s.body unknown close pos := by
  rw [body_eq s unknown close (s.skipTrivia pos), body_eq s unknown close pos,
    skipTrivia_skipTrivia]

theorem content_body_of_le {unknown : Problem} (hle : close ≤ s.skipTrivia pos) :
    (s.body unknown close pos).content = ([], [], none) := by
  rw [body_eq]
  simp only [if_pos hle]
  rfl

theorem le_skipTrivia_skipSemicolon {i k : Nat} (hle : k ≤ s.skipTrivia i) :
    k ≤ s.skipTrivia (s.skipSemicolon i) := by
  unfold skipSemicolon
  dsimp only
  split
  · next hb =>
    have := byte?_eq_some_lt hb
    have := s.min_le_skipTrivia (s.skipTrivia i + 1)
    omega
  · exact hle

namespace Blanked

variable {s' : MaskedText} (h : Blanked s s' a e)
include h

theorem keeps_of_clear (hc : s.Clear a e close pos) (hlt : s.skipTrivia pos < close) :
    s.Keeps a e pos ∧ s.Clear a e close (s.skipTrivia pos) := by
  have := h.lt
  have := h.le
  rcases hc with hbehind | ⟨opening, hclose, hpos, hfront⟩
  · refine ⟨.inl hbehind, .inl ?_⟩
    have := s.min_le_skipTrivia pos
    omega
  · refine ⟨.inr (.inl (by omega)), .inr ⟨opening, hclose, ?_, hfront⟩⟩
    have := le_skipTrivia_of_lt (show s.skipTrivia pos < s.size by omega)
    omega

theorem statementKind_clear {i : Nat} (hc : s.Clear a e close i) (hi : i < close) :
    s'.statementKind i = s.statementKind i := by
  rcases hc with hbehind | ⟨opening, hclose, hpos, hfront⟩
  · exact h.statementKind_eq (.inl hbehind)
  · exact h.statementKind_of_ends (Nat.le_of_lt hi) hfront (liveByte?_of_closingBrace? hclose)
      (.inr (.inr rfl))

theorem declaration?_clear (hapart : s.Apart a e) {i : Nat} (hskip : s.skipTrivia i = i)
    (hc : s.Clear a e close i) (hi : i < close) : s'.declaration? i = s.declaration? i := by
  refine h.declaration?_eq hapart hskip (hc.imp_right ?_)
  rintro ⟨opening, hclose, hpos, hfront⟩
  have hend := liveByte?_of_closingBrace? hclose
  refine ⟨by omega, fun colon hcolon => ?_⟩
  obtain ⟨hle, hlive⟩ := nameEnd?_eq_some hcolon
  have hlt : colon < close := by
    refine Nat.lt_of_le_of_ne ?_ fun heq => ?_
    · exact le_of_announced? (announced?_of_nameEnd? hcolon) (Nat.le_of_lt hi) hend
        (.inr (.inr rfl))
    · rw [heq, hend] at hlive
      cases hlive
  have hspace : s.skipSpace (colon + 1) ≤ close :=
    skipSpace_le hlt (liveByte?_eq_some hend).2 rfl
  have hvalue : opening < s.skipSpace (colon + 1) := by
    have := s.le_skipSpace (colon + 1)
    omega
  refine ⟨by omega, fun hparen => hapart.functions colon hlive (by omega) hparen,
    fun hbrace stop hstop => ?_, fun _ _ stop b hfind => ?_⟩
  · have hne : s.skipSpace (colon + 1) ≠ close := by
      intro heq
      rw [heq, (liveByte?_eq_some hend).2] at hbrace
      cases hbrace
    obtain ⟨c, hc, hclose'⟩ := exists_closingBrace?_le hclose hvalue (by omega)
    rw [hstop] at hclose'
    cases hclose'
    omega
  · refine Nat.le_trans (Nat.le_of_not_lt fun hlt => ?_) (Nat.le_of_lt hfront)
    exact not_mem_of_findAny? hfind hspace hlt hend (by decide)

/-- What follows an element in a body is read alike. -/
theorem content_body_next {unknown : Problem} {i : Nat} {head : ElementHead}
    (hc : s.Clear a e close i) (hhead : s.elementHead i = .ok head)
    (ih : (s'.body unknown close head.next).content = (s.body unknown close head.next).content) :
    (s'.body unknown close (match head.block with
      | some (_, last) => s'.skipSemicolon (last + 1)
      | none => head.next)).content = (s.body unknown close head.next).content := by
  cases hb : head.block with
  | none => exact ih
  | some range =>
    obtain ⟨opening, last⟩ := range
    obtain ⟨hfind, hclose, hnext⟩ := block_of_elementHead hhead hb
    have hle := (findAny?_eq_some hfind).1
    have hin := (closingBrace?_eq_some hclose).1
    dsimp only
    by_cases hkeeps : s.Keeps a e (last + 1)
    · rw [h.skipSemicolon_eq hkeeps, ← hnext]
      exact ih
    · -- the gap leaves the body, so nothing follows
      rcases hc with hbehind | ⟨_, _, _, hfront⟩
      · exact absurd (.inl (by omega)) hkeeps
      have hfar : close ≤ s.skipTrivia (last + 1) := by
        have : ¬ s.skipTrivia (last + 1) < a := fun hlt => hkeeps (.inr (.inl hlt))
        omega
      rw [hnext, content_body_of_le (le_skipTrivia_skipSemicolon hfar),
        content_body_of_le (le_skipTrivia_skipSemicolon (h.le_skipTrivia hfront hfar))]

theorem le_skipTrivia_clear (hc : s.Clear a e close pos) (hle : close ≤ s.skipTrivia pos) :
    close ≤ s'.skipTrivia pos := by
  rcases hc with hbehind | ⟨_, _, _, hfront⟩
  · rwa [h.skipTrivia_eq (.inl hbehind)]
  · exact h.le_skipTrivia hfront hle

/-- The next statement of a body in front of the comment or behind it is read alike. -/
theorem statement_clear (hapart : s.Apart a e) (hc : s.Clear a e close pos)
    (hclose : ¬ close ≤ s.skipTrivia pos) :
    s.Clear a e close (s.skipTrivia pos) ∧ s'.skipTrivia pos = s.skipTrivia pos ∧
      s'.statementKind (s.skipTrivia pos) = s.statementKind (s.skipTrivia pos) ∧
      s'.declaration? (s.skipTrivia pos) = s.declaration? (s.skipTrivia pos) := by
  have hlt := Nat.lt_of_not_le hclose
  obtain ⟨hkeeps, hi⟩ := h.keeps_of_clear hc hlt
  exact ⟨hi, h.skipTrivia_eq hkeeps, h.statementKind_clear hi hlt,
    h.declaration?_clear hapart (s.skipTrivia_skipTrivia pos) hi hlt⟩

theorem elementHead_clear {i : Nat} (hc : s.Clear a e close i) (hi : i < close)
    (hkind : s.statementKind i = .element) :
    s'.elementHead i = (s.elementHead i).map fun head => { head with
      next := match head.block with
        | some (_, last) => s'.skipSemicolon (last + 1)
        | none => head.next } := by
  refine h.elementHead_eq (hc.imp_right ?_)
  rintro ⟨opening, hclose, -, hfront⟩ stop b hfind
  obtain ⟨stop', b', hfind', hleast⟩ := findAny?_of_element hkind
  rw [hfind] at hfind'
  cases hfind'
  have := hleast close _ (Nat.le_of_lt hi) (liveByte?_of_closingBrace? hclose) (.inr (.inr rfl))
  omega

omit h in
/-- The block of an element in a body in front of the comment or behind it is such a body. -/
theorem clear_block {i opening last : Nat} {head : ElementHead} (hc : s.Clear a e close i)
    (hi : i < close) (hkind : s.statementKind i = .element) (hhead : s.elementHead i = .ok head)
    (hblock : head.block = some (opening, last)) : s.Clear a e last (opening + 1) := by
  refine hc.imp (fun _ => ?_) ?_
  · have := (elementHead_eq_ok hhead).2 (opening, last) hblock
    omega
  · rintro ⟨outer, hclose, hpos, hfront⟩
    obtain ⟨hlast, hle⟩ := block_le hclose hpos hi hkind hhead hblock
    exact ⟨opening, hlast, Nat.lt_succ_self _, by omega⟩

/-- A body in front of the comment or behind it is read alike. -/
theorem body_clear (hapart : s.Apart a e) (unknown : Problem) (close pos : Nat)
    (hc : s.Clear a e close pos) :
    (s'.body unknown close pos).content = (s.body unknown close pos).content := by
  induction unknown, close, pos using body.induct s with
  | case1 unknown close pos i hclose =>
    rw [content_body_of_le hclose, content_body_of_le (h.le_skipTrivia_clear hc hclose)]
  | case2 unknown close pos i hclose hkind =>
    obtain ⟨-, hskip, hkind', -⟩ := h.statement_clear hapart hc hclose
    rw [body_eq, body_eq]
    simp only [hskip, hkind', if_neg hclose, hkind, i]
  | case3 unknown close pos i hclose hkind ih =>
    obtain ⟨hi, hskip, hkind', -⟩ := h.statement_clear hapart hc hclose
    rw [body_eq, body_eq]
    simp only [hskip, hkind', if_neg hclose, hkind, i]
    exact ih (hi.mono (Nat.le_succ _))
  | case4 unknown close pos i hclose hkind fault hd =>
    obtain ⟨-, hskip, hkind', hd'⟩ := h.statement_clear hapart hc hclose
    rw [body_eq, body_eq]
    simp only [hskip, hkind', hd', if_neg hclose, hkind, hd, i]
  | case5 unknown close pos i hclose hkind hd =>
    obtain ⟨-, hskip, hkind', hd'⟩ := h.statement_clear hapart hc hclose
    rw [body_eq, body_eq]
    simp only [hskip, hkind', hd', if_neg hclose, hkind, hd, i]
  | case6 unknown close pos i hclose hkind d next hd ih =>
    obtain ⟨hi, hskip, hkind', hd'⟩ := h.statement_clear hapart hc hclose
    rw [body_eq, body_eq]
    simp only [hskip, hkind', hd', if_neg hclose, hkind, hd, i]
    exact Body.content_consDeclaration d (ih (hi.mono (Nat.le_of_lt (lt_of_declaration? hd))))
  | case7 unknown close pos i hclose hkind fault hhead =>
    obtain ⟨hi, hskip, hkind', -⟩ := h.statement_clear hapart hc hclose
    have hhead' := h.elementHead_clear hi (Nat.lt_of_not_le hclose) hkind
    rw [show s.elementHead (s.skipTrivia pos) = _ from hhead] at hhead'
    rw [body_eq, body_eq]
    simp only [hskip, hkind', hhead', if_neg hclose, hkind, hhead, i, Except.map]
  | case8 unknown close pos i hclose hkind head hhead inner fault he ihBlock =>
    obtain ⟨hi, hskip, hkind', -⟩ := h.statement_clear hapart hc hclose
    have hlt := Nat.lt_of_not_le hclose
    have hhead' := h.elementHead_clear hi hlt hkind
    rw [show s.elementHead (s.skipTrivia pos) = _ from hhead] at hhead'
    have hinner (next : Nat) := head.element_innerBody_congr s s' next fun opening last hblock =>
      ihBlock opening last hblock (clear_block hi hlt hkind hhead hblock)
    rw [show inner = s.innerBody head from (innerBody_eq s head).symm] at he
    rw [body_eq, body_eq]
    simp only [hskip, hkind', hhead', if_neg hclose, hkind, hhead, i, Except.map, hinner, he]
  | case9 unknown close pos i hclose hkind head hhead inner child he ihBlock ih =>
    obtain ⟨hi, hskip, hkind', -⟩ := h.statement_clear hapart hc hclose
    have hlt := Nat.lt_of_not_le hclose
    have hhead' := h.elementHead_clear hi hlt hkind
    rw [show s.elementHead (s.skipTrivia pos) = _ from hhead] at hhead'
    have hinner (next : Nat) := head.element_innerBody_congr s s' next fun opening last hblock =>
      ihBlock opening last hblock (clear_block hi hlt hkind hhead hblock)
    rw [show inner = s.innerBody head from (innerBody_eq s head).symm] at he
    rw [body_eq, body_eq]
    simp only [hskip, hkind', hhead', if_neg hclose, hkind, hhead, i, Except.map, hinner, he]
    refine Body.content_consChild child (h.content_body_next hi hhead ?_)
    exact ih (hi.mono (Nat.le_of_lt (elementHead_eq_ok hhead).1))
  | case10 unknown close pos i hclose hkind =>
    obtain ⟨-, hskip, hkind', -⟩ := h.statement_clear hapart hc hclose
    have hend : s'.statementEnd i = s.statementEnd i := by
      unfold statementEnd
      rw [h.findAny?_eq (by decide), h.size_eq]
    rw [body_eq, body_eq]
    simp only [hskip, hkind', if_neg hclose, hkind, i]
    simp only [i] at hend
    rw [hend]

end Blanked

/-! ## Where statements start -/

/-- One statement of a body is read. Reading the body up to `close` from `pos` on leads to the
statements of the body up to `close'` from `pos'` on. -/
inductive Leads (s : MaskedText) (close pos : Nat) : (close' pos' : Nat) → Prop
  | empty : s.skipTrivia pos < close → s.statementKind (s.skipTrivia pos) = .empty →
    Leads s close pos close (s.skipTrivia pos + 1)
  | declaration {d : Declaration} {next : Nat} : s.skipTrivia pos < close →
    s.statementKind (s.skipTrivia pos) = .declaration →
    s.declaration? (s.skipTrivia pos) = .ok (some (d, next)) → Leads s close pos close next
  /-- The block of an element is entered. -/
  | inside {head : ElementHead} {opening last : Nat} : s.skipTrivia pos < close →
    s.statementKind (s.skipTrivia pos) = .element →
    s.elementHead (s.skipTrivia pos) = .ok head → head.block = some (opening, last) →
    Leads s close pos last (opening + 1)
  /-- A whole element is passed. -/
  | behind {child : Element} {next : Nat} : s.skipTrivia pos < close →
    s.statementKind (s.skipTrivia pos) = .element →
    s.element (s.skipTrivia pos) = .ok (child, next) → Leads s close pos close next

/-- Reading the body up to `close` from `pos` on comes to `p`, where a statement of the body up to
`stop` starts, or the blank space and the comments in front of it. -/
inductive Comes (s : MaskedText) : (close pos stop p : Nat) → Prop
  | here {close pos : Nat} : Comes s close pos close pos
  | step {close pos close' pos' stop p : Nat} : s.Leads close pos close' pos' →
    Comes s close' pos' stop p → Comes s close pos stop p

theorem statementKind_eq_empty {i : Nat} :
    s.statementKind i = .empty ↔ s.byte? i = some Byte.semicolon := by
  refine ⟨fun hkind => ?_, fun hb => by rw [statementKind, hb]; rfl⟩
  unfold statementKind at hkind
  split at hkind
  · cases hkind
  · cases hkind
  · next hb => exact hb
  · dsimp only at hkind
    repeat' split at hkind
    all_goals cases hkind

namespace Leads

variable {close' pos' : Nat}

/-- Reading goes on behind the start of the statement. -/
theorem lt (h : s.Leads close pos close' pos') :
    pos ≤ s.skipTrivia pos ∧ s.skipTrivia pos < pos' := by
  have hle {kind : StatementKind} (hkind : s.statementKind (s.skipTrivia pos) = kind)
      (hne : kind ≠ .ended) : pos ≤ s.skipTrivia pos :=
    le_skipTrivia_of_lt (lt_size_of_statementKind (by rw [hkind]; exact hne))
  cases h with
  | empty _ hkind => exact ⟨hle hkind StatementKind.noConfusion, Nat.lt_succ_self _⟩
  | declaration _ hkind hd => exact ⟨hle hkind StatementKind.noConfusion, lt_of_declaration? hd⟩
  | inside _ hkind hhead hblock =>
    have := (elementHead_eq_ok hhead).2 _ hblock
    exact ⟨hle hkind StatementKind.noConfusion, Nat.lt_succ_of_le this.1⟩
  | behind _ hkind hchild => exact ⟨hle hkind StatementKind.noConfusion, lt_of_element hchild⟩

/-- Bodies nest. -/
theorem nested {outer : Nat} (h : s.Leads close pos close' pos')
    (hclose : s.closingBrace? outer = some close) (hpos : outer < pos) :
    close' ≤ close ∧ ∃ opening, s.closingBrace? opening = some close' ∧ opening < pos' := by
  obtain ⟨hle, hlt⟩ := h.lt
  cases h with
  | empty | declaration | behind => exact ⟨Nat.le_refl _, outer, hclose, by omega⟩
  | inside hi hkind hhead hblock =>
    obtain ⟨hlast, hin⟩ := block_le hclose (by omega) hi hkind hhead hblock
    exact ⟨hin, _, hlast, Nat.lt_succ_self _⟩

end Leads

namespace Comes

variable {stop p : Nat}

theorem le (h : s.Comes close pos stop p) : pos ≤ p := by
  induction h with
  | here => exact Nat.le_refl _
  | step hlead _ ih =>
    have := hlead.lt
    omega

theorem le_close {outer : Nat} (h : s.Comes close pos stop p)
    (hclose : s.closingBrace? outer = some close) (hpos : outer < pos) : stop ≤ close := by
  induction h generalizing outer with
  | here => exact Nat.le_refl _
  | step hlead _ ih =>
    obtain ⟨hle, opening, hopen, hlt⟩ := hlead.nested hclose hpos
    exact Nat.le_trans (ih hopen hlt) hle

/-- Where the comment stands in front of a statement, the gaps in front of the earlier statements
do not reach into it. -/
theorem keeps (h : s.Comes close pos stop p) (hcross : s.Crosses a .blank p) :
    s.Keeps a e pos := by
  cases h with
  | here => exact .inr (.inr hcross)
  | step hlead hrest =>
    have := hlead.lt
    have := hrest.le
    have := hcross.le
    exact .inr (.inl (by omega))

end Comes

/-- The gap behind a block in front of the comment does not reach into it. -/
theorem keeps_of_skipSemicolon {i : Nat} (hnext : s.skipSemicolon i ≤ a)
    (hkeeps : s.Keeps a e (s.skipSemicolon i)) : s.Keeps a e i := by
  unfold skipSemicolon at hnext hkeeps
  dsimp only at hnext hkeeps
  split at hnext
  · exact .inr (.inl (by omega))
  · next hno => rwa [if_neg hno] at hkeeps

namespace Blanked

variable {s' : MaskedText} (h : Blanked s s' a e)
include h

theorem elementHead_ok {i : Nat} {head : ElementHead}
    (hi : e ≤ i ∨ ∀ stop b, s.findAny? [Byte.semicolon, Byte.lbrace] i = some (stop, b) → stop ≤ a)
    (hhead : s.elementHead i = .ok head)
    (hnext : ∀ opening last, head.block = some (opening, last) → s.Keeps a e (last + 1)) :
    s'.elementHead i = .ok head := by
  rw [h.elementHead_eq hi, hhead]
  have hat (opening last : Nat) (hblock : head.block = some (opening, last)) :=
    block_of_elementHead hhead hblock
  obtain ⟨name, classRefs, span, block, next⟩ := head
  cases block with
  | none => rfl
  | some range =>
    obtain ⟨opening, last⟩ := range
    obtain ⟨-, -, rfl⟩ := hat opening last rfl
    simp only [Except.map, h.skipSemicolon_eq (hnext opening last rfl)]

/-- An element is made of its head and of what its block holds. -/
theorem element_eq {i : Nat}
    (hi : e ≤ i ∨ ∀ stop b, s.findAny? [Byte.semicolon, Byte.lbrace] i = some (stop, b) → stop ≤ a)
    (hblock : ∀ opening last,
      s.findAny? [Byte.semicolon, Byte.lbrace] i = some (opening, Byte.lbrace) →
      s.closingBrace? opening = some last → s.Keeps a e (last + 1) ∧
        (s'.body .elementStatement last (opening + 1)).content =
          (s.body .elementStatement last (opening + 1)).content) :
    s'.element i = s.element i := by
  rw [element_eq_innerBody, element_eq_innerBody]
  cases hhead : s.elementHead i with
  | error fault =>
    rw [h.elementHead_eq hi, hhead]
    rfl
  | ok head =>
    have hinside (opening last : Nat) (hb : head.block = some (opening, last)) :
        s.Keeps a e (last + 1) ∧ (s'.body .elementStatement last (opening + 1)).content =
          (s.body .elementStatement last (opening + 1)).content := by
      obtain ⟨hfind, hlast, -⟩ := block_of_elementHead hhead hb
      exact hblock opening last hfind hlast
    have hinner : head.element (s'.innerBody head) = _ :=
      head.element_innerBody_congr s s' head.next fun opening last hb => (hinside opening last hb).2
    rw [h.elementHead_ok hi hhead fun opening last hb => (hinside opening last hb).1]
    dsimp only
    rw [hinner]

/-- A declaration that ends in front of the comment announces itself alike. -/
theorem statementKind_front {i next : Nat} {d : Declaration} (hskip : s.skipTrivia i = i)
    (hd : s.declaration? i = .ok (some (d, next))) (hnext : next ≤ a) :
    s'.statementKind i = s.statementKind i := by
  obtain ⟨-, colon, -, -, written, v, hcolon, hvalue, -⟩ := value_of_declaration? hd
  rw [hskip] at hcolon hvalue
  have hlt := lt_of_declaration? hd
  have hspace := s.le_skipSpace (colon + 1)
  have hle : s.skipSpace (colon + 1) ≤ next := le_of_value hvalue
  refine h.statementKind_eq (.inr ⟨by omega, fun stop b hfind => ?_⟩)
  rw [announced?_of_nameEnd? hcolon] at hfind
  cases hfind
  omega

/-- One statement of a body in front of the comment, or an element around it. What is read behind
the statement decides. -/
theorem body_leads (hapart : s.Apart a e) {close' pos' : Nat}
    (hlead : s.Leads close pos close' pos')
    (hpos : pos' ≤ a) (hkeeps : s.Keeps a e pos') (hclose : e ≤ close')
    (ih : ∀ unknown, (s'.body unknown close' pos').content = (s.body unknown close' pos').content)
    (unknown : Problem) :
    (s'.body unknown close pos).content = (s.body unknown close pos).content := by
  obtain ⟨-, hlt⟩ := hlead.lt
  have hskip := h.skipTrivia_eq (i := pos) (.inr (.inl (by omega)))
  have hfront : s.skipTrivia pos < a := by omega
  cases hlead with
  | empty hi hkind =>
    have hkind' : s'.statementKind (s.skipTrivia pos) = .empty := by
      rw [statementKind_eq_empty, h.byte? _ (.inl hfront), ← statementKind_eq_empty]
      exact hkind
    rw [body_eq, body_eq]
    simp only [hskip, hkind, hkind', if_neg (Nat.not_le.2 hi)]
    exact ih unknown
  | @declaration d next hi hkind hd =>
    have hsame := s.skipTrivia_skipTrivia pos
    have hd' := h.declaration?_front hapart hsame hd hpos
    have hkind' := h.statementKind_front hsame hd hpos
    rw [body_eq, body_eq]
    simp only [hskip, hkind, hkind', hd, hd', if_neg (Nat.not_le.2 hi)]
    exact Body.content_consDeclaration d (ih unknown)
  | @inside head opening last hi hkind hhead hblock =>
    obtain ⟨hfind, hlast, hnext⟩ := block_of_elementHead hhead hblock
    obtain ⟨hle, -, hopen, -⟩ := findAny?_eq_some hfind
    have hkind' := h.statementKind_of_ends hle (by omega) hopen (.inr (.inl rfl))
    have helement : s'.element (s.skipTrivia pos) = s.element (s.skipTrivia pos) := by
      refine h.element_eq (.inr fun _ _ hfind' => ?_) fun _ _ hfind' hlast' => ?_
      · rw [hfind] at hfind'
        cases hfind'
        omega
      · rw [hfind] at hfind'
        cases hfind'
        rw [hlast] at hlast'
        cases hlast'
        exact ⟨.inl (by omega), ih .elementStatement⟩
    rw [body_of_element unknown hskip hi (hkind'.trans hkind), body_of_element unknown rfl hi hkind,
      helement]
    cases hread : s.element (s.skipTrivia pos) with
    | error fault => rfl
    | ok r =>
      obtain ⟨child, next⟩ := r
      obtain ⟨head', hhead', rfl, -⟩ := elementHead_of_element hread
      rw [hhead] at hhead'
      cases hhead'
      refine Body.content_consChild child (h.body_clear hapart unknown close head.next (.inl ?_))
      have := s.le_skipSemicolon (i := close' + 1)
      omega
  | @behind child next hi hkind hchild =>
    obtain ⟨head, hhead, rfl, -⟩ := elementHead_of_element hchild
    obtain ⟨stop, b, hfind, hstop, hends⟩ := ends_of_elementHead hhead
    obtain ⟨hle, -, hlive, -⟩ := findAny?_eq_some hfind
    have hkind' := h.statementKind_of_ends hle (by omega) hlive hends
    have helement : s'.element (s.skipTrivia pos) = s.element (s.skipTrivia pos) := by
      refine h.element_eq (.inr fun _ _ hfind' => ?_) fun opening last hfind' hlast => ?_
      · rw [hfind] at hfind'
        cases hfind'
        omega
      · rcases elementHead_cases hhead with ⟨_, hno, -⟩ | ⟨_, _, hopen, hclose', -, hnext⟩
        · rw [hfind'] at hno
          cases hno
        rw [hfind'] at hopen
        cases hopen
        rw [hlast] at hclose'
        cases hclose'
        have := s.le_skipSemicolon (i := last + 1)
        rw [hnext] at hpos hkeeps
        exact ⟨keeps_of_skipSemicolon hpos hkeeps,
          h.body_clear hapart _ _ _ (.inr ⟨opening, hlast, Nat.lt_succ_self _, by omega⟩)⟩
    rw [body_of_element unknown hskip hi (hkind'.trans hkind), body_of_element unknown rfl hi hkind,
      helement, hchild]
    exact Body.content_consChild _ (ih unknown)

/-- A body in which the comment stands in front of a statement is read alike. -/
theorem body_comes (hapart : s.Apart a e) {stop p outer : Nat} (hcomes : s.Comes close pos stop p)
    (hcross : s.Crosses a .blank p) (hstop : e ≤ stop) (hclose : s.closingBrace? outer = some close)
    (hpos : outer < pos) (unknown : Problem) :
    (s'.body unknown close pos).content = (s.body unknown close pos).content := by
  induction hcomes generalizing outer unknown with
  | @here close pos =>
    have hkeeps : s.Keeps a e pos := .inr (.inr hcross)
    have hbehind : e ≤ s.skipTrivia pos := by
      rw [h.skipTrivia_of_crosses hcross]
      exact (s.le_gapEnd .blank e _).1
    rw [← s'.body_skipTrivia, ← s.body_skipTrivia, h.skipTrivia_eq hkeeps]
    exact h.body_clear hapart unknown close _ (.inl hbehind)
  | step hlead hrest ih =>
    obtain ⟨-, opening, hopen, hlt⟩ := hlead.nested hclose hpos
    refine h.body_leads hapart hlead (Nat.le_trans hrest.le hcross.le) (hrest.keeps hcross)
      (Nat.le_trans hstop (hrest.le_close hopen hlt)) (fun unknown => ?_) unknown
    exact ih hcross hstop hopen hlt unknown

end Blanked

end MaskedText

end PageLang
