import PageLang.Proofs.Element.Blanked
import PageLang.Proofs.MaskedText.Agree

/-!
# Reading a body in texts that agree around it

A block that is read in one text is read alike in every text that agrees with it on a range around
the block, as long as what is read in the range does not look out of it. Only what can be read is
compared: a block that is not closed in the range may be closed behind it.

* `MaskedText.AgreeOn.closing?_eq`, `MaskedText.AgreeOn.statementKind_eq`: brackets and the first
  bytes of a statement.
* `MaskedText.Window`: a range out of which nothing looks.
* `MaskedText.Window.value_eq`, `MaskedText.Window.declaration?_eq`: a value and a declaration.
* `MaskedText.Window.body_eq`: a body.
-/

namespace PageLang

namespace MaskedText

/-- A brace or a semicolon behind the start of a statement announces it, or something before does. -/
theorem announced?_of_ends {s : MaskedText} {i d : Nat} {b : UInt8} (hid : i ≤ d)
    (hb : s.liveByte? d = some b) (hends : Mask.State.Ends b) :
    ∃ stop c, s.announced? i = some (stop, c) ∧ stop ≤ d := by
  cases hfind : s.announced? i with
  | some found => exact ⟨found.1, found.2, rfl, le_of_announced? hfind hid hb hends⟩
  | none =>
    have hset : b ∈ [Byte.colon, Byte.semicolon, Byte.lbrace, Byte.rbrace] := by
      rcases hends with rfl | rfl | rfl <;> decide
    refine absurd hset (findAny?_eq_none hfind ?_ hb)
    split
    · next hcolon =>
      -- the colon of a sigil ends nothing
      refine Nat.lt_of_le_of_ne hid fun heq => ?_
      rw [heq, (liveByte?_eq_some hb).2] at hcolon
      rcases hends with rfl | rfl | rfl <;> cases hcolon
    · exact hid

/-- A colon that announces a declaration ends its name. -/
theorem nameEnd?_of_announced? {s : MaskedText} {i colon : Nat}
    (h : s.announced? i = some (colon, Byte.colon)) : s.nameEnd? i = some colon := by
  unfold announced? at h
  unfold nameEnd?
  dsimp only
  rw [h]
  exact if_pos rfl

namespace AgreeOn

variable {s s' : MaskedText} {lo hi : Nat} (h : AgreeOn s s' lo hi)
include h

/-! ## Brackets -/

theorem closing?_eq {opens closes : UInt8 → Bool} {depth i n n' j : Nat} (hlo : lo ≤ i)
    (hn' : hi ≤ i + n') (hj : j < hi) (hclose : s.closing? opens closes depth i n = some j) :
    s'.closing? opens closes depth i n' = some j := by
  induction n generalizing depth i n' with
  | zero => simp [closing?] at hclose
  | succ n ih =>
    have hle := (closing?_eq_some hclose).1
    obtain ⟨n', rfl⟩ : ∃ k, n' = k + 1 := ⟨n' - 1, by omega⟩
    have next {depth' : Nat} (hclose : s.closing? opens closes depth' (i + 1) n = some j) :
        s'.closing? opens closes depth' (i + 1) n' = some j := ih (by omega) (by omega) hclose
    unfold closing? at hclose ⊢
    rw [h.liveByte?_eq hlo (by omega)]
    cases hb : s.liveByte? i with
    | none =>
      rw [hb] at hclose
      exact next hclose
    | some b =>
      rw [hb] at hclose
      dsimp only at hclose ⊢
      by_cases hopens : opens b = true
      · rw [if_pos hopens] at hclose ⊢
        exact next hclose
      rw [if_neg hopens] at hclose ⊢
      by_cases hcloses : closes b = true
      · rw [if_pos hcloses] at hclose ⊢
        by_cases hlast : depth ≤ 1
        · rw [if_pos hlast] at hclose ⊢
          exact hclose
        · rw [if_neg hlast] at hclose ⊢
          exact next hclose
      · rw [if_neg hcloses] at hclose ⊢
        exact next hclose

theorem closingBrace?_eq {opening j : Nat} (hlo : lo ≤ opening) (hj : j < hi)
    (hclose : s.closingBrace? opening = some j) : s'.closingBrace? opening = some j := by
  have := (closingBrace?_eq_some hclose).1
  have := h.le'
  exact h.closing?_eq (by omega) (by omega) hj hclose

theorem closingParen?_eq {opening j : Nat} (hlo : lo ≤ opening) (hj : j < hi)
    (hclose : s.closingParen? opening = some j) : s'.closingParen? opening = some j := by
  have := (closingParen?_eq_some hclose).1
  have := h.le'
  exact h.closing?_eq hlo (by omega) hj hclose

/-! ## Statements -/

theorem skipSpace_eq {i : Nat} (hlo : lo ≤ i) (hhi : s.skipSpace i < hi) :
    s'.skipSpace i = s.skipSpace i := by
  have := h.le
  have := h.le'
  unfold skipSpace at hhi ⊢
  cases hfind : s.findRaw? (fun b => !Byte.isSpace b) i with
  | none =>
    rw [hfind] at hhi
    simp only [Option.getD_none] at hhi
    omega
  | some j =>
    rw [hfind] at hhi
    simp only [Option.getD_some] at hhi
    obtain ⟨hle, -, hj, hleast⟩ := firstFrom?_eq_some hfind
    have hfind' : s'.findRaw? (fun b => !Byte.isSpace b) i = some j := by
      refine firstFrom?_of_least hle (by omega) ?_ fun k hk hkj => ?_
      · rw [h.byte? j (by omega) hhi]
        exact hj
      · rw [h.byte? k (by omega) (by omega)]
        exact hleast k hk hkj
    rw [hfind']
    rfl

section
variable {i d : Nat} {b : UInt8} (hlo : lo ≤ i) (hid : i ≤ d) (hd : d < hi)
  (hb : s.liveByte? d = some b) (hends : Mask.State.Ends b)
include hlo hid hd hb hends

/-- A statement that ends in the range announces itself alike. -/
theorem announced?_eq : s'.announced? i = s.announced? i := by
  obtain ⟨stop, c, hfind, hstop⟩ := announced?_of_ends hid hb hends
  rw [hfind]
  unfold announced? at hfind ⊢
  rw [h.byte? i hlo (by omega)]
  refine h.findAny?_eq ?_ (by omega) hfind
  split <;> omega

theorem statementKind_eq : s'.statementKind i = s.statementKind i := by
  have hbyte := h.byte? i hlo (by omega)
  obtain ⟨stop, c, hfind, hstop⟩ := announced?_of_ends hid hb hends
  have hfind' := h.announced?_eq hlo hid hd hb hends
  unfold statementKind
  rw [hbyte]
  split
  · rfl
  · rfl
  · rfl
  next hfirst =>
  dsimp only
  rw [← announced?_of_byte? hfirst, ← announced?_of_byte? (hbyte.trans hfirst), hfind', hfind]
  dsimp only
  rw [h.slice_eq hlo (by omega)]

theorem nameEnd?_eq : s'.nameEnd? i = s.nameEnd? i := by
  have hfind := h.announced?_eq hlo hid hd hb hends
  unfold announced? at hfind
  unfold nameEnd?
  dsimp only
  rw [hfind]

end

/-- The head of an element that is closed in the range, up to the semicolon that may follow the
element. -/
theorem elementHead_eq {i : Nat} {head : ElementHead} (hlo : lo ≤ i)
    (hhead : s.elementHead i = .ok head)
    (hstop : ∀ stop b, s.findAny? [Byte.semicolon, Byte.lbrace] i = some (stop, b) → stop < hi)
    (hlast : ∀ opening last, head.block = some (opening, last) → last < hi) :
    s'.elementHead i = .ok { head with
      next := match head.block with
        | some (_, last) => s'.skipSemicolon (last + 1)
        | none => head.next } := by
  unfold elementHead at hhead ⊢
  cases hfind : s.findAny? [Byte.semicolon, Byte.lbrace] i with
  | none =>
    rw [hfind] at hhead
    cases hhead
  | some found =>
    obtain ⟨stop, b⟩ := found
    have hin := hstop stop b hfind
    have hle := (findAny?_eq_some hfind).1
    rw [h.findAny?_eq hlo hin hfind]
    rw [hfind] at hhead
    dsimp only at hhead ⊢
    rw [h.slice_eq hlo (by omega)]
    split at hhead
    · next hform =>
      rw [if_pos hform]
      split at hhead
      · next hb =>
        cases hhead
        rw [if_pos hb]
      · next hb =>
        rw [if_neg hb]
        split at hhead
        · cases hhead
        · next last hclose =>
          cases hhead
          rw [h.closingBrace?_eq (by omega) (hlast stop last rfl) hclose]
    · cases hhead

end AgreeOn

/-! ## Values and declarations -/

section
variable {s : MaskedText} {i next : Nat} {d : Declaration}

/-- A declaration that is read starts with a byte that closes no block, and a colon ends its name. -/
theorem declarationAt_of_declaration? (h : s.declaration? i = .ok (some (d, next))) :
    ∃ b colon, s.byte? (s.skipTrivia i) = some b ∧ b ≠ Byte.rbrace ∧
      s.nameEnd? (s.skipTrivia i) = some colon ∧
      s.declarationAt (s.skipTrivia i) colon = .ok (d, next) := by
  unfold declaration? at h
  dsimp only at h
  split at h
  · cases h
  · cases h
  next b hbrace hb =>
  split at h
  · cases h
  next colon hcolon =>
  refine ⟨b, colon, hb, hbrace, hcolon, ?_⟩
  cases hat : s.declarationAt (s.skipTrivia i) colon with
  | error fault =>
    rw [hat] at h
    cases h
  | ok r =>
    rw [hat] at h
    cases h
    rfl

theorem declaration?_of_declarationAt {b : UInt8} {colon : Nat} (hskip : s.skipTrivia i = i)
    (hb : s.byte? i = some b) (hbrace : b ≠ Byte.rbrace) (hcolon : s.nameEnd? i = some colon)
    (hat : s.declarationAt i colon = .ok (d, next)) : s.declaration? i = .ok (some (d, next)) := by
  unfold declaration?
  dsimp only
  rw [hskip, hb]
  split
  · next hno => cases hno
  · next hno => exact absurd (Option.some.inj hno) hbrace
  · rw [hcolon]
    dsimp only
    rw [hat]
    rfl

end

/-- Two texts that agree on a range, out of which nothing that is read in it looks. -/
structure Window (s s' : MaskedText) (lo hi : Nat) : Prop extends AgreeOn s s' lo hi where
  /-- No declaration that starts in the range ends behind it. -/
  declarations : ∀ i d next, lo ≤ i → i < hi → s.skipTrivia i = i →
    s.declaration? i = .ok (some (d, next)) → next ≤ hi
  /-- No semicolon behind the range belongs to a block in it. -/
  semicolon : ∀ i, lo ≤ i → i ≤ hi → s'.byte? (s'.skipSpace i) = some Byte.semicolon →
    s'.skipSpace i < hi
  /-- The characters in the range are whole. -/
  characters : ∀ i n b, lo ≤ i → i < hi → s.byte? i = some b →
    (s'.slice i (i + n)).take (Text.charWidth b) = (s.slice i (i + n)).take (Text.charWidth b)

/-- The body up to `close` is from `pos` on the rest of a block in a range. -/
structure Inside (s : MaskedText) (lo hi close pos : Nat) : Prop where
  exists_opening : ∃ opening, lo ≤ opening ∧ opening < pos ∧ s.closingBrace? opening = some close
  lt : close < hi

namespace Inside

variable {s : MaskedText} {lo hi close pos : Nat}

theorem mono {pos' : Nat} (h : s.Inside lo hi close pos) (hle : pos ≤ pos') :
    s.Inside lo hi close pos' := by
  obtain ⟨⟨opening, hlo, hlt, hclose⟩, hclose'⟩ := h
  exact ⟨⟨opening, hlo, by omega, hclose⟩, hclose'⟩

theorem lo_le (h : s.Inside lo hi close pos) : lo ≤ pos := by
  obtain ⟨opening, hlo, hlt, -⟩ := h.exists_opening
  omega

theorem live (h : s.Inside lo hi close pos) : s.liveByte? close = some Byte.rbrace := by
  obtain ⟨opening, -, -, hclose⟩ := h.exists_opening
  exact liveByte?_of_closingBrace? hclose

theorem block {opening last : Nat} {head : ElementHead} (h : s.Inside lo hi close pos)
    (hpos : pos < close) (hkind : s.statementKind pos = .element)
    (hhead : s.elementHead pos = .ok head) (hblock : head.block = some (opening, last)) :
    s.Inside lo hi last (opening + 1) := by
  obtain ⟨outer, hlo, hlt, hclose⟩ := h.exists_opening
  obtain ⟨hlast, hle⟩ := block_le hclose hlt hpos hkind hhead hblock
  have hopen := ((elementHead_eq_ok hhead).2 (opening, last) hblock).1
  have := h.lt
  exact ⟨⟨opening, by dsimp only at hopen; omega, Nat.lt_succ_self _, hlast⟩, by omega⟩

end Inside

namespace Window

variable {s s' : MaskedText} {lo hi : Nat} (h : Window s s' lo hi)
include h

theorem afterBlock_eq {stop : Nat} (hlo : lo ≤ stop) (hnext : s.afterBlock stop ≤ hi) :
    s'.afterBlock stop = s.afterBlock stop := by
  unfold afterBlock at hnext ⊢
  dsimp only at hnext ⊢
  have hle := s.le_skipSpace stop
  by_cases hb : s.byte? (s.skipSpace stop) = some Byte.semicolon
  · rw [if_pos hb] at hnext ⊢
    have hskip := h.skipSpace_eq hlo (by omega)
    rw [hskip, h.byte? _ (by omega) (by omega), if_pos hb]
  · rw [if_neg hb] at hnext ⊢
    refine if_neg fun hb' => hb ?_
    have hlt := h.semicolon stop hlo hnext hb'
    have hskip := h.symm.skipSpace_eq hlo hlt
    rw [hskip, ← h.byte? _ (by have := s'.le_skipSpace stop; omega) hlt]
    exact hb'

theorem behavior_eq {v next : Nat} {written : Text} {f : Behavior} (hlo : lo ≤ v)
    (hread : s.behavior v written = .ok (f, next)) (hnext : next ≤ hi) :
    s'.behavior v written = .ok (f, next) := by
  obtain ⟨close, last, hclose, hbrace, hlast, -, -, rfl⟩ := behavior_eq_ok hread
  have hin := (closingParen?_eq_some hclose).1
  have hgap := le_skipTrivia_of_lt (byte?_eq_some_lt hbrace)
  have hblock := (closingBrace?_eq_some hlast).1
  have hafter := s.le_afterBlock (last + 1)
  rw [← hread]
  unfold behavior
  rw [hclose, h.closingParen?_eq hlo (by omega) hclose]
  dsimp only
  rw [h.skipTrivia_eq (by omega) (by omega), h.byte? _ (by omega) (by omega), if_pos hbrace,
    if_pos hbrace, hlast, h.closingBrace?_eq (by omega) (by omega) hlast]
  dsimp only
  rw [h.slice_eq (by omega) (by omega), h.slice_eq (by omega) (by omega),
    h.afterBlock_eq (by omega) hnext]

/-- A value that ends in the range, at a brace of the range at the latest if it is a scalar. -/
theorem value_eq {start v next d : Nat} {written : Text} {raw : RawValue} (hlo : lo ≤ v)
    (hread : s.value start v written = .ok (raw, next)) (hnext : next ≤ hi) (hvd : v ≤ d)
    (hd : d < hi) (hb : s.liveByte? d = some Byte.rbrace) :
    s'.value start v written = .ok (raw, next) := by
  have hbyte := h.byte? v hlo (by omega)
  rw [← hread]
  rcases value_cases hread with ⟨f, hparen, -, hf⟩ | ⟨last, hbrace, hlast, -, rfl⟩ |
    ⟨stop, b, hparen, hbrace, hfind, -, rfl⟩
  · unfold value
    rw [hbyte, hparen]
    exact congrArg (Except.map _) ((h.behavior_eq hlo hf hnext).trans hf.symm)
  · have hblock := (closingBrace?_eq_some hlast).1
    have hafter := s.le_afterBlock (last + 1)
    have hlast' := h.closingBrace?_eq hlo (by omega) hlast
    have hslice := h.slice_eq hlo (show last + 1 ≤ hi by omega)
    have hbehind := h.afterBlock_eq (show lo ≤ last + 1 by omega) hnext
    simp only [value, hbyte, hbrace, hlast, hlast', hslice, hbehind]
    rfl
  · have hstop : stop ≤ d := Nat.le_of_not_lt fun hlt =>
      not_mem_of_findAny? hfind hvd hlt hb (by decide)
    unfold value
    rw [hbyte]
    split
    · next hb => exact absurd hb hparen
    · next hb => exact absurd hb hbrace
    · simp only [hfind, h.findAny?_eq hlo (by omega) hfind, h.slice_eq hlo (by omega : stop ≤ hi)]

theorem declarationAt_eq {i colon next close : Nat} {d : Declaration} (hlo : lo ≤ i)
    (hcolon : i ≤ colon) (hlt : colon < close) (hclose : close < hi)
    (hend : s.liveByte? close = some Byte.rbrace)
    (hread : s.declarationAt i colon = .ok (d, next)) (hnext : next ≤ hi) :
    s'.declarationAt i colon = .ok (d, next) := by
  have hgap := s.le_skipSpace (colon + 1)
  have hspace : s.skipSpace (colon + 1) ≤ close := skipSpace_le hlt (liveByte?_eq_some hend).2 rfl
  rw [← hread]
  unfold declarationAt at hread ⊢
  dsimp only at hread ⊢
  rw [h.slice_eq hlo (by omega), h.skipSpace_eq (by omega) (by omega)]
  split at hread
  · split at hread
    · cases hread
    next raw stop hvalue =>
      have hstop : stop = next := by
        split at hread <;> cases hread
        rfl
      simp only [h.value_eq (by omega) hvalue (by omega) hspace hclose hend]
  · cases hread

/-- A declaration in a block of the range. -/
theorem declaration?_eq {close i next : Nat} {d : Declaration} (hin : s.Inside lo hi close i)
    (hi : i < close) (hskip : s.skipTrivia i = i)
    (hread : s.declaration? i = .ok (some (d, next))) :
    s'.declaration? i = .ok (some (d, next)) := by
  have hlo := hin.lo_le
  have hlt := hin.lt
  have hend := hin.live
  have hnext := h.declarations i d next hlo (by omega) hskip hread
  obtain ⟨b, colon, hb, hbrace, hcolon, hat⟩ := declarationAt_of_declaration? hread
  rw [hskip] at hb hcolon hat
  obtain ⟨hle, hlive⟩ := nameEnd?_eq_some hcolon
  have hbefore : colon < close := by
    refine Nat.lt_of_le_of_ne ?_ fun heq => ?_
    · exact le_of_announced? (announced?_of_nameEnd? hcolon) (Nat.le_of_lt hi) hend
        (.inr (.inr rfl))
    · rw [heq, hend] at hlive
      cases hlive
  refine declaration?_of_declarationAt ((h.skipTrivia_eq hlo (by omega)).trans hskip)
    ((h.byte? i hlo (by omega)).trans hb) hbrace ?_
    (h.declarationAt_eq hlo hle hbefore hlt hend hat hnext)
  rw [h.nameEnd?_eq hlo (Nat.le_of_lt hi) hlt hend (.inr (.inr rfl)), hcolon]

/-! ## Bodies -/

/-- The first statement of a body in the range. -/
theorem statement_eq {close pos : Nat} (hin : s.Inside lo hi close pos)
    (hlt : s.skipTrivia pos < close) :
    s.Inside lo hi close (s.skipTrivia pos) ∧ s'.skipTrivia pos = s.skipTrivia pos ∧
      s'.statementKind (s.skipTrivia pos) = s.statementKind (s.skipTrivia pos) := by
  have hclose := hin.lt
  have := h.le
  have hle := le_skipTrivia_of_lt (by omega : s.skipTrivia pos < s.size)
  have hin' := hin.mono hle
  exact ⟨hin', h.skipTrivia_eq hin.lo_le (by omega),
    h.statementKind_eq hin'.lo_le (Nat.le_of_lt hlt) hclose hin.live (.inr (.inr rfl))⟩

/-- A gap that leaves a block of the range does so in both texts. -/
theorem le_skipTrivia {close pos : Nat} (hin : s.Inside lo hi close pos)
    (hle : close ≤ s.skipTrivia pos) : close ≤ s'.skipTrivia pos := by
  have := hin.lt
  refine Nat.le_of_not_lt fun hlt => ?_
  rw [h.symm.skipTrivia_eq hin.lo_le (by omega)] at hle
  omega

/-- What follows an element in a block of the range. -/
theorem content_next {unknown : Problem} {close i : Nat} {head : ElementHead}
    (hin : s.Inside lo hi close i) (hhead : s.elementHead i = .ok head)
    (hread : (s'.body unknown close head.next).content = (s.body unknown close head.next).content) :
    (s'.body unknown close (match head.block with
      | some (_, last) => s'.skipSemicolon (last + 1)
      | none => head.next)).content = (s.body unknown close head.next).content := by
  have hlt := hin.lt
  cases hblock : head.block with
  | none => exact hread
  | some range =>
    obtain ⟨opening, last⟩ := range
    obtain ⟨hfind, hlast, hnext⟩ := block_of_elementHead hhead hblock
    have hle := (findAny?_eq_some hfind).1
    have hblock := (closingBrace?_eq_some hlast).1
    have hbehind : s.Inside lo hi close (last + 1) := hin.mono (by omega)
    dsimp only
    rcases Nat.lt_or_ge (s.skipTrivia (last + 1)) close with hgap | hgap
    · obtain ⟨hin', hskip, -⟩ := h.statement_eq hbehind hgap
      have hsame : s'.skipSemicolon (last + 1) = s.skipSemicolon (last + 1) := by
        unfold skipSemicolon
        dsimp only
        rw [hskip, h.byte? _ hin'.lo_le (by omega)]
      rw [hsame, ← hnext]
      exact hread
    · -- the gap leaves the block, so nothing follows
      rw [hnext, content_body_of_le (le_skipTrivia_skipSemicolon hgap),
        content_body_of_le (le_skipTrivia_skipSemicolon (h.le_skipTrivia hbehind hgap))]

omit h in
/-- What announces a declaration names it. -/
theorem declaration?_ne_none {i : Nat} (hskip : s.skipTrivia i = i)
    (hkind : s.statementKind i = .declaration) : s.declaration? i ≠ .ok none := by
  intro hnone
  unfold statementKind at hkind
  split at hkind
  · cases hkind
  · cases hkind
  · cases hkind
  next b hbrace hsemicolon hb =>
  dsimp only at hkind
  rw [← announced?_of_byte? hb] at hkind
  have hname : s.nameEnd? i ≠ none := by
    cases hfind : s.announced? i with
    | none =>
      rw [hfind] at hkind
      cases hkind
    | some found =>
      obtain ⟨stop, c⟩ := found
      rw [hfind] at hkind
      dsimp only at hkind
      split at hkind
      · next hc =>
        subst hc
        rw [nameEnd?_of_announced? hfind]
        exact Option.some_ne_none _
      · split at hkind <;> cases hkind
  unfold declaration? at hnone
  dsimp only at hnone
  rw [hskip, hb] at hnone
  split at hnone
  · next hno => cases hno
  · next hno => exact hbrace (Option.some.inj hno)
  · split at hnone
    · next hno => exact hname hno
    · next colon _ =>
      cases hat : s.declarationAt i colon with
      | error fault =>
        rw [hat] at hnone
        cases hnone
      | ok r =>
        rw [hat] at hnone
        cases hnone

omit h in
/-- An element that is read has nothing wrong in its block. -/
theorem fault_of_element {head : ElementHead} {child : Element} {opening last : Nat}
    (hread : head.element (s.innerBody head) = .ok child)
    (hblock : head.block = some (opening, last)) :
    (s.body .elementStatement last (opening + 1)).fault = none := by
  unfold ElementHead.element innerBody at hread
  rw [hblock] at hread
  dsimp only at hread
  split at hread
  · cases hread
  · next hfault => exact hfault

/-- The head of an element in a block of the range. -/
theorem elementHead_inside {close i : Nat} {head : ElementHead} (hin : s.Inside lo hi close i)
    (hlt : i < close) (hkind : s.statementKind i = .element) (hhead : s.elementHead i = .ok head) :
    s'.elementHead i = .ok { head with
      next := match head.block with
        | some (_, last) => s'.skipSemicolon (last + 1)
        | none => head.next } := by
  refine h.elementHead_eq hin.lo_le hhead (fun stop b hfind => ?_) fun opening last hblock =>
    (hin.block hlt hkind hhead hblock).lt
  obtain ⟨stop', b', hfind', hleast⟩ := findAny?_of_element hkind
  rw [hfind] at hfind'
  cases hfind'
  have := hleast close _ (Nat.le_of_lt hlt) hin.live (.inr (.inr rfl))
  have := hin.lt
  omega

/-- A body in the range is read alike if nothing is wrong with it. -/
theorem content_body_eq (unknown : Problem) (close pos : Nat) (hin : s.Inside lo hi close pos)
    (hread : (s.body unknown close pos).fault = none) :
    (s'.body unknown close pos).content = (s.body unknown close pos).content := by
  induction unknown, close, pos using body.induct s with
  | case1 unknown close pos i hclose =>
    rw [content_body_of_le hclose, content_body_of_le (h.le_skipTrivia hin hclose)]
  | case2 unknown close pos i hclose hkind =>
    obtain ⟨-, hskip, hkind'⟩ := h.statement_eq hin (Nat.lt_of_not_le hclose)
    rw [body_eq, body_eq]
    simp only [hskip, hkind', if_neg hclose, hkind, i]
  | case3 unknown close pos i hclose hkind ih =>
    obtain ⟨hin', hskip, hkind'⟩ := h.statement_eq hin (Nat.lt_of_not_le hclose)
    rw [body_eq] at hread
    simp only [if_neg hclose, hkind, i] at hread
    rw [body_eq, body_eq]
    simp only [hskip, hkind', if_neg hclose, hkind, i]
    exact ih (hin'.mono (Nat.le_succ _)) hread
  | case4 unknown close pos i hclose hkind fault hd =>
    rw [body_eq] at hread
    simp only [if_neg hclose, hkind, hd, i] at hread
    cases hread
  | case5 unknown close pos i hclose hkind hd =>
    exact absurd hd (declaration?_ne_none (s.skipTrivia_skipTrivia pos) hkind)
  | case6 unknown close pos i hclose hkind d next hd ih =>
    have hlt := Nat.lt_of_not_le hclose
    obtain ⟨hin', hskip, hkind'⟩ := h.statement_eq hin hlt
    have hd' := h.declaration?_eq hin' hlt (s.skipTrivia_skipTrivia pos) hd
    rw [body_eq] at hread
    simp only [if_neg hclose, hkind, hd, i] at hread
    rw [body_eq, body_eq]
    simp only [hskip, hkind', hd', if_neg hclose, hkind, hd, i]
    exact Body.content_consDeclaration d
      (ih (hin'.mono (Nat.le_of_lt (lt_of_declaration? hd))) hread)
  | case7 unknown close pos i hclose hkind fault hhead =>
    rw [body_eq] at hread
    simp only [if_neg hclose, hkind, hhead, i] at hread
    cases hread
  | case8 unknown close pos i hclose hkind head hhead inner fault he ihBlock =>
    rw [show inner = s.innerBody head from (innerBody_eq s head).symm] at he
    rw [body_eq] at hread
    simp only [if_neg hclose, hkind, hhead, he, i] at hread
    cases hread
  | case9 unknown close pos i hclose hkind head hhead inner child he ihBlock ih =>
    have hlt := Nat.lt_of_not_le hclose
    obtain ⟨hin', hskip, hkind'⟩ := h.statement_eq hin hlt
    rw [show inner = s.innerBody head from (innerBody_eq s head).symm] at he
    rw [body_eq] at hread
    simp only [if_neg hclose, hkind, hhead, he, i] at hread
    have hinner (next : Nat) := head.element_innerBody_congr s s' next fun opening last hblock =>
      ihBlock opening last hblock (hin'.block hlt hkind hhead hblock) (fault_of_element he hblock)
    have hhead' := h.elementHead_inside hin' hlt hkind hhead
    rw [body_eq, body_eq]
    simp only [hskip, hkind', hhead', if_neg hclose, hkind, hhead, i, hinner, he]
    refine Body.content_consChild child (h.content_next hin' hhead ?_)
    exact ih (hin'.mono (Nat.le_of_lt (elementHead_eq_ok hhead).1)) hread
  | case10 unknown close pos i hclose hkind =>
    rw [body_eq] at hread
    simp only [if_neg hclose, hkind, i] at hread
    cases hread

/-- An element that ends in the range, with the semicolon that may follow it. -/
theorem element_eq {i next : Nat} {child : Element} (hlo : lo ≤ i)
    (hread : s.element i = .ok (child, next)) (hnext : next ≤ hi)
    (hgap : ∀ stop, lo ≤ stop → s.skipSemicolon (stop + 1) = next →
      s'.skipSemicolon (stop + 1) = next) :
    s'.element i = .ok (child, next) := by
  obtain ⟨head, hhead, rfl, hchild⟩ := elementHead_of_element hread
  have hstop (stop : Nat) (b : UInt8)
      (hfind : s.findAny? [Byte.semicolon, Byte.lbrace] i = some (stop, b)) : stop < hi := by
    obtain ⟨stop', b', hfind', hlt, -⟩ := ends_of_elementHead hhead
    rw [hfind] at hfind'
    cases hfind'
    omega
  have hinside (opening last : Nat) (hblock : head.block = some (opening, last)) :
      s.Inside lo hi last (opening + 1) ∧ lo ≤ last ∧ head.next = s.skipSemicolon (last + 1) := by
    obtain ⟨hfind, hlast, hend⟩ := block_of_elementHead hhead hblock
    have hle := (findAny?_eq_some hfind).1
    have hin := (closingBrace?_eq_some hlast).1
    have hskip := s.le_skipSemicolon (i := last + 1)
    exact ⟨⟨⟨opening, by omega, Nat.lt_succ_self _, hlast⟩, by omega⟩, by omega, hend⟩
  have hsame : (match head.block with
      | some (_, last) => s'.skipSemicolon (last + 1)
      | none => head.next) = head.next := by
    cases hblock : head.block with
    | none => rfl
    | some range =>
      obtain ⟨-, hlast, hend⟩ := hinside range.1 range.2 hblock
      exact hgap _ hlast hend.symm
  have hhead' := h.elementHead_eq hlo hhead hstop fun opening last hblock =>
    (hinside opening last hblock).1.lt
  rw [hsame] at hhead'
  have hinner := head.element_innerBody_congr s s' head.next fun opening last hblock =>
    h.content_body_eq _ _ _ (hinside opening last hblock).1 (fault_of_element hchild hblock)
  rw [element_eq_innerBody, hhead']
  dsimp only at hinner ⊢
  rw [hinner, hchild]
  rfl

end Window

end MaskedText

end PageLang
