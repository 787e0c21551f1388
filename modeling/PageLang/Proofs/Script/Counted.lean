import PageLang.Proofs.Mask.Brackets
import PageLang.Proofs.MaskedText.Counter
import PageLang.Proofs.MaskedText.Declarators
import PageLang.Proofs.Script.Recogniser

/-!
# The brackets that local declarations count

The names of a declarator and the scope of a loop are found by counting brackets. Here they are
found with counters that may fail. A scan starts at a bracket that was seen in the bytes, masked or
not; but blanks lead to it from a live keyword or a comma, or from it to a live keyword inside one
statement, so the bracket is live and no counter fails.

* `MaskedText.countedNames_eq_ok`, `MaskedText.countedLoopScope_eq_ok`: declarators and loops, from
  live brackets.
* `MaskedText.KeywordAt`: what leads from a declaring keyword to the brackets around it.
* `MaskedText.countedLocals_eq_ok`: no counter fails in the range of a statement.
-/

namespace PageLang.MaskedText

open Counting Mask

variable {s : MaskedText} {i stop : Nat}

/-! ## Declarators -/

/-- The bracket before `stop` that closes the one at `opening`. -/
def countedBracket? (s : MaskedText) (opening stop : Nat) : Except CountFault (Option Nat) :=
  matching s.liveByte? Byte.isOpening Byte.isClosing opening stop

/-- The names that one declarator at `i` binds, and the offset after it. -/
def countedDeclarator? (s : MaskedText) (i stop : Nat) :
    Except CountFault (Option (List Text × Nat)) :=
  match s.byte? i with
  | none => .ok none
  | some b =>
    if b = Byte.lbrace ∨ b = Byte.lbracket then
      (s.countedBracket? i stop).map
        (·.map fun close => (Pattern.names (s.slice (i + 1) close), close + 1))
    else .ok (s.declarator? i stop)

/-- The offset after the comma that ends a declarator, between `i` and `stop`. -/
def countedNext? (s : MaskedText) (i stop : Nat) : Except CountFault (Option Nat) :=
  (scan s.liveByte? Byte.isOpening Byte.isClosing declaratorEnds 0 i (stop - i)).map Option.join

theorem countedNext?_eq_ok (s : MaskedText) (i stop : Nat) :
    s.countedNext? i stop = .ok (s.nextDeclarator? 0 i (stop - i)) :=
  scan_declaratorEnds

theorem declarator?_of_counted {d? : Option (List Text × Nat)}
    (h : s.countedDeclarator? i stop = .ok d?) : s.declarator? i stop = d? := by
  unfold countedDeclarator? at h
  split at h
  · next hb =>
    cases h
    rw [declarator?, hb]
  next b hb =>
  split at h
  · next hbracket =>
    cases hclose : s.countedBracket? i stop with
    | error fault =>
      rw [hclose] at h
      cases h
    | ok close? =>
      rw [hclose] at h
      cases h
      rw [declarator?, hb]
      dsimp only
      rw [if_pos hbracket, closingBracket?, ← eq_closing?_of_matching hclose]
  · cases h
    rfl

/-- The names bound by the declarators from `start` up to `stop`. -/
def countedNames (s : MaskedText) (start stop : Nat) : Except CountFault (List Text) :=
  let i := s.skipWhile Byte.isSpace start stop
  if _hi : i < stop then
    match _hd : s.countedDeclarator? i stop with
    | .error fault => .error fault
    | .ok none => .ok []
    | .ok (some (names, j)) =>
      match _hn : s.countedNext? j stop with
      | .error fault => .error fault
      | .ok none => .ok names
      | .ok (some next) => (s.countedNames next stop).map (names ++ ·)
  else .ok []
termination_by stop - start
decreasing_by
  have h1 := lt_of_declarator? _hi (declarator?_of_counted _hd)
  rw [countedNext?_eq_ok] at _hn
  have h2 := nextDeclarator?_eq_some (Except.ok.inj _hn)
  have h3 : start ≤ i := le_skipWhile_of_lt _hi
  omega

/-- The bracket behind the blanks from `start` is live if one stands there. -/
def OpensLive (s : MaskedText) (start stop : Nat) : Prop :=
  s.skipWhile Byte.isSpace start stop < stop →
    ∀ b, s.byte? (s.skipWhile Byte.isSpace start stop) = some b → Byte.isOpening b = true →
      s.liveByte? (s.skipWhile Byte.isSpace start stop) = some b

theorem countedDeclarator?_eq_ok (hi : i < stop)
    (h : ∀ b, s.byte? i = some b → Byte.isOpening b = true → s.liveByte? i = some b) :
    s.countedDeclarator? i stop = .ok (s.declarator? i stop) := by
  unfold countedDeclarator?
  cases hb : s.byte? i with
  | none => rw [declarator?, hb]
  | some b =>
    dsimp only
    by_cases hbracket : b = Byte.lbrace ∨ b = Byte.lbracket
    · have ho : Byte.isOpening b = true := by rcases hbracket with rfl | rfl <;> rfl
      rw [if_pos hbracket, countedBracket?, matching_eq_ok hi (h b hb ho) ho, declarator?, hb]
      dsimp only
      rw [if_pos hbracket]
      rfl
    · rw [if_neg hbracket]

/-- Where the first declarator and all those behind a comma begin with a live bracket or a name, the
names are found without a fault. -/
theorem countedNames_eq_ok {start : Nat} (hfirst : s.OpensLive start stop)
    (hcomma : ∀ k, s.liveByte? k = some Byte.comma → s.OpensLive (k + 1) stop) :
    s.countedNames start stop = .ok (s.declaratorNames start stop) := by
  rw [countedNames]
  by_cases hi : s.skipWhile Byte.isSpace start stop < stop
  · have hd := countedDeclarator?_eq_ok hi (hfirst hi)
    rw [dif_pos hi]
    split
    · next hfault => cases hd.symm.trans hfault
    · next hnone =>
      have hdeclarator := Except.ok.inj (hd.symm.trans hnone)
      rw [declaratorNames_of_none rfl fun _ => hdeclarator]
    · next names j hsome =>
      have hdeclarator := Except.ok.inj (hd.symm.trans hsome)
      rw [declaratorNames_eq rfl hi hdeclarator]
      have hn := s.countedNext?_eq_ok j stop
      split
      · next hfault => cases hn.symm.trans hfault
      · next hnone => rw [Except.ok.inj (hn.symm.trans hnone)]
      · next next hnext =>
        have hnextDeclarator := Except.ok.inj (hn.symm.trans hnext)
        obtain ⟨k, rfl, hlive⟩ := liveByte?_of_nextDeclarator? hnextDeclarator
        rw [hnextDeclarator, countedNames_eq_ok (hcomma k hlive) hcomma]
        rfl
  · rw [dif_neg hi, declaratorNames_of_none rfl fun h => absurd h hi]
termination_by stop - start
decreasing_by
  have h1 := lt_of_declarator? hi hdeclarator
  have h2 := nextDeclarator?_eq_some hnextDeclarator
  have h3 := le_skipWhile_of_lt hi
  omega

/-! ## Loops -/

/-- The end of the expression at `body`. -/
def countedEnd (s : MaskedText) (body : Nat) : Except CountFault Nat :=
  (scan s.liveByte? Byte.isOpening Byte.isClosing expressionEnds 0 body (s.size - body)).map
    (·.getD s.size)

/-- Where the names declared in the head of a loop are visible. -/
def countedLoopScope (s : MaskedText) (paren : Nat) : Except CountFault BindingScope :=
  (s.countedBracket? paren s.size).bind fun close? =>
    match close? with
    | none => .ok (.parameters false)
    | some close =>
      let body := s.skipTrivia (close + 1)
      if s.byte? body = some Byte.lbrace then .ok (.parameters false)
      else (s.countedEnd body).map .expression

theorem countedEnd_eq_ok {body : Nat} (h : body ≤ s.size) :
    s.countedEnd body = .ok (s.expressionEnd 0 body (s.size - body)) := by
  obtain ⟨count, hcount⟩ := Nat.exists_eq_add_of_le h
  rw [countedEnd, hcount, Nat.add_sub_cancel_left]
  exact scan_expressionEnds

theorem countedLoopScope_eq_ok {paren : Nat} (h : s.liveByte? paren = some Byte.lparen) :
    s.countedLoopScope paren = .ok (s.loopScope paren) := by
  have hsize := byte?_eq_some_lt (liveByte?_eq_some h).2
  unfold countedLoopScope loopScope countedBracket?
  rw [matching_eq_ok hsize h rfl]
  show Except.bind (.ok (s.closingBracket? paren s.size)) _ = _
  cases s.closingBracket? paren s.size with
  | none => rfl
  | some close =>
    dsimp only [Except.bind]
    split
    · rfl
    · rw [countedEnd_eq_ok (s.skipTrivia_le_size _)]
      rfl

/-! ## Keywords -/

/-- The middle of a range. -/
theorem byte?_of_slice {start k : Nat} {u m v : Text} (h : s.slice start stop = u ++ (m ++ v))
    (hk : start + u.length ≤ k) (hlt : k < start + u.length + m.length) :
    k < stop ∧ ∃ b ∈ m, s.byte? k = some b := by
  obtain ⟨n, rfl⟩ := Nat.exists_eq_add_of_le hk
  have hn : n < m.length := by omega
  have hlength := s.length_slice start stop
  rw [h, List.length_append, List.length_append] at hlength
  have hstop : start + (u.length + n) < stop := by omega
  refine ⟨by omega, m[n], List.getElem_mem hn, ?_⟩
  rw [Nat.add_assoc, ← getElem?_slice hstop, h, List.getElem?_append_right (Nat.le_add_right _ _),
    Nat.add_sub_cancel_left, List.getElem?_append_left hn, List.getElem?_eq_getElem hn]

/-- Blanks lead from the parenthesis of a loop to the offset behind `u`. -/
theorem byte?_of_loopParen? {start p : Nat} {u v : Text} (h : s.slice start stop = u ++ v)
    (hp : Recogniser.loopParen? u.reverse = some p) :
    start + p < start + u.length ∧ s.byte? (start + p) = some Byte.lparen ∧
      ∀ k, start + p < k → k < start + u.length →
        ∃ b, s.byte? k = some b ∧ Byte.isInk b = false := by
  obtain ⟨blanks, outside, hbefore, hink, rfl⟩ := Recogniser.exists_of_loopParen? hp
  obtain rfl : u = outside.reverse ++ Byte.lparen :: blanks.reverse := by
    simpa using congrArg List.reverse hbefore
  have hparen : s.slice start stop =
      outside.reverse ++ ([Byte.lparen] ++ (blanks.reverse ++ v)) := by
    simpa using h
  have hblank : s.slice start stop =
      (outside.reverse ++ [Byte.lparen]) ++ (blanks.reverse ++ v) := by
    simpa using h
  simp only [List.length_append, List.length_cons, List.length_reverse]
  refine ⟨by omega, ?_, fun k hk hlt => ?_⟩
  · obtain ⟨-, c, hc, hbyte⟩ := byte?_of_slice hparen (k := start + outside.length) (by simp)
      (by simp)
    rw [hbyte, List.mem_singleton.1 hc]
  · obtain ⟨-, c, hc, hbyte⟩ := byte?_of_slice hblank (k := k) (by simp; omega) (by simp; omega)
    exact ⟨c, hbyte, hink c (List.mem_reverse.1 hc)⟩

/-- A declaring keyword at `first`, in a range that starts at `start`, and its declarators at
`behind`. All bytes up to them are plain, and blanks lead to the keyword from the parenthesis of a
loop. -/
structure KeywordAt (s : MaskedText) (start stop first behind : Nat) (paren : Option Nat) :
    Prop where
  start_le : start ≤ first
  lt_stop : first < stop
  le_behind : first ≤ behind
  word : (s.byte? first).any Byte.isWord = true
  plain : ∀ k, first ≤ k → k < behind → (s.byte? k).any Byte.isPlain = true
  paren : ∀ p ∈ paren, start + p < first ∧ s.byte? (start + p) = some Byte.lparen ∧
    ∀ k, start + p < k → k < first → ∃ b, s.byte? k = some b ∧ Byte.isInk b = false

theorem keywordAt_of_mem {start : Nat} {x : Nat × Nat × Bool × Option Nat}
    (hx : x ∈ Recogniser.all Recogniser.keyword 0 start [] (s.slice start stop)) :
    s.KeywordAt start stop x.1 x.2.1 x.2.2.2 := by
  obtain ⟨u, b, v, behind, ⟨isVar, paren⟩, hslice, -, hrec, rfl⟩ := Recogniser.exists_of_mem_all hx
  rw [List.append_nil] at hrec
  obtain ⟨w, hw, rest, -, hbv, -, rfl, -, hparen⟩ := Recogniser.keyword_eq_some hrec
  obtain ⟨gap, hgap, hblank⟩ := Text.exists_of_trimStart rest
  rw [hbv] at hslice ⊢
  have hword := Recogniser.isWord_of_mem_keywords w hw
  have hpos := List.length_pos_iff.2 (Recogniser.ne_nil_of_mem_keywords w hw)
  have hbehind : (Text.ofString w ++ rest).length - rest.trimStart.length =
      (Text.ofString w ++ gap).length := by
    have := congrArg List.length hgap
    simp only [List.length_append] at this ⊢
    omega
  have hwide : s.slice start stop = u ++ ((Text.ofString w ++ gap) ++ rest.trimStart) := by
    rw [List.append_assoc, ← hgap]
    exact hslice
  obtain ⟨hstop, c, hc, hbyte⟩ := byte?_of_slice hslice (Nat.le_refl _) (by omega)
  dsimp only
  rw [hbehind]
  refine ⟨Nat.le_add_right _ _, hstop, Nat.le_add_right _ _, ?_, fun k hk hlt => ?_,
    fun p hp => byte?_of_loopParen? hslice (hparen.symm.trans hp)⟩
  · rw [hbyte]
    exact hword c hc
  · obtain ⟨-, c, hc, hbyte⟩ := byte?_of_slice hwide hk hlt
    rw [hbyte]
    rcases List.mem_append.1 hc with hc | hc
    · exact (Byte.plain_of_isWord c (hword c hc)).1
    · exact (Byte.plain_of_not_isInk c (hblank c hc)).1

section
variable {mode : Mode} {t : Text} {start first behind : Nat} {paren : Option Nat}

theorem opensLive_of_shows (h : Shows mode t i) : (ofText mode t).OpensLive i stop := by
  intro hlt b hb ho
  rw [byte?_ofText] at hb
  refine (h.of_plain (le_skipWhile_of_lt hlt) fun k hk hskip => ?_).liveByte? hb ho
  have hspace := of_lt_skipWhile hk hskip (Nat.lt_trans hskip hlt)
  rw [byte?_ofText] at hspace
  obtain ⟨c, hc, hspace⟩ := (Option.any_eq_true _ _).1 hspace
  rw [hc]
  exact (Byte.plain_of_not_isInk c (Byte.isInk_of_isSpace c hspace)).1

theorem opensLive_of_comma {k : Nat} (h : (ofText mode t).liveByte? k = some Byte.comma) :
    (ofText mode t).OpensLive (k + 1) stop :=
  opensLive_of_shows ((shows_of_liveByte? h rfl (by decide)).succ (liveByte?_eq_some_iff.1 h).1 rfl)

namespace KeywordAt

theorem shows (h : (ofText mode t).KeywordAt start stop first behind paren)
    (hlive : (ofText mode t).isLive first = true) : Shows mode t first := by
  obtain ⟨b, hb, hword⟩ := (Option.any_eq_true _ _).1 h.word
  obtain ⟨-, hspace, hmem⟩ := Byte.plain_of_isWord b hword
  rw [isLive, Bool.and_eq_true, Bool.not_eq_true'] at hlive
  refine shows_of_liveByte? (b := b) ?_ hspace hmem
  rw [liveByte?, hlive.2]
  exact hb

/-- The declarators of a live keyword begin with a live bracket or a name. -/
theorem opensLive (h : (ofText mode t).KeywordAt start stop first behind paren)
    (hlive : (ofText mode t).isLive first = true) : (ofText mode t).OpensLive behind stop := by
  refine opensLive_of_shows ((h.shows hlive).of_plain h.le_behind fun k hk hlt => ?_)
  rw [← byte?_ofText mode]
  exact h.plain k hk hlt

/-- The parenthesis of the loop around a live keyword is live if both stand in one statement. -/
theorem liveByte?_paren {r : Nat × Nat} (hr : r ∈ (ofText mode t).statementRanges) {p : Nat}
    (h : (ofText mode t).KeywordAt r.1 r.2 first behind (some p))
    (hlive : (ofText mode t).isLive first = true) :
    (ofText mode t).liveByte? (r.1 + p) = some Byte.lparen := by
  obtain ⟨hlt, hparen, hblank⟩ := h.paren p rfl
  obtain ⟨-, -, -, hinside, -⟩ := of_mem_rangesFrom (Nat.le_refl 0) hr
  have hstop := h.lt_stop
  simp only [byte?_ofText] at hparen hblank
  exact liveByte?_of_shows (h.shows hlive) hlt hparen fun k hk hkf =>
    ⟨hblank k hk hkf, hinside k (by omega) (Nat.zero_le _) (by omega)⟩

end KeywordAt

end

/-! ## The declarations of a range -/

/-- The declarations by live keyword between `start` and `stop`. -/
def countedKeywordLocals (s : MaskedText) (start stop : Nat) :
    Except CountFault (List LocalDeclaration) :=
  ((Recogniser.all Recogniser.keyword 0 start [] (s.slice start stop)).filter
      (fun x => s.isLive x.1)).mapM
    fun (first, behind, isVar, paren) => do
      let names ← s.countedNames behind stop
      let scope ← if isVar then .ok .function else match paren with
        | some paren => s.countedLoopScope (start + paren)
        | none => .ok .block
      return { offset := first, names, scope }

/-- The local declarations between `start` and `stop`, in order of their offsets. -/
def countedLocals (s : MaskedText) (start stop : Nat) :
    Except CountFault (List LocalDeclaration) := do
  let keywordLocals ← s.countedKeywordLocals start stop
  return ((keywordLocals ++ s.functionLocals start stop ++ s.catchLocals start stop ++
      s.classLocals start stop ++ s.arrowLocals start stop).filter
    (fun d => s.isLive d.offset && !d.names.isEmpty)).mergeSort (fun a b => a.offset ≤ b.offset)

theorem mapM_eq_ok {α β ε : Type} {f : α → Except ε β} {g : α → β} {l : List α}
    (h : ∀ x ∈ l, f x = .ok (g x)) : l.mapM f = .ok (l.map g) := by
  induction l with
  | nil => rfl
  | cons x l ih =>
    rw [List.forall_mem_cons] at h
    rw [List.mapM_cons, h.1, ih h.2]
    rfl

section
variable {mode : Mode} {t : Text} {r : Nat × Nat}

theorem countedKeywordLocals_eq_ok (hr : r ∈ (ofText mode t).statementRanges) :
    (ofText mode t).countedKeywordLocals r.1 r.2 =
      .ok (((ofText mode t).keywordLocals r.1 r.2).filter
        fun d => (ofText mode t).isLive d.offset) := by
  unfold countedKeywordLocals keywordLocals
  rw [List.filter_map]
  refine mapM_eq_ok fun x hx => ?_
  obtain ⟨hmem, hlive⟩ := List.mem_filter.1 hx
  have hkeyword := keywordAt_of_mem hmem
  obtain ⟨first, behind, isVar, paren⟩ := x
  dsimp only
  rw [countedNames_eq_ok (hkeyword.opensLive hlive) fun k => opensLive_of_comma]
  cases isVar with
  | true => rfl
  | false =>
    cases paren with
    | none => rfl
    | some paren =>
      dsimp only [Bool.false_eq_true, if_false]
      rw [countedLoopScope_eq_ok (hkeyword.liveByte?_paren hr hlive)]
      rfl

/-- In the range of a statement the local declarations are found without a fault. -/
theorem countedLocals_eq_ok (hr : r ∈ (ofText mode t).statementRanges) :
    (ofText mode t).countedLocals r.1 r.2 = .ok ((ofText mode t).locals r.1 r.2) := by
  unfold countedLocals locals
  rw [countedKeywordLocals_eq_ok hr]
  have hlive (l : List LocalDeclaration) :
      (l.filter fun d => (ofText mode t).isLive d.offset).filter
        (fun d => (ofText mode t).isLive d.offset && !d.names.isEmpty) =
      l.filter fun d => (ofText mode t).isLive d.offset && !d.names.isEmpty := by
    rw [List.filter_filter]
    exact List.filter_congr fun d _ => by cases (ofText mode t).isLive d.offset <;> simp
  show Except.ok _ = Except.ok _
  simp only [List.filter_append, hlive]

end

/-- Two statements are no range: the newline between them ends the quote that the parenthesis of the
loop stands in. -/
example : Recogniser.all Recogniser.keyword 0 0 [] "'for (\nlet x);" = [(7, 11, false, some 5)] ∧
    (ofText .code "'for (\nlet x);").isLive 7 = true ∧
    (ofText .code "'for (\nlet x);").countedLoopScope 5 = .error .unopened := by
  decide +kernel

end PageLang.MaskedText
