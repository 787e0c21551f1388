import PageLang.Proofs.Text.Trim
import PageLang.Script.Locals

/-!
# What recognisers find

A recogniser looks at every offset of a range that no earlier find covers. So what it finds can be
told from single offsets: whatever is found is recognised at its offset (`exists_of_mem_all`), and
what is recognised at an offset is found there if no earlier find reaches over it (`mem_all`).

* `endsWord_cons`, `startsWord_cons`: the edges of words in ASCII text.
* `trimStart_append`, `trimBefore_append`: ASCII blanks are trimmed.
* `word?_eq_some`, `keyword_eq_some`, `arrow_eq_some`: what a recogniser found says of the text
  around it.
* `BeginsWith`: the recognisers of functions, handlers of errors and classes read a word first.
-/

namespace PageLang

namespace Text

/-! ## Words and blanks -/

theorem lastChar_cons {b : UInt8} (hb : Byte.isContinuation b = false) (before : Text) :
    lastChar (b :: before) = [b] := by
  simp [lastChar, hb]

/-- A text ends with a word character if its last byte is one. -/
theorem endsWord_cons {b : UInt8} (hb : Byte.isContinuation b = false) (before : Text) :
    endsWord (b :: before) = startsWord [b] := by
  rw [endsWord, lastChar_cons hb]

theorem startsWord_cons {b : UInt8} (hb : b < 0x80) (rest : Text) :
    startsWord (b :: rest) = startsWord [b] := by
  have hwidth : charWidth b = 1 := by
    have : b < 0xc0 := UInt8.lt_of_lt_of_le hb (by decide)
    simp [charWidth, this]
  simp [startsWord, codePoint?, hwidth]

/-- The bytes of words are word characters, but for the dollar sign. -/
theorem startsWord_of_isWord : ∀ b, Byte.isWord b = true → b < 0x80 ∧
    Byte.isContinuation b = false ∧ (b = Byte.dollar ∨ startsWord [b] = true) :=
  Byte.forall_of_nibbles (by decide)

theorem not_word_of_isSpace : ∀ b, Byte.isSpace b = true → Byte.isWord b = false :=
  Byte.forall_of_nibbles (by decide)

theorem isInk_of_isWord : ∀ b, Byte.isWord b = true → Byte.isInk b = true :=
  Byte.forall_of_nibbles (by decide)

theorem startsWord_dollar : startsWord [Byte.dollar] = false := by decide +kernel

theorem trimStart_append {gap : Text} (hgap : ∀ b ∈ gap, Byte.isSpace b = true) (t : Text) :
    trimStart (gap ++ t) = trimStart t := by
  induction gap with
  | nil => rfl
  | cons b gap ih =>
    rw [List.cons_append, trimStart, stripMarks_of_isSpace (hgap b (.head _))]
    exact ih fun c hc => hgap c (.tail _ hc)

/-- What trimming leaves of a text that was cut off: nothing, or the first byte that is no blank. -/
theorem trimStart_take {gap : Text} (hgap : ∀ b ∈ gap, Byte.isSpace b = true) {b : UInt8}
    (hb : Byte.isInk b = true) (rest : Text) (n : Nat) :
    trimStart ((gap ++ b :: rest).take n) = [] ∨
      ∃ r, trimStart ((gap ++ b :: rest).take n) = b :: r := by
  rw [List.take_append, trimStart_append fun c hc => hgap c (List.mem_of_mem_take hc)]
  cases n - gap.length with
  | zero => exact .inl rfl
  | succ n => exact .inr ⟨rest.take n, by rw [List.take_succ_cons, trimStart_of_ink hb]⟩

theorem forall_mem_blanks : ∀ m ∈ blanks, ∀ b ∈ m, Byte.isInk b = false := by
  have hall : ∀ m ∈ blanks, (m.all fun b => decide (Byte.isInk b = false)) = true := by decide
  exact fun m hm => forall_mem_of_all (hall m hm)

theorem exists_of_stripMarks {marks : List Text}
    (hmarks : ∀ m ∈ marks, m ≠ [] ∧ ∀ b ∈ m, Byte.isInk b = false) (inside : Nat) (t : Text)
    (hinside : ∀ b ∈ t.take inside, Byte.isInk b = false) :
    ∃ gap, t = gap ++ stripMarks marks inside t ∧ ∀ b ∈ gap, Byte.isInk b = false := by
  induction t generalizing inside with
  | nil => exact ⟨[], by cases inside <;> rfl, by simp⟩
  | cons c t ih =>
    cases inside with
    | succ inside =>
      simp only [List.take_succ_cons, List.forall_mem_cons] at hinside
      obtain ⟨gap, hgap, hink⟩ := ih inside hinside.2
      refine ⟨c :: gap, ?_, List.forall_mem_cons.2 ⟨hinside.1, hink⟩⟩
      rw [stripMarks, List.cons_append, ← hgap]
    | zero =>
      rw [stripMarks]
      split
      · next m hm =>
        have hpre := List.find?_some hm
        obtain ⟨r, hr⟩ := List.isPrefixOf_iff_prefix.1 hpre
        obtain ⟨hne, hblank⟩ := hmarks m (List.mem_of_find?_eq_some hm)
        cases m with
        | nil => exact absurd rfl hne
        | cons d m =>
          obtain ⟨rfl, rfl⟩ := List.cons.inj hr
          rw [List.forall_mem_cons] at hblank
          obtain ⟨gap, hgap, hink⟩ := ih m.length (by simpa using hblank.2)
          refine ⟨d :: gap, ?_, List.forall_mem_cons.2 ⟨hblank.1, hink⟩⟩
          rw [List.cons_append, List.cons_inj_right]
          exact hgap
      · exact ⟨[], rfl, by simp⟩

/-- Trimming takes bytes off the start, none of them visible. -/
theorem exists_of_trimStart (t : Text) :
    ∃ gap, t = gap ++ trimStart t ∧ ∀ b ∈ gap, Byte.isInk b = false :=
  exists_of_stripMarks (fun m hm => ⟨fun hnil => absurd hm (by rw [hnil]; decide),
    forall_mem_blanks m hm⟩) 0 t (by simp)

/-- And off the end of a text given in reverse. -/
theorem exists_of_trimBefore (before : Text) :
    ∃ gap, before = gap ++ Recogniser.trimBefore before ∧ ∀ b ∈ gap, Byte.isInk b = false := by
  have hmarks : ∀ m ∈ blanks.map List.reverse, m ≠ [] ∧ ∀ b ∈ m, Byte.isInk b = false := by
    intro _ hreverse
    obtain ⟨m, hm, rfl⟩ := List.mem_map.1 hreverse
    exact ⟨fun hnil => absurd hm (by rw [List.reverse_eq_nil_iff.1 hnil]; decide),
      fun b hb => forall_mem_blanks m hm b (List.mem_reverse.1 hb)⟩
  exact exists_of_stripMarks hmarks 0 before (by simp)

theorem exists_of_trimEnd (t : Text) :
    ∃ gap, t = trimEnd t ++ gap ∧ ∀ b ∈ gap, Byte.isInk b = false := by
  obtain ⟨gap, heq, hgap⟩ := exists_of_trimBefore t.reverse
  refine ⟨gap.reverse, ?_, fun b hb => hgap b (List.mem_reverse.1 hb)⟩
  rw [trimEnd, ← List.reverse_append]
  exact (List.reverse_reverse t).symm.trans (congrArg List.reverse heq)

theorem trimBefore_append {gap : Text} (hgap : ∀ b ∈ gap, Byte.isSpace b = true) (before : Text) :
    Recogniser.trimBefore (gap ++ before) = Recogniser.trimBefore before := by
  induction gap with
  | nil => rfl
  | cons b gap ih =>
    rw [List.cons_append, Recogniser.trimBefore, stripMarks_reverse_of_isSpace (hgap b (.head _))]
    exact ih fun c hc => hgap c (.tail _ hc)

theorem trimBefore_of_ink {b : UInt8} (hb : Byte.isInk b = true) (before : Text) :
    Recogniser.trimBefore (b :: before) = b :: before :=
  stripMarks_of_ink inkless_reverse_blanks hb

theorem stripStart?_eq_some {start t rest : Text} :
    stripStart? start t = some rest ↔ t = start ++ rest := by
  unfold stripStart?
  split
  · next hpre =>
    obtain ⟨r, rfl⟩ := List.isPrefixOf_iff_prefix.1 hpre
    simp
  · next hpre =>
    simp only [reduceCtorEq, false_iff]
    rintro rfl
    exact hpre (List.isPrefixOf_iff_prefix.2 ⟨rest, rfl⟩)

end Text

namespace Recogniser

/-! ## All that is found -/

section
variable {α : Type} {recognise : Text → Text → Option (Text × α)}

/-- What is found is recognised at its offset. -/
theorem exists_of_mem_all {passed i : Nat} {before t : Text} {x : Nat × Nat × α}
    (h : x ∈ all recognise passed i before t) : ∃ u b v behind y, t = u ++ b :: v ∧
      passed ≤ u.length ∧ recognise (u.reverse ++ before) (b :: v) = some (behind, y) ∧
      x = (i + u.length, i + u.length + ((b :: v).length - behind.length), y) := by
  induction t generalizing passed i before with
  | nil => cases passed <;> simp [all] at h
  | cons c t ih =>
    -- what is found in the rest stands one byte further on
    have step {passed' : Nat} (hle : passed ≤ passed' + 1)
        (h : x ∈ all recognise passed' (i + 1) (c :: before) t) :
        ∃ u b v behind y, c :: t = u ++ b :: v ∧ passed ≤ u.length ∧
          recognise (u.reverse ++ before) (b :: v) = some (behind, y) ∧
          x = (i + u.length, i + u.length + ((b :: v).length - behind.length), y) := by
      obtain ⟨u, b, v, behind, y, rfl, hpassed, hrec, rfl⟩ := ih h
      refine ⟨c :: u, b, v, behind, y, rfl, by simp; omega, by simpa using hrec, ?_⟩
      simp [Nat.add_assoc, Nat.add_comm 1]
    cases passed with
    | succ passed => exact step (Nat.le_refl _) h
    | zero =>
      rw [all] at h
      split at h
      · next behind y hrec =>
        rcases List.mem_cons.1 h with rfl | h
        · exact ⟨[], c, t, behind, y, rfl, Nat.le_refl _, hrec, by simp⟩
        · exact step (Nat.zero_le _) h
      · exact step (Nat.zero_le _) h

theorem pairwise_all (recognise : Text → Text → Option (Text × α)) (passed i : Nat)
    (before t : Text) : (all recognise passed i before t).Pairwise (·.1 < ·.1) := by
  induction t generalizing passed i before with
  | nil => cases passed <;> exact .nil
  | cons c t ih =>
    cases passed with
    | succ passed => exact ih ..
    | zero =>
      rw [all]
      split
      · refine List.pairwise_cons.2 ⟨fun x hx => ?_, ih ..⟩
        obtain ⟨u, b, v, behind, y, -, -, -, rfl⟩ := exists_of_mem_all hx
        simp
        omega
      · exact ih ..

/-- What is recognised at an offset is found there, unless an earlier find reaches over it. -/
theorem mem_all {passed i : Nat} {before u v behind : Text} {b : UInt8} {y : α}
    (hpassed : passed ≤ u.length)
    (hrec : recognise (u.reverse ++ before) (b :: v) = some (behind, y))
    (hfree : ∀ u₁ c u₂ behind' y', u = u₁ ++ c :: u₂ →
      recognise (u₁.reverse ++ before) (c :: (u₂ ++ b :: v)) = some (behind', y') →
      v.length < behind'.length) :
    (i + u.length, i + u.length + ((b :: v).length - behind.length), y) ∈
      all recognise passed i before (u ++ b :: v) := by
  induction u generalizing passed i before with
  | nil =>
    obtain rfl : passed = 0 := by simpa using hpassed
    rw [List.nil_append, all, show recognise before (b :: v) = _ from hrec]
    exact .head _
  | cons c u ih =>
    have step {passed' : Nat} (hle : passed' ≤ u.length) :
        (i + (c :: u).length, i + (c :: u).length + ((b :: v).length - behind.length), y) ∈
          all recognise passed' (i + 1) (c :: before) (u ++ b :: v) := by
      have hfound : (i + 1 + u.length, i + 1 + u.length + ((b :: v).length - behind.length), y) ∈
          all recognise passed' (i + 1) (c :: before) (u ++ b :: v) :=
        ih hle (by simpa using hrec) fun u₁ d u₂ behind' y' hu h =>
          hfree (c :: u₁) d u₂ behind' y' (by rw [hu]; rfl) (by simpa using h)
      simpa [Nat.add_assoc, Nat.add_comm 1] using hfound
    cases passed with
    | succ passed => exact step (by simpa using hpassed)
    | zero =>
      rw [List.cons_append, all]
      split
      · next behind' y' hrec' =>
        have := hfree [] c u behind' y' rfl hrec'
        refine .tail _ (step ?_)
        simp
        omega
      · exact step (Nat.zero_le _)

/-- Where something is recognised, it is found or something before it is. -/
theorem exists_mem_all {i : Nat} {before u v : Text} {b : UInt8} {x : Text × α}
    (h : recognise (u.reverse ++ before) (b :: v) = some x) :
    ∃ u₁ c v₁ behind y j, u ++ b :: v = u₁ ++ c :: v₁ ∧ u₁.length ≤ u.length ∧
      recognise (u₁.reverse ++ before) (c :: v₁) = some (behind, y) ∧
      (i + u₁.length, j, y) ∈ all recognise 0 i before (u ++ b :: v) := by
  induction u generalizing i before with
  | nil =>
    refine ⟨[], b, v, x.1, x.2, i + (v.length + 1 - x.1.length), rfl, Nat.le_refl _, h, ?_⟩
    rw [List.nil_append, all, show recognise before (b :: v) = some x from h]
    exact .head _
  | cons c u ih =>
    cases hc : recognise before (c :: (u ++ b :: v)) with
    | some y =>
      refine ⟨[], c, u ++ b :: v, y.1, y.2, i + ((u ++ b :: v).length + 1 - y.1.length), rfl,
        Nat.zero_le _, hc, ?_⟩
      rw [List.cons_append, all, hc]
      exact .head _
    | none =>
      obtain ⟨u₁, d, v₁, behind, y, j, heq, hle, hrec, hmem⟩ :=
        ih (i := i + 1) (show recognise (u.reverse ++ c :: before) _ = _ by simpa using h)
      refine ⟨c :: u₁, d, v₁, behind, y, j, by rw [List.cons_append, heq]; rfl, by simpa using hle,
        by simpa using hrec, ?_⟩
      rw [List.cons_append, all, hc]
      simpa [Nat.add_assoc, Nat.add_comm 1] using hmem

end

/-! ## Heads -/

theorem word?_eq_some {word before t rest : Text} :
    word? word before t = some rest ↔ Text.endsWord before = false ∧ t = word ++ rest := by
  unfold word?
  split
  · next h => simp [h]
  · next h => simp [Text.stripStart?_eq_some, h]

/-- The words that declare by keyword. -/
def keywords : List String := ["let", "const", "var"]

theorem ne_nil_of_mem_keywords : ∀ w ∈ keywords, Text.ofString w ≠ [] := by decide

theorem isWord_of_mem_keywords : ∀ w ∈ keywords, ∀ b ∈ Text.ofString w, Byte.isWord b = true := by
  have hall : ∀ w ∈ keywords, (Text.ofString w).all Byte.isWord = true := by decide
  exact fun w hw => List.all_eq_true.1 (hall w hw)

theorem keyword_eq_some {before t behind : Text} {isVar : Bool} {paren : Option Nat}
    (h : keyword before t = some (behind, isVar, paren)) : ∃ w ∈ keywords, ∃ rest,
      Text.endsWord before = false ∧ t = Text.ofString w ++ rest ∧ rest.startsBlank = true ∧
        behind = rest.trimStart ∧ isVar = (w == "var") ∧ paren = loopParen? before := by
  unfold keyword at h
  dsimp only at h
  split at h
  · next rest isVar' hfound =>
    split at h
    · next hblank =>
      obtain ⟨rfl, rfl, rfl⟩ : rest.trimStart = behind ∧ isVar' = isVar ∧
        loopParen? before = paren := by simpa using h
      obtain ⟨w, hw, hsome⟩ := List.exists_of_findSome?_eq_some hfound
      obtain ⟨r, hword, heq⟩ := Option.map_eq_some_iff.1 hsome
      obtain ⟨rfl, rfl⟩ := Prod.mk.inj heq
      obtain ⟨hends, ht⟩ := word?_eq_some.1 hword
      exact ⟨w, hw, r, hends, ht, hblank, rfl, rfl, rfl⟩
    · simp at h
  · simp at h

/-- Blanks lead from the parenthesis of a loop to the end of the text in front. -/
theorem exists_of_loopParen? {before : Text} {paren : Nat} (h : loopParen? before = some paren) :
    ∃ gap outside, before = gap ++ Byte.lparen :: outside ∧
      (∀ b ∈ gap, Byte.isInk b = false) ∧ paren = outside.length := by
  obtain ⟨gap, hgap, hink⟩ := Text.exists_of_trimBefore before
  unfold loopParen? at h
  split at h
  · next outside htrim =>
    rw [htrim] at hgap
    refine ⟨gap, outside, hgap, hink, ?_⟩
    dsimp only at h
    split at h
    · split at h
      · cases h
      · exact (Option.some.inj h).symm
    · cases h
  · cases h

/-- Keywords differ in their first letters. -/
theorem eq_of_keywords {w w' : String} (hw : w ∈ keywords) (hw' : w' ∈ keywords) {t t' : Text}
    (h : Text.ofString w ++ t = Text.ofString w' ++ t') : w = w' := by
  have hhead : ∀ w ∈ keywords, ∀ w' ∈ keywords,
      (Text.ofString w).head? = (Text.ofString w').head? → w = w' := by decide
  have hsome : ∀ w ∈ keywords, (Text.ofString w).head?.isSome := by decide
  have hor {w : String} (hw : w ∈ keywords) (t : Text) :
      (Text.ofString w ++ t).head? = (Text.ofString w).head? := by
    obtain ⟨b, hb⟩ := Option.isSome_iff_exists.1 (hsome w hw)
    rw [List.head?_append, hb, Option.some_or]
  exact hhead w hw w' hw' (by rw [← hor hw t, h, hor hw'])

/-- A declaration by keyword is recognised. -/
theorem keyword_eq {w : String} (hw : w ∈ keywords) {before rest : Text}
    (hends : Text.endsWord before = false) (hblank : rest.startsBlank = true) :
    keyword before (Text.ofString w ++ rest) = some (rest.trimStart, w == "var", loopParen? before) := by
  have hself : word? w before (Text.ofString w ++ rest) = some rest := word?_eq_some.2 ⟨hends, rfl⟩
  have hother : ∀ w' ∈ keywords, w' ≠ w → word? w' before (Text.ofString w ++ rest) = none := by
    intro w' hw' hne
    rw [Option.eq_none_iff_forall_ne_some]
    intro r hr
    exact hne (eq_of_keywords hw hw' (word?_eq_some.1 hr).2).symm
  have hfound : ["let", "const", "var"].findSome? (fun (v : String) =>
      (word? v before (Text.ofString w ++ rest)).map (fun behind => (behind, v == "var"))) =
      some (rest, w == "var") := by
    have hcases := hw
    simp only [keywords, List.mem_cons, List.not_mem_nil, or_false] at hcases
    rcases hcases with rfl | rfl | rfl
    · simp [hself]
    · simp [hself, hother "let" (by decide) (by decide)]
    · simp [hself, hother "let" (by decide) (by decide), hother "const" (by decide) (by decide)]
  unfold keyword
  dsimp only
  rw [hfound]
  simp [hblank]

/-- A declaration by `let` or `const` is recognised. -/
theorem keyword_of_word {w before rest : Text} (hw : w = "let" ∨ w = "const")
    (hends : Text.endsWord before = false) (hblank : rest.startsBlank = true) :
    keyword before (w ++ rest) = some (rest.trimStart, false, loopParen? before) := by
  rcases hw with rfl | rfl
  · exact keyword_eq (w := "let") (by decide) hends hblank
  · exact keyword_eq (w := "const") (by decide) hends hblank

/-- What `recognise` finds begins with `word`, and no word ends in front of it. -/
def BeginsWith {α : Type} (recognise : Text → Text → Option α) (word : Text) : Prop :=
  ∀ before t x, recognise before t = some x →
    ∃ rest, Text.endsWord before = false ∧ t = word ++ rest

/-- A recogniser that reads a word first goes on with what stands behind it. -/
theorem word?_bind_eq_some {α : Type} {word before t : Text} {next : Text → Option α} {x : α}
    (h : (word? word before t >>= next) = some x) :
    ∃ rest, Text.endsWord before = false ∧ t = word ++ rest ∧ next rest = some x := by
  rw [Option.bind_eq_bind, Option.bind_eq_some_iff] at h
  obtain ⟨rest, hword, hnext⟩ := h
  obtain ⟨hends, ht⟩ := word?_eq_some.1 hword
  exact ⟨rest, hends, ht, hnext⟩

theorem beginsWith_function : BeginsWith function "function" := by
  intro before t x h
  obtain ⟨rest, hends, ht, -⟩ := word?_bind_eq_some h
  exact ⟨rest, hends, ht⟩

theorem beginsWith_catchHead : BeginsWith catchHead "catch" := by
  intro before t x h
  obtain ⟨rest, hends, ht, -⟩ := word?_bind_eq_some h
  exact ⟨rest, hends, ht⟩

theorem beginsWith_classHead : BeginsWith classHead "class" := by
  intro before t x h
  obtain ⟨rest, hends, ht, -⟩ := word?_bind_eq_some h
  exact ⟨rest, hends, ht⟩

theorem group?_eq_some {t : Text} {x : Text × Text} (h : group? t = some x) :
    ∃ rest, t = Byte.lparen :: rest := by
  unfold group? at h
  rw [Option.bind_eq_bind, Option.bind_eq_some_iff] at h
  obtain ⟨rest, hrest, -⟩ := h
  exact ⟨rest, Text.stripStart?_eq_some.1 hrest⟩

theorem suffix_of_group? {t inside behind : Text} (h : group? t = some (behind, inside)) :
    behind <:+ t := by
  unfold group? at h
  rw [Option.bind_eq_bind, Option.bind_eq_some_iff] at h
  obtain ⟨rest, hrest, h⟩ := h
  dsimp only at h
  rw [Option.bind_eq_some_iff] at h
  obtain ⟨behind', hbehind, h⟩ := h
  obtain ⟨rfl, -⟩ : behind' = behind ∧ _ := by simpa using h
  have hclose := Text.stripStart?_eq_some.1 hbehind
  have hsuffix := List.dropWhile_suffix (l := rest)
    (fun b => !(b == Byte.lparen || b == Byte.rparen))
  rw [hclose] at hsuffix
  rw [Text.stripStart?_eq_some.1 hrest]
  exact ((List.suffix_append _ _).trans hsuffix).trans (List.suffix_append _ _)

theorem suffix_of_word? {word before t rest : Text} (h : word? word before t = some rest) :
    rest <:+ t := by
  rw [(word?_eq_some.1 h).2]
  exact List.suffix_append _ _

theorem suffix_trimStart (t : Text) : t.trimStart <:+ t := by
  obtain ⟨gap, hgap, -⟩ := Text.exists_of_trimStart t
  exact ⟨gap, hgap.symm⟩

theorem suffix_of_identifier? {t name behind : Text} (h : t.identifier? = some (name, behind)) :
    behind <:+ t := by
  cases t with
  | nil => simp [Text.identifier?] at h
  | cons b t =>
    rw [Text.identifier?] at h
    split at h
    · obtain ⟨-, rfl⟩ : _ ∧ t.dropWhile Byte.isWord = behind := by simpa using h
      exact (List.dropWhile_suffix _).trans (List.suffix_cons _ _)
    · simp at h

/-- An arrow function is read from its parameters, a list or a name, and the arrow behind blanks. -/
theorem arrow_eq_some {before t behind : Text} {x : Text ⊕ Text}
    (h : arrow before t = some (behind, x)) :
    ∃ rest, ((∃ inside, group? t = some (rest, inside)) ∨ ∃ name, t.identifier? = some (name, rest)) ∧
      Text.stripStart? "=>" rest.trimStart = some behind := by
  unfold arrow at h
  simp only [Option.bind_eq_bind, Option.pure_def] at h
  split at h
  · next rest inside hgroup =>
    rw [Option.bind_some, Option.bind_eq_some_iff] at h
    obtain ⟨behind', harrow, h⟩ := h
    obtain ⟨rfl, -⟩ := Prod.mk.inj (Option.some.inj h)
    exact ⟨rest, .inl ⟨inside, hgroup⟩, harrow⟩
  · rw [Option.bind_eq_some_iff] at h
    obtain ⟨⟨rest, name⟩, hname, h⟩ := h
    obtain ⟨⟨name', rest'⟩, hidentifier, heq⟩ := Option.map_eq_some_iff.1 hname
    obtain ⟨rfl, -⟩ := Prod.mk.inj heq
    rw [Option.bind_eq_some_iff] at h
    obtain ⟨behind', harrow, h⟩ := h
    obtain ⟨rfl, -⟩ := Prod.mk.inj (Option.some.inj h)
    exact ⟨_, .inr ⟨name', hidentifier⟩, harrow⟩

/-- An arrow stands right before what follows an arrow function. -/
theorem of_arrow {before t behind : Text} {x : Text ⊕ Text}
    (h : arrow before t = some (behind, x)) :
    ∃ z, t = z ++ (Text.ofString "=>" ++ behind) := by
  obtain ⟨rest, hparameters, harrow⟩ := arrow_eq_some h
  have hsuffix : rest <:+ t := by
    rcases hparameters with ⟨_, hgroup⟩ | ⟨_, hidentifier⟩
    · exact suffix_of_group? hgroup
    · exact suffix_of_identifier? hidentifier
  obtain ⟨gap, hgap, -⟩ := Text.exists_of_trimStart rest
  rw [Text.stripStart?_eq_some.1 harrow] at hgap
  obtain ⟨z, rfl⟩ := hsuffix
  exact ⟨z ++ gap, by rw [List.append_assoc, ← hgap]⟩

/-- A word, and behind it, after blanks, a byte that is no part of it. The text is cut off
anywhere. -/
structure CutWord (t word gap : Text) (b : UInt8) : Prop where
  cut : ∃ rest n, t = (word ++ (gap ++ b :: rest)).take n
  word : ∀ c ∈ word, Byte.isWord c = true
  gap : ∀ c ∈ gap, Byte.isSpace c = true
  ink : Byte.isInk b = true
  not_word : Byte.isWord b = false

section
variable {t word gap : Text} {b : UInt8}

/-- Behind the word stand blanks and the byte after them, as far as the text reaches. -/
theorem CutWord.dropWhile (h : CutWord t word gap b) :
    ∃ rest n, t.dropWhile Byte.isWord = (gap ++ b :: rest).take n := by
  obtain ⟨rest, n, rfl⟩ := h.cut
  refine ⟨rest, n - word.length, ?_⟩
  rw [List.take_append,
    List.dropWhile_append_of_pos fun c hc => h.word c (List.mem_of_mem_take hc)]
  cases n - word.length with
  | zero => rfl
  | succ k =>
    cases hgap : gap with
    | nil => simp [h.not_word]
    | cons c gap' =>
      have hc : Byte.isWord c = false :=
        Text.not_word_of_isSpace c (h.gap c (by simp [hgap]))
      simp [hc]

/-- Parentheses open behind the word only if the byte after it is one. -/
theorem CutWord.lparen (h : CutWord t word gap b) {x : Text × Text}
    (hgroup : group? (Text.trimStart (t.dropWhile Byte.isWord)) = some x) : b = Byte.lparen := by
  obtain ⟨r, hr⟩ := group?_eq_some hgroup
  obtain ⟨rest, n, hdrop⟩ := h.dropWhile
  rw [hdrop] at hr
  rcases Text.trimStart_take h.gap h.ink rest n with hnil | ⟨r', hcons⟩
  · simp [hnil] at hr
  · rw [hcons] at hr
    exact (List.cons.inj hr).1

/-- A text begins with the word, as far as it reaches. -/
theorem CutWord.cases_word (h : CutWord t word gap b) :
    (word = [] ∧ t.dropWhile Byte.isWord = t) ∨
      ∃ c w, word = c :: w ∧ Byte.isWord c = true ∧ (t = [] ∨ ∃ r, t = c :: r) := by
  have hdrop := h.dropWhile
  obtain ⟨rest, n, ht⟩ := h.cut
  cases hword : word with
  | nil =>
    left
    refine ⟨rfl, ?_⟩
    rw [ht, hword, List.nil_append]
    cases n with
    | zero => rfl
    | succ n =>
      cases hgap : gap with
      | nil => simp [h.not_word]
      | cons c gap' => simp [Text.not_word_of_isSpace c (h.gap c (by simp [hgap]))]
  | cons c w =>
    refine .inr ⟨c, w, rfl, h.word c (by simp [hword]), ?_⟩
    cases n with
    | zero => exact .inl (by simp [ht])
    | succ n => exact .inr ⟨_, by rw [ht, hword]; rfl⟩

/-- Blanks begin a text only if the word is empty. -/
theorem CutWord.of_startsBlank (h : CutWord t word gap b) (hblank : Text.startsBlank t = true) :
    word = [] ∧ (Text.trimStart t = [] ∨ ∃ r, Text.trimStart t = b :: r) := by
  rcases h.cases_word with ⟨hnil, hdrop⟩ | ⟨c, w, -, hc, rfl | ⟨r, rfl⟩⟩
  · obtain ⟨behind, n, hcut⟩ := h.dropWhile
    rw [← hdrop, hcut]
    exact ⟨hnil, Text.trimStart_take h.gap h.ink behind n⟩
  · exact absurd hblank (by decide)
  · rw [Text.startsBlank_of_ink (Text.isInk_of_isWord c hc)] at hblank
    simp at hblank

/-- A handler of errors is recognised only if its word and a parenthesis stand here. -/
theorem of_catchHead {before rest : Text} {x : Text × Text} (h : CutWord rest word gap b)
    (hfound : catchHead before (Text.ofString "catch" ++ rest) = some x) :
    Text.endsWord before = false ∧ word = [] ∧ b = Byte.lparen := by
  obtain ⟨rest', hends, heq, hgroup⟩ := word?_bind_eq_some hfound
  obtain rfl := List.append_cancel_left heq
  rcases h.cases_word with ⟨hnil, hdrop⟩ | ⟨c, w, -, hc, rfl | ⟨r, rfl⟩⟩
  · rw [← hdrop] at hgroup
    exact ⟨hends, hnil, h.lparen hgroup⟩
  · exact absurd (group?_eq_some hgroup) (by simp [Text.trimStart, Text.stripMarks])
  · rw [Text.trimStart_of_ink (Text.isInk_of_isWord c hc)] at hgroup
    obtain ⟨r', hr'⟩ := group?_eq_some hgroup
    obtain ⟨rfl, -⟩ := List.cons.inj hr'
    simp +decide at hc

/-- No star is skipped in front of another visible byte. -/
theorem skipStar_of_ink {c : UInt8} (hc : Byte.isInk c = true) (hstar : c ≠ Byte.star) (r : Text) :
    ((Text.stripStart? [Byte.star] (c :: r)).getD (c :: r)).trimStart = c :: r := by
  have hnone : Text.stripStart? [Byte.star] (c :: r) = none := by
    simp [Text.stripStart?, Ne.symm hstar]
  rw [hnone, Option.getD_none]
  exact Text.trimStart_of_ink hc

/-- A function is recognised only if its word stands here, a dollar sign or no more of a word
behind it, and a parenthesis. -/
theorem of_function {before rest : Text} {x : Text × Option Text × Text}
    (h : CutWord rest word gap b) (hstar : b ≠ Byte.star)
    (hfound : function before (Text.ofString "function" ++ rest) = some x) :
    Text.endsWord before = false ∧ (∀ c ∈ word.head?, c = Byte.dollar) ∧ b = Byte.lparen := by
  obtain ⟨rest', hends, heq, hfound⟩ := word?_bind_eq_some hfound
  obtain rfl := List.append_cancel_left heq
  split at hfound
  · simp at hfound
  · next hstart =>
    have hempty : group? (Text.trimStart []) = none := rfl
    dsimp only at hfound
    rcases h.cases_word with ⟨hnil, hdrop⟩ | ⟨c, w, hcons, hc, rfl | ⟨r, rfl⟩⟩
    · -- the word ends with `function`
      obtain ⟨behind, n, hcut⟩ := h.dropWhile
      rw [hdrop] at hcut
      refine ⟨hends, by simp [hnil], ?_⟩
      rcases Text.trimStart_take h.gap h.ink behind n with hempty' | ⟨r, hr⟩
      · rw [hcut, hempty'] at hfound
        simp [Text.stripStart?, Text.trimStart, Text.stripMarks, Text.identifier?, group?] at hfound
      · have hstartsNot : Byte.isWordStart b = false := by
          have := h.not_word
          simp only [Byte.isWord, Bool.or_eq_false_iff] at this
          exact this.1
        rw [hcut, hr, skipStar_of_ink h.ink hstar] at hfound
        simp only [Text.identifier?, hstartsNot, Bool.false_eq_true, if_false] at hfound
        rw [Text.trimStart_of_ink h.ink, Option.bind_eq_bind, Option.bind_eq_some_iff] at hfound
        obtain ⟨y, hy, -⟩ := hfound
        obtain ⟨r', hr'⟩ := group?_eq_some hy
        exact (List.cons.inj hr').1
    · simp [Text.stripStart?, Text.trimStart, Text.stripMarks, Text.identifier?, group?] at hfound
    · -- the word goes on behind `function`
      obtain ⟨hascii, -, hdollar⟩ := Text.startsWord_of_isWord c hc
      rw [Text.startsWord_cons hascii] at hstart
      obtain rfl : c = Byte.dollar := hdollar.resolve_right hstart
      refine ⟨hends, by simp [hcons], ?_⟩
      rw [Text.trimStart_of_ink (by decide), skipStar_of_ink (by decide) (by decide),
        Text.identifier?, if_pos (by decide)] at hfound
      dsimp only at hfound
      rw [Option.bind_eq_bind, Option.bind_eq_some_iff] at hfound
      obtain ⟨y, hy, -⟩ := hfound
      refine h.lparen (x := y) ?_
      rw [List.dropWhile_cons_of_pos (by decide)]
      exact hy

/-- A class is recognised only if a name stands behind its word, after blanks. -/
theorem classHead_eq_none {before rest : Text} (h : CutWord rest word gap b) :
    classHead before (Text.ofString "class" ++ rest) = none := by
  rw [Option.eq_none_iff_forall_ne_some]
  intro x hfound
  obtain ⟨rest', -, heq, hfound⟩ := word?_bind_eq_some hfound
  obtain rfl := List.append_cancel_left heq
  split at hfound
  · next hblank =>
    rw [Option.bind_eq_bind, Option.bind_eq_some_iff] at hfound
    obtain ⟨y, hname, -⟩ := hfound
    rcases (h.of_startsBlank hblank).2 with hempty | ⟨r, hr⟩
    · simp [hempty, Text.identifier?] at hname
    · have hstart := h.not_word
      simp only [Byte.isWord, Bool.or_eq_false_iff] at hstart
      simp [hr, Text.identifier?, hstart.1] at hname
  · simp at hfound

end

/-! ## Words that read as heads -/

theorem suffix_skipStar (t : Text) :
    ((Text.stripStart? [Byte.star] t).getD t).trimStart <:+ t := by
  refine (suffix_trimStart _).trans ?_
  cases h : Text.stripStart? [Byte.star] t with
  | none => exact List.suffix_rfl
  | some rest => exact ⟨_, (Text.stripStart?_eq_some.1 h).symm⟩

/-- The parameters of a function stand in parentheses in the text. -/
theorem exists_group_of_function {before t behind parameters : Text} {name : Option Text}
    (h : function before t = some (behind, name, parameters)) :
    ∃ rest, rest <:+ t ∧ group? rest = some (behind, parameters) := by
  unfold function at h
  rw [Option.bind_eq_bind, Option.bind_eq_some_iff] at h
  obtain ⟨rest, hword, h⟩ := h
  split at h
  · simp at h
  · dsimp only at h
    have hsuffix := (suffix_skipStar rest.trimStart).trans
      ((suffix_trimStart rest).trans (suffix_of_word? hword))
    generalize ((Text.stripStart? [Byte.star] rest.trimStart).getD rest.trimStart).trimStart = r
      at h hsuffix
    cases hid : r.identifier? with
    | none =>
      rw [hid, Option.bind_eq_bind, Option.bind_eq_some_iff] at h
      obtain ⟨y, hgroup, h⟩ := h
      obtain ⟨rfl, -, rfl⟩ : y.1 = behind ∧ _ ∧ y.2 = parameters := by simpa using h
      exact ⟨_, (suffix_trimStart _).trans hsuffix, hgroup⟩
    | some found =>
      rw [hid, Option.bind_eq_bind, Option.bind_eq_some_iff] at h
      obtain ⟨y, hgroup, h⟩ := h
      obtain ⟨rfl, -, rfl⟩ : y.1 = behind ∧ _ ∧ y.2 = parameters := by simpa using h
      exact ⟨_, (suffix_trimStart _).trans ((suffix_of_identifier? hid).trans hsuffix), hgroup⟩

theorem exists_group_of_catchHead {before t behind parameters : Text}
    (h : catchHead before t = some (behind, parameters)) :
    ∃ rest, rest <:+ t ∧ group? rest = some (behind, parameters) := by
  unfold catchHead at h
  rw [Option.bind_eq_bind, Option.bind_eq_some_iff] at h
  obtain ⟨rest, hword, h⟩ := h
  exact ⟨rest.trimStart, (suffix_trimStart rest).trans (suffix_of_word? hword), h⟩

/-- A function is recognised where its word ends, or goes on with a dollar sign. -/
theorem function_eq_some {before y z : Text} {x : Text × Text}
    (hends : Text.endsWord before = false) (hy : ∀ c ∈ y, Byte.isWord c = true)
    (hdollar : ∀ c ∈ y.head?, c = Byte.dollar) (hgroup : group? (Byte.lparen :: z) = some x) :
    ∃ name, function before (Text.ofString "function" ++ (y ++ Byte.lparen :: z)) =
      some (x.1, name, x.2) := by
  have hword : word? "function" before (Text.ofString "function" ++ (y ++ Byte.lparen :: z)) =
      some (y ++ Byte.lparen :: z) := word?_eq_some.2 ⟨hends, rfl⟩
  unfold function
  rw [hword, Option.bind_eq_bind, Option.bind_some]
  cases y with
  | nil =>
    have hstarts : Text.startsWord (Byte.lparen :: z) = false := by
      rw [Text.startsWord_cons (by decide)]
      decide +kernel
    have hname : Text.identifier? (Byte.lparen :: z) = none := by
      rw [Text.identifier?, if_neg (by decide)]
    rw [List.nil_append, if_neg (by simp [hstarts]), Text.trimStart_of_ink (by decide)]
    dsimp only
    rw [skipStar_of_ink (by decide) (by decide), hname]
    refine ⟨none, ?_⟩
    dsimp only
    rw [Text.trimStart_of_ink (by decide), hgroup]
    rfl
  | cons c y =>
    obtain rfl : c = Byte.dollar := hdollar c rfl
    have hstarts : Text.startsWord (Byte.dollar :: (y ++ Byte.lparen :: z)) = false := by
      rw [Text.startsWord_cons (by decide)]
      exact Text.startsWord_dollar
    have hname : Text.identifier? (Byte.dollar :: (y ++ Byte.lparen :: z)) =
        some (Byte.dollar :: y, Byte.lparen :: z) := by
      have hwords := fun b hb => hy b (.tail _ hb)
      rw [Text.identifier?, if_pos (by decide), List.takeWhile_append_of_pos hwords,
        List.dropWhile_append_of_pos hwords, List.takeWhile_cons_of_neg (by decide),
        List.dropWhile_cons_of_neg (by decide), List.append_nil]
    rw [List.cons_append, if_neg (by simp [hstarts]), Text.trimStart_of_ink (by decide)]
    dsimp only
    rw [skipStar_of_ink (by decide) (by decide), hname]
    refine ⟨some (Byte.dollar :: y), ?_⟩
    dsimp only
    rw [Text.trimStart_of_ink (by decide), hgroup]
    rfl

/-- A handler of errors is recognised where its word ends. -/
theorem catchHead_eq_some {before z : Text} {x : Text × Text}
    (hends : Text.endsWord before = false) (hgroup : group? (Byte.lparen :: z) = some x) :
    catchHead before (Text.ofString "catch" ++ Byte.lparen :: z) = some x := by
  have hword : word? "catch" before (Text.ofString "catch" ++ Byte.lparen :: z) =
      some (Byte.lparen :: z) := word?_eq_some.2 ⟨hends, rfl⟩
  unfold catchHead
  rw [hword, Option.bind_eq_bind, Option.bind_some, Text.trimStart_of_ink (by decide)]
  exact hgroup

end Recogniser

end PageLang
