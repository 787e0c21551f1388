import PageLang.Proofs.Script.Recogniser

/-!
# Heads with a list in parentheses

The heads of functions, of handlers of errors and of arrow functions hold one pair of parentheses, with
none inside. So no earlier find reaches over such a head: it would have to end in the parentheses of
this one, and between its own word and them stands another word.

* `function_eq_of_name`, `catchHead_eq`, `arrow_eq`: heads that are recognised.
* `Clear`: no earlier find reaches over a text.
* `clear_function`, `clear_catchHead`, `clear_arrow`: this holds of the heads.
-/

namespace PageLang.Recogniser

open Text

/-- No byte is a parenthesis. -/
def Parenless (t : Text) : Prop := Byte.lparen ∉ t ∧ Byte.rparen ∉ t

theorem group?_eq {inside : Text} (h : Parenless inside) (behind : Text) :
    group? (Byte.lparen :: (inside ++ Byte.rparen :: behind)) = some (behind, inside) := by
  have hall : ∀ b ∈ inside, (!(b == Byte.lparen || b == Byte.rparen)) = true := by
    intro b hb
    have hl : b ≠ Byte.lparen := fun heq => h.1 (heq ▸ hb)
    have hr : b ≠ Byte.rparen := fun heq => h.2 (heq ▸ hb)
    simp [hl, hr]
  have hstart (b : UInt8) (t : Text) : stripStart? [b] (b :: t) = some t :=
    stripStart?_eq_some.2 rfl
  unfold group?
  rw [hstart, Option.bind_eq_bind, Option.bind_some]
  dsimp only
  rw [List.dropWhile_append_of_pos hall, List.takeWhile_append_of_pos hall,
    List.dropWhile_cons_of_neg (by simp), List.takeWhile_cons_of_neg (by simp), hstart,
    Option.bind_some, List.append_nil]
  rfl

/-- A list in parentheses, and what it is made of. -/
theorem of_group? {t inside behind : Text} (h : group? t = some (behind, inside)) :
    t = Byte.lparen :: (inside ++ Byte.rparen :: behind) ∧ Parenless inside := by
  unfold group? at h
  rw [Option.bind_eq_bind, Option.bind_eq_some_iff] at h
  obtain ⟨rest, hrest, h⟩ := h
  dsimp only at h
  rw [Option.bind_eq_some_iff] at h
  obtain ⟨behind', hbehind, h⟩ := h
  obtain ⟨rfl, rfl⟩ := Prod.mk.inj (Option.some.inj h)
  have hclose := stripStart?_eq_some.1 hbehind
  have hall := List.all_takeWhile (l := rest) (p := fun b => !(b == Byte.lparen || b == Byte.rparen))
  rw [List.all_eq_true] at hall
  refine ⟨?_, fun hmem => by simpa using hall _ hmem, fun hmem => by simpa using hall _ hmem⟩
  have hsplit := List.takeWhile_append_dropWhile (l := rest)
    (p := fun b => !(b == Byte.lparen || b == Byte.rparen))
  rw [hclose] at hsplit
  exact (stripStart?_eq_some.1 hrest).trans (congrArg (Byte.lparen :: ·) hsplit.symm)

section
variable {before space name gap inside behind : Text}

theorem startsWord_of_isSpace : ∀ b, Byte.isSpace b = true → b < 0x80 ∧ startsWord [b] = false :=
  Byte.forall_of_nibbles (by decide +kernel)

theorem startsWord_space_append (hspace : ∀ b ∈ space, Byte.isSpace b = true) (hne : space ≠ [])
    (t : Text) : startsWord (space ++ t) = false := by
  obtain ⟨b, space, rfl⟩ := List.exists_cons_of_ne_nil hne
  obtain ⟨hascii, hstarts⟩ := startsWord_of_isSpace b (hspace b (.head _))
  rw [List.cons_append, startsWord_cons hascii, hstarts]

/-- The head of a function with a name is recognised. -/
theorem function_eq_of_name (hends : endsWord before = false)
    (hspace : ∀ b ∈ space, Byte.isSpace b = true) (hne : space ≠ [])
    (hname : name.isIdentifier = true) (hgap : ∀ b ∈ gap, Byte.isSpace b = true)
    (hinside : Parenless inside) (behind : Text) :
    function before (ofString "function" ++ (space ++ (name ++ (gap ++
      Byte.lparen :: (inside ++ Byte.rparen :: behind))))) = some (behind, some name, inside) := by
  obtain ⟨c, rest, rfl, hc, hrest⟩ : ∃ c rest, name = c :: rest ∧ Byte.isWordStart c = true ∧
      ∀ b ∈ rest, Byte.isWord b = true := by
    cases name with
    | nil => cases hname
    | cons c rest =>
      simp only [isIdentifier, Bool.and_eq_true, List.all_eq_true] at hname
      exact ⟨c, rest, rfl, hname⟩
  have hword : Byte.isWord c = true := by simp [Byte.isWord, hc]
  have hink := isInk_of_isWord c hword
  have hstar : c ≠ Byte.star := by
    rintro rfl
    exact absurd hc (by decide)
  have hend : ∀ b ∈ (gap ++ Byte.lparen :: (inside ++ Byte.rparen :: behind)).head?,
      Byte.isWord b = false := by
    cases gap with
    | nil => simp +decide
    | cons b gap => simpa using not_word_of_isSpace b (hgap b (.head _))
  have hidentifier : identifier? (c :: (rest ++
      (gap ++ Byte.lparen :: (inside ++ Byte.rparen :: behind)))) = some (c :: rest,
        gap ++ Byte.lparen :: (inside ++ Byte.rparen :: behind)) := by
    rw [identifier?, if_pos hc, List.takeWhile_append_of_pos hrest,
      List.dropWhile_append_of_pos hrest]
    generalize gap ++ Byte.lparen :: (inside ++ Byte.rparen :: behind) = z at hend
    cases z with
    | nil => simp
    | cons b z =>
      have hb := hend b rfl
      rw [List.takeWhile_cons_of_neg (by simp [hb]), List.dropWhile_cons_of_neg (by simp [hb]),
        List.append_nil]
  have hwordFound : word? "function" before (ofString "function" ++ (space ++ ((c :: rest) ++ (gap ++
      Byte.lparen :: (inside ++ Byte.rparen :: behind))))) = some (space ++ ((c :: rest) ++ (gap ++
      Byte.lparen :: (inside ++ Byte.rparen :: behind)))) := word?_eq_some.2 ⟨hends, rfl⟩
  unfold function
  rw [hwordFound, Option.bind_eq_bind, Option.bind_some,
    if_neg (by simp [startsWord_space_append hspace hne])]
  dsimp only
  rw [trimStart_append hspace, List.cons_append, trimStart_of_ink hink, skipStar_of_ink hink hstar,
    hidentifier]
  dsimp only
  rw [trimStart_append hgap, trimStart_of_ink (by decide), group?_eq hinside]
  rfl

/-- The head of a handler of errors is recognised. -/
theorem catchHead_eq (hends : endsWord before = false) (hgap : ∀ b ∈ gap, Byte.isSpace b = true)
    (hinside : Parenless inside) (behind : Text) :
    catchHead before (ofString "catch" ++ (gap ++
      Byte.lparen :: (inside ++ Byte.rparen :: behind))) = some (behind, inside) := by
  have hword : word? "catch" before (ofString "catch" ++ (gap ++
      Byte.lparen :: (inside ++ Byte.rparen :: behind))) =
        some (gap ++ Byte.lparen :: (inside ++ Byte.rparen :: behind)) := word?_eq_some.2 ⟨hends, rfl⟩
  unfold catchHead
  rw [hword, Option.bind_eq_bind, Option.bind_some, trimStart_append hgap,
    trimStart_of_ink (by decide)]
  exact group?_eq hinside behind

/-- The head of an arrow function is recognised. -/
theorem arrow_eq (hgap : ∀ b ∈ gap, Byte.isSpace b = true) (hinside : Parenless inside)
    (behind : Text) :
    arrow before (Byte.lparen :: (inside ++ Byte.rparen :: (gap ++ (ofString "=>" ++ behind)))) =
      some (behind, .inl inside) := by
  have harrow : ofString "=>" = [Byte.equals, Byte.greater] := by decide
  have hstrip : stripStart? "=>" (trimStart (gap ++ (ofString "=>" ++ behind))) = some behind := by
    rw [trimStart_append hgap, harrow, List.cons_append, trimStart_of_ink (by decide)]
    exact stripStart?_eq_some.2 rfl
  unfold arrow
  rw [group?_eq hinside]
  simp only [Option.bind_eq_bind, Option.bind_some]
  rw [hstrip]
  rfl

end

/-! ## Earlier finds -/

/-- Whatever is recognised in front of a text, behind `u` or in it, ends in front of the text. -/
def Clear {α : Type} (recognise : Text → Text → Option (Text × α)) (u t : Text) : Prop :=
  ∀ u₁ c u₂ behind y, u = u₁ ++ c :: u₂ →
    recognise u₁.reverse (c :: (u₂ ++ t)) = some (behind, y) → t.length ≤ behind.length

/-- What is recognised behind `u` is found if no earlier find reaches over it. -/
theorem Clear.mem_all {α : Type} {recognise : Text → Text → Option (Text × α)} {u t behind : Text}
    {y : α} (h : Clear recognise u t) (hne : t ≠ []) (hrec : recognise u.reverse t = some (behind, y))
    (i : Nat) : (i + u.length, i + u.length + (t.length - behind.length), y) ∈
      all recognise 0 i [] (u ++ t) := by
  obtain ⟨b, v, rfl⟩ := List.exists_cons_of_ne_nil hne
  refine Recogniser.mem_all (Nat.zero_le _) (by simpa using hrec) fun u₁ c u₂ behind' y' heq hrec' => ?_
  have := h u₁ c u₂ behind' y' heq (by simpa using hrec')
  rwa [List.length_cons] at this

/-- The first parenthesis of a text is one of the two. -/
theorem not_mixed {head z c y : Text} (h : head ++ Byte.lparen :: z = c ++ Byte.rparen :: y)
    (hhead : Parenless head) (hc : Parenless c) : False := by
  rcases List.append_eq_append_iff.1 h with ⟨e, rfl, he⟩ | ⟨e, rfl, he⟩
  · cases e with
    | nil => exact absurd (List.cons.inj he).1 (by decide)
    | cons b e =>
      obtain ⟨rfl, -⟩ := List.cons.inj he
      exact hc.1 (List.mem_append_right _ (.head _))
  · cases e with
    | nil => exact absurd (List.cons.inj he).1 (by decide)
    | cons b e =>
      obtain ⟨rfl, -⟩ := List.cons.inj he
      exact hhead.2 (List.mem_append_right _ (.head _))

/-- A group that an earlier find ends in is that of the head, or it ends in front of the head. -/
theorem length_le_or_eq {x t front head inside z behind : Text}
    (h : x ++ t = front ++ Byte.lparen :: (inside ++ Byte.rparen :: behind))
    (ht : t = head ++ Byte.lparen :: z) (hfront : Byte.lparen ∉ front) (hhead : Parenless head)
    (hinside : Parenless inside) : t.length ≤ behind.length ∨ front = x ++ head := by
  rcases List.append_eq_append_iff.1 h with ⟨a, rfl, ha⟩ | ⟨a, rfl, ha⟩
  · -- the list begins in the head
    right
    congr 1
    rw [ht] at ha
    rcases List.append_eq_append_iff.1 ha with ⟨c, rfl, hc⟩ | ⟨c, rfl, hc⟩
    · cases c with
      | nil => simp
      | cons b c =>
        obtain ⟨rfl, -⟩ := List.cons.inj hc
        exact absurd (List.mem_append_right _ (List.mem_append_right _ (.head _))) hfront
    · cases c with
      | nil => simp
      | cons b c =>
        obtain ⟨rfl, -⟩ := List.cons.inj hc
        exact absurd (List.mem_append_right _ (.head _)) hhead.1
  · cases a with
    | nil =>
      cases head with
      | nil => exact .inr (by simp)
      | cons b head =>
        rw [List.nil_append, ht] at ha
        obtain ⟨rfl, -⟩ := List.cons.inj ha
        exact absurd (.head _) hhead.1
    | cons b a =>
      -- the list begins in front of the head, and no list stands in it
      obtain ⟨-, ha⟩ := List.cons.inj ha
      rcases List.append_eq_append_iff.1 ha with ⟨c, rfl, hc⟩ | ⟨c, rfl, hc⟩
      · cases c with
        | nil =>
          rw [List.nil_append, ht] at hc
          exact (not_mixed (c := []) hc.symm hhead ⟨by simp, by simp⟩).elim
        | cons d c =>
          obtain ⟨-, rfl⟩ := List.cons.inj hc
          exact .inl (by simp)
      · rw [ht] at hc
        exact (not_mixed hc hhead ⟨fun h => hinside.1 (List.mem_append_right _ h),
          fun h => hinside.2 (List.mem_append_right _ h)⟩).elim

/-- Bytes in front of a list that are part of no word. -/
def Idle (t : Text) : Prop := ∀ b ∈ t, Byte.isWord b = false ∧ b ≠ Byte.lparen

theorem idle_of_inkless {t : Text} (h : ∀ b ∈ t, Byte.isInk b = false) : Idle t := by
  intro b hb
  have hidle : ∀ b, Byte.isInk b = false → Byte.isWord b = false ∧ b ≠ Byte.lparen :=
    Byte.forall_of_nibbles (by decide)
  exact hidle b (h b hb)

theorem Idle.append {t u : Text} (ht : Idle t) (hu : Idle u) : Idle (t ++ u) :=
  List.forall_mem_append.2 ⟨ht, hu⟩

/-- What is recognised as a function: between its word and its list stands one word at most. -/
theorem exists_of_function {before t behind parameters : Text} {name : Option Text}
    (h : function before t = some (behind, name, parameters)) : ∃ y word gap : Text,
      t = (ofString "function" ++ (y ++ (word ++ gap))) ++
        Byte.lparen :: (parameters ++ Byte.rparen :: behind) ∧
      Idle y ∧ (∀ b ∈ word, Byte.isWord b = true) ∧ Idle gap ∧ Parenless parameters := by
  replace h := word?_bind_eq_some h
  obtain ⟨rest, -, rfl, h⟩ := h
  split at h
  · cases h
  dsimp only at h
  -- blanks, a star and blanks are skipped
  obtain ⟨y, r, hrest, hy, hr⟩ : ∃ y r, rest = y ++ r ∧ Idle y ∧
      ((stripStart? [Byte.star] rest.trimStart).getD rest.trimStart).trimStart = r := by
    obtain ⟨gap, hgap, hink⟩ := exists_of_trimStart rest
    cases hstar : stripStart? [Byte.star] rest.trimStart with
    | none =>
      rw [Option.getD_none]
      obtain ⟨gap', hgap', hink'⟩ := exists_of_trimStart rest.trimStart
      exact ⟨gap ++ gap', _, by rw [List.append_assoc, ← hgap', ← hgap],
        (idle_of_inkless hink).append (idle_of_inkless hink'), rfl⟩
    | some rest' =>
      rw [Option.getD_some]
      obtain ⟨gap', hgap', hink'⟩ := exists_of_trimStart rest'
      refine ⟨gap ++ (Byte.star :: gap'), _, ?_, (idle_of_inkless hink).append ?_, rfl⟩
      · rw [List.append_assoc, List.cons_append, ← hgap']
        exact hgap.trans (congrArg (gap ++ ·) (stripStart?_eq_some.1 hstar))
      · exact List.forall_mem_cons.2 ⟨by decide, idle_of_inkless hink'⟩
  rw [hr] at h
  subst hrest
  have hgroup {word r' : Text} (hr' : r = word ++ r') (hall : ∀ b ∈ word, Byte.isWord b = true)
      (hgroup : group? r'.trimStart = some (behind, parameters)) : ∃ y' word gap : Text,
        ofString "function" ++ (y ++ r) = (ofString "function" ++ (y' ++ (word ++ gap))) ++
          Byte.lparen :: (parameters ++ Byte.rparen :: behind) ∧
        Idle y' ∧ (∀ b ∈ word, Byte.isWord b = true) ∧ Idle gap ∧ Parenless parameters := by
    obtain ⟨gap, hgap, hink⟩ := exists_of_trimStart r'
    obtain ⟨hlist, hparenless⟩ := of_group? hgroup
    refine ⟨y, word, gap, ?_, hy, hall, idle_of_inkless hink, hparenless⟩
    rw [hr', List.append_assoc, List.append_assoc, List.append_assoc, ← hlist, ← hgap]
  -- a name may stand in front of the list
  cases r with
  | nil => simp [identifier?, group?, stripStart?, trimStart, stripMarks] at h
  | cons b r =>
    by_cases hb : Byte.isWordStart b = true
    · have hidentifier : identifier? (b :: r) =
          some (b :: r.takeWhile Byte.isWord, r.dropWhile Byte.isWord) := by
        rw [identifier?, if_pos hb]
      rw [hidentifier, Option.bind_eq_bind, Option.bind_eq_some_iff] at h
      obtain ⟨x, hx, h⟩ := h
      obtain ⟨rfl, -, rfl⟩ : x.1 = behind ∧ _ ∧ x.2 = parameters := by simpa using h
      have hall : ∀ c ∈ b :: r.takeWhile Byte.isWord, Byte.isWord c = true :=
        List.forall_mem_cons.2 ⟨by simp [Byte.isWord, hb], List.all_eq_true.1 List.all_takeWhile⟩
      exact hgroup (by simp) hall hx
    · have hidentifier : identifier? (b :: r) = none := by
        rw [identifier?, if_neg hb]
      rw [hidentifier, Option.bind_eq_bind, Option.bind_eq_some_iff] at h
      obtain ⟨x, hx, h⟩ := h
      obtain ⟨rfl, -, rfl⟩ : x.1 = behind ∧ _ ∧ x.2 = parameters := by simpa using h
      exact hgroup (show b :: r = [] ++ b :: r from rfl) (by simp) hx

/-- What is recognised as a handler of errors: between its word and its list stands no word. -/
theorem exists_of_catchHead {before t behind parameters : Text}
    (h : catchHead before t = some (behind, parameters)) : ∃ gap : Text,
      t = (ofString "catch" ++ gap) ++ Byte.lparen :: (parameters ++ Byte.rparen :: behind) ∧
      Idle gap ∧ Parenless parameters := by
  obtain ⟨rest, -, rfl, hgroup⟩ := word?_bind_eq_some h
  obtain ⟨gap, hgap, hink⟩ := exists_of_trimStart rest
  obtain ⟨hlist, hparenless⟩ := of_group? hgroup
  refine ⟨gap, ?_, idle_of_inkless hink, hparenless⟩
  rw [List.append_assoc, ← hlist, ← hgap]

/-- What is recognised as an arrow function: a list in parentheses or a word, blanks, and the arrow. -/
theorem exists_of_arrow {before t behind : Text} {x : Text ⊕ Text}
    (h : arrow before t = some (behind, x)) : ∃ front gap : Text,
      t = front ++ (gap ++ (ofString "=>" ++ behind)) ∧ (∀ b ∈ gap, Byte.isInk b = false) ∧
      ((∃ inside, front = Byte.lparen :: (inside ++ [Byte.rparen]) ∧ Parenless inside) ∨
        front ≠ [] ∧ ∀ b ∈ front, Byte.isWord b = true) := by
  obtain ⟨rest, hparameters, harrow⟩ := arrow_eq_some h
  obtain ⟨gap, hgap, hink⟩ := exists_of_trimStart rest
  rw [stripStart?_eq_some.1 harrow] at hgap
  subst hgap
  rcases hparameters with ⟨inside, hgroup⟩ | ⟨name, hidentifier⟩
  · obtain ⟨rfl, hparenless⟩ := of_group? hgroup
    exact ⟨Byte.lparen :: (inside ++ [Byte.rparen]), gap, by simp, hink, .inl ⟨inside, rfl, hparenless⟩⟩
  · cases t with
    | nil => cases hidentifier
    | cons b t =>
      rw [identifier?] at hidentifier
      split at hidentifier
      · next hb =>
        obtain ⟨-, hdrop⟩ := Prod.mk.inj (Option.some.inj hidentifier)
        refine ⟨b :: t.takeWhile Byte.isWord, gap, ?_, hink, .inr ⟨by simp, ?_⟩⟩
        · rw [← hdrop, List.cons_append, List.takeWhile_append_dropWhile]
        · exact List.forall_mem_cons.2 ⟨by simp [Byte.isWord, hb], List.all_eq_true.1 List.all_takeWhile⟩
      · cases hidentifier

/-- An arrow function holds an opening parenthesis only where it begins. -/
theorem lparen_of_arrow {before t behind : Text} {x : Text ⊕ Text}
    (h : arrow before t = some (behind, x)) : ∃ b z, t = b :: (z ++ behind) ∧ Byte.lparen ∉ z := by
  obtain ⟨front, gap, rfl, hgap, hfront⟩ := exists_of_arrow h
  have harrow : Byte.lparen ∉ gap ++ ofString "=>" := fun hmem =>
    (List.mem_append.1 hmem).elim (fun hmem => absurd (hgap _ hmem) (by decide))
      fun hmem => absurd hmem (by decide)
  rcases hfront with ⟨inside, rfl, hinside⟩ | ⟨hne, hword⟩
  · refine ⟨Byte.lparen, inside ++ Byte.rparen :: (gap ++ ofString "=>"), by simp, fun hmem => ?_⟩
    rcases List.mem_append.1 hmem with hmem | hmem
    · exact hinside.1 hmem
    · exact (List.mem_cons.1 hmem).elim (fun heq => absurd heq (by decide)) harrow
  · obtain ⟨b, word, rfl⟩ := List.exists_cons_of_ne_nil hne
    refine ⟨b, word ++ (gap ++ ofString "=>"), by simp, fun hmem => ?_⟩
    rcases List.mem_append.1 hmem with hmem | hmem
    · exact absurd (hword _ (.tail _ hmem)) (by decide)
    · exact harrow hmem

/-! ## Heads that no earlier find reaches over -/

theorem parenless_of_isWord {t : Text} (ht : ∀ b ∈ t, Byte.isWord b = true) : Parenless t :=
  ⟨fun h => absurd (ht _ h) (by decide), fun h => absurd (ht _ h) (by decide)⟩

theorem parenless_of_isSpace {t : Text} (ht : ∀ b ∈ t, Byte.isSpace b = true) : Parenless t :=
  ⟨fun h => absurd (ht _ h) (by decide), fun h => absurd (ht _ h) (by decide)⟩

theorem Parenless.append {t u : Text} (ht : Parenless t) (hu : Parenless u) : Parenless (t ++ u) :=
  ⟨fun h => (List.mem_append.1 h).elim ht.1 hu.1, fun h => (List.mem_append.1 h).elim ht.2 hu.2⟩

/-- The words that heads are written with. -/
theorem isWord_of_mem_heads : ∀ w ∈ ["function", "catch", "for", "of"], ∀ b ∈ ofString w,
    Byte.isWord b = true := by
  have hall : ∀ w ∈ ["function", "catch", "for", "of"], (ofString w).all Byte.isWord = true := by
    decide
  exact fun w hw => List.all_eq_true.1 (hall w hw)

theorem isWord_function : ∀ b ∈ ofString "function", Byte.isWord b = true :=
  isWord_of_mem_heads _ (by simp)

theorem isWord_catch : ∀ b ∈ ofString "catch", Byte.isWord b = true :=
  isWord_of_mem_heads _ (by simp)

/-- A text with a word in front that is the end of no longer one stands behind the first word. -/
theorem exists_of_append_eq {x head word rest : Text} (hx : x ≠ [])
    (hlast : ∀ b ∈ x.getLast?, Byte.isWord b = false) (hword : ∀ b ∈ word, Byte.isWord b = true)
    (h : x ++ head = word ++ rest) : ∃ y, rest = y ++ head := by
  rcases List.append_eq_append_iff.1 h with ⟨a, rfl, ha⟩ | ⟨a, rfl, ha⟩
  · have hmem := hword (x.getLast hx) (List.mem_append_left _ (List.getLast_mem hx))
    rw [hlast _ (List.getLast?_eq_some_getLast hx)] at hmem
    cases hmem
  · exact ⟨a, ha⟩

/-- Between idle bytes stands one word at most. -/
theorem not_two_words {idle word idle' y w s rest : Text} {b c d : UInt8} (hidle : Idle idle)
    (hword : ∀ b ∈ word, Byte.isWord b = true) (hidle' : Idle idle') (hc : Byte.isWord c = true)
    (hb : Byte.isWord b = false) (hd : Byte.isWord d = true)
    (h : idle ++ (word ++ idle') = y ++ c :: (w ++ b :: (s ++ d :: rest))) : False := by
  -- the bytes of words are those of the one word
  have hinside {k : Nat} {e : UInt8} (hk : (idle ++ (word ++ idle'))[k]? = some e) :
      Byte.isWord e = true ↔ idle.length ≤ k ∧ k < idle.length + word.length := by
    rcases Nat.lt_or_ge k idle.length with hlt | hge
    · rw [List.getElem?_append_left hlt] at hk
      simp only [(hidle e (List.mem_of_getElem? hk)).1, Bool.false_eq_true, false_iff]
      omega
    · rw [List.getElem?_append_right hge] at hk
      rcases Nat.lt_or_ge (k - idle.length) word.length with hlt | hge'
      · rw [List.getElem?_append_left hlt] at hk
        simp only [hword e (List.mem_of_getElem? hk), true_iff]
        omega
      · rw [List.getElem?_append_right hge'] at hk
        simp only [(hidle' e (List.mem_of_getElem? hk)).1, Bool.false_eq_true, false_iff]
        omega
  have hfirst : (idle ++ (word ++ idle'))[y.length]? = some c := by simp [h]
  have hgap : (idle ++ (word ++ idle'))[y.length + (w.length + 1)]? = some b := by
    rw [h, List.getElem?_append_right (Nat.le_add_right _ _), Nat.add_sub_cancel_left]
    simp
  have hlast : (idle ++ (word ++ idle'))[y.length + (w.length + 1 + (s.length + 1))]? = some d := by
    rw [h, List.getElem?_append_right (Nat.le_add_right _ _), Nat.add_sub_cancel_left,
      show w.length + 1 + (s.length + 1) = (w.length + (s.length + 1)) + 1 by omega,
      List.getElem?_cons_succ, List.getElem?_append_right (Nat.le_add_right _ _),
      Nat.add_sub_cancel_left]
    simp
  have h₁ := (hinside hfirst).1 hc
  have h₂ := (hinside hlast).1 hd
  have := (hinside hgap).2 ⟨by omega, by omega⟩
  simp [hb] at this

section
variable {u space name gap z : Text} (hu : ∀ b ∈ u.getLast?, Byte.isWord b = false)
include hu

theorem clear_catchHead (hgap : ∀ b ∈ gap, Byte.isSpace b = true) :
    Clear catchHead u (ofString "catch" ++ (gap ++ Byte.lparen :: z)) := by
  intro u₁ c u₂ behind parameters hsplit hrec
  obtain ⟨idle, heq, hidle, hparameters⟩ := exists_of_catchHead hrec
  have hhead : Parenless (ofString "catch" ++ gap) :=
    (parenless_of_isWord isWord_catch).append (parenless_of_isSpace hgap)
  have hfront : Byte.lparen ∉ ofString "catch" ++ idle := fun hmem =>
    (List.mem_append.1 hmem).elim (parenless_of_isWord isWord_catch).1
      fun hmem => (hidle _ hmem).2 rfl
  rcases length_le_or_eq (x := c :: u₂) (z := z) heq (by simp) hfront hhead hparameters with
    hle | heq'
  · exact hle
  · -- between the word and the list of the find would stand the word of the head
    have hlast : ∀ b ∈ (c :: u₂).getLast?, Byte.isWord b = false := by
      rw [hsplit, List.getLast?_append, List.getLast?_cons, Option.some_or] at hu
      rwa [List.getLast?_cons]
    obtain ⟨y, rfl⟩ := exists_of_append_eq (by simp) hlast isWord_catch heq'.symm
    have hmem : (0x63 : UInt8) ∈ y ++ (ofString "catch" ++ gap) :=
      List.mem_append_right _ (List.mem_append_left _ (by decide))
    exact absurd (hidle _ hmem).1 (by decide)

theorem clear_function (hspace : ∀ b ∈ space, Byte.isSpace b = true) (hne : space ≠ [])
    (hname : ∀ b ∈ name, Byte.isWord b = true) (hname' : name ≠ [])
    (hgap : ∀ b ∈ gap, Byte.isSpace b = true) :
    Clear function u (ofString "function" ++ (space ++ (name ++ (gap ++ Byte.lparen :: z)))) := by
  intro u₁ c u₂ behind found hsplit hrec
  obtain ⟨found, parameters⟩ := found
  obtain ⟨idle, word, idle', heq, hidle, hword, hidle', hparameters⟩ := exists_of_function hrec
  have hhead : Parenless (ofString "function" ++ (space ++ (name ++ gap))) :=
    (parenless_of_isWord isWord_function).append ((parenless_of_isSpace hspace).append
      ((parenless_of_isWord hname).append (parenless_of_isSpace hgap)))
  have hfront : Byte.lparen ∉ ofString "function" ++ (idle ++ (word ++ idle')) := by
    simp only [List.mem_append, not_or]
    exact ⟨(parenless_of_isWord isWord_function).1, fun hmem => (hidle _ hmem).2 rfl,
      (parenless_of_isWord hword).1, fun hmem => (hidle' _ hmem).2 rfl⟩
  rcases length_le_or_eq (x := c :: u₂) (z := z) heq (by simp) hfront hhead hparameters with
    hle | heq'
  · exact hle
  · -- between the word and the list of the find would stand two words
    exfalso
    have hlast : ∀ b ∈ (c :: u₂).getLast?, Byte.isWord b = false := by
      rw [hsplit, List.getLast?_append, List.getLast?_cons, Option.some_or] at hu
      rwa [List.getLast?_cons]
    obtain ⟨y, hy⟩ := exists_of_append_eq (by simp) hlast isWord_function heq'.symm
    obtain ⟨b, space, rfl⟩ := List.exists_cons_of_ne_nil hne
    obtain ⟨d, name, rfl⟩ := List.exists_cons_of_ne_nil hname'
    have hletter : ofString "function" = 0x66 :: ofString "unction" := by decide
    refine not_two_words (c := 0x66) (b := b) (d := d) hidle hword hidle' (by decide)
      (not_word_of_isSpace b (hspace b (.head _))) (hname d (.head _)) (?_ : _ = y ++
        0x66 :: (ofString "unction" ++ b :: (space ++ d :: (name ++ gap))))
    rw [hy, hletter]
    simp

end

theorem clear_arrow (u z : Text) : Clear arrow u (Byte.lparen :: z) := by
  intro u₁ c u₂ behind parameters _ hrec
  obtain ⟨b, w, heq, hw⟩ := lparen_of_arrow hrec
  obtain ⟨-, heq⟩ := List.cons.inj heq
  rcases List.append_eq_append_iff.1 heq with ⟨a, rfl, ha⟩ | ⟨a, rfl, ha⟩
  · cases a with
    | nil => exact Nat.le_of_eq (congrArg List.length ha)
    | cons e a =>
      obtain ⟨rfl, -⟩ := List.cons.inj ha
      exact absurd (List.mem_append_right _ (.head _)) hw
  · rw [ha, List.length_append]
    exact Nat.le_add_left _ _

end PageLang.Recogniser
