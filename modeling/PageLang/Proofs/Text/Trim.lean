import PageLang.Script.Pattern

/-!
# Trimming and cutting ASCII text

The blanks that trimming removes are encodings of one to three bytes, none of which begins or ends
with a visible ASCII byte. So a text between two visible bytes is not trimmed any further, and one
space on either side is all that is removed.

* `Text.trim_of_ink`, `Text.trim_cons_space`, `Text.trim_append_space`: what trimming leaves.
* `Text.splitOn_flatMap`, `Text.splitTopLevel_flatMap`: cutting a text at the separators in front
  of its pieces.
-/

namespace PageLang

/-- A visible ASCII byte. -/
def Byte.isInk (b : UInt8) : Bool := 0x21 ≤ b && b ≤ 0x7e

/-- What holds of all numbers of two hexadecimal digits holds of every byte. -/
theorem Byte.forall_of_nibbles {p : UInt8 → Prop}
    (h : ∀ i j : Fin 16, p (UInt8.ofNat (16 * i + j))) (b : UInt8) : p b := by
  have hlt := b.toNat_lt
  have hb := h ⟨b.toNat / 16, by omega⟩ ⟨b.toNat % 16, by omega⟩
  simp only [Nat.div_add_mod, UInt8.ofNat_toNat] at hb
  exact hb

/-- What a check finds of each byte of a text holds of its bytes. -/
theorem Text.forall_mem_of_all {p : UInt8 → Prop} [DecidablePred p] {t : Text}
    (h : t.all (fun b => decide (p b)) = true) : ∀ b ∈ t, p b := by
  simpa using h

theorem Byte.isSpace_of_isInk : ∀ b, isInk b = true → isSpace b = false :=
  forall_of_nibbles (by decide)

namespace Text

/-- A text that is not empty and begins and ends with visible bytes. -/
structure IsInk (t : Text) : Prop where
  first : ∃ b rest, t = b :: rest ∧ Byte.isInk b = true
  last : ∃ b rest, t = rest ++ [b] ∧ Byte.isInk b = true

theorem isInk_of_all {t : Text} (hne : t ≠ []) (h : ∀ b ∈ t, Byte.isInk b = true) : IsInk t where
  first := by
    obtain ⟨b, rest, rfl⟩ := List.exists_cons_of_ne_nil hne
    exact ⟨b, rest, rfl, h b (.head _)⟩
  last := ⟨t.getLast hne, t.dropLast, (List.dropLast_concat_getLast hne).symm,
    h _ (List.getLast_mem hne)⟩

/-- No mark of a list begins with a visible byte. -/
def Inkless (marks : List Text) : Prop := ∀ m ∈ marks, m.head?.any (!Byte.isInk ·) = true

theorem inkless_blanks : Inkless blanks := by
  unfold Inkless
  decide

theorem inkless_reverse_blanks : Inkless (blanks.map List.reverse) := by
  unfold Inkless
  decide

theorem startsBlank_of_ink {b : UInt8} {rest : Text} (hb : Byte.isInk b = true) :
    startsBlank (b :: rest) = false := by
  rw [startsBlank, List.any_eq_false]
  intro m hm hpre
  have := inkless_blanks m hm
  cases m with
  | nil => simp at this
  | cons c m =>
    obtain rfl : c = b := by simp at hpre; exact hpre.1
    simp [hb] at this

theorem stripMarks_of_ink {marks : List Text} (hmarks : Inkless marks) {b : UInt8} {rest : Text}
    (hb : Byte.isInk b = true) : stripMarks marks 0 (b :: rest) = b :: rest := by
  have hnone : marks.find? (fun m => m.isPrefixOf (b :: rest)) = none := by
    rw [List.find?_eq_none]
    intro m hm hpre
    have := hmarks m hm
    cases m with
    | nil => simp at this
    | cons c m =>
      obtain rfl : c = b := by simp at hpre; exact hpre.1
      simp [hb] at this
  rw [stripMarks, hnone]

theorem eq_of_isSpace {b : UInt8} (hb : Byte.isSpace b = true) : b = Byte.space ∨ b = Byte.tab ∨
    b = Byte.newline ∨ b = Byte.formFeed ∨ b = Byte.carriageReturn := by
  simpa [Byte.isSpace, or_assoc] using hb

theorem startsBlank_of_isSpace {b : UInt8} (hb : Byte.isSpace b = true) (rest : Text) :
    startsBlank (b :: rest) = true := by
  rw [startsBlank, List.any_eq_true]
  refine ⟨[b], ?_, by simp⟩
  rcases eq_of_isSpace hb with rfl | rfl | rfl | rfl | rfl <;> decide

theorem stripMarks_of_isSpace {b : UInt8} (hb : Byte.isSpace b = true) (rest : Text) :
    stripMarks blanks 0 (b :: rest) = stripMarks blanks 0 rest := by
  have hfind : blanks.find? (fun m => m.isPrefixOf (b :: rest)) = some [b] := by
    rcases eq_of_isSpace hb with rfl | rfl | rfl | rfl | rfl <;> rfl
  rw [stripMarks, hfind]
  rfl

theorem stripMarks_reverse_of_isSpace {b : UInt8} (hb : Byte.isSpace b = true) (rest : Text) :
    stripMarks (blanks.map List.reverse) 0 (b :: rest) =
      stripMarks (blanks.map List.reverse) 0 rest := by
  have hfind : (blanks.map List.reverse).find? (fun m => m.isPrefixOf (b :: rest)) =
      some [b] := by
    rcases eq_of_isSpace hb with rfl | rfl | rfl | rfl | rfl <;> rfl
  rw [stripMarks, hfind]
  rfl

theorem trimStart_of_ink {b : UInt8} {rest : Text} (hb : Byte.isInk b = true) :
    trimStart (b :: rest) = b :: rest := stripMarks_of_ink inkless_blanks hb

theorem trimEnd_of_ink {b : UInt8} {rest : Text} (hb : Byte.isInk b = true) :
    trimEnd (rest ++ [b]) = rest ++ [b] := by
  rw [trimEnd, List.reverse_append, List.reverse_singleton, List.singleton_append,
    stripMarks_of_ink inkless_reverse_blanks hb]
  simp

theorem trimEnd_append_space (t : Text) : trimEnd (t ++ [Byte.space]) = trimEnd t := by
  rw [trimEnd, List.reverse_append, List.reverse_singleton, List.singleton_append,
    stripMarks_reverse_of_isSpace (by decide), trimEnd]

theorem trim_of_ink {t : Text} (h : IsInk t) : trim t = t := by
  obtain ⟨b, rest, ht, hb⟩ := h.first
  obtain ⟨c, rest', ht', hc⟩ := h.last
  rw [trim, ht, trimStart_of_ink hb, ← ht, ht', trimEnd_of_ink hc]

theorem trim_cons_space (t : Text) : trim (Byte.space :: t) = trim t := by
  rw [trim, trimStart, stripMarks_of_isSpace (by decide)]
  rfl

theorem trim_append_space {t : Text} (h : IsInk t) : trim (t ++ [Byte.space]) = t := by
  obtain ⟨b, rest, ht, hb⟩ := h.first
  obtain ⟨c, rest', ht', hc⟩ := h.last
  rw [trim, ht, List.cons_append, trimStart_of_ink hb, ← List.cons_append, ← ht,
    trimEnd_append_space, ht', trimEnd_of_ink hc]

theorem suffix_stripMarks (marks : List Text) (inside : Nat) (t : Text) :
    stripMarks marks inside t <:+ t := by
  induction t generalizing inside with
  | nil => cases inside <;> exact List.suffix_refl []
  | cons b rest ih =>
    cases inside with
    | succ inside => exact (ih inside).trans (List.suffix_cons b rest)
    | zero =>
      rw [stripMarks]
      split
      · exact (ih _).trans (List.suffix_cons b rest)
      · exact List.suffix_refl _

theorem prefix_trimEnd (t : Text) : trimEnd t <+: t := by
  have hsuffix := suffix_stripMarks (blanks.map List.reverse) 0 t.reverse
  rwa [← List.reverse_prefix, List.reverse_reverse] at hsuffix

/-- Trimming keeps a visible byte at the start, or all of the text was blank. -/
theorem trim_cons_ink {b : UInt8} (hb : Byte.isInk b = true) (rest : Text) :
    trim (b :: rest) = [] ∨ ∃ more, trim (b :: rest) = b :: more := by
  have hfront := prefix_trimEnd (b :: rest)
  rw [trim, trimStart_of_ink hb]
  cases htrim : trimEnd (b :: rest) with
  | nil => exact .inl rfl
  | cons c more =>
    rw [htrim, List.cons_prefix_cons] at hfront
    exact .inr ⟨more, by rw [hfront.1]⟩

/-! ## Cutting -/

theorem splitOn_of_notMem {separator : UInt8} {t : Text} (h : separator ∉ t) :
    splitOn separator t = [t] := by
  induction t with
  | nil => rfl
  | cons b t ih =>
    simp only [List.mem_cons, not_or] at h
    simp [splitOn, Ne.symm h.1, ih h.2]

theorem splitOn_ne_nil (separator : UInt8) (t : Text) : splitOn separator t ≠ [] := by
  cases t with
  | nil => simp [splitOn]
  | cons b t =>
    rw [splitOn]
    split
    · simp
    · split <;> simp

theorem splitOn_append_cons {separator : UInt8} {t : Text} (h : separator ∉ t) (rest : Text) :
    splitOn separator (t ++ separator :: rest) = t :: splitOn separator rest := by
  induction t with
  | nil => simp [splitOn]
  | cons b t ih =>
    simp only [List.mem_cons, not_or] at h
    simp [splitOn, Ne.symm h.1, ih h.2]

/-- Both sides of a separator are cut by themselves. -/
theorem splitOn_append (separator : UInt8) (t rest : Text) :
    splitOn separator (t ++ separator :: rest) = splitOn separator t ++ splitOn separator rest := by
  induction t with
  | nil => simp [splitOn]
  | cons b t ih =>
    by_cases hb : b = separator
    · subst hb
      simp [splitOn, ih]
    · have hne : splitOn separator t ≠ [] := splitOn_ne_nil separator t
      obtain ⟨piece, pieces, hcons⟩ := List.exists_cons_of_ne_nil hne
      simp [splitOn, hb, ih, hcons]

/-- A text is cut at the separators in front of its pieces. -/
theorem splitOn_flatMap {separator : UInt8} {first : Text} {pieces : List Text}
    (hfirst : separator ∉ first) (hpieces : ∀ p ∈ pieces, separator ∉ p) :
    splitOn separator (first ++ pieces.flatMap (separator :: ·)) = first :: pieces := by
  induction pieces generalizing first with
  | nil => simpa using splitOn_of_notMem hfirst
  | cons p pieces ih =>
    rw [List.flatMap_cons, List.cons_append, splitOn_append_cons hfirst,
      ih (hpieces p (.head _)) (fun q hq => hpieces q (.tail _ hq))]

/-- The pieces of a text make up the text, with separators in front of all but the first. -/
theorem eq_of_splitOn {separator : UInt8} {t first : Text} {pieces : List Text}
    (h : splitOn separator t = first :: pieces) :
    t = first ++ pieces.flatMap (separator :: ·) := by
  induction t generalizing first pieces with
  | nil =>
    obtain ⟨rfl, rfl⟩ := List.cons.inj h
    rfl
  | cons b t ih =>
    obtain ⟨first', pieces', hcons⟩ := List.exists_cons_of_ne_nil (splitOn_ne_nil separator t)
    have ht := ih hcons
    rw [splitOn, hcons] at h
    split at h
    · next hb =>
      obtain ⟨rfl, rfl⟩ := List.cons.inj h
      simp at hb
      simp [hb, ← ht]
    · obtain ⟨rfl, rfl⟩ := List.cons.inj h
      rw [List.cons_append, ← ht]

/-- Where a piece stands in a text: behind a separator or at the start, and what follows it starts
with a separator. -/
theorem exists_of_splitOn {separator : UInt8} {t p : Text} {pre post : List Text}
    (h : splitOn separator t = pre ++ p :: post) : ∃ x, (x = [] ∨ ∃ x', x = x' ++ [separator]) ∧
      t = x ++ (p ++ post.flatMap (separator :: ·)) := by
  cases pre with
  | nil => exact ⟨[], .inl rfl, eq_of_splitOn h⟩
  | cons first pre =>
    refine ⟨_, .inr ⟨first ++ pre.flatMap (separator :: ·), rfl⟩, ?_⟩
    rw [eq_of_splitOn h]
    simp

section
variable {separator : UInt8} {t : Text} (hequals : separator ≠ Byte.equals)
  (ht : ∀ b ∈ t, b ≠ separator ∧ Byte.isOpening b = false ∧ Byte.isClosing b = false)
include hequals ht

theorem splitTopLevel_of_plain : splitTopLevel separator 0 t = [t] := by
  induction t with
  | nil => rfl
  | cons b t ih =>
    have hb := ht b (.head _)
    simp [splitTopLevel, hequals, hb, ih fun c hc => ht c (.tail _ hc), consPiece]

theorem splitTopLevel_append_cons (hbracket : Byte.isOpening separator = false ∧
    Byte.isClosing separator = false) (rest : Text) :
    splitTopLevel separator 0 (t ++ separator :: rest) = t :: splitTopLevel separator 0 rest := by
  induction t with
  | nil => simp [splitTopLevel, hequals, hbracket]
  | cons b t ih =>
    have hb := ht b (.head _)
    simp [splitTopLevel, hequals, hb, ih fun c hc => ht c (.tail _ hc), consPiece]

end

/-- A text without brackets is cut at the separators in front of its pieces. -/
theorem splitTopLevel_flatMap {separator : UInt8} {first : Text} {pieces : List Text}
    (hequals : separator ≠ Byte.equals)
    (hbracket : Byte.isOpening separator = false ∧ Byte.isClosing separator = false)
    (h : ∀ p ∈ first :: pieces, ∀ b ∈ p,
      b ≠ separator ∧ Byte.isOpening b = false ∧ Byte.isClosing b = false) :
    splitTopLevel separator 0 (first ++ pieces.flatMap (separator :: ·)) = first :: pieces := by
  induction pieces generalizing first with
  | nil => simpa using splitTopLevel_of_plain hequals (h first (.head _))
  | cons p pieces ih =>
    rw [List.flatMap_cons, List.cons_append,
      splitTopLevel_append_cons hequals (h first (.head _)) hbracket,
      ih (fun q hq => h q (.tail _ hq))]

end Text

end PageLang
