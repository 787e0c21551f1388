import PageLang.Proofs.MaskedText.Cells
import PageLang.Proofs.Text.Trim
import PageLang.Script.Locals

/-!
# The names that a line of declarators binds

A line of declarators is `name = value, name = value;`. A value is passed over by counting brackets:
its own commas stand inside brackets, and strings are masked.

* `Cell.Inner`: cells that a value may hold, whatever brackets are open around them.
* `Cell.Declares`: a line with its names, up to the semicolon.
* `Rest.declaratorNames`: the names of a line are found, and no others.
-/

namespace PageLang

theorem Byte.not_space_of_isWordStart : ∀ b, isWordStart b = true →
    isSpace b = false ∧ b ≠ lbrace ∧ b ≠ lbracket :=
  forall_of_nibbles (by decide)

theorem Text.exists_of_isIdentifier {t : Text} (h : t.isIdentifier = true) :
    ∃ b rest, t = b :: rest ∧ Byte.isWordStart b = true ∧ ∀ c ∈ rest, Byte.isWord c = true := by
  cases t with
  | nil => simp [isIdentifier] at h
  | cons b rest =>
    simp only [isIdentifier, Bool.and_eq_true, List.all_eq_true] at h
    exact ⟨b, rest, rfl, h⟩

theorem word_of_isIdentifier {t : Text} (h : t.isIdentifier = true) :
    ∀ c ∈ t, Byte.isWord c = true := by
  obtain ⟨b, rest, rfl, hb, hrest⟩ := Text.exists_of_isIdentifier h
  exact List.forall_mem_cons.2 ⟨by simp [Byte.isWord, hb], hrest⟩

namespace Cell

/-- The number of open brackets after a cell of a value, unless the cell ends the value. -/
def nest? (depth : Nat) (c : Cell) : Option Nat :=
  if c.2 then some depth
  else if Byte.isOpening c.1 then some (depth + 1)
  else if Byte.isClosing c.1 then if depth = 0 then none else some (depth - 1)
  else if (c.1 = Byte.comma ∨ c.1 = Byte.semicolon) ∧ depth = 0 then none
  else some depth

/-- The number of open brackets after a part of a value, unless the value ends in it. -/
def nesting? (depth : Nat) (w : List Cell) : Option Nat := w.foldlM nest? depth

/-- A part of a value that closes what it opens. -/
def Inner (w : List Cell) : Prop := ∀ depth, nesting? depth w = some depth

@[simp] theorem nesting?_nil (depth : Nat) : nesting? depth [] = some depth := rfl

@[simp] theorem nesting?_cons (depth : Nat) (c : Cell) (w : List Cell) :
    nesting? depth (c :: w) = (nest? depth c).bind (nesting? · w) := rfl

@[simp] theorem nesting?_append (depth : Nat) (w v : List Cell) :
    nesting? depth (w ++ v) = (nesting? depth w).bind (nesting? · v) := by
  simp [nesting?, List.foldlM_append]

theorem Inner.append {w v : List Cell} (hw : Inner w) (hv : Inner v) : Inner (w ++ v) :=
  fun depth => by simp [hw depth, hv depth]

/-- Cells that are no live brackets and separators. -/
theorem inner_of_plain {w : List Cell} (h : ∀ c ∈ w, c.2 = false → Byte.isOpening c.1 = false ∧
    Byte.isClosing c.1 = false ∧ c.1 ≠ Byte.comma ∧ c.1 ≠ Byte.semicolon) : Inner w := by
  intro depth
  induction w with
  | nil => rfl
  | cons c w ih =>
    have hc : nest? depth c = some depth := by
      unfold nest?
      split
      · rfl
      · have := h c (.head _) (by simpa using ‹¬ c.2 = true›)
        simp [this]
    rw [nesting?_cons, hc]
    exact ih fun d hd => h d (.tail _ hd)

theorem inner_masked (t : Text) : Inner (masked t) :=
  inner_of_plain fun _ hc hlive => absurd hlive (ne_false_of_mem_masked hc)

/-- Blank space. -/
def Space (t : Text) : Prop := ∀ b ∈ t, Byte.isSpace b = true

/-- A value with its equals sign, which does not touch the name in front. -/
def IsValue (w : List Cell) : Prop := Inner w ∧ ∃ c v, w = c :: v ∧ Byte.isWord c.1 = false

/-- A line of declarators, and the names that they declare. -/
inductive Declares : List Cell → List Text → Prop
  | last {gap n : Text} {w : List Cell} : Space gap → n.isIdentifier = true → IsValue w →
    Declares (live (gap ++ n) ++ w ++ live [Byte.semicolon]) [n]
  | more {gap n : Text} {w v : List Cell} {names : List Text} : Space gap →
    n.isIdentifier = true → IsValue w → Declares v names →
    Declares (live (gap ++ n) ++ w ++ live [Byte.comma] ++ v) (n :: names)

/-- A line without the blanks in front of its first name. -/
theorem Declares.exists_trimmed {w : List Cell} {names : List Text} (h : Declares w names) :
    names ≠ [] ∧ ∃ gap b v, w = live gap ++ live [b] ++ v ∧ Space gap ∧
      Byte.isWordStart b = true ∧ Declares (live [b] ++ v) names := by
  cases h with
  | @last gap n w hgap hn hw =>
    obtain ⟨b, n, rfl, hb, -⟩ := Text.exists_of_isIdentifier hn
    refine ⟨by simp, gap, b, live n ++ w ++ live [Byte.semicolon], by simp, hgap, hb, ?_⟩
    simpa using Declares.last (show Space [] by simp [Space]) hn hw
  | @more gap n w v names hgap hn hw hv =>
    obtain ⟨b, n, rfl, hb, -⟩ := Text.exists_of_isIdentifier hn
    refine ⟨by simp, gap, b, live n ++ w ++ live [Byte.comma] ++ v, by simp, hgap, hb, ?_⟩
    simpa using Declares.more (show Space [] by simp [Space]) hn hw hv

end Cell

open Cell

namespace MaskedText

/-- A declarator follows behind a live comma. -/
theorem liveByte?_of_nextDeclarator? {s : MaskedText} {depth i count next : Nat}
    (h : s.nextDeclarator? depth i count = some next) :
    ∃ k, next = k + 1 ∧ s.liveByte? k = some Byte.comma := by
  induction count generalizing depth i with
  | zero => cases h
  | succ count ih =>
    unfold nextDeclarator? at h
    split at h
    · exact ih h
    next b hb =>
    split at h
    · exact ih h
    split at h
    · split at h
      · cases h
      · exact ih h
    split at h
    · next hcomma =>
      cases h
      exact ⟨i, rfl, hcomma.1 ▸ hb⟩
    split at h
    · cases h
    · exact ih h

/-- The names of a first declarator, and those of the rest. -/
theorem declaratorNames_eq {s : MaskedText} {i k j stop : Nat} {names : List Text}
    (hskip : s.skipWhile Byte.isSpace i stop = k) (hk : k < stop)
    (hname : s.declarator? k stop = some (names, j)) :
    s.declaratorNames i stop = match s.nextDeclarator? 0 j (stop - j) with
      | none => names
      | some next => names ++ s.declaratorNames next stop := by
  subst hskip
  rw [declaratorNames, dif_pos hk]
  split
  · next hnone =>
    rw [hname] at hnone
    simp at hnone
  · next names' j' hsome =>
    rw [hname] at hsome
    obtain ⟨rfl, rfl⟩ := Prod.mk.inj (Option.some.inj hsome)
    split <;> simp_all

/-- No names are declared where no declarator stands. -/
theorem declaratorNames_of_none {s : MaskedText} {i k stop : Nat}
    (hskip : s.skipWhile Byte.isSpace i stop = k)
    (hnone : k < stop → s.declarator? k stop = none) : s.declaratorNames i stop = [] := by
  subst hskip
  rw [declaratorNames]
  split
  · next hlt =>
    split
    · rfl
    · next hsome =>
      rw [hnone hlt] at hsome
      cases hsome
  · rfl

end MaskedText

namespace MaskedText.Rest

variable {s : MaskedText} {i : Nat} {w v : List Cell}

/-- Skipping passes over the bytes that satisfy `p`, and ends in front of one that does not. -/
theorem skipWhile (p : UInt8 → Bool) {c : Cell} (stop : Nat) (h : s.Rest i (w ++ c :: v))
    (hw : ∀ d ∈ w, p d.1 = true) (hc : p c.1 = false) (hstop : i + w.length < stop) :
    s.skipWhile p i stop = i + w.length := by
  have hskip : ∀ j < w.length, (!(s.byte? (i + j)).any p) = false := by
    intro j hj
    rw [h.byte?, List.getElem?_append_left hj, List.getElem?_eq_getElem hj]
    simpa using hw _ (List.getElem_mem hj)
  have hend : (!(s.byte? (i + w.length)).any p) = true := by
    rw [h.byte?]
    simpa using hc
  unfold MaskedText.skipWhile
  rw [show stop - i = w.length + ((stop - i - w.length - 1) + 1) by omega,
    firstFrom?_skip (p := fun j => !(s.byte? j).any p) hskip, MaskedText.firstFrom?, if_pos hend]
  rfl

/-- The search for the next declarator passes over a part of a value. -/
theorem nextDeclarator? {depth depth' : Nat} (h : s.Rest i (w ++ v))
    (hw : nesting? depth w = some depth') (n : Nat) :
    s.nextDeclarator? depth i (w.length + n) = s.nextDeclarator? depth' (i + w.length) n := by
  induction w generalizing i depth with
  | nil =>
    obtain rfl : depth = depth' := by simpa using hw
    simp
  | cons c w ih =>
    rw [nesting?_cons, Option.bind_eq_some_iff] at hw
    obtain ⟨k, hk, hw⟩ := hw
    have ih := ih h.tail hw
    rw [List.length_cons, show w.length + 1 + n = (w.length + n) + 1 by omega,
      MaskedText.nextDeclarator?, show s.liveByte? i = _ from h.liveByte?_zero,
      show i + (w.length + 1) = i + 1 + w.length by omega, ← ih]
    unfold nest? at hk
    obtain ⟨b, m⟩ := c
    cases m with
    | true => simp_all
    | false =>
      simp only [Bool.false_eq_true, if_false] at hk ⊢
      split at hk
      · simp_all
      split at hk
      · split at hk
        · simp at hk
        · simp_all
      split at hk
      · simp at hk
      · next hne =>
        obtain rfl : depth = k := by simpa using hk
        simp_all only [if_false, Bool.false_eq_true]
        rw [if_neg fun hb => hne ⟨.inl hb.1, hb.2⟩, if_neg fun hb => hne ⟨.inr hb.1, hb.2⟩]

/-- One declarator: its name, and the offset behind it. -/
theorem declarator? {gap n : Text} (stop : Nat) (hgap : Space gap) (hn : n.isIdentifier = true)
    (hw : IsValue w) (h : s.Rest i (live (gap ++ n) ++ w ++ v))
    (hstop : i + gap.length + n.length < stop) :
    s.skipWhile Byte.isSpace i stop = i + gap.length ∧
      s.declarator? (i + gap.length) stop = some ([n], i + gap.length + n.length) := by
  obtain ⟨b, n, rfl, hstart, hn⟩ := Text.exists_of_isIdentifier hn
  obtain ⟨-, c, w', rfl, hc⟩ := hw
  have hb := Byte.not_space_of_isWordStart b hstart
  have hname : s.Rest (i + gap.length) (live (b :: n) ++ (c :: w' ++ v)) := by
    have := h
    rw [live_append, List.append_assoc, List.append_assoc] at this
    simpa using this.skip
  refine ⟨?_, ?_⟩
  · have := h
    rw [live_append, List.append_assoc, List.append_assoc, live_cons, List.cons_append] at this
    have := this.skipWhile Byte.isSpace stop (by simpa [live, Space] using hgap) hb.1
      (by simp at hstop ⊢; omega)
    simpa using this
  · have hbyte : s.byte? (i + gap.length) = some b := by
      rw [hname.byte?_zero]
      rfl
    have hend : s.skipWhile Byte.isWord (i + gap.length + 1) stop =
        i + gap.length + (n.length + 1) := by
      have := hname.tail.skipWhile (w := live n) Byte.isWord stop
        (by simpa [live] using hn) hc (by simp at hstop ⊢; omega)
      rw [this]
      simp
      omega
    have hslice : s.slice (i + gap.length) (i + gap.length + (n.length + 1)) = b :: n := by
      have := hname.slice
      simpa using this
    rw [MaskedText.declarator?, hbyte]
    simp [hb, hstart, hend, hslice]

/-- The names of a line of declarators. -/
theorem declaratorNames {names : List Text} (hw : Declares w names) (h : s.Rest i (w ++ v)) :
    s.declaratorNames i (i + w.length) = names := by
  induction hw generalizing i with
  | @last gap n w hgap hn hvalue =>
    have h' : s.Rest i (live (gap ++ n) ++ w ++ (live [Byte.semicolon] ++ v)) := by simpa using h
    obtain ⟨hskip, hname⟩ := declarator? (i + (live (gap ++ n) ++ w ++
      live [Byte.semicolon]).length) hgap hn hvalue h' (by simp; omega)
    have hrest : s.Rest (i + gap.length + n.length) (w ++ (live [Byte.semicolon] ++ v)) := by
      rw [List.append_assoc] at h'
      simpa [Nat.add_assoc] using h'.skip
    -- the semicolon behind the value ends the line
    have hend : s.nextDeclarator? 0 (i + gap.length + n.length) (w.length + 1) = none := by
      rw [hrest.nextDeclarator? (hvalue.1 0), MaskedText.nextDeclarator?, hrest.skip.liveByte?_zero]
      rfl
    have hlt : i + gap.length < i + (live (gap ++ n) ++ w ++ live [Byte.semicolon]).length := by
      simp only [List.length_append, length_live, List.length_singleton]
      omega
    rw [declaratorNames_eq hskip hlt hname,
      show i + (live (gap ++ n) ++ w ++ live [Byte.semicolon]).length -
        (i + gap.length + n.length) = w.length + 1 by simp; omega, hend]
  | @more gap n w v' names hgap hn hvalue hv ih =>
    have h' : s.Rest i (live (gap ++ n) ++ w ++ (live [Byte.comma] ++ (v' ++ v))) := by
      simpa using h
    obtain ⟨hskip, hname⟩ := declarator? (i + (live (gap ++ n) ++ w ++
      live [Byte.comma] ++ v').length) hgap hn hvalue h' (by simp; omega)
    have hrest : s.Rest (i + gap.length + n.length) (w ++ (live [Byte.comma] ++ (v' ++ v))) := by
      rw [List.append_assoc] at h'
      simpa [Nat.add_assoc] using h'.skip
    -- the comma behind the value leads to the rest of the line
    have hnext : s.nextDeclarator? 0 (i + gap.length + n.length) (w.length + (v'.length + 1)) =
        some (i + gap.length + n.length + w.length + 1) := by
      rw [hrest.nextDeclarator? (hvalue.1 0), MaskedText.nextDeclarator?, hrest.skip.liveByte?_zero]
      rfl
    have ih := ih (i := i + gap.length + n.length + w.length + 1) hrest.skip.skip
    have hlt : i + gap.length < i + (live (gap ++ n) ++ w ++ live [Byte.comma] ++ v').length := by
      simp only [List.length_append, length_live, List.length_singleton]
      omega
    rw [declaratorNames_eq hskip hlt hname,
      show i + (live (gap ++ n) ++ w ++ live [Byte.comma] ++ v').length -
        (i + gap.length + n.length) = w.length + (v'.length + 1) by simp; omega, hnext,
      show i + (live (gap ++ n) ++ w ++ live [Byte.comma] ++ v').length =
        i + gap.length + n.length + w.length + 1 + v'.length by simp; omega]
    simp [ih]

end MaskedText.Rest

end PageLang
