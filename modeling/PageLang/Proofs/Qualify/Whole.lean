import PageLang.Proofs.Qualify.Visible
import PageLang.Proofs.Qualify.Woven

/-!
# Whole identifiers

The tests on what stands around a reference look at one byte on each side. An ASCII character that
continues an identifier is such a byte, and so is a dot. A letter beyond ASCII is not, and behind a dot
and blanks the byte in front is a blank. So a bare name that is qualified is a whole identifier and no
property if and only if no foreign letter touches it and no dot stands in front of it behind blanks
(`isWhole_iff`, `isProperty_iff`), and the names that are qualified in a body are all whole and no
properties if and only if this holds of all its bare names that nothing hides (`qualify_whole_iff`).
-/

namespace PageLang

namespace Text

/-- The text in front of an offset, in reverse. -/
def before (t : Text) (i : Nat) : Text := (t.take i).reverse

theorem before_zero (t : Text) : t.before 0 = [] := by simp [before]

theorem before_succ {t : Text} {i : Nat} {b : UInt8} (h : t[i]? = some b) :
    t.before (i + 1) = b :: t.before i := by
  simp [before, List.take_add_one, h]

/-- The code point of an ASCII character. -/
theorem codePoint?_cons {b : UInt8} (hb : b < 0x80) (rest : Text) :
    codePoint? (b :: rest) = some b.toNat := by
  have hwidth : charWidth b = 1 := by
    have : b < 0xc0 := UInt8.lt_of_lt_of_le hb (by decide)
    simp [charWidth, this]
  simp [codePoint?, hwidth]

/-- A character that may continue an identifier: a letter, a digit, `_` or `$`, and beyond ASCII one
of the characters `foreign`. -/
def continuesName (foreign : Nat → Bool) (c : Nat) : Bool :=
  if c < 0x80 then Byte.isWord (UInt8.ofNat c) else foreign c

/-- Whether a text begins with a character that may continue an identifier. -/
def startsInName (foreign : Nat → Bool) (t : Text) : Bool :=
  (codePoint? t).any (continuesName foreign)

/-- Whether a text, given in reverse, ends with a character that may continue an identifier. -/
def endsInName (foreign : Nat → Bool) (reversed : Text) : Bool :=
  startsInName foreign (lastChar reversed)

/-- No character that may continue an identifier touches a range. -/
def IsWhole (foreign : Nat → Bool) (t : Text) (i j : Nat) : Prop :=
  endsInName foreign (t.before i) = false ∧ startsInName foreign (t.drop j) = false

/-- The last byte in front of an offset that is no white space is a dot, but not the end of a
spread. -/
def IsProperty (t : Text) (i : Nat) : Prop :=
  ∃ rest, (t.before i).dropWhile Byte.isSpace = Byte.dot :: rest ∧
    ¬ [Byte.dot, Byte.dot] <+: rest

/-- A byte of a character beyond ASCII. -/
def isForeign (b : UInt8) : Bool := 0x80 ≤ b

/-- A character beyond ASCII touches a range, and may continue an identifier. -/
def IsTouched (foreign : Nat → Bool) (t : Text) (i j : Nat) : Prop :=
  ((t.before i).head?.any isForeign = true ∧ endsInName foreign (t.before i) = true) ∨
    (t.drop j).head?.any isForeign = true ∧ startsInName foreign (t.drop j) = true

/-- In front of an offset stand blanks, and in front of these a dot that ends no spread. -/
def IsSpacedProperty (t : Text) (i : Nat) : Prop :=
  (t.before i).head?.any Byte.isSpace = true ∧ t.IsProperty i

theorem startsInName_cons {foreign : Nat → Bool} {b : UInt8} (hb : isForeign b = false) (rest : Text) :
    startsInName foreign (b :: rest) = Byte.isWord b := by
  have hlt : b < 0x80 := by simpa [isForeign] using hb
  have hnat : b.toNat < 0x80 := UInt8.lt_iff_toNat_lt.1 hlt
  simp [startsInName, codePoint?_cons hlt, continuesName, hnat]

theorem endsInName_cons {foreign : Nat → Bool} {b : UInt8} (hb : isForeign b = false) (rest : Text) :
    endsInName foreign (b :: rest) = Byte.isWord b := by
  have hcont : Byte.isContinuation b = false := by
    simp only [isForeign, Byte.isContinuation] at hb ⊢
    simp [hb]
  rw [endsInName, lastChar_cons hcont, startsInName_cons hb]

end Text

namespace MaskedText

/-- The dots in front of an offset. -/
theorem prefix_before_of_dotsBefore {t : Text} {n : Nat} :
    ∀ {i}, (ofText .code t).dotsBefore n i → List.replicate n Byte.dot <+: t.before i := by
  induction n with
  | zero => simp
  | succ n ih =>
    rintro (_ | i) h
    · cases h
    · obtain ⟨hdot, h⟩ := h
      rw [byte?_ofText] at hdot
      rw [Text.before_succ hdot, List.replicate_succ]
      exact List.prefix_cons_inj _ |>.2 (ih h)

end MaskedText

namespace Qualify

open MaskedText

section
variable {t : Text} {r : Reference}

/-- The byte in front of a reference is no part of a word, and a dot there ends a spread. -/
theorem Reference.Stands.before_cons (h : r.Stands (.ofText .code t)) {b : UInt8} {rest : Text}
    (hb : t.before r.offset = b :: rest) : Byte.isWord b = false ∧
      (b = Byte.dot → [Byte.dot, Byte.dot] <+: rest) := by
  cases hoffset : r.offset with
  | zero => simp [hoffset, Text.before_zero] at hb
  | succ k =>
    have hlt : k < t.length := by
      have hle := h.le
      have hpos := h.pos
      rw [size_ofText] at hle
      omega
    have hget := List.getElem?_eq_getElem hlt
    rw [hoffset, Text.before_succ hget, List.cons.injEq] at hb
    obtain ⟨hb, rfl⟩ := hb
    have hjoins := h.before
    rw [hoffset, Bool.eq_false_iff, Ne, joinsBefore_iff] at hjoins
    rw [hb, ← byte?_ofText .code] at hget
    refine ⟨Bool.eq_false_iff.2 fun hword => hjoins ⟨by omega, b, hget, .inl hword⟩, ?_⟩
    rintro rfl
    have hdots : (MaskedText.ofText .code t).dotsBefore 3 (k + 1) := by
      by_contra hdots
      exact hjoins ⟨by omega, _, hget, .inr ⟨rfl, hdots⟩⟩
    exact prefix_before_of_dotsBefore hdots.2

/-- The byte behind a reference is no part of a word. -/
theorem Reference.Stands.drop_cons (h : r.Stands (.ofText .code t)) {b : UInt8} {rest : Text}
    (hb : t.drop (r.offset + r.width) = b :: rest) : Byte.isWord b = false := by
  refine Script.not_word_of_joinsAfter h.after b ?_
  rw [byte?_ofText, ← List.head?_drop, hb]
  rfl

/-- A reference is a whole identifier if and only if no foreign character makes it longer. -/
theorem Reference.Stands.isWhole_iff (h : r.Stands (.ofText .code t)) (foreign : Nat → Bool) :
    t.IsWhole foreign r.offset (r.offset + r.width) ↔
      ¬ t.IsTouched foreign r.offset (r.offset + r.width) := by
  have hbefore : Text.endsInName foreign (t.before r.offset) = true →
      (t.before r.offset).head?.any Text.isForeign = true := by
    intro hends
    cases hb : t.before r.offset with
    | nil => simp [hb, Text.endsInName, Text.lastChar, Text.startsInName, Text.codePoint?] at hends
    | cons b rest =>
      by_contra hforeign
      rw [hb, Text.endsInName_cons (by simpa using hforeign), (h.before_cons hb).1] at hends
      cases hends
  have hafter : Text.startsInName foreign (t.drop (r.offset + r.width)) = true →
      (t.drop (r.offset + r.width)).head?.any Text.isForeign = true := by
    intro hstarts
    cases hb : t.drop (r.offset + r.width) with
    | nil => simp [hb, Text.startsInName, Text.codePoint?] at hstarts
    | cons b rest =>
      by_contra hforeign
      rw [hb, Text.startsInName_cons (by simpa using hforeign), h.drop_cons hb] at hstarts
      cases hstarts
  rw [Text.IsWhole, Text.IsTouched, and_iff_right_of_imp hbefore, and_iff_right_of_imp hafter, not_or,
    Bool.not_eq_true, Bool.not_eq_true]

/-- A reference is a property if and only if a dot stands in front of it behind blanks. -/
theorem Reference.Stands.isProperty_iff (h : r.Stands (.ofText .code t)) :
    t.IsProperty r.offset ↔ t.IsSpacedProperty r.offset := by
  refine ⟨fun hproperty => ⟨?_, hproperty⟩, And.right⟩
  obtain ⟨rest, hrest, hspread⟩ := hproperty
  cases hb : t.before r.offset with
  | nil => simp [hb] at hrest
  | cons b before =>
    by_contra hspace
    rw [hb, List.dropWhile_cons_of_neg (by simpa using hspace), List.cons.injEq] at hrest
    obtain ⟨rfl, rfl⟩ := hrest
    exact hspread ((h.before_cons hb).2 rfl)

end

/-- A body qualifies only whole identifiers that are no properties, whatever names are looked for, if
and only if of its bare names none that nothing hides is touched by a foreign character or reads a
property behind blanks. -/
theorem qualify_whole_iff (foreign : Nat → Bool) (body : Text) :
    (∀ (names : ResolvableNames) (parameters : List Text) (context : BodyContext) (r : Reference),
      (∀ n, n ∈ names.pub ∨ n ∈ names.prot → n.isIdentifier = true) →
      IsQualified body names parameters context r → r.form = .bare →
      body.IsWhole foreign r.offset (r.offset + r.width) ∧ ¬ body.IsProperty r.offset) ↔
    ∀ r : Reference, r.Stands (.ofText .code body) → r.form = .bare → r.name.isIdentifier = true →
      (MaskedText.ofText .code body).hides r = false →
      ¬ body.IsTouched foreign r.offset (r.offset + r.width) ∧ ¬ body.IsSpacedProperty r.offset := by
  constructor
  · intro h r hstands hbare hname hvisible
    have hnames (n : Text) (hn : n ∈ [r.name] ∨ n ∈ ([] : List Text)) : n.isIdentifier = true := by
      obtain rfl : n = r.name := by simpa using hn
      exact hname
    have hqualified := isQualified_of_visible hstands hname hvisible
    have := h _ _ _ r hnames hqualified hbare
    rwa [hstands.isWhole_iff, hstands.isProperty_iff] at this
  · intro h names parameters context r hnames hqualified hbare
    obtain ⟨hstands, hname⟩ := hqualified.stands
    rw [hstands.isWhole_iff, hstands.isProperty_iff]
    exact h r hstands hbare (hnames _ (mem_candidates_iff.1 hname).1) (hides_of_isQualified hqualified)

end Qualify

end PageLang
