import Mathlib.Data.List.Find
import PageLang.Proofs.MaskedText.Declarators
import PageLang.Proofs.Qualify.Fragment
import PageLang.Proofs.Script.Pattern
import PageLang.Proofs.Script.Recogniser

/-!
# Binding patterns as trees

A binding pattern is a name, or array and object patterns nested in each other to any depth, without
default values. Blank space may stand wherever two words or marks do not touch by their meaning. The
text of a pattern is cut where the tree has its commas and colons: brackets hold what is inside of them
together (`Held`). So the names that are read from the text are those of the tree.

* `Binding`: patterns, the items of a list, and lists of items.
* `Binding.names_text`: the names that a list of patterns binds.
-/

namespace PageLang

open Script

/-! ## Trees -/

namespace Binding

/-- What the items of a list are. -/
inductive Kind where
  | elements
  | properties

/-- The parts of a pattern. -/
inductive Level where
  | pattern
  | item (k : Kind)
  | items (k : Kind)

end Binding

/-- An ASCII identifier. -/
structure Identifier where
  text : Text
  fits : text.isIdentifier = true

/-- A binding pattern, an item of a list, or the rest of a list. -/
inductive Binding : Binding.Level → Type where
  | name (n : Identifier) : Binding .pattern
  | array (opening : Blank) (inside : Binding (.items .elements)) : Binding .pattern
  | object (opening : Blank) (inside : Binding (.items .properties)) : Binding .pattern
  /-- Nothing: an empty list, an element that is left out, or the end behind a comma. -/
  | hole {k : Binding.Kind} : Binding (.item k)
  | element (p : Binding .pattern) : Binding (.item .elements)
  | shorthand (n : Identifier) : Binding (.item .properties)
  | keyed (key : Identifier) (sp : Spacing) (p : Binding .pattern) : Binding (.item .properties)
  | rest {k : Binding.Kind} (gap : Blank) (p : Binding .pattern) : Binding (.item k)
  | last {k : Binding.Kind} (i : Binding (.item k)) (gap : Blank) : Binding (.items k)
  | more {k : Binding.Kind} (i : Binding (.item k)) (sp : Spacing) (others : Binding (.items k)) :
      Binding (.items k)

namespace Binding

/-- The dots in front of a rest element. -/
def dots : Text := [Byte.dot, Byte.dot, Byte.dot]

/-- A pattern as it is written. -/
def text {l : Level} : Binding l → Text
  | name n => n.text
  | array opening inside => Byte.lbracket :: (opening.text ++ inside.text ++ [Byte.rbracket])
  | object opening inside => Byte.lbrace :: (opening.text ++ inside.text ++ [Byte.rbrace])
  | hole => []
  | element p => p.text
  | shorthand n => n.text
  | keyed key sp p => key.text ++ sp.around Byte.colon ++ p.text
  | rest gap p => dots ++ gap.text ++ p.text
  | last i gap => i.text ++ gap.text
  | more i sp others => i.text ++ sp.around Byte.comma ++ others.text

/-- The names that a pattern binds, in order. -/
def names {l : Level} : Binding l → List Text
  | name n | shorthand n => [n.text]
  | array _ inside | object _ inside => inside.names
  | hole => []
  | element p | keyed _ _ p | rest _ p => p.names
  | last i _ => i.names
  | more i _ others => i.names ++ others.names

theorem isIdentifier_of_mem_names {l : Level} (p : Binding l) {n : Text} (hn : n ∈ p.names) :
    n.isIdentifier = true := by
  induction p with
  | name m => exact List.mem_singleton.1 hn ▸ m.fits
  | shorthand m => exact List.mem_singleton.1 hn ▸ m.fits
  | array _ inside ih => exact ih hn
  | object _ inside ih => exact ih hn
  | hole => cases hn
  | element p ih => exact ih hn
  | keyed _ _ p ih => exact ih hn
  | rest _ p ih => exact ih hn
  | last i _ ih => exact ih hn
  | more i _ others ih ihothers => exact (List.mem_append.1 hn).elim ih ihothers

/-- Whether an object pattern stands somewhere in a pattern. -/
def hasObject {l : Level} : Binding l → Bool
  | name _ | shorthand _ | hole => false
  | object .. => true
  | array _ inside => inside.hasObject
  | element p | keyed _ _ p | rest _ p => p.hasObject
  | last i _ => i.hasObject
  | more i _ others => i.hasObject || others.hasObject

end Binding

/-! ## Texts that are cut nowhere -/

namespace Text

/-- Puts a text in front of the first piece. -/
def prepend (t : Text) : List Text → List Text
  | [] => [t]
  | piece :: pieces => (t ++ piece) :: pieces

theorem consPiece_prepend (b : UInt8) (t : Text) (pieces : List Text) :
    consPiece b (prepend t pieces) = prepend (b :: t) pieces := by
  cases pieces <;> rfl

theorem prepend_prepend (t u : Text) (pieces : List Text) :
    prepend t (prepend u pieces) = prepend (t ++ u) pieces := by
  cases pieces <;> simp [prepend]

theorem consPiece_ne_nil (b : UInt8) (pieces : List Text) : consPiece b pieces ≠ [] := by
  cases pieces <;> simp [consPiece]

theorem splitTopLevel_ne_nil (separator : UInt8) (depth : Int) (t : Text) :
    splitTopLevel separator depth t ≠ [] := by
  cases t with
  | nil => simp [splitTopLevel]
  | cons b t =>
    rw [splitTopLevel]
    split
    · exact consPiece_ne_nil _ _
    split
    · exact consPiece_ne_nil _ _
    split
    · exact consPiece_ne_nil _ _
    split
    · exact List.cons_ne_nil _ _
    · exact consPiece_ne_nil _ _

/-- A text that is cut nowhere if at least `floor` brackets are open around it. -/
def Held (separator : UInt8) (floor : Int) (t : Text) : Prop :=
  ∀ depth, floor ≤ depth → ∀ more,
    splitTopLevel separator depth (t ++ more) = prepend t (splitTopLevel separator depth more)

variable {separator : UInt8} {floor floor' : Int} {t u : Text}

theorem Held.whole (h : Held separator floor t) {depth : Int} (hdepth : floor ≤ depth) :
    splitTopLevel separator depth t = [t] := by
  have := h depth hdepth []
  simpa [splitTopLevel, prepend] using this

theorem Held.split (h : Held separator 0 t) : splitTopLevel separator 0 t = [t] :=
  h.whole (Int.le_refl 0)

theorem Held.mono (h : Held separator floor t) (hle : floor ≤ floor') : Held separator floor' t :=
  fun depth hdepth => h depth (Int.le_trans hle hdepth)

theorem held_nil (separator : UInt8) (floor : Int) : Held separator floor [] := by
  intro depth _ more
  obtain ⟨piece, pieces, heq⟩ := List.exists_cons_of_ne_nil (splitTopLevel_ne_nil separator depth more)
  rw [List.nil_append, heq]
  rfl

theorem Held.append (ht : Held separator floor t) (hu : Held separator floor u) :
    Held separator floor (t ++ u) := by
  intro depth hdepth more
  rw [List.append_assoc, ht depth hdepth, hu depth hdepth, prepend_prepend]

/-- A byte that is no bracket and does not separate at this depth. -/
theorem held_singleton {b : UInt8} (hopening : Byte.isOpening b = false)
    (hclosing : Byte.isClosing b = false) (hequals : b ≠ Byte.equals)
    (hseparator : b = separator → 0 < floor) : Held separator floor [b] := by
  intro depth hdepth more
  have hnot : ¬ (b = separator ∧ depth = 0) := fun h => by
    have := hseparator h.1
    omega
  rw [List.singleton_append, splitTopLevel]
  simp only [hopening, hclosing, hequals, Bool.false_eq_true, if_false, false_and, and_false, hnot]
  exact consPiece_prepend b [] _ ▸ by
    obtain ⟨piece, pieces, heq⟩ :=
      List.exists_cons_of_ne_nil (splitTopLevel_ne_nil separator depth more)
    rw [heq]
    rfl

theorem held_of_forall {t : Text} (h : ∀ b ∈ t, Byte.isOpening b = false ∧ Byte.isClosing b = false ∧
    b ≠ Byte.equals ∧ b ≠ separator) : Held separator floor t := by
  induction t with
  | nil => exact held_nil _ _
  | cons b t ih =>
    obtain ⟨⟨hopening, hclosing, hequals, hne⟩, ht⟩ := List.forall_mem_cons.1 h
    exact (held_singleton hopening hclosing hequals fun heq => absurd heq hne).append (ih ht)

/-- Brackets hold what is inside of them together. -/
theorem Held.brackets (h : Held separator 1 t) {o c : UInt8} (ho : Byte.isOpening o = true)
    (hc : Byte.isOpening c = false ∧ Byte.isClosing c = true) :
    Held separator 0 (o :: (t ++ [c])) := by
  intro depth hdepth more
  rw [List.cons_append, splitTopLevel, if_pos ho, List.append_assoc, h (depth + 1) (by omega),
    List.singleton_append, splitTopLevel, if_neg (by simp [hc.1]), if_pos hc.2,
    Int.add_sub_cancel, consPiece_prepend]
  obtain ⟨piece, pieces, heq⟩ :=
    List.exists_cons_of_ne_nil (splitTopLevel_ne_nil separator depth more)
  rw [heq]
  simp [consPiece, prepend]

/-- A text is cut at a separator behind a part that is cut nowhere. -/
theorem Held.split_cons (h : Held separator 0 t) (hopening : Byte.isOpening separator = false)
    (hclosing : Byte.isClosing separator = false) (hequals : separator ≠ Byte.equals) (more : Text) :
    splitTopLevel separator 0 (t ++ separator :: more) = t :: splitTopLevel separator 0 more := by
  rw [h 0 (Int.le_refl 0), splitTopLevel]
  simp [hopening, hclosing, hequals, prepend]

/-! ## Trimming -/

theorem trimEnd_append {gap : Text} (hgap : ∀ b ∈ gap, Byte.isSpace b = true) (t : Text) :
    trimEnd (t ++ gap) = trimEnd t := by
  have hreverse : ∀ b ∈ gap.reverse, Byte.isSpace b = true := fun b hb =>
    hgap b (List.mem_reverse.1 hb)
  have := trimBefore_append hreverse t.reverse
  rw [Recogniser.trimBefore, Recogniser.trimBefore] at this
  rw [trimEnd, trimEnd, List.reverse_append, this]

/-- Blanks on both sides are trimmed. -/
theorem trim_append_append {gap gap' : Text} (hgap : ∀ b ∈ gap, Byte.isSpace b = true)
    (hgap' : ∀ b ∈ gap', Byte.isSpace b = true) (ht : IsInk t) : trim (gap ++ t ++ gap') = t := by
  obtain ⟨b, rest, rfl, hb⟩ := ht.first
  rw [trim, List.append_assoc, trimStart_append hgap, List.cons_append, trimStart_of_ink hb,
    ← List.cons_append, trimEnd_append hgap']
  have := trim_of_ink ht
  rwa [trim, trimStart_of_ink hb] at this

/-- Marks are taken off the front of a text and, if nothing is left, off what follows. No mark goes
over the seam. -/
theorem stripMarks_append {marks : List Text} {v : Text}
    (hv : ∀ b ∈ v.head?, ∀ m ∈ marks, b ∉ m.tail) {n : Nat} {t : Text} (hn : n ≤ t.length) :
    stripMarks marks n (t ++ v) =
      if stripMarks marks n t = [] then stripMarks marks 0 v else stripMarks marks n t ++ v := by
  induction t generalizing n with
  | nil =>
    obtain rfl : n = 0 := Nat.le_zero.1 hn
    rfl
  | cons b t ih =>
    cases n with
    | succ n => exact ih (Nat.le_of_succ_le_succ hn)
    | zero =>
      have hsame : ∀ m ∈ marks, m.isPrefixOf (b :: (t ++ v)) = m.isPrefixOf (b :: t) := by
        intro m hm
        rw [Bool.eq_iff_iff, List.isPrefixOf_iff_prefix, List.isPrefixOf_iff_prefix]
        refine ⟨fun ⟨r, hr⟩ => ?_, fun h => h.trans (List.prefix_append (b :: t) v)⟩
        rcases List.append_eq_append_iff.1 (hr.trans (List.cons_append ..).symm) with
          ⟨s, hs, -⟩ | ⟨s, rfl, hs⟩
        · exact ⟨s, hs.symm⟩
        · cases s with
          | nil => exact ⟨[], by simp⟩
          | cons c s => exact absurd (by simp) (hv c (by rw [hs]; rfl) _ hm)
      rw [List.cons_append, stripMarks, stripMarks, List.find?_congr hsame]
      split
      · next m hm =>
        have hprefix : m.isPrefixOf (b :: t) = true :=
          List.find?_some (p := fun m : Text => m.isPrefixOf (b :: t)) hm
        have hlength := (List.isPrefixOf_iff_prefix.1 hprefix).length_le
        rw [List.length_cons] at hlength
        exact ih (by omega)
      · rfl

theorem isSpace_of_mem_blanks : ∀ m ∈ blanks, ∀ c ∈ m.tail, Byte.isSpace c = false := by
  have hall : ∀ m ∈ blanks, (m.tail.all fun c => decide (Byte.isSpace c = false)) = true := by
    decide +kernel
  exact fun m hm => forall_mem_of_all (hall m hm)

theorem trim_append_blank {gap : Text} (hgap : ∀ c ∈ gap, Byte.isSpace c = true) (t : Text) :
    trim (t ++ gap) = trim t := by
  have hseam : ∀ b ∈ gap.head?, ∀ m ∈ blanks, b ∉ m.tail := fun b hb m hm hmem => by
    have hspace := hgap b (List.mem_of_mem_head? hb)
    rw [isSpace_of_mem_blanks m hm b hmem] at hspace
    cases hspace
  have hblank : stripMarks blanks 0 gap = [] := by
    have := trimStart_append hgap []
    rwa [List.append_nil] at this
  rw [trim, trim, trimStart, trimStart, stripMarks_append hseam (Nat.zero_le _), hblank]
  split
  · next h => rw [h]
  · exact trimEnd_append hgap _

/-- A visible end keeps what stands in front of it. -/
theorem trimEnd_append_of_ink {t : Text} (ht : IsInk t) (z : Text) :
    trimEnd (t ++ z) = t ++ trimEnd z := by
  obtain ⟨c, front, hlast, hc⟩ := ht.last
  have hseam : ∀ b ∈ t.reverse.head?, ∀ m ∈ blanks.map List.reverse, b ∉ m.tail := by
    intro b hb _ hreverse hmem
    obtain ⟨m, hm, rfl⟩ := List.mem_map.1 hreverse
    obtain rfl : c = b := by simpa [hlast] using hb
    have := forall_mem_blanks m hm c (List.mem_reverse.1 (List.mem_of_mem_tail hmem))
    rw [hc] at this
    cases this
  have hkept : stripMarks (blanks.map List.reverse) 0 t.reverse = t.reverse := by
    have hend : trimEnd (front ++ [c]) = front ++ [c] := trimEnd_of_ink hc
    rw [← hlast, trimEnd] at hend
    rw [← List.reverse_inj, hend, List.reverse_reverse]
  rw [trimEnd, trimEnd, List.reverse_append, stripMarks_append hseam (Nat.zero_le _), hkept]
  split
  · next h => rw [h, List.reverse_reverse, List.reverse_nil, List.append_nil]
  · rw [List.reverse_append, List.reverse_reverse]

theorem trim_append_of_ink {gap t : Text} (hgap : ∀ b ∈ gap, Byte.isSpace b = true) (ht : IsInk t)
    (z : Text) : trim (gap ++ (t ++ z)) = t ++ trimEnd z := by
  obtain ⟨b, rest, hfirst, hb⟩ := ht.first
  have hstart : trimStart (gap ++ (t ++ z)) = t ++ z := by
    rw [trimStart_append hgap, hfirst, List.cons_append, trimStart_of_ink hb]
  rw [trim, hstart, trimEnd_append_of_ink ht]

theorem trim_of_isSpace {gap : Text} (hgap : ∀ b ∈ gap, Byte.isSpace b = true) : trim gap = [] := by
  have hstart : trimStart (gap ++ []) = trimStart [] := trimStart_append hgap []
  rw [List.append_nil] at hstart
  rw [trim, hstart]
  rfl

theorem stripDots_dots (t : Text) :
    (Binding.dots ++ t).stripMarks ["..."] 0 = t.stripMarks ["..."] 0 := by
  have hdots : Text.ofString "..." = Binding.dots := by decide
  have hfind : List.find? (fun m => m.isPrefixOf (Byte.dot :: Byte.dot :: Byte.dot :: t))
      [Text.ofString "..."] = some (Text.ofString "...") := by
    rw [List.find?_cons, hdots,
      show Binding.dots.isPrefixOf (Byte.dot :: Byte.dot :: Byte.dot :: t) = true from
        List.isPrefixOf_iff_prefix.2 ⟨t, rfl⟩]
  rw [show Binding.dots ++ t = Byte.dot :: Byte.dot :: Byte.dot :: t from rfl, stripMarks, hfind,
    hdots]
  rfl

end Text

/-! ## The names of a list of patterns -/

namespace Pattern

/-- The names that one piece of a list binds. -/
def pieceNames (piece : Text) : List Text :=
  match inner? (target piece) with
  | some inside => names inside
  | none => if (target piece).isIdentifier then [target piece] else []

theorem names_eq_flatMap (patterns : Text) :
    names patterns = (patterns.splitTopLevel Byte.comma 0).flatMap pieceNames := names_eq patterns

/-- What a pattern is behind a key and dots: a text that is cut nowhere. -/
structure Stands (t : Text) : Prop where
  ink : Text.IsInk t
  dots : t.head? ≠ some Byte.dot
  colon : Text.Held Byte.colon 0 t
  equals : Text.Held Byte.equals 0 t

theorem Stands.head?_append {t : Text} (ht : Stands t) (z : Text) : (t ++ z).head? = t.head? := by
  obtain ⟨b, rest, rfl, -⟩ := ht.ink.first
  rfl

theorem held_of_isSpace {separator : UInt8} {floor : Int} {gap : Text}
    (hgap : ∀ b ∈ gap, Byte.isSpace b = true) (hseparator : Byte.isSpace separator = false) :
    Text.Held separator floor gap := by
  refine Text.held_of_forall fun b hb => ?_
  have hb := hgap b hb
  refine ⟨?_, ?_, ?_, ?_⟩
  · rcases Text.eq_of_isSpace hb with rfl | rfl | rfl | rfl | rfl <;> rfl
  · rcases Text.eq_of_isSpace hb with rfl | rfl | rfl | rfl | rfl <;> rfl
  · rintro rfl
    simp +decide at hb
  · rintro rfl
    simp [hb] at hseparator

/-- What may stand behind a pattern in a piece of a list: blanks, and behind them nothing or an equals
sign and no colon. Of what follows an end may be trimmed. -/
structure Follows (z : Text) : Prop where
  colon : ∀ z', z' <+: z → Text.splitTopLevel Byte.colon 0 z' = [z']
  equals : ∀ z', z' <+: z →
    ∀ b ∈ (Text.splitTopLevel Byte.equals 0 z').headD [], Byte.isSpace b = true

theorem Follows.of_prefix {z z' : Text} (h : Follows z) (hpre : z' <+: z) : Follows z' :=
  ⟨fun _ hpre' => h.colon _ (hpre'.trans hpre), fun _ hpre' => h.equals _ (hpre'.trans hpre)⟩

theorem follows_of_isSpace {gap : Text} (hgap : ∀ b ∈ gap, Byte.isSpace b = true) : Follows gap where
  colon z' hpre := (held_of_isSpace (fun b hb => hgap b (hpre.subset hb)) (by decide)).split
  equals z' hpre := by
    have hblank : ∀ b ∈ z', Byte.isSpace b = true := fun b hb => hgap b (hpre.subset hb)
    rw [(held_of_isSpace hblank (by decide)).split]
    exact hblank

/-- A front that is not cut stays in front of the first piece. -/
theorem headD_of_held {separator : UInt8} {t : Text} (ht : Text.Held separator 0 t) (z : Text) :
    (Text.splitTopLevel separator 0 (t ++ z)).headD [] =
      t ++ (Text.splitTopLevel separator 0 z).headD [] := by
  obtain ⟨p, ps, heq⟩ := List.exists_cons_of_ne_nil (Text.splitTopLevel_ne_nil separator 0 z)
  rw [ht 0 (Int.le_refl 0), heq]
  rfl

theorem renamed_of_held {t z : Text} (ht : Text.Held Byte.colon 0 t) (hz : Follows z) :
    renamed (t ++ z) = t ++ z := by
  have hsplit : Text.splitTopLevel Byte.colon 0 (t ++ z) = [t ++ z] := by
    rw [ht 0 (Int.le_refl 0), hz.colon z (List.prefix_refl z)]
    rfl
  rw [renamed, hsplit]

section
variable {t gap z : Text} (hgap : ∀ b ∈ gap, Byte.isSpace b = true) (hz : Follows z)
include hgap hz

/-- A pattern is what is left in front of the equals sign. -/
theorem trim_headD_of_stands (ht : Stands t) :
    ((Text.splitTopLevel Byte.equals 0 (gap ++ (t ++ z))).headD []).trim = t := by
  rw [headD_of_held (held_of_isSpace hgap (by decide)), headD_of_held ht.equals, ← List.append_assoc,
    Text.trim_append_append hgap (hz.equals z (List.prefix_refl z)) ht.ink]

/-- A pattern in a list stands for itself. -/
theorem target_of_stands (ht : Stands t) : target (gap ++ (t ++ z)) = t := by
  have hz' := hz.of_prefix (Text.prefix_trimEnd z)
  have hdots : (t ++ Text.trimEnd z).head? ≠ some Byte.dot := by
    rw [ht.head?_append]
    exact ht.dots
  rw [target, Text.trim_append_of_ink hgap ht.ink, Text.stripDots_of_ne hdots,
    renamed_of_held ht.colon hz']
  exact trim_headD_of_stands (List.forall_mem_nil _) hz' ht

/-- So does a pattern behind dots. -/
theorem target_of_dots {space : Text} (hspace : ∀ b ∈ space, Byte.isSpace b = true)
    (ht : Stands t) : target (gap ++ (Binding.dots ++ space ++ t ++ z)) = t := by
  have hink : Text.IsInk (Binding.dots ++ space ++ t) := by
    obtain ⟨b, rest, hlast, hb⟩ := ht.ink.last
    exact ⟨⟨Byte.dot, [Byte.dot, Byte.dot] ++ space ++ t, rfl, by decide⟩,
      ⟨b, Binding.dots ++ space ++ rest, by rw [hlast]; simp, hb⟩⟩
  have hz' := hz.of_prefix (Text.prefix_trimEnd z)
  have hhead : (space ++ t ++ Text.trimEnd z).head? ≠ some Byte.dot := by
    cases hcons : space with
    | nil =>
      rw [List.nil_append, ht.head?_append]
      exact ht.dots
    | cons b space' =>
      have := hspace b (hcons ▸ .head _)
      rintro heq
      obtain rfl : b = Byte.dot := by simpa using heq
      simp +decide at this
  have hcolon : Text.Held Byte.colon 0 (space ++ t) :=
    (held_of_isSpace hspace (by decide)).append ht.colon
  rw [target, Text.trim_append_of_ink hgap hink, List.append_assoc Binding.dots,
    List.append_assoc Binding.dots, Text.stripDots_dots, Text.stripDots_of_ne hhead,
    renamed_of_held hcolon hz', List.append_assoc]
  exact trim_headD_of_stands hspace hz' ht

/-- And a pattern behind a key. -/
theorem target_of_key {key before after : Text} (hkey : key.isIdentifier = true)
    (hbefore : ∀ b ∈ before, Byte.isSpace b = true) (hafter : ∀ b ∈ after, Byte.isSpace b = true)
    (ht : Stands t) :
    target (gap ++ (key ++ (before ++ [Byte.colon] ++ after) ++ t ++ z)) = t := by
  have hwords := word_of_isIdentifier hkey
  obtain ⟨c, rest, rfl, -⟩ := Text.exists_of_isIdentifier hkey
  have hc := hwords c (.head _)
  obtain ⟨b, rest', hlast, hb⟩ := ht.ink.last
  have hink : Text.IsInk ((c :: rest) ++ (before ++ [Byte.colon] ++ after) ++ t) :=
    ⟨⟨c, _, rfl, Text.isInk_of_isWord c hc⟩,
      ⟨b, (c :: rest) ++ (before ++ [Byte.colon] ++ after) ++ rest', by rw [hlast]; simp, hb⟩⟩
  have hz' := hz.of_prefix (Text.prefix_trimEnd z)
  have hdots : ((c :: rest) ++ (before ++ [Byte.colon] ++ after) ++ t ++ Text.trimEnd z).head? ≠
      some Byte.dot := by
    intro heq
    obtain rfl : c = Byte.dot := by simpa using heq
    simp +decide at hc
  have hfront : Text.Held Byte.colon 0 ((c :: rest) ++ before) := by
    refine .append (Text.held_of_forall fun b hb => ?_) (held_of_isSpace hbefore (by decide))
    obtain ⟨hopening, hclosing, -, hcolon, hequals, -⟩ := Byte.not_bracket_of_isWord b (hwords b hb)
    exact ⟨hopening, hclosing, hequals, hcolon⟩
  have hback : Text.splitTopLevel Byte.colon 0 (after ++ t ++ Text.trimEnd z) =
      [after ++ t ++ Text.trimEnd z] := by
    rw [((held_of_isSpace hafter (by decide)).append ht.colon) 0 (Int.le_refl 0),
      hz'.colon _ (List.prefix_refl _)]
    rfl
  have hsplit : Text.splitTopLevel Byte.colon 0
      ((c :: rest) ++ (before ++ [Byte.colon] ++ after) ++ t ++ Text.trimEnd z) =
        [(c :: rest) ++ before, after ++ t ++ Text.trimEnd z] := by
    have := hfront.split_cons (by decide) (by decide) (by decide) (after ++ t ++ Text.trimEnd z)
    rw [hback] at this
    simpa using this
  have hrenamed : renamed ((c :: rest) ++ (before ++ [Byte.colon] ++ after) ++ t ++
      Text.trimEnd z) = t ++ Text.trimEnd (Text.trimEnd z) := by
    rw [renamed, hsplit, ← Text.trim_append_of_ink hafter ht.ink, List.append_assoc after]
  rw [target, Text.trim_append_of_ink hgap hink, Text.stripDots_of_ne hdots, hrenamed]
  exact trim_headD_of_stands (List.forall_mem_nil _) (hz'.of_prefix (Text.prefix_trimEnd _)) ht

end

end Pattern

/-! ## Patterns in a list -/

namespace Binding

/-- The number of brackets around a part of a pattern within which no separator cuts it. -/
def Level.floor (separator : UInt8) : Level → Int
  | .pattern => 0
  | .item _ => if separator = Byte.colon then 1 else 0
  | .items _ => 1

/-- A separator of patterns: a mark that is no bracket and not the dot of a rest element. -/
def Separates (b : UInt8) : Prop := b = Byte.comma ∨ b = Byte.colon ∨ b = Byte.equals

theorem Separates.plain {b : UInt8} (h : Separates b) : Byte.isOpening b = false ∧
    Byte.isClosing b = false ∧ Byte.isWord b = false ∧ Byte.isSpace b = false ∧ b ≠ Byte.dot := by
  rcases h with rfl | rfl | rfl <;> decide

theorem Separates.held_of_isWord {separator : UInt8} (h : Separates separator) (floor : Int)
    {t : Text} (ht : ∀ b ∈ t, Byte.isWord b = true) : Text.Held separator floor t := by
  refine Text.held_of_forall fun b hb => ?_
  obtain ⟨hopening, hclosing, -, -, hequals, -⟩ := Byte.not_bracket_of_isWord b (ht b hb)
  refine ⟨hopening, hclosing, hequals, ?_⟩
  rintro rfl
  have := ht _ hb
  simp [h.plain] at this

theorem Separates.held_blank {separator : UInt8} (h : Separates separator) (floor : Int)
    (g : Blank) : Text.Held separator floor g.text :=
  Pattern.held_of_isSpace g.blank h.plain.2.2.2.1

theorem Separates.held_dots {separator : UInt8} (h : Separates separator) (floor : Int) :
    Text.Held separator floor dots :=
  Text.held_of_forall fun b hb => by
    obtain rfl : b = Byte.dot := by simpa [dots] using hb
    exact ⟨by decide, by decide, by decide, fun heq => h.plain.2.2.2.2 heq.symm⟩

/-- No separator cuts a part of a pattern at its level. -/
theorem held {separator : UInt8} (h : Separates separator) {l : Level} (p : Binding l) :
    Text.Held separator (l.floor separator) p.text := by
  have hmark {b : UInt8} {floor : Int} (hb : b = Byte.comma ∨ b = Byte.colon)
      (hfloor : b = separator → 0 < floor) : Text.Held separator floor [b] := by
    rcases hb with rfl | rfl <;>
      exact Text.held_singleton (by decide) (by decide) (by decide) hfloor
  have hitem (k : Kind) : (Level.item k).floor separator ≤ 1 := by
    simp only [Level.floor]
    split <;> decide
  have hword (n : Identifier) (floor : Int) : Text.Held separator floor n.text :=
    h.held_of_isWord floor (word_of_isIdentifier n.fits)
  induction p with
  | name n => exact hword n _
  | shorthand n => exact hword n _
  | array opening inside ih =>
    exact .brackets ((h.held_blank 1 opening).append ih) (by decide) (by decide)
  | object opening inside ih =>
    exact .brackets ((h.held_blank 1 opening).append ih) (by decide) (by decide)
  | hole => exact Text.held_nil _ _
  | element p ih => exact ih.mono (by simp only [Level.floor]; split <;> decide)
  | keyed key sp p ih =>
    have hcolon : Text.Held separator ((Level.item .properties).floor separator) [Byte.colon] :=
      hmark (.inr rfl) fun heq => by simp [Level.floor, ← heq]
    exact ((h.held_of_isWord _ (word_of_isIdentifier key.fits)).append
      (((h.held_blank _ sp.before).append hcolon).append (h.held_blank _ sp.after))).append
        (ih.mono (by simp only [Level.floor]; split <;> decide))
  | rest gap p ih =>
    exact ((h.held_dots _).append (h.held_blank _ gap)).append
      (ih.mono (by simp only [Level.floor]; split <;> decide))
  | last i gap ih => exact (ih.mono (hitem _)).append (h.held_blank _ gap)
  | more i sp others ih ihothers =>
    exact ((ih.mono (hitem _)).append (((h.held_blank _ sp.before).append
      (hmark (.inl rfl) fun _ => Int.zero_lt_one)).append (h.held_blank _ sp.after))).append ihothers

/-- How a pattern begins and ends. -/
theorem stands (p : Binding .pattern) : Pattern.Stands p.text where
  ink := by
    cases p with
    | name n =>
      refine Text.isInk_of_all ?_ fun b hb => Text.isInk_of_isWord b (word_of_isIdentifier n.fits b hb)
      intro hnil
      have := n.fits
      simp [show n.text = [] from hnil, Text.isIdentifier] at this
    | array opening inside =>
      exact ⟨⟨_, _, rfl, by decide⟩, ⟨Byte.rbracket, _, (List.cons_append ..).symm, by decide⟩⟩
    | object opening inside =>
      exact ⟨⟨_, _, rfl, by decide⟩, ⟨Byte.rbrace, _, (List.cons_append ..).symm, by decide⟩⟩
  dots := by
    cases p with
    | name n =>
      intro hhead
      have := word_of_isIdentifier n.fits Byte.dot (List.mem_of_mem_head? hhead)
      simp +decide at this
    | array opening inside => simp +decide [text]
    | object opening inside => simp +decide [text]
  colon := held (.inr (.inl rfl)) p
  equals := held (.inr (.inr rfl)) p

end Binding

/-! ## The names of a list of patterns -/

namespace Pattern

theorem pieceNames_of_isSpace {gap : Text} (hgap : ∀ b ∈ gap, Byte.isSpace b = true) :
    pieceNames gap = [] := by
  have htarget : target gap = [] := by
    rw [target, Text.trim_of_isSpace hgap]
    rfl
  rw [pieceNames, htarget]
  rfl

theorem pieceNames_of_isIdentifier {piece : Text} (h : (target piece).isIdentifier = true) :
    pieceNames piece = [target piece] := by
  have hinner : inner? (target piece) = none := by
    obtain ⟨b, rest, heq, hb, -⟩ := Text.exists_of_isIdentifier h
    have := Byte.not_space_of_isWordStart b hb
    simp [inner?, heq, this]
  rw [pieceNames, hinner]
  exact if_pos h

/-- What brackets bind is what the list in them binds. -/
theorem pieceNames_of_brackets {piece inside : Text} {o c : UInt8}
    (h : target piece = o :: (inside ++ [c]))
    (hbrackets : o = Byte.lbrace ∧ c = Byte.rbrace ∨ o = Byte.lbracket ∧ c = Byte.rbracket) :
    pieceNames piece = names inside := by
  have hlast : (o :: (inside ++ [c])).getLast? = some c := by
    rw [← List.cons_append, List.getLast?_concat]
  have hinner : inner? (target piece) = some inside := by
    rw [h, inner?, hlast, if_pos (by simpa using hbrackets)]
    simp
  rw [pieceNames, hinner]

end Pattern

namespace Binding

/-- The names of a part of a pattern, as they are read from its text. -/
def Reads : {l : Level} → Binding l → Prop
  | .pattern, p => ∀ piece, Pattern.target piece = p.text → Pattern.pieceNames piece = p.names
  | .item _, i => ∀ gap gap' : Text, (∀ b ∈ gap, Byte.isSpace b = true) →
      (∀ b ∈ gap', Byte.isSpace b = true) → Pattern.pieceNames (gap ++ i.text ++ gap') = i.names
  | .items _, t => ∀ gap : Text, (∀ b ∈ gap, Byte.isSpace b = true) →
      Pattern.names (gap ++ t.text) = t.names

theorem reads {l : Level} (p : Binding l) : p.Reads := by
  have hcomma {gap gap' : Text} (hgap : ∀ b ∈ gap, Byte.isSpace b = true)
      (hgap' : ∀ b ∈ gap', Byte.isSpace b = true) {k : Kind} (i : Binding (.item k)) :
      Text.Held Byte.comma 0 (gap ++ i.text ++ gap') :=
    ((Pattern.held_of_isSpace hgap (by decide)).append (held (.inl rfl) i)).append
      (Pattern.held_of_isSpace hgap' (by decide))
  induction p with
  | name n =>
    intro piece htarget
    rw [Pattern.pieceNames_of_isIdentifier (by rw [htarget]; exact n.fits), htarget]
    rfl
  | array opening inside ih =>
    intro piece htarget
    rw [Pattern.pieceNames_of_brackets htarget (.inr ⟨rfl, rfl⟩)]
    exact ih opening.text opening.blank
  | object opening inside ih =>
    intro piece htarget
    rw [Pattern.pieceNames_of_brackets htarget (.inl ⟨rfl, rfl⟩)]
    exact ih opening.text opening.blank
  | hole =>
    intro gap gap' hgap hgap'
    refine Pattern.pieceNames_of_isSpace fun b hb => ?_
    simp only [text, List.append_nil, List.mem_append] at hb
    exact hb.elim (hgap b) (hgap' b)
  | element p ih =>
    intro gap gap' hgap hgap'
    rw [List.append_assoc]
    exact ih _ (Pattern.target_of_stands hgap (Pattern.follows_of_isSpace hgap') p.stands)
  | shorthand n =>
    intro gap gap' hgap hgap'
    have htarget := Pattern.target_of_stands hgap (Pattern.follows_of_isSpace hgap')
      (stands (.name n))
    rw [← List.append_assoc] at htarget
    change Pattern.target (gap ++ n.text ++ gap') = n.text at htarget
    change Pattern.pieceNames (gap ++ n.text ++ gap') = [n.text]
    rw [Pattern.pieceNames_of_isIdentifier (by rw [htarget]; exact n.fits), htarget]
  | keyed key sp p ih =>
    intro gap gap' hgap hgap'
    rw [List.append_assoc]
    exact ih _ (Pattern.target_of_key hgap (Pattern.follows_of_isSpace hgap') key.fits
      sp.before.blank sp.after.blank p.stands)
  | rest space p ih =>
    intro gap gap' hgap hgap'
    rw [List.append_assoc]
    exact ih _ (Pattern.target_of_dots hgap (Pattern.follows_of_isSpace hgap') space.blank p.stands)
  | last i gap' ih =>
    intro gap hgap
    rw [Pattern.names_eq_flatMap, text, ← List.append_assoc,
      (hcomma hgap gap'.blank i).split, List.flatMap_singleton]
    exact ih gap gap'.text hgap gap'.blank
  | more i sp others ih ihothers =>
    intro gap hgap
    have hsplit : Text.splitTopLevel Byte.comma 0 (gap ++ (more i sp others).text) =
        (gap ++ i.text ++ sp.before.text) ::
          Text.splitTopLevel Byte.comma 0 (sp.after.text ++ others.text) := by
      rw [← (hcomma hgap sp.before.blank i).split_cons (by decide) (by decide) (by decide)]
      simp [text, Spacing.around]
    rw [Pattern.names_eq_flatMap, hsplit, List.flatMap_cons, ← Pattern.names_eq_flatMap,
      ih gap sp.before.text hgap sp.before.blank, ihothers sp.after.text sp.after.blank]
    rfl

/-- The names that are read from a list of patterns are those of the tree. -/
theorem names_text {k : Kind} (t : Binding (.items k)) (gap : Blank) :
    Pattern.names (gap.text ++ t.text) = t.names := t.reads gap.text gap.blank

end Binding

end PageLang
