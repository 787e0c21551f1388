import PageLang.Proofs.Script.Cuts

/-!
# Patterns with default values

Behind a pattern may stand an equals sign and a default value. A default value is cut like the list
around it, by its spelling alone, and it does no harm to the names that are read if it is inert: it
closes its brackets, keeps its separators inside the brackets around it, and has no colon and no
names where the list itself is cut.

* `Defaulted`: patterns, the items of a list, and lists of items, with default values.
* `Pattern.Inert`: default values that do no harm.
* `Defaulted.names_text`: the names that a list of patterns with such default values binds.
-/

namespace PageLang

open Script

/-! ## Trees -/

/-- A default value with its equals sign. The value does not make another mark of the sign. -/
structure DefaultTail where
  sp : Spacing
  value : Text
  starts : ∀ b ∈ value.head?, b ≠ Byte.equals ∧ b ≠ Byte.greater

/-- A default value as it is written behind a pattern, or nothing. -/
def DefaultTail.text (d : Option DefaultTail) : Text :=
  d.elim [] fun d => d.sp.around Byte.equals ++ d.value

/-- A binding pattern, an item of a list, or the rest of a list, where the items may have default
values. -/
inductive Defaulted : Binding.Level → Type where
  | name (n : Identifier) : Defaulted .pattern
  | array (opening : Blank) (inside : Defaulted (.items .elements)) : Defaulted .pattern
  | object (opening : Blank) (inside : Defaulted (.items .properties)) : Defaulted .pattern
  /-- Nothing: an empty list, an element that is left out, or the end behind a comma. -/
  | hole {k : Binding.Kind} : Defaulted (.item k)
  | element (p : Defaulted .pattern) (d : Option DefaultTail) : Defaulted (.item .elements)
  | shorthand (n : Identifier) (d : Option DefaultTail) : Defaulted (.item .properties)
  | keyed (key : Identifier) (sp : Spacing) (p : Defaulted .pattern) (d : Option DefaultTail) :
      Defaulted (.item .properties)
  | rest {k : Binding.Kind} (gap : Blank) (p : Defaulted .pattern) (d : Option DefaultTail) :
      Defaulted (.item k)
  | last {k : Binding.Kind} (i : Defaulted (.item k)) (gap : Blank) : Defaulted (.items k)
  | more {k : Binding.Kind} (i : Defaulted (.item k)) (sp : Spacing)
      (others : Defaulted (.items k)) : Defaulted (.items k)

namespace Defaulted

/-- A pattern as it is written. -/
def text {l : Binding.Level} : Defaulted l → Text
  | name n => n.text
  | array opening inside => Byte.lbracket :: (opening.text ++ inside.text ++ [Byte.rbracket])
  | object opening inside => Byte.lbrace :: (opening.text ++ inside.text ++ [Byte.rbrace])
  | hole => []
  | element p d => p.text ++ DefaultTail.text d
  | shorthand n d => n.text ++ DefaultTail.text d
  | keyed key sp p d => key.text ++ sp.around Byte.colon ++ p.text ++ DefaultTail.text d
  | rest gap p d => Binding.dots ++ gap.text ++ p.text ++ DefaultTail.text d
  | last i gap => i.text ++ gap.text
  | more i sp others => i.text ++ sp.around Byte.comma ++ others.text

/-- The names that a pattern binds, in order. -/
def names {l : Binding.Level} : Defaulted l → List Text
  | name n | shorthand n _ => [n.text]
  | array _ inside | object _ inside => inside.names
  | hole => []
  | element p _ | keyed _ _ p _ | rest _ p _ => p.names
  | last i _ => i.names
  | more i _ others => i.names ++ others.names

/-- The default values in a pattern. -/
def defaults {l : Binding.Level} : Defaulted l → List DefaultTail
  | name _ | hole => []
  | array _ inside | object _ inside => inside.defaults
  | shorthand _ d => d.toList
  | element p d | keyed _ _ p d | rest _ p d => p.defaults ++ d.toList
  | last i _ => i.defaults
  | more i _ others => i.defaults ++ others.defaults

end Defaulted

/-! ## Default values that do no harm -/

/-- A default value of another mark than its equals sign. -/
theorem DefaultTail.head_ne (d : DefaultTail) :
    ∀ c ∈ (d.sp.after.text ++ d.value).head?, c ≠ Byte.equals ∧ c ≠ Byte.greater := by
  intro c hc
  cases hafter : d.sp.after.text with
  | nil =>
    rw [hafter] at hc
    exact d.starts c hc
  | cons b gap =>
    rw [hafter] at hc
    obtain rfl : b = c := by simpa using hc
    rcases Text.eq_of_isSpace (d.sp.after.blank b (by rw [hafter]; exact .head _)) with
      rfl | rfl | rfl | rfl | rfl <;> decide

namespace Pattern

/-- A default value that does no harm to the names around it. -/
structure Inert (e : Text) : Prop where
  closes : e.balance = 0
  inBrackets : ∀ separator, Binding.Separates separator → ∀ depth : Int, 0 < depth →
    e.splitTopLevel separator depth = [e]
  colon : (e.firstPiece Byte.comma 0).splitTopLevel Byte.colon 0 = [e.firstPiece Byte.comma 0]
  names : (e.splitTopLevel Byte.comma 0).tail.flatMap pieceNames = []

/-! ## The names of a list in parts -/

theorem pieceNames_append_blank {gap : Text} (hgap : ∀ b ∈ gap, Byte.isSpace b = true) (t : Text) :
    pieceNames (t ++ gap) = pieceNames t := by
  have htarget : target (t ++ gap) = target t := by
    rw [target, target, Text.trim_append_blank hgap]
  rw [pieceNames, pieceNames, htarget]

/-- Blanks behind a list bind nothing. -/
theorem names_append_blank {gap : Text} (hgap : ∀ b ∈ gap, Byte.isSpace b = true) (t : Text) :
    names (t ++ gap) = names t := by
  obtain ⟨front, p, ht, htgap⟩ := Text.split_append_blank (.inl rfl) hgap 0 t
  simp only [names_eq_flatMap, ht, htgap, List.flatMap_append, List.flatMap_singleton,
    pieceNames_append_blank hgap]

/-- A list goes on behind a comma. -/
theorem names_append_comma {t : Text} (ht : t.balance = 0) (u : Text) :
    names (t ++ Byte.comma :: u) = names t ++ names u := by
  rw [names_eq_flatMap, Text.split_append_separator (.inl rfl) (by decide) (by omega),
    List.flatMap_append, ← names_eq_flatMap, ← names_eq_flatMap]

/-- A default value is not cut in brackets. -/
theorem held_default {separator : UInt8} (h : Binding.Separates separator) {d : Option DefaultTail}
    (hd : ∀ e ∈ d, Inert e.value) : Text.Held separator 1 (DefaultTail.text d) := by
  cases d with
  | none => exact Text.held_nil _ _
  | some d =>
    have hvalue := hd d rfl
    exact (h.held_around (by decide) (fun _ => Int.zero_lt_one) d.sp).append
      (Text.held_of_split h (fun depth hdepth => hvalue.inBrackets _ h depth (by omega)) hvalue.closes)

/-- The first piece of a default value may follow a pattern. -/
theorem follows_default (d : DefaultTail) (hd : Inert d.value) :
    Follows (d.sp.around Byte.equals ++ d.value.firstPiece Byte.comma 0) where
  colon z' := by
    rintro ⟨r, hr⟩
    refine Text.split_of_append (.inr (.inl rfl)) (by decide) (u := r) ?_
    have haround : Text.Held Byte.colon 0 (d.sp.around Byte.equals) :=
      Binding.Separates.held_around (.inr (.inl rfl)) (by decide) (by decide) d.sp
    rw [hr, haround 0 (Int.le_refl 0), hd.colon]
    rfl
  equals z' hpre := by
    have hvalue : z' <+: d.sp.before.text ++ Byte.equals :: (d.sp.after.text ++ d.value) := by
      refine hpre.trans ?_
      simpa [Spacing.around] using Text.firstPiece_prefix Byte.comma 0 d.value
    obtain ⟨r, hr⟩ := hvalue
    rcases List.append_eq_append_iff.1 hr with ⟨s, hs, -⟩ | ⟨w, rfl, hw⟩
    · -- the end is trimmed in front of the equals sign
      exact (follows_of_isSpace d.sp.before.blank).equals z' ⟨s, hs.symm⟩
    · rw [headD_of_held (Binding.Separates.held_blank (.inr (.inr rfl)) 0 d.sp.before)]
      cases w with
      | nil =>
        rw [show (Text.splitTopLevel Byte.equals 0 []).headD [] = [] from rfl, List.append_nil]
        exact d.sp.before.blank
      | cons b w =>
        obtain ⟨rfl, hrest⟩ := List.cons.inj hw
        have hcut : Text.CutsAt Byte.equals 0 Byte.equals w := by
          refine ⟨rfl, rfl, fun hskip => ?_⟩
          have hne (c : UInt8) (hc : w.head? = some c) : c ≠ Byte.equals ∧ c ≠ Byte.greater :=
            d.head_ne c (by rw [hrest, show w.append r = w ++ r from rfl, List.head?_append, hc]; rfl)
          exact hskip.2.elim (fun hc => (hne _ hc).2 rfl) fun hc => (hne _ hc).1 rfl
        rw [Text.splitTopLevel_separator (.inr (.inr rfl)) hcut, List.headD_cons, List.append_nil]
        exact d.sp.before.blank

/-- A pattern with a default value binds what it binds with the first piece of the value. -/
theorem names_default {front : Text} (hfront : Text.Held Byte.comma 0 front) {d : Option DefaultTail}
    (hd : ∀ e ∈ d, Inert e.value) {ns : List Text}
    (hns : ∀ z, Follows z → pieceNames (front ++ z) = ns) :
    names (front ++ DefaultTail.text d) = ns := by
  cases d with
  | none =>
    have := hns [] (follows_of_isSpace (by simp))
    rw [List.append_nil] at this
    rw [show DefaultTail.text none = [] from rfl, List.append_nil, names_eq_flatMap, hfront.split,
      List.flatMap_singleton, this]
  | some d =>
    have hvalue := hd d rfl
    have hequals : Text.Held Byte.comma 0 (d.sp.around Byte.equals) :=
      Binding.Separates.held_around (.inl rfl) (by decide) (by decide) d.sp
    obtain ⟨g, gs, heq⟩ :=
      List.exists_cons_of_ne_nil (Text.splitTopLevel_ne_nil Byte.comma 0 d.value)
    have hnames := hvalue.names
    have hg := Text.firstPiece_eq heq
    rw [heq] at hnames
    rw [names_eq_flatMap, show DefaultTail.text (some d) = d.sp.around Byte.equals ++ d.value from rfl,
      hfront 0 (Int.le_refl 0), hequals 0 (Int.le_refl 0), heq, Text.prepend, Text.prepend,
      List.flatMap_cons, ← hg, hns _ (follows_default d hvalue)]
    simpa using hnames

end Pattern

/-! ## The names of a pattern with default values -/

namespace Defaulted

open Binding (Separates)

/-- How many brackets are open around a part of a pattern that is not cut there. -/
def floor : Binding.Level → Int
  | .pattern => 0
  | .item _ | .items _ => 1

/-- A pattern all of whose default values do no harm. -/
def Inert {l : Binding.Level} (p : Defaulted l) : Prop :=
  ∀ d ∈ p.defaults, Pattern.Inert d.value

/-- No separator cuts a part of a pattern with that many brackets open around it. -/
theorem held {separator : UInt8} (h : Separates separator) {l : Binding.Level} (p : Defaulted l)
    (hp : p.Inert) : Text.Held separator (floor l) p.text := by
  have hword (n : Identifier) (floor : Int) : Text.Held separator floor n.text :=
    h.held_of_isWord floor (word_of_isIdentifier n.fits)
  have hdefault {d : Option DefaultTail} (hd : ∀ e ∈ d.toList, Pattern.Inert e.value) :
      Text.Held separator 1 (DefaultTail.text d) :=
    Pattern.held_default h fun e he => hd e (Option.mem_toList.2 he)
  induction p with
  | name n => exact hword n 0
  | array opening inside ih =>
    exact .brackets ((h.held_blank 1 opening).append (ih hp)) (by decide) (by decide)
  | object opening inside ih =>
    exact .brackets ((h.held_blank 1 opening).append (ih hp)) (by decide) (by decide)
  | hole => exact Text.held_nil _ _
  | element p d ih =>
    obtain ⟨hp, hd⟩ := List.forall_mem_append.1 hp
    exact ((ih hp).mono (by decide)).append (hdefault hd)
  | shorthand n d => exact (hword n 1).append (hdefault hp)
  | keyed key sp p d ih =>
    obtain ⟨hp, hd⟩ := List.forall_mem_append.1 hp
    have hcolon := h.held_around (b := Byte.colon) (by decide) (fun _ => Int.zero_lt_one) sp
    exact (((hword key 1).append hcolon).append ((ih hp).mono (by decide))).append (hdefault hd)
  | rest gap p d ih =>
    obtain ⟨hp, hd⟩ := List.forall_mem_append.1 hp
    exact (((h.held_dots 1).append (h.held_blank 1 gap)).append ((ih hp).mono (by decide))).append
      (hdefault hd)
  | last i gap ih => exact (ih hp).append (h.held_blank 1 gap)
  | more i sp others ih ihothers =>
    obtain ⟨hi, hothers⟩ := List.forall_mem_append.1 hp
    exact ((ih hi).append (h.held_around (by decide) (fun _ => Int.zero_lt_one) sp)).append
      (ihothers hothers)

/-- How a pattern begins and ends. -/
theorem stands (p : Defaulted .pattern) (hp : p.Inert) : Pattern.Stands p.text where
  ink := by
    cases p with
    | name n => exact (Binding.stands (.name n)).ink
    | array opening inside =>
      exact ⟨⟨_, _, rfl, by decide⟩, ⟨Byte.rbracket, _, (List.cons_append ..).symm, by decide⟩⟩
    | object opening inside =>
      exact ⟨⟨_, _, rfl, by decide⟩, ⟨Byte.rbrace, _, (List.cons_append ..).symm, by decide⟩⟩
  dots := by
    cases p with
    | name n => exact (Binding.stands (.name n)).dots
    | array opening inside => simp +decide [text]
    | object opening inside => simp +decide [text]
  colon := held (.inr (.inl rfl)) p hp
  equals := held (.inr (.inr rfl)) p hp

/-- The names of a part of a pattern, as they are read from its text. -/
def Reads : {l : Binding.Level} → Defaulted l → Prop
  | .pattern, p => ∀ piece, Pattern.target piece = p.text → Pattern.pieceNames piece = p.names
  | .item _, i => ∀ gap : Blank, Pattern.names (gap.text ++ i.text) = i.names
  | .items _, t => ∀ gap : Blank, Pattern.names (gap.text ++ t.text) = t.names

theorem reads {l : Binding.Level} (p : Defaulted l) (hp : p.Inert) : p.Reads := by
  have hcomma : Separates Byte.comma := .inl rfl
  have hdefault {d : Option DefaultTail} (hd : ∀ e ∈ d.toList, Pattern.Inert e.value) :
      ∀ e ∈ d, Pattern.Inert e.value := fun e he => hd e (Option.mem_toList.2 he)
  induction p with
  | name n =>
    intro piece htarget
    rw [Pattern.pieceNames_of_isIdentifier (by rw [htarget]; exact n.fits), htarget]
    rfl
  | array opening inside ih =>
    intro piece htarget
    rw [Pattern.pieceNames_of_brackets htarget (.inr ⟨rfl, rfl⟩)]
    exact ih hp opening
  | object opening inside ih =>
    intro piece htarget
    rw [Pattern.pieceNames_of_brackets htarget (.inl ⟨rfl, rfl⟩)]
    exact ih hp opening
  | hole =>
    intro gap
    rw [text, List.append_nil, Pattern.names_eq_flatMap, (hcomma.held_blank 0 gap).split,
      List.flatMap_singleton]
    exact Pattern.pieceNames_of_isSpace gap.blank
  | element p d ih =>
    obtain ⟨hp, hd⟩ := List.forall_mem_append.1 hp
    intro gap
    rw [text, ← List.append_assoc]
    refine Pattern.names_default ((hcomma.held_blank 0 gap).append (held hcomma p hp)) (hdefault hd)
      fun z hz => ih hp _ ?_
    rw [List.append_assoc]
    exact Pattern.target_of_stands gap.blank hz (stands p hp)
  | shorthand n d =>
    intro gap
    rw [text, ← List.append_assoc]
    refine Pattern.names_default ((hcomma.held_blank 0 gap).append
      (hcomma.held_of_isWord 0 (word_of_isIdentifier n.fits))) (hdefault hp) fun z hz => ?_
    have htarget := Pattern.target_of_stands gap.blank hz (Binding.stands (.name n))
    rw [← List.append_assoc] at htarget
    change Pattern.target (gap.text ++ n.text ++ z) = n.text at htarget
    rw [Pattern.pieceNames_of_isIdentifier (by rw [htarget]; exact n.fits), htarget]
    rfl
  | keyed key sp p d ih =>
    obtain ⟨hp, hd⟩ := List.forall_mem_append.1 hp
    intro gap
    rw [text, ← List.append_assoc]
    have hcolon : Text.Held Byte.comma 0 (sp.around Byte.colon) :=
      hcomma.held_around (by decide) (by decide) sp
    refine Pattern.names_default ((hcomma.held_blank 0 gap).append
      (((hcomma.held_of_isWord 0 (word_of_isIdentifier key.fits)).append hcolon).append
        (held hcomma p hp))) (hdefault hd) fun z hz => ih hp _ ?_
    rw [List.append_assoc]
    exact Pattern.target_of_key gap.blank hz key.fits sp.before.blank sp.after.blank (stands p hp)
  | rest space p d ih =>
    obtain ⟨hp, hd⟩ := List.forall_mem_append.1 hp
    intro gap
    rw [text, ← List.append_assoc]
    refine Pattern.names_default ((hcomma.held_blank 0 gap).append
      (((hcomma.held_dots 0).append (hcomma.held_blank 0 space)).append (held hcomma p hp)))
        (hdefault hd) fun z hz => ih hp _ ?_
    rw [List.append_assoc]
    exact Pattern.target_of_dots gap.blank hz space.blank (stands p hp)
  | last i gap' ih =>
    intro gap
    rw [text, ← List.append_assoc, Pattern.names_append_blank gap'.blank]
    exact ih hp gap
  | more i sp others ih ihothers =>
    obtain ⟨hi, hothers⟩ := List.forall_mem_append.1 hp
    intro gap
    have hbalance : (gap.text ++ i.text ++ sp.before.text).balance = 0 := by
      rw [Text.balance_append, Text.balance_append, Text.balance_of_isSpace gap.blank,
        Text.balance_of_isSpace sp.before.blank, (held hcomma i hi).balance_eq_zero hcomma]
      rfl
    have hsplit : gap.text ++ (more i sp others).text =
        gap.text ++ i.text ++ sp.before.text ++ Byte.comma :: (sp.after.text ++ others.text) := by
      simp [text, Spacing.around]
    rw [hsplit, Pattern.names_append_comma hbalance, Pattern.names_append_blank sp.before.blank,
      ih hi gap, ihothers hothers sp.after]
    rfl

/-- The names that are read from a list of patterns are those of the tree, if the default values are
inert. -/
theorem names_text {k : Binding.Kind} (t : Defaulted (.items k))
    (ht : t.Inert) (gap : Blank) :
    Pattern.names (gap.text ++ t.text) = t.names :=
  t.reads ht gap

end Defaulted

end PageLang
