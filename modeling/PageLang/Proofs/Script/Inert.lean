import PageLang.Proofs.Script.Defaulted

/-!
# Which default values are inert

A default value stands in patterns of many forms, and each form puts it at another depth and in front
of other text. If the names of all of them are read right, the value is inert: the same value is put
behind two names, inside of square brackets and of braces, and behind a key, and what it does wrong is
wrong in one of them.

* `Pattern.inert_of_forall`: a value that is read right in all patterns is inert.
* `Defaulted.names_text_iff`: patterns with default values are read right if and only if the values are
  inert.
-/

namespace PageLang

open Script

/-! ## Two names -/

/-- Two identifiers that differ. -/
def Identifier.first : Identifier := ⟨"a", by decide⟩

/-- Two identifiers that differ. -/
def Identifier.second : Identifier := ⟨"b", by decide⟩

namespace Pattern

variable {own : Identifier → List Text} {others : List Text}

/-- What is found for every name is not found behind the name. -/
theorem eq_nil_of_forall (h : ∀ n, own n ++ others = [n.text]) : others = [] := by
  rcases List.append_eq_singleton_iff.1 (h .first) with ⟨-, hfirst⟩ | ⟨-, hnil⟩
  · rcases List.append_eq_singleton_iff.1 (h .second) with ⟨-, hsecond⟩ | ⟨-, hnil⟩
    · rw [hfirst] at hsecond
      exact absurd hsecond (by decide)
    · exact hnil
  · exact hnil

theorem ne_of_forall (h : ∀ n, own n = [n.text]) : own .first ≠ own .second := by
  rw [h, h]
  decide

/-- The pieces behind the first bind nothing: the same would be found for every name. -/
theorem tail_eq_nil (depth : Int) {front : Identifier → Text} {z : Text}
    (hwhole : ∀ n, (front n).splitTopLevel Byte.comma 0 = [front n])
    (hbalance : ∀ n, (front n).balance = depth) (hz : ∀ n, names (front n ++ z) = [n.text]) :
    (z.splitTopLevel Byte.comma depth).tail.flatMap pieceNames = [] ∧
      ∀ n, pieceNames (front n ++ z.firstPiece Byte.comma depth) = [n.text] := by
  obtain ⟨g, gs, heq⟩ :=
    List.exists_cons_of_ne_nil (Text.splitTopLevel_ne_nil Byte.comma depth z)
  have hnames (n : Identifier) : names (front n ++ z) =
      pieceNames (front n ++ g) ++ gs.flatMap pieceNames := by
    rw [names_eq_flatMap, Text.split_append (.inl rfl) (hwhole n), hbalance, Int.zero_add, heq]
    rfl
  have hnil := eq_nil_of_forall fun n => (hnames n).symm.trans (hz n)
  refine ⟨by rw [heq]; exact hnil, fun n => ?_⟩
  rw [Text.firstPiece_eq heq, ← hz n, hnames, hnil, List.append_nil]

/-! ## What stands in front of a default value -/

/-- A text in front of a default value that opens brackets, with a name in it. -/
structure Opens (o : UInt8) (depth : Int) (front : Identifier → Text) : Prop where
  first : ∀ n, ∃ rest, front n = o :: rest
  last : ∀ n, ∃ rest, front n = rest ++ [Byte.equals]
  bracket : o = Byte.lbracket ∨ o = Byte.lbrace
  whole : ∀ n separator, Binding.Separates separator →
    (front n).splitTopLevel separator 0 = [front n]
  balance : ∀ n, (front n).balance = depth

/-- What is left of a default value at the end of a piece, with as many brackets open in front of it. -/
def remainder (depth : Int) (z : Text) : Text :=
  (((z.firstPiece Byte.comma depth).trimEnd).firstPiece Byte.equals depth).trimEnd

variable {o : UInt8} {depth : Int} {front : Identifier → Text}

theorem Opens.isInk (h : Opens o depth front) (n : Identifier) : Text.IsInk (front n) := by
  obtain ⟨rest, hfirst⟩ := h.first n
  obtain ⟨rest', hlast⟩ := h.last n
  refine ⟨⟨o, rest, hfirst, ?_⟩, ⟨Byte.equals, rest', hlast, by decide⟩⟩
  rcases h.bracket with rfl | rfl <;> decide

theorem Opens.pieceNames (h : Opens o depth front) {z : Text}
    (hz : ∀ n, names (front n ++ z) = [n.text]) (n : Identifier) :
    pieceNames (front n ++ z.firstPiece Byte.comma depth) = [n.text] :=
  (tail_eq_nil depth (fun n => h.whole n _ (.inl rfl)) h.balance hz).2 n

/-- The piece does not rename, so what it binds is left of the equals sign. -/
theorem Opens.target (h : Opens o depth front) {z : Text}
    (hz : ∀ n, names (front n ++ z) = [n.text]) (n : Identifier) :
    target (front n ++ z.firstPiece Byte.comma depth) = front n ++ remainder depth z := by
  have htrim (n : Identifier) (z : Text) : (front n ++ z).trim = front n ++ z.trimEnd :=
    Text.trim_append_of_ink (List.forall_mem_nil _) (h.isInk n) z
  have hdots (n : Identifier) (z : Text) : (front n ++ z).stripMarks ["..."] 0 = front n ++ z := by
    refine Text.stripDots_of_ne fun hhead => ?_
    obtain ⟨rest, hfirst⟩ := h.first n
    obtain rfl : o = Byte.dot := by simpa [hfirst] using hhead
    rcases h.bracket with hb | hb <;> cases hb
  obtain ⟨p, ps, heq⟩ := List.exists_cons_of_ne_nil
    (Text.splitTopLevel_ne_nil Byte.colon depth (z.firstPiece Byte.comma depth).trimEnd)
  have hsplit (n : Identifier) : Text.splitTopLevel Byte.colon 0
      (front n ++ (z.firstPiece Byte.comma depth).trimEnd) = (front n ++ p) :: ps := by
    rw [Text.split_append (.inr (.inl rfl)) (h.whole n _ (.inr (.inl rfl))), h.balance, Int.zero_add,
      heq]
    rfl
  have hrenamed (hps : ps.length ≠ 1) :
      renamed (front n ++ (z.firstPiece Byte.comma depth).trimEnd) =
        front n ++ (z.firstPiece Byte.comma depth).trimEnd := by
    rw [renamed, hsplit]
    split
    · next heq => exact absurd (by rw [(List.cons.inj heq).2]; rfl) hps
    · rfl
  by_cases hps : ps.length = 1
  · -- the value behind the only colon is the same for every name
    obtain ⟨v, rfl⟩ := List.length_eq_one_iff.1 hps
    have htarget (n : Identifier) : Pattern.target (front n ++ z.firstPiece Byte.comma depth) =
        (v.trim.firstPiece Byte.equals 0).trim := by
      rw [Pattern.target, htrim, hdots, renamed, hsplit]
      rfl
    refine absurd ?_ (ne_of_forall (h.pieceNames hz))
    rw [Pattern.pieceNames, Pattern.pieceNames, htarget, htarget]
  · have hfirst := Text.firstPiece_append (.inr (.inr rfl)) (h.whole n _ (.inr (.inr rfl)))
      (z.firstPiece Byte.comma depth).trimEnd
    rw [h.balance, Int.zero_add] at hfirst
    rw [Pattern.target, htrim, hdots, hrenamed hps]
    exact (congrArg Text.trim hfirst).trans (htrim n _)

/-- If the name is read, the last visible byte of what is left closes the first bracket. -/
theorem Opens.getLast? (h : Opens o depth front) {z : Text}
    (hz : ∀ n, names (front n ++ z) = [n.text]) :
    (Byte.equals :: remainder depth z).getLast? =
      some (if o = Byte.lbracket then Byte.rbracket else Byte.rbrace) := by
  have hnames := h.pieceNames hz .first
  obtain ⟨rest, hfirst⟩ := h.first .first
  obtain ⟨rest', hlast⟩ := h.last .first
  have hhead : (front .first ++ remainder depth z).head? = some o := by rw [hfirst]; rfl
  have hend : (front .first ++ remainder depth z).getLast? =
      (Byte.equals :: remainder depth z).getLast? := by
    rw [hlast, List.append_assoc, List.singleton_append, List.getLast?_append, List.getLast?_cons]
    rfl
  rw [Pattern.pieceNames, h.target hz, inner?, hhead, hend] at hnames
  split at hnames
  · next hinner =>
    split at hinner
    · next hbrackets =>
      rcases hbrackets with ⟨ho, hc⟩ | ⟨ho, hc⟩
      · obtain rfl := Option.some.inj ho
        exact hc
      · obtain rfl := Option.some.inj ho
        exact hc
    · cases hinner
  · have hnot : Text.isIdentifier (front .first ++ remainder depth z) = false := by
      rw [hfirst]
      rcases h.bracket with rfl | rfl <;> rfl
    rw [hnot] at hnames
    cases hnames

/-- Behind a key nothing is bound if a colon follows. -/
theorem split_of_key (key : Identifier) {n : Identifier} {w : Text}
    (h : Pattern.pieceNames (key.text ++ [Byte.colon] ++ w) = [n.text]) :
    w.splitTopLevel Byte.colon 0 = [w] := by
  have hwords := word_of_isIdentifier key.fits
  have hhead : ∃ c rest, key.text = c :: rest ∧ Byte.isWord c = true := by
    obtain ⟨c, rest, heq, -⟩ := Text.exists_of_isIdentifier key.fits
    exact ⟨c, rest, heq, hwords c (heq ▸ .head _)⟩
  obtain ⟨c, rest, heq, hc⟩ := hhead
  have hink : Text.IsInk (key.text ++ [Byte.colon]) :=
    ⟨⟨c, _, by rw [heq]; rfl, Text.isInk_of_isWord c hc⟩, ⟨Byte.colon, key.text, rfl, by decide⟩⟩
  have htrim (w : Text) : (key.text ++ [Byte.colon] ++ w).trim =
      key.text ++ [Byte.colon] ++ w.trimEnd :=
    Text.trim_append_of_ink (List.forall_mem_nil _) hink w
  have hdots (w : Text) : (key.text ++ [Byte.colon] ++ w).stripMarks ["..."] 0 =
      key.text ++ [Byte.colon] ++ w := by
    refine Text.stripDots_of_ne fun hhead => ?_
    obtain rfl : c = Byte.dot := by simpa [heq] using hhead
    simp +decide at hc
  by_contra hw
  have hcut : w.trimEnd.splitTopLevel Byte.colon 0 ≠ [w.trimEnd] := by
    intro hwhole
    obtain ⟨gap, hgap, hblank⟩ := Text.exists_of_trimEnd w
    refine hw ?_
    rw [hgap]
    refine Text.split_append_eq (.inr (.inl rfl)) hwhole
      (Text.split_of_forall_ne (.inr (.inl rfl)) ?_)
    rintro b hb rfl
    have := hblank _ hb
    simp +decide at this
  have hsplit : (key.text ++ [Byte.colon] ++ w.trimEnd).splitTopLevel Byte.colon 0 =
      key.text :: w.trimEnd.splitTopLevel Byte.colon 0 := by
    have hbalance : (0 : Int) + key.text.balance = 0 := by
      rw [Text.balance_of_isWord hwords]
      rfl
    rw [List.append_assoc, List.singleton_append,
      Text.split_append_separator (.inr (.inl rfl)) (by decide) hbalance,
      Text.splitTopLevel_of_isWord hwords (by simp)]
    rfl
  have hrenamed : renamed (key.text ++ [Byte.colon] ++ w.trimEnd) =
      key.text ++ [Byte.colon] ++ w.trimEnd := by
    rw [renamed, hsplit]
    split
    · next hpieces =>
      have hsingle := (List.cons.inj hpieces).2
      rw [Text.eq_of_split_singleton (.inr (.inl rfl)) hsingle] at hsingle
      exact absurd hsingle hcut
    · rfl
  have hwhole : (key.text ++ [Byte.colon]).splitTopLevel Byte.equals 0 =
      [key.text ++ [Byte.colon]] :=
    ((Binding.Separates.held_of_isWord (.inr (.inr rfl)) 0 hwords).append
      (Text.held_singleton (by decide) (by decide) (by decide) (by decide))).split
  have htarget : ∃ z, Pattern.target (key.text ++ [Byte.colon] ++ w) =
      key.text ++ [Byte.colon] ++ z := by
    rw [Pattern.target, htrim, hdots, hrenamed]
    refine ⟨_, (congrArg Text.trim (Text.firstPiece_append (.inr (.inr rfl)) hwhole _)).trans
      (htrim _)⟩
  obtain ⟨z, htarget⟩ := htarget
  have hinner : inner? (key.text ++ [Byte.colon] ++ z) = none := by
    have hbracket : c ≠ Byte.lbrace ∧ c ≠ Byte.lbracket := by
      constructor <;> rintro rfl <;> simp +decide at hc
    rw [inner?, heq]
    simp [hbracket]
  have hnot : Text.isIdentifier (key.text ++ [Byte.colon] ++ z) ≠ true := fun hfits => by
    have := word_of_isIdentifier hfits Byte.colon (by simp)
    simp +decide at this
  rw [Pattern.pieceNames, htarget, hinner] at h
  exact absurd ((if_neg hnot).symm.trans h) (by simp)

end Pattern

/-! ## Patterns of all forms -/

namespace Binding.Kind

def opening : Kind → UInt8
  | .elements => Byte.lbracket
  | .properties => Byte.lbrace

def closing : Kind → UInt8
  | .elements => Byte.rbracket
  | .properties => Byte.rbrace

/-- What stands in front of a pattern in a list. -/
def key : Kind → Text
  | .elements => []
  | .properties => Identifier.first.text ++ [Byte.colon]

/-- The brackets and keys in front of a pattern that is nested that deep. -/
def fronts (k : Kind) : Nat → Text
  | 0 => k.opening :: k.key
  | depth + 1 => k.opening :: (k.key ++ k.fronts depth)

theorem held_key (k : Kind) {separator : UInt8} (h : Separates separator) {floor : Int}
    (hfloor : Byte.colon = separator → 0 < floor) : Text.Held separator floor k.key := by
  cases k with
  | elements => exact Text.held_nil _ _
  | properties =>
    exact (h.held_of_isWord floor (word_of_isIdentifier Identifier.first.fits)).append
      (Text.held_singleton (by decide) (by decide) (by decide) hfloor)

theorem balance_key (k : Kind) : k.key.balance = 0 := by cases k <;> decide

theorem balance_opening (k : Kind) : Text.balance [k.opening] = 1 := by cases k <;> decide

theorem balance_closing (k : Kind) : Text.balance [k.closing] = -1 := by cases k <;> decide

theorem balance_fronts (k : Kind) (depth : Nat) : (k.fronts depth).balance = depth + 1 := by
  induction depth with
  | zero =>
    rw [fronts, Text.balance_cons, balance_opening, balance_key]
    rfl
  | succ depth ih =>
    rw [fronts, Text.balance_cons, Text.balance_append, balance_opening, balance_key, ih]
    omega

theorem split_fronts (k : Kind) {separator : UInt8} (h : Separates separator) (m : Nat) {depth : Int}
    (hdepth : 0 ≤ depth) : (k.fronts m).splitTopLevel separator depth = [k.fronts m] := by
  have hopening (rest : Text) (depth : Int) :
      ¬ Text.CutsAt separator depth k.opening rest := by
    rintro ⟨rfl, -⟩
    have := h.plain.1
    cases k <;> cases this
  induction m generalizing depth with
  | zero =>
    refine (Text.split_cons_iff h).2 ⟨hopening _ _, ?_⟩
    rw [balance_opening]
    exact (k.held_key h fun _ => Int.zero_lt_one).whole (by omega)
  | succ m ih =>
    refine (Text.split_cons_iff h).2 ⟨hopening _ _, ?_⟩
    rw [balance_opening]
    refine Text.split_append_eq h ((k.held_key h fun _ => Int.zero_lt_one).whole (by omega)) (ih ?_)
    rw [balance_key]
    omega

/-- The brackets behind a pattern that is nested that deep. -/
def closers (k : Kind) (m : Nat) : Text := List.replicate (m + 1) k.closing

theorem split_closers (k : Kind) {separator : UInt8} (h : Separates separator) (m : Nat)
    (depth : Int) : (k.closers m).splitTopLevel separator depth = [k.closers m] := by
  refine Text.split_of_forall_ne h ?_
  rintro b hb rfl
  have := h.plain.2.1
  rw [List.eq_of_mem_replicate hb] at this
  cases k <;> cases this

theorem head_closers (k : Kind) (m : Nat) :
    ∀ c ∈ (k.closers m).head?, c ≠ Byte.equals ∧ c ≠ Byte.greater := by
  intro c hc
  rw [List.eq_of_mem_replicate (List.mem_of_mem_head? hc)]
  cases k <;> decide

theorem trimEnd_closers (k : Kind) (m : Nat) (t : Text) :
    (t ++ k.closers m).trimEnd = t ++ k.closers m := by
  rw [closers, List.replicate_succ', ← List.append_assoc]
  exact Text.trimEnd_of_ink (by cases k <;> decide)

end Binding.Kind

namespace Defaulted

/-- A list of one item. -/
def single : (k : Binding.Kind) → Defaulted .pattern → Option DefaultTail → Defaulted (.items k)
  | .elements, p, d => last (element p d) .nothing
  | .properties, p, d => last (keyed .first .tight p d) .nothing

/-- A list in its brackets. -/
def bracketed : (k : Binding.Kind) → Defaulted (.items k) → Defaulted .pattern
  | .elements, t => array .nothing t
  | .properties, t => object .nothing t

/-- A name with a default value, in a list that stands that deep in lists of one item. -/
def nested (k : Binding.Kind) (n : Identifier) (d : DefaultTail) : Nat → Defaulted (.items k)
  | 0 => single k (name n) (some d)
  | depth + 1 => single k (bracketed k (nested k n d depth)) none

variable (k : Binding.Kind) (p : Defaulted .pattern) (d : Option DefaultTail)
  (t : Defaulted (.items k)) (n : Identifier) (e : DefaultTail)

theorem text_single : (single k p d).text = k.key ++ (p.text ++ DefaultTail.text d) := by
  cases k <;> simp [single, text, Binding.Kind.key, Spacing.around, Spacing.tight, Blank.nothing]

theorem names_single : (single k p d).names = p.names := by cases k <;> rfl

theorem defaults_single : (single k p d).defaults = p.defaults ++ d.toList := by cases k <;> rfl

theorem text_bracketed : (bracketed k t).text = k.opening :: (t.text ++ [k.closing]) := by
  cases k <;> rfl

theorem names_bracketed : (bracketed k t).names = t.names := by cases k <;> rfl

theorem defaults_bracketed : (bracketed k t).defaults = t.defaults := by cases k <;> rfl

theorem text_nested (depth : Nat) : (bracketed k (nested k n e depth)).text =
    k.fronts depth ++ (n.text ++ DefaultTail.text (some e)) ++
      k.closers depth := by
  induction depth with
  | zero => simp [text_bracketed, nested, text_single, text, Binding.Kind.fronts, Binding.Kind.closers]
  | succ depth ih =>
    rw [text_bracketed, nested, text_single, ih, Binding.Kind.closers, Binding.Kind.closers,
      List.replicate_succ' (n := depth + 1)]
    simp [Binding.Kind.fronts, DefaultTail.text]

theorem names_nested (depth : Nat) : (nested k n e depth).names = [n.text] := by
  induction depth with
  | zero => exact names_single ..
  | succ depth ih => rw [nested, names_single, names_bracketed, ih]

theorem defaults_nested (depth : Nat) : (nested k n e depth).defaults = [e] := by
  induction depth with
  | zero => rw [nested, defaults_single]; rfl
  | succ depth ih => rw [nested, defaults_single, defaults_bracketed, ih]; rfl

end Defaulted

/-! ## Values that are read right in all patterns -/

namespace Pattern

open Defaulted
open Binding (Kind Separates)

/-- A default value with which the names of every pattern are read right. -/
def Harmless (e : Text) : Prop :=
  ∀ {k : Kind} (t : Defaulted (.items k)), (∀ d ∈ t.defaults, d.value = e) → names t.text = t.names

theorem held_named {separator : UInt8} (h : Separates separator) {floor : Int}
    (hfloor : Byte.equals = separator → 0 < floor) (n : Identifier) :
    Text.Held separator floor (n.text ++ [Byte.equals]) :=
  (h.held_of_isWord floor (word_of_isIdentifier n.fits)).append
    (h.held_around (by decide) hfloor .tight)

theorem balance_named (n : Identifier) : Text.balance (n.text ++ [Byte.equals]) = 0 := by
  rw [Text.balance_append, Text.balance_of_isWord (word_of_isIdentifier n.fits)]
  decide

theorem Opens.of_fronts (k : Kind) (m : Nat) :
    Opens k.opening (m + 1) fun n => k.fronts m ++ (n.text ++ [Byte.equals]) where
  first n := by cases m <;> exact ⟨_, rfl⟩
  last n := ⟨k.fronts m ++ n.text, (List.append_assoc ..).symm⟩
  bracket := by cases k <;> simp [Kind.opening]
  whole n separator h := by
    refine Text.split_append_eq h (k.split_fronts h m (Int.le_refl 0)) ?_
    rw [k.balance_fronts]
    exact (held_named h (fun _ => Int.zero_lt_one) n).whole (by omega)
  balance n := by
    rw [Text.balance_append, k.balance_fronts, balance_named, Int.add_zero]

section
variable {d : DefaultTail} (h : Harmless d.value)
include h

/-- The value behind a name. -/
theorem Harmless.names_single (k : Kind) (n : Identifier) :
    names (k.key ++ (n.text ++ [Byte.equals]) ++ d.value) = [n.text] := by
  have := h (single k (name n) (some ⟨.tight, d.value, d.starts⟩)) (by
    rw [defaults_single]
    simp [defaults])
  rw [text_single, Defaulted.names_single] at this
  simpa [text, DefaultTail.text, Spacing.around, Spacing.tight, Blank.nothing, Defaulted.names]
    using this

/-- The value in brackets. -/
theorem Harmless.names_nested (k : Kind) (m : Nat) (outer : Kind) (n : Identifier) :
    names (outer.key ++ (k.fronts m ++ (n.text ++ [Byte.equals])) ++
      (d.value ++ k.closers m)) = [n.text] := by
  have := h (single outer (bracketed k (nested k n ⟨.tight, d.value, d.starts⟩ m)) none) (by
    rw [defaults_single, defaults_bracketed, defaults_nested]
    simp)
  rw [text_single, text_nested, Defaulted.names_single, names_bracketed,
    Defaulted.names_nested] at this
  simpa [DefaultTail.text, Spacing.around, Spacing.tight, Blank.nothing] using this

/-- The value in brackets and behind them. -/
theorem Harmless.names_twice (k : Kind) (n : Identifier) :
    names ((k.fronts 0 ++ (n.text ++ [Byte.equals])) ++ (d.value ++ k.closers 0) ++ [Byte.equals] ++
      d.value) = [n.text] := by
  have := h (single .elements (bracketed k (nested k n ⟨.tight, d.value, d.starts⟩ 0))
    (some ⟨.tight, d.value, d.starts⟩)) (by
      rw [defaults_single, defaults_bracketed, defaults_nested]
      simp)
  rw [text_single, text_nested, Defaulted.names_single, names_bracketed,
    Defaulted.names_nested] at this
  simpa [DefaultTail.text, Spacing.around, Spacing.tight, Blank.nothing, Kind.key] using this

/-- Of the value there is not the same left in square brackets and in braces. -/
theorem Harmless.remainder_ne (m : Nat) :
    remainder (m + 1) (d.value ++ Kind.elements.closers m) ≠
      remainder (m + 1) (d.value ++ Kind.properties.closers m) := by
  intro heq
  have helements := (Opens.of_fronts .elements m).getLast? fun n =>
    h.names_nested .elements m .elements n
  have hproperties := (Opens.of_fronts .properties m).getLast? fun n =>
    h.names_nested .properties m .elements n
  rw [heq, hproperties] at helements
  exact absurd helements (by decide)

theorem Harmless.comma (m : Nat) : d.value.splitTopLevel Byte.comma (m + 1) = [d.value] := by
  by_contra hcut
  refine h.remainder_ne m ?_
  have hfirst (k : Kind) : (d.value ++ k.closers m).firstPiece Byte.comma (m + 1) =
      d.value.firstPiece Byte.comma (m + 1) :=
    Text.firstPiece_append_of_ne (.inl rfl) hcut (k.head_closers m)
  rw [remainder, remainder, hfirst, hfirst]

/-- So the value stands in one piece with the brackets behind it. -/
theorem Harmless.firstPiece_closers (k : Kind) (m : Nat) :
    (d.value ++ k.closers m).firstPiece Byte.comma (m + 1) = d.value ++ k.closers m :=
  Text.firstPiece_eq (Text.split_append_eq (.inl rfl) (h.comma m) (k.split_closers (.inl rfl) m _))

theorem Harmless.equals (m : Nat) : d.value.splitTopLevel Byte.equals (m + 1) = [d.value] := by
  by_contra hcut
  refine h.remainder_ne m ?_
  have hfirst (k : Kind) : (d.value ++ k.closers m).firstPiece Byte.equals (m + 1) =
      d.value.firstPiece Byte.equals (m + 1) :=
    Text.firstPiece_append_of_ne (.inr (.inr rfl)) hcut (k.head_closers m)
  rw [remainder, remainder, h.firstPiece_closers, h.firstPiece_closers, Kind.trimEnd_closers,
    Kind.trimEnd_closers, hfirst, hfirst]

theorem Harmless.colon (m : Nat) : d.value.splitTopLevel Byte.colon (m + 1) = [d.value] := by
  have hopens := Opens.of_fronts .elements m
  have hkey : Text.Held Byte.comma 0 Kind.properties.key :=
    Kind.properties.held_key (.inl rfl) (by decide)
  have hpiece := (tail_eq_nil (m + 1)
    (fun n => Text.split_append_eq (.inl rfl) hkey.split
      (by rw [Kind.balance_key]; exact hopens.whole n _ (.inl rfl)))
    (fun n => by rw [Text.balance_append, Kind.balance_key, hopens.balance, Int.zero_add])
    fun n => h.names_nested .elements m .properties n).2 .first
  rw [h.firstPiece_closers, List.append_assoc] at hpiece
  have hwhole := split_of_key .first hpiece
  have hvalue := Text.split_of_append_right (.inr (.inl rfl))
    (hopens.whole .first _ (.inr (.inl rfl))) hwhole
  rw [hopens.balance, Int.zero_add] at hvalue
  exact Text.split_of_append (.inr (.inl rfl)) (by decide) hvalue

theorem Harmless.inBrackets (separator : UInt8) (hseparator : Separates separator) (depth : Int)
    (hdepth : 0 < depth) : d.value.splitTopLevel separator depth = [d.value] := by
  obtain ⟨m, rfl⟩ : ∃ m : Nat, depth = m + 1 := ⟨(depth - 1).toNat, by omega⟩
  rcases hseparator with rfl | rfl | rfl
  · exact h.comma m
  · exact h.colon m
  · exact h.equals m

theorem Harmless.closes : d.value.balance = 0 := by
  by_contra hbalance
  have hopens (k : Kind) : Opens k.opening d.value.balance fun n =>
      k.fronts 0 ++ (n.text ++ [Byte.equals]) ++ (d.value ++ k.closers 0) ++ [Byte.equals] := by
    have hfronts := Opens.of_fronts k 0
    have hclosers : (k.closers 0).balance = -1 := k.balance_closing
    have hbefore (n : Identifier) :
        (k.fronts 0 ++ (n.text ++ [Byte.equals]) ++ (d.value ++ k.closers 0)).balance =
          d.value.balance := by
      rw [Text.balance_append, hfronts.balance, Text.balance_append, hclosers]
      omega
    refine ⟨fun n => ⟨_, rfl⟩, fun n => ⟨_, rfl⟩, hfronts.bracket, fun n separator hsep => ?_,
      fun n => ?_⟩
    · refine Text.split_append_eq hsep (Text.split_append_eq hsep (hfronts.whole n _ hsep)
        (Text.split_append_eq hsep (h.inBrackets _ hsep _ ?_) (k.split_closers hsep 0 _))) ?_
      · rw [hfronts.balance]
        decide
      · refine (Text.split_cons_iff hsep).2 ⟨fun hcut => hbalance ?_, rfl⟩
        have := hcut.2.1
        rwa [hbefore, Int.zero_add] at this
    · rw [Text.balance_append, hbefore, Text.balance_separator (.inr (.inr rfl)), Int.add_zero]
  have helements := (hopens .elements).getLast? (h.names_twice .elements)
  have hproperties := (hopens .properties).getLast? (h.names_twice .properties)
  rw [hproperties] at helements
  exact absurd helements (by decide)

/-- A value that is read right in all patterns is inert. -/
theorem Harmless.inert : Inert d.value where
  closes := h.closes
  inBrackets := h.inBrackets
  colon := by
    have hcomma : Separates Byte.comma := .inl rfl
    have hpiece := (tail_eq_nil 0
      (fun n => ((Kind.properties.held_key hcomma (by decide)).append
        (held_named hcomma (by decide) n)).split)
      (fun n => by rw [Text.balance_append, Kind.balance_key, balance_named]; rfl)
      (h.names_single .properties)).2 .first
    rw [List.append_assoc] at hpiece
    have hvalue := Text.split_of_append_right (.inr (.inl rfl))
      (held_named (.inr (.inl rfl)) (by decide) .first).split (split_of_key .first hpiece)
    rwa [balance_named] at hvalue
  names := (tail_eq_nil 0
    (fun n => (held_named (.inl rfl) (by decide) n).split) balance_named
    (h.names_single .elements)).1

end

end Pattern

/-- The names of all patterns with default values are read right if and only if the default values are
inert. -/
theorem Defaulted.names_text_iff (allowed : Text → Prop) :
    (∀ {k : Binding.Kind} (t : Defaulted (.items k)) (gap : Blank),
      (∀ d ∈ t.defaults, allowed d.value) → Pattern.names (gap.text ++ t.text) = t.names) ↔
    ∀ d : DefaultTail, allowed d.value → Pattern.Inert d.value := by
  constructor
  · intro h d hd
    refine Pattern.Harmless.inert fun t ht => h t .nothing fun e he => ?_
    rw [ht e he]
    exact hd
  · intro h k t gap ht
    exact t.names_text (fun d hd => h d (ht d hd)) gap

end PageLang
