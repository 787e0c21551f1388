import PageLang.Proofs.Qualify.Bindings

/-!
# Declarations as trees

A declaration is a keyword with a list of declarators: patterns, each with a value or without. Blank
space, newlines included, may stand between its words and marks. Of the names that it binds, those
are on its line whose patterns end in front of the first newline.

* `Declaration`: a declaration and its text.
* `Declaration.onLine`: the names on its line.
-/

namespace PageLang.Lines

open Cell MaskedText Script

/-! ## Trees -/

/-- A value of a declarator. -/
inductive Value where
  | integer (n : Script.Digits)
  | name (n : Identifier)

def Value.text : Value → Text
  | integer n => n.text
  | name n => n.text

/-- A pattern, and the value that it may have. -/
structure Declarator where
  target : Binding .pattern
  value : Option (Spacing × Value)

namespace Declarator

/-- The value with its equals sign. -/
def back (d : Declarator) : Text :=
  match d.value with
  | none => []
  | some (sp, v) => sp.around Byte.equals ++ v.text

def text (d : Declarator) : Text := d.target.text ++ d.back

end Declarator

/-- Declarators with commas between them. -/
inductive Declarators where
  | last (d : Declarator) (gap : Blank)
  | more (d : Declarator) (sp : Spacing) (others : Declarators)

namespace Declarators

def text : Declarators → Text
  | last d gap => d.text ++ gap.text
  | more d sp others => d.text ++ (sp.around Byte.comma ++ others.text)

def names : Declarators → List Text
  | last d _ => d.target.names
  | more d _ others => d.target.names ++ others.names

/-- The names of the patterns that end on the line where the first one begins. -/
def onLine : Declarators → List Text
  | last d _ => if Byte.newline ∈ d.target.text then [] else d.target.names
  | more d sp others =>
    if Byte.newline ∈ d.target.text then []
    else d.target.names ++
      if Byte.newline ∈ d.back ++ sp.around Byte.comma then [] else others.onLine

end Declarators

/-- A declaration by keyword. Between the keyword and a name stands a blank. -/
structure Declaration where
  keyword : String
  isKeyword : keyword ∈ Recogniser.keywords
  space : Blank
  list : Declarators
  apart : space.text = [] → ∀ b ∈ list.text.head?, Byte.isWord b = false

namespace Declaration

/-- A declaration up to its semicolon. -/
def front (D : Declaration) : Text := Text.ofString D.keyword ++ (D.space.text ++ D.list.text)

def text (D : Declaration) : Text := D.front ++ [Byte.semicolon]

def names (D : Declaration) : List Text := D.list.names

/-- The names that stand on the line of the keyword, behind a blank. -/
def onLine (D : Declaration) : List Text :=
  if D.space.text = [] ∨ Byte.newline ∈ D.space.text then [] else D.list.onLine

end Declaration

/-! ## The names on a line -/

theorem Declarators.onLine_subset (ds : Declarators) : ds.onLine ⊆ ds.names := by
  induction ds with
  | last d gap =>
    unfold onLine
    split
    · exact List.nil_subset _
    · exact List.Subset.refl _
  | more d sp others ih =>
    unfold onLine
    split
    · exact List.nil_subset _
    · refine List.append_subset.2 ⟨List.subset_append_left _ _, ?_⟩
      split
      · exact List.nil_subset _
      · exact List.subset_append_of_subset_right _ ih

theorem Declaration.onLine_subset (D : Declaration) : D.onLine ⊆ D.names := by
  unfold onLine
  split
  · exact List.nil_subset _
  · exact D.list.onLine_subset

theorem Declarators.isIdentifier_of_mem_names (ds : Declarators) {n : Text} (hn : n ∈ ds.names) :
    n.isIdentifier = true := by
  induction ds with
  | last d gap => exact d.target.isIdentifier_of_mem_names hn
  | more d sp others ih =>
    exact (List.mem_append.1 hn).elim d.target.isIdentifier_of_mem_names ih

/-! ## The bytes of a declaration -/

theorem Value.isWord (v : Value) : ∀ b ∈ v.text, Byte.isWord b = true := by
  cases v with
  | integer n =>
    intro b hb
    have hword : ∀ b, Byte.isDigit b = true → Byte.isWord b = true :=
      Byte.forall_of_nibbles (by decide)
    exact hword b (n.digits b hb)
  | name n => exact word_of_isIdentifier n.fits

/-- Behind the pattern of a declarator stand blanks, an equals sign and a word. -/
theorem Declarator.of_mem_back (d : Declarator) : ∀ b ∈ d.back,
    Byte.isSpace b = true ∨ b = Byte.equals ∨ Byte.isWord b = true := by
  unfold back
  cases d.value with
  | none => simp
  | some x =>
    obtain ⟨sp, v⟩ := x
    intro b hb
    simp only [Spacing.around, List.mem_append, List.mem_singleton] at hb
    rcases hb with ((hb | hb) | hb) | hb
    · exact .inl (sp.before.blank b hb)
    · exact .inr (.inl hb)
    · exact .inl (sp.after.blank b hb)
    · exact .inr (.inr (v.isWord b hb))

/-- No word touches the pattern of a declarator. -/
theorem Declarator.not_word_back (d : Declarator) : ∀ b ∈ d.back.head?, Byte.isWord b = false := by
  unfold back
  cases d.value with
  | none => simp
  | some x =>
    obtain ⟨sp, v⟩ := x
    intro b hb
    cases hspace : sp.before.text with
    | nil =>
      obtain rfl : Byte.equals = b := by simpa [Spacing.around, hspace] using hb
      decide
    | cons c gap =>
      obtain rfl : c = b := by simpa [Spacing.around, hspace] using hb
      exact Text.not_word_of_isSpace c (sp.before.blank c (by simp [hspace]))

theorem Declarator.settled_back (d : Declarator) : Settled d.back := by
  refine settled_of_forall fun b hb => ?_
  have hplain : ∀ b, Byte.isSpace b = true ∨ b = Byte.equals ∨ Byte.isWord b = true →
      Byte.isCalm b = true ∧ b ≠ Byte.semicolon ∧ b ≠ Byte.lbrace ∧ b ≠ Byte.rbrace :=
    Byte.forall_of_nibbles (by decide)
  exact hplain b (d.of_mem_back b hb)

theorem settled_comma (sp : Spacing) : Settled (sp.around Byte.comma) :=
  ((settled_blank sp.before).append (settled_of_forall (by decide))).append
    (settled_blank sp.after)

theorem Declarators.settled (ds : Declarators) : Settled ds.text := by
  induction ds with
  | last d gap => exact ((settled_binding d.target).append d.settled_back).append (settled_blank gap)
  | more d sp others ih =>
    exact ((settled_binding d.target).append d.settled_back).append ((settled_comma sp).append ih)

/-- The bytes of declarators are those of patterns, and equals signs. -/
theorem Declarators.fits (ds : Declarators) : ∀ b ∈ ds.text, Binding.Fits b ∨ b = Byte.equals := by
  have hspace {gap : Text} (hgap : ∀ b ∈ gap, Byte.isSpace b = true) :
      ∀ b ∈ gap, Binding.Fits b ∨ b = Byte.equals := fun b hb => .inl (.inl (.inr (.inl (hgap b hb))))
  have hdeclarator (d : Declarator) : ∀ b ∈ d.text, Binding.Fits b ∨ b = Byte.equals := by
    refine List.forall_mem_append.2 ⟨fun b hb => .inl (d.target.fits_text b hb), fun b hb => ?_⟩
    rcases d.of_mem_back b hb with hb | hb | hb
    · exact .inl (.inl (.inr (.inl hb)))
    · exact .inr hb
    · exact .inl (.inl (.inl hb))
  induction ds with
  | last d gap => exact List.forall_mem_append.2 ⟨hdeclarator d, hspace gap.blank⟩
  | more d sp others ih =>
    refine List.forall_mem_append.2 ⟨hdeclarator d, List.forall_mem_append.2 ⟨?_, ih⟩⟩
    refine List.forall_mem_append.2 ⟨List.forall_mem_append.2 ⟨hspace sp.before.blank, ?_⟩,
      hspace sp.after.blank⟩
    exact List.forall_mem_singleton.2 (.inl (.inl (.inr (.inr (.inr (.inl rfl))))))

theorem Declaration.settled_front (D : Declaration) : Settled D.front :=
  (settled_word (Recogniser.isWord_of_mem_keywords _ D.isKeyword)).append
    ((settled_blank D.space).append D.list.settled)

/-- A list of declarators begins with a mark or a word. -/
theorem Declarators.exists_ink (ds : Declarators) : ∃ b t, ds.text = b :: t ∧ Byte.isInk b = true := by
  have htarget (d : Declarator) (u : Text) : ∃ b t, d.text ++ u = b :: t ∧ Byte.isInk b = true := by
    obtain ⟨b, t, heq, hb⟩ := d.target.stands.ink.first
    exact ⟨b, _, by rw [Declarator.text, heq]; rfl, hb⟩
  cases ds with
  | last d gap => exact htarget d gap.text
  | more d sp others => exact htarget d _

/-! ## Words in rows -/

/-- A mark follows each word of a declarator, if one follows the declarator. -/
theorem Declarator.rows (d : Declarator) {t : Text} (hfollows : Follows rowMarks t)
    (h : Rows rowMarks t) : Rows rowMarks (d.text ++ t) := by
  have hmarks : patternMarks ⊆ rowMarks := by decide
  unfold text back
  cases d.value with
  | none =>
    rw [List.append_nil]
    exact rows_binding hmarks d.target hfollows h
  | some x =>
    obtain ⟨sp, v⟩ := x
    have hvalue := (((h.append_word v.isWord hfollows).append_space sp.after.blank).cons
      (b := Byte.equals) (by decide)).append_space sp.before.blank
    have := rows_binding hmarks d.target
      ((follows_cons (by decide) _).append sp.before.blank) hvalue
    simpa [Spacing.around] using this

theorem Declarators.rows (ds : Declarators) {t : Text} (hfollows : Follows rowMarks t)
    (h : Rows rowMarks t) : Rows rowMarks (ds.text ++ t) := by
  induction ds with
  | last d gap =>
    have := d.rows (hfollows.append gap.blank) (h.append_space gap.blank)
    simpa [text] using this
  | more d sp others ih =>
    have hothers := ((ih.append_space sp.after.blank).cons (b := Byte.comma) (by decide))
    have := d.rows ((follows_cons (by decide) _).append sp.before.blank)
      (hothers.append_space sp.before.blank)
    simpa [text, Spacing.around] using this

end PageLang.Lines
