import PageLang.Mask.Basic

/-!
# Reading a text piece by piece

`State.Reads s before w ahead s'`: from the state `s`, with `before` behind it, the mask machine
reads the bytes of `w` and answers with the bits of `w`, if `ahead` follows; it ends in `s'`. The
pieces of a text are read one after another (`Reads.append`), and a text read from the start has
the mask of its pieces (`ofText_of_reads`).

* `reads_plain`: bytes the machine does not react to stay live.
* `reads_lineComment`, `reads_blockComment`: a comment is masked and leaves the state as it was.
* `reads_stringValue`, `reads_parameters`: what stands behind the name of a declaration.
-/

namespace PageLang

/-- A byte, and whether it is masked. -/
abbrev Cell := UInt8 × Bool

namespace Cell

/-- The bytes of cells. -/
def bytes (w : List Cell) : Text := w.map Prod.fst
/-- The bits of cells. -/
def bits (w : List Cell) : List Bool := w.map Prod.snd
/-- A text that is live as a whole. -/
def live (t : Text) : List Cell := t.map (·, false)
/-- A text that is masked as a whole. -/
def masked (t : Text) : List Cell := t.map (·, true)

@[simp] theorem bytes_nil : bytes [] = [] := rfl
@[simp] theorem bytes_cons (c : Cell) (w : List Cell) : bytes (c :: w) = c.1 :: bytes w := rfl
@[simp] theorem bytes_append (w v : List Cell) : bytes (w ++ v) = bytes w ++ bytes v :=
  List.map_append
@[simp] theorem bytes_live (t : Text) : bytes (live t) = t := by
  simp [bytes, live, Function.comp_def]
@[simp] theorem bytes_masked (t : Text) : bytes (masked t) = t := by
  simp [bytes, masked, Function.comp_def]
@[simp] theorem length_bytes (w : List Cell) : (bytes w).length = w.length := List.length_map _
@[simp] theorem bits_append (w v : List Cell) : bits (w ++ v) = bits w ++ bits v :=
  List.map_append
@[simp] theorem live_nil : live [] = [] := rfl
@[simp] theorem live_cons (b : UInt8) (t : Text) : live (b :: t) = (b, false) :: live t := rfl
@[simp] theorem live_append (t u : Text) : live (t ++ u) = live t ++ live u := List.map_append
@[simp] theorem length_live (t : Text) : (live t).length = t.length := List.length_map _
@[simp] theorem masked_nil : masked [] = [] := rfl
@[simp] theorem masked_cons (b : UInt8) (t : Text) : masked (b :: t) = (b, true) :: masked t := rfl
@[simp] theorem masked_append (t u : Text) : masked (t ++ u) = masked t ++ masked u :=
  List.map_append
@[simp] theorem length_masked (t : Text) : (masked t).length = t.length := List.length_map _

theorem ne_false_of_mem_masked {t : Text} {c : Cell} (h : c ∈ masked t) : c.2 ≠ false := by
  obtain ⟨b, _, rfl⟩ := List.mem_map.1 h
  simp

theorem zip_bytes_bits (w : List Cell) : (bytes w).zip (bits w) = w := by
  induction w with
  | nil => rfl
  | cons c w ih => simpa [bytes, bits] using ih

theorem bytes_zip {t : Text} {m : List Bool} (h : m.length = t.length) : bytes (t.zip m) = t :=
  List.map_fst_zip (Nat.le_of_eq h.symm)

end Cell

open Cell

namespace Text

theorem hasInfix_cons_eq_false {b : UInt8} {t pattern : Text}
    (h : hasInfix (b :: t) pattern = false) :
    pattern.isPrefixOf (b :: t) = false ∧ hasInfix t pattern = false := by
  rw [hasInfix] at h
  simpa using h

end Text

/-- A byte that no rule of live text looks at. -/
def Byte.isPlain (b : UInt8) : Bool :=
  !(isQuote b || b == slash || b == lbrace || b == rbrace || b == colon)

theorem Byte.isPlain_of_isSpace {b : UInt8} (h : isSpace b = true) : isPlain b = true := by
  simp only [isSpace, Bool.or_eq_true, beq_iff_eq] at h
  rcases h with (((rfl | rfl) | rfl) | rfl) | rfl <;> decide

namespace Mask.State

/-- Reading the cells `w` between `before` (in reverse) and `ahead` takes one state to another. -/
inductive Reads : State → (before : Text) → List Cell → (ahead : Text) → State → Prop
  | nil (s : State) (before ahead : Text) : Reads s before [] ahead s
  | cons {s r s₁ : State} {before ahead : Text} {b : UInt8} {m : Bool} {w : List Cell} :
      s.read before b (bytes w ++ ahead) = (m, r) → Reads r (b :: before) w ahead s₁ →
      Reads s before ((b, m) :: w) ahead s₁

namespace Reads

variable {s s₁ s₂ : State} {before ahead : Text} {w v : List Cell}

/-- Two pieces, one after the other. -/
theorem append (h : Reads s before w (bytes v ++ ahead) s₁)
    (h' : Reads s₁ ((bytes w).reverse ++ before) v ahead s₂) :
    Reads s before (w ++ v) ahead s₂ := by
  generalize hv : bytes v ++ ahead = rest at h
  induction h with
  | nil => exact h'
  | cons hread _ ih =>
    subst hv
    refine .cons (by simpa using hread) (ih ?_ rfl)
    simpa using h'

/-- A piece is read up to any point of it, and on from there. -/
theorem split (h : Reads s before (w ++ v) ahead s₂) :
    ∃ s₁, Reads s before w (bytes v ++ ahead) s₁ ∧
      Reads s₁ ((bytes w).reverse ++ before) v ahead s₂ := by
  induction w generalizing s before with
  | nil => exact ⟨s, .nil .., h⟩
  | cons c w ih =>
    cases h with
    | cons hread h =>
      obtain ⟨s₁, h₁, h₂⟩ := ih h
      exact ⟨s₁, .cons (by simpa using hread) h₁, by simpa using h₂⟩

/-- The bits of a piece come first, whatever follows. -/
theorem bits_eq (h : Reads s before w ahead s₁) :
    s.bits before (bytes w ++ ahead) =
      Cell.bits w ++ s₁.bits ((bytes w).reverse ++ before) ahead := by
  induction h with
  | nil => rfl
  | cons hread _ ih =>
    simp only [bytes_cons, List.cons_append, State.bits, hread, ih]
    simp [Cell.bits]

end Reads

/-- A text has the mask of the cells it is read as. -/
theorem ofText_of_reads {mode : Mode} {w : List Cell} {s : State}
    (h : Reads (start mode) [] w [] s) : ofText mode (bytes w) = Cell.bits w := by
  have := h.bits_eq
  simpa [ofText, State.bits] using this

/-! ## Live text -/

theorem read_plain {s : State} {before rest : Text} {b : UInt8} (h : s.region = .live)
    (hb : Byte.isPlain b = true) : s.read before b rest = (false, s.into .live) := by
  simp only [Byte.isPlain, Byte.isQuote, Bool.not_eq_true', Bool.or_eq_false_iff,
    beq_eq_false_iff_ne] at hb
  unfold State.read
  rw [h]
  simp [readLive, hb]

section
variable {mode : Mode} {depth : Nat} {outer : List Frame}

theorem reads_plain {t : Text} (ht : ∀ b ∈ t, Byte.isPlain b = true) (before ahead : Text) :
    Reads ⟨.live, mode, depth, outer⟩ before (live t) ahead ⟨.live, mode, depth, outer⟩ := by
  induction t generalizing before with
  | nil => exact .nil ..
  | cons b t ih =>
    exact .cons (read_plain rfl (ht b (.head _))) (ih (fun c hc => ht c (.tail _ hc)) _)

theorem reads_lbrace (before ahead : Text) :
    Reads ⟨.live, mode, depth, outer⟩ before (live [Byte.lbrace]) ahead
      ⟨.live, mode, depth + 1, outer⟩ :=
  .cons rfl (.nil ..)

theorem reads_rbrace (before ahead : Text) :
    Reads ⟨.live, mode, depth + 1, outer⟩ before (live [Byte.rbrace]) ahead
      ⟨.live, mode, depth, outer⟩ :=
  .cons rfl (.nil ..)

/-! ## Comments -/

theorem reads_toNewline {t : Text} (ht : Byte.newline ∉ t) (before ahead : Text) :
    Reads ⟨.lineComment, mode, depth, outer⟩ before (masked t ++ live [Byte.newline]) ahead
      ⟨.live, mode, depth, outer⟩ := by
  induction t generalizing before with
  | nil => exact .cons rfl (.nil ..)
  | cons b t ih =>
    simp only [List.mem_cons, not_or] at ht
    refine .cons ?_ (ih ht.2 _)
    simp [State.read, Ne.symm ht.1]

/-- A comment up to the end of its line. The newline stays live. -/
theorem reads_lineComment {t : Text} (ht : Byte.newline ∉ t) (before ahead : Text) :
    Reads ⟨.live, mode, depth, outer⟩ before
      (masked ([Byte.slash, Byte.slash] ++ t) ++ live [Byte.newline]) ahead
      ⟨.live, mode, depth, outer⟩ :=
  .cons rfl (.cons rfl (reads_toNewline ht _ _))

/-- A block comment goes on where no star and slash end it. -/
theorem reads_unended {t : Text} {star : Bool}
    (hslash : star = true → t.head? ≠ some Byte.slash) (ht : Text.hasInfix t "*/" = false)
    (before ahead : Text) : ∃ star',
      Reads ⟨.blockComment star, mode, depth, outer⟩ before (masked t) ahead
        ⟨.blockComment star', mode, depth, outer⟩ := by
  induction t generalizing before star with
  | nil => exact ⟨star, .nil ..⟩
  | cons b t ih =>
    obtain ⟨hpre, ht⟩ := Text.hasInfix_cons_eq_false ht
    have hread (rest : Text) : State.read ⟨.blockComment star, mode, depth, outer⟩ before b rest =
        (true, ⟨.blockComment (b = Byte.star), mode, depth, outer⟩) := by
      have hb : ¬ (star = true ∧ b = Byte.slash) := fun h => hslash h.1 (by rw [h.2]; rfl)
      simp [State.read, hb, into]
    have hnext : decide (b = Byte.star) = true → t.head? ≠ some Byte.slash := by
      intro hb hhead
      -- a star followed by a slash would end the comment here
      rw [decide_eq_true_eq] at hb
      obtain ⟨rest, rfl⟩ := List.head?_eq_some_iff.1 hhead
      rw [hb, show Text.ofString "*/" = [Byte.star, Byte.slash] by decide] at hpre
      simp at hpre
    obtain ⟨star', hrest⟩ := ih hnext ht (b :: before)
    exact ⟨star', .cons (hread _) hrest⟩

theorem reads_toCommentEnd {t : Text} {star : Bool}
    (hslash : star = true → t.head? ≠ some Byte.slash) (ht : Text.hasInfix t "*/" = false)
    (before ahead : Text) :
    Reads ⟨.blockComment star, mode, depth, outer⟩ before
      (masked (t ++ [Byte.star, Byte.slash])) ahead ⟨.live, mode, depth, outer⟩ := by
  rw [masked_append]
  obtain ⟨star', hopen⟩ := reads_unended hslash ht before
    (bytes (masked [Byte.star, Byte.slash]) ++ ahead)
  exact hopen.append (.cons (by cases star' <;> rfl) (.cons rfl (.nil ..)))

/-- A comment between slashes and stars. -/
theorem reads_blockComment {t : Text} (ht : Text.hasInfix t "*/" = false) (before ahead : Text) :
    Reads ⟨.live, mode, depth, outer⟩ before
      (masked ([Byte.slash, Byte.star] ++ t ++ [Byte.star, Byte.slash])) ahead
      ⟨.live, mode, depth, outer⟩ :=
  .cons rfl (.cons rfl (reads_toCommentEnd (by simp) ht _ _))

/-! ## Strings -/

/-- The rest of a string that holds neither its quote nor a backslash nor a newline. -/
theorem reads_toQuote {q : UInt8} {t : Text}
    (ht : ∀ b ∈ t, b ≠ q ∧ b ≠ Byte.backslash ∧ b ≠ Byte.newline)
    (hq : q ≠ Byte.backslash ∧ q ≠ Byte.newline) (before ahead : Text) :
    Reads ⟨.quoted q false, mode, depth, outer⟩ before (masked (t ++ [q])) ahead
      ⟨.live, mode, depth, outer⟩ := by
  induction t generalizing before with
  | nil =>
    refine .cons ?_ (.nil ..)
    simp [State.read, readQuoted, hq, into]
  | cons b t ih =>
    refine .cons ?_ (ih (fun c hc => ht c (.tail _ hc)) _)
    simp [State.read, readQuoted, ht b (.head _)]

/-- A string in single quotes. -/
theorem reads_string {t : Text}
    (ht : ∀ b ∈ t, b ≠ Byte.singleQuote ∧ b ≠ Byte.backslash ∧ b ≠ Byte.newline)
    (before ahead : Text) :
    Reads ⟨.live, mode, depth, outer⟩ before
      (masked ([Byte.singleQuote] ++ t ++ [Byte.singleQuote])) ahead
      ⟨.live, mode, depth, outer⟩ :=
  .cons rfl (reads_toQuote ht (by decide) _ _)

/-! ## Values -/

theorem reads_toValueQuote {t : Text} (ht : ∀ b ∈ t, b ≠ Byte.singleQuote ∧ b ≠ Byte.backslash)
    (before ahead : Text) :
    Reads ⟨.valueQuoted Byte.singleQuote false, mode, depth, outer⟩ before
      (masked (t ++ [Byte.singleQuote])) ahead ⟨.value 0 false, mode, depth, outer⟩ := by
  induction t generalizing before with
  | nil => exact .cons rfl (.nil ..)
  | cons b t ih =>
    refine .cons ?_ (ih (fun c hc => ht c (.tail _ hc)) _)
    simp [State.read, ht b (.head _)]

/-- The value of a declaration from its colon to its semicolon, if it is a string in single
quotes. The string may hold newlines, braces and semicolons. -/
theorem reads_stringValue {t : Text} (ht : ∀ b ∈ t, b ≠ Byte.singleQuote ∧ b ≠ Byte.backslash)
    {before : Text} (hbefore : startsStatement before = false) (ahead : Text) :
    Reads ⟨.live, .declarations, depth, outer⟩ before
      (live [Byte.colon, Byte.space] ++ masked ([Byte.singleQuote] ++ t ++ [Byte.singleQuote]) ++
        live [Byte.semicolon]) ahead
      ⟨.live, .declarations, depth, outer⟩ := by
  refine .append (.append (.cons (r := ⟨.afterColon, .declarations, depth, outer⟩) ?_
    (.cons rfl (.nil ..))) (.cons rfl (reads_toValueQuote ht _ _))) (.cons rfl (.nil ..))
  simp +decide [State.read, readLive, hbefore, into]

theorem closesParens_of_plain {t rest : Text} (ht : ∀ b ∈ t, b ≠ Byte.lparen ∧ b ≠ Byte.rparen)
    (depth : Nat) : closesParens depth (t ++ rest) = closesParens depth rest := by
  induction t with
  | nil => rfl
  | cons b t ih =>
    rw [List.cons_append, closesParens, if_neg (ht b (.head _)).1, if_neg (ht b (.head _)).2]
    exact ih fun c hc => ht c (.tail _ hc)

theorem reads_toParen {t : Text} (ht : ∀ b ∈ t, b ≠ Byte.lparen ∧ b ≠ Byte.rparen)
    (before ahead : Text) :
    Reads ⟨.parameters 1, mode, depth, outer⟩ before (live (t ++ [Byte.rparen])) ahead
      ⟨.afterParameters, mode, depth, outer⟩ := by
  induction t generalizing before with
  | nil => exact .cons rfl (.nil ..)
  | cons b t ih =>
    refine .cons ?_ (ih (fun c hc => ht c (.tail _ hc)) _)
    simp [State.read, readParameters, ht b (.head _)]

/-- The parameters of a function from the colon to the blank before the body. -/
theorem reads_parameters {t : Text} (ht : ∀ b ∈ t, b ≠ Byte.lparen ∧ b ≠ Byte.rparen)
    {before : Text} (hbefore : startsStatement before = false) (ahead : Text) :
    Reads ⟨.live, .declarations, depth, outer⟩ before
      (live ([Byte.colon, Byte.space, Byte.lparen] ++ t ++ [Byte.rparen, Byte.space])) ahead
      ⟨.afterParameters, .declarations, depth, outer⟩ := by
  have hcloses (rest : Text) : closesParens 1 (t ++ Byte.rparen :: rest) = true := by
    rw [closesParens_of_plain ht]
    rfl
  have hopen : Reads ⟨.live, .declarations, depth, outer⟩ before
      (live [Byte.colon, Byte.space, Byte.lparen])
      (bytes (live (t ++ [Byte.rparen]) ++ live [Byte.space]) ++ ahead)
      ⟨.parameters 1, .declarations, depth, outer⟩ := by
    refine .cons (r := ⟨.afterColon, .declarations, depth, outer⟩) ?_
      (.cons rfl (.cons ?_ (.nil ..)))
    · simp +decide [State.read, readLive, hbefore, into]
    · simp +decide [State.read, readAfterColon, hcloses, into]
  have hspace (before : Text) : Reads ⟨.afterParameters, .declarations, depth, outer⟩ before
      (live [Byte.space]) ahead ⟨.afterParameters, .declarations, depth, outer⟩ :=
    .cons rfl (.nil ..)
  simpa using hopen.append ((reads_toParen ht _ _).append (hspace _))

end

end Mask.State

end PageLang
