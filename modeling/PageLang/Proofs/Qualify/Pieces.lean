import PageLang.Proofs.MaskedText.Declarators
import PageLang.Proofs.Qualify.Fragment

/-!
# The pieces of a body

A body of the fragment is a row of pieces: a word, a string or nothing, up to the next mark and the
space behind it; or a declaring keyword with its space. The scanners do not know the tree of a body,
and what they do at one place depends on the piece there, on the mark before it (`Ends`) and, at a
keyword, on the line behind it. `Tidy` says what they rely on.

* `reads_pieces`: the mask of pieces. Only strings are masked.
* `exists_of_live`: a live byte is blank, or part of a word, or a mark.
* `Tidy.split`: what is known at one piece of a tidy row.
-/

namespace PageLang.Script

open Cell

/-! ## Bytes -/

/-- The bytes that stand as marks in the fragment. -/
def marks : Text :=
  [Byte.lparen, Byte.rparen, Byte.comma, Byte.plus, Byte.equals, Byte.semicolon, Byte.lbrace,
    Byte.rbrace, Byte.dot]

theorem not_space_of_isWord : ∀ b, Byte.isWord b = true → Byte.isSpace b = false ∧ b ∉ marks :=
  Byte.forall_of_nibbles (by decide)

theorem not_word_of_mem_marks : ∀ b ∈ marks, Byte.isWord b = false ∧ Byte.isSpace b = false := by
  decide

theorem not_word_of_isSpace : ∀ b, Byte.isSpace b = true → Byte.isWord b = false ∧ b ∉ marks :=
  Byte.forall_of_nibbles (by decide)

theorem isInk_of_mem_marks : ∀ b ∈ marks, Byte.isInk b = true := by decide

theorem not_continuation_of_isWord :
    ∀ b, Byte.isWord b = true → Byte.isContinuation b = false :=
  Byte.forall_of_nibbles (by decide)

theorem isPlain_of_isWord : ∀ b, Byte.isWord b = true → Byte.isPlain b = true :=
  Byte.forall_of_nibbles (by decide)

theorem isPlain_of_mem_marks :
    ∀ b ∈ marks, b = Byte.lbrace ∨ b = Byte.rbrace ∨ Byte.isPlain b = true := by
  decide

/-! ## Pieces -/

/-- What stands in front of a mark. -/
inductive Operand where
  | none
  | word (t : Text)
  | string (t : Text)

/-- A mark, with the space on both sides. -/
structure Mark where
  before : Text
  byte : UInt8
  after : Text

/-- A piece of a body. -/
inductive Piece where
  /-- What stands in front of a mark, and the mark. -/
  | marked (o : Operand) (m : Mark)
  /-- A declaring keyword, the space behind it, and the names that it declares. -/
  | keyword (word space : Text) (names : List Text)

/-- An operand with its mask. -/
def Operand.cells : Operand → List Cell
  | none => []
  | word t => live t
  | string t => masked ([Byte.singleQuote] ++ t ++ [Byte.singleQuote])

/-- A mark as written. -/
def Mark.text (m : Mark) : Text := m.before ++ m.byte :: m.after

/-- A piece with its mask. -/
def Piece.cells : Piece → List Cell
  | marked o m => o.cells ++ live m.text
  | keyword word space _ => live (word ++ space)

/-- The byte that a piece ends with, as a mark. A blank stands for the space behind a keyword. -/
def Piece.mark : Piece → UInt8
  | marked _ m => m.byte
  | keyword .. => Byte.space

/-- The word of a piece, and what stands behind it. -/
def Piece.word? : Piece → Option (Text × Text)
  | marked (.word t) m => some (t, m.text)
  | marked _ _ => none
  | keyword word space _ => some (word, space)

/-- Pieces with their mask. -/
def cells (ps : List Piece) : List Cell := ps.flatMap Piece.cells

@[simp] theorem cells_nil : cells [] = [] := rfl
@[simp] theorem cells_cons (p : Piece) (ps : List Piece) : cells (p :: ps) = p.cells ++ cells ps :=
  rfl
@[simp] theorem cells_append (ps qs : List Piece) : cells (ps ++ qs) = cells ps ++ cells qs :=
  List.flatMap_append

/-! ## Tidy pieces -/

/-- The words that begin local declarations. -/
def declaring : List Text := ["let", "const", "var", "function", "catch", "class"]

/-- What an operand looks like. -/
def Operand.Fits : Operand → Prop
  | none => True
  | word t => t ≠ [] ∧ (∀ b ∈ t, Byte.isWord b = true) ∧ t ∉ declaring
  | string t => ∀ b ∈ t, b ≠ Byte.singleQuote ∧ b ≠ Byte.backslash ∧ b ≠ Byte.newline

/-- What a mark looks like: a dot joins a word to the next one. -/
structure Mark.Fits (m : Mark) : Prop where
  before : ∀ b ∈ m.before, Byte.isSpace b = true
  after : ∀ b ∈ m.after, Byte.isSpace b = true
  byte : m.byte ∈ marks
  dot : m.byte = Byte.dot → m.before = [] ∧ m.after = []

/-- What a piece looks like. -/
def Piece.Fits : Piece → Prop
  | marked o m => o.Fits ∧ m.Fits ∧ (m.byte = Byte.dot → ∃ t, o = .word t) ∧
      (m.byte = Byte.lbrace → o = .none)
  | keyword word space _ => (word = "let" ∨ word = "const") ∧ space ≠ [] ∧
      ∀ b ∈ space, Byte.isSpace b = true

theorem Piece.forall_of_word? {p : Piece} (hp : p.Fits) {t behind : Text}
    (h : p.word? = some (t, behind)) : t ≠ [] ∧ (∀ b ∈ t, Byte.isWord b = true) ∧
      (∃ c rest, behind = c :: rest ∧ Byte.isWord c = false) ∧ p.cells = live (t ++ behind) := by
  cases p with
  | marked o m =>
    obtain ⟨ho, hm, -⟩ := hp
    cases o with
    | word w =>
      obtain ⟨rfl, rfl⟩ : w = t ∧ m.text = behind := by simpa [word?] using h
      refine ⟨ho.1, ho.2.1, ?_, by simp [cells, Operand.cells]⟩
      cases hb : m.before with
      | nil => exact ⟨m.byte, m.after, by simp [Mark.text, hb], (not_word_of_mem_marks _ hm.byte).1⟩
      | cons c rest =>
        exact ⟨c, rest ++ m.byte :: m.after, by simp [Mark.text, hb],
          (not_word_of_isSpace c (hm.before c (by simp [hb]))).1⟩
    | none => simp [word?] at h
    | string t => simp [word?] at h
  | keyword word space names =>
    obtain ⟨hword, hne, hspace⟩ := hp
    obtain ⟨rfl, rfl⟩ : word = t ∧ space = behind := by simpa [word?] using h
    obtain ⟨c, rest, rfl⟩ := List.exists_cons_of_ne_nil hne
    have hkeyword : word ≠ [] ∧ ∀ b ∈ word, Byte.isWord b = true := by
      rcases hword with rfl | rfl <;> decide
    exact ⟨hkeyword.1, hkeyword.2, ⟨c, rest, rfl, (not_word_of_isSpace c (hspace c (.head _))).1⟩,
      rfl⟩

/-! ## Masks -/

theorem reads_space {depth : Nat} {t : Text} (ht : ∀ b ∈ t, Byte.isSpace b = true)
    (before ahead : Text) : Mask.State.Reads ⟨.live, .code, depth, []⟩ before (live t) ahead
      ⟨.live, .code, depth, []⟩ :=
  Mask.State.reads_plain (fun b hb => Byte.isPlain_of_isSpace (ht b hb)) before ahead

theorem Operand.reads {o : Operand} (ho : o.Fits) {depth : Nat} (before ahead : Text) :
    Mask.State.Reads ⟨.live, .code, depth, []⟩ before o.cells ahead
      ⟨.live, .code, depth, []⟩ := by
  cases o with
  | none => exact .nil ..
  | word t => exact Mask.State.reads_plain (fun b hb => isPlain_of_isWord b (ho.2.1 b hb)) _ _
  | string t => exact Mask.State.reads_string ho _ _

theorem reads_mark {b : UInt8} (hb : b ∈ marks) (depth : Nat) (before ahead : Text) :
    ∃ depth', Mask.State.Reads ⟨.live, .code, depth, []⟩ before (live [b]) ahead
      ⟨.live, .code, depth', []⟩ := by
  rcases isPlain_of_mem_marks b hb with rfl | rfl | hplain
  · exact ⟨depth + 1, Mask.State.reads_lbrace _ _⟩
  · cases depth with
    | zero => exact ⟨0, .cons rfl (.nil ..)⟩
    | succ depth => exact ⟨depth, Mask.State.reads_rbrace _ _⟩
  · exact ⟨depth, Mask.State.reads_plain (by simpa using hplain) _ _⟩

theorem Piece.reads {p : Piece} (hp : p.Fits) (depth : Nat) (before ahead : Text) :
    ∃ depth', Mask.State.Reads ⟨.live, .code, depth, []⟩ before p.cells ahead
      ⟨.live, .code, depth', []⟩ := by
  cases p with
  | marked o m =>
    obtain ⟨ho, hm, -⟩ := hp
    obtain ⟨depth', hread⟩ := reads_mark hm.byte depth
      ((bytes (live m.before)).reverse ++ ((bytes o.cells).reverse ++ before))
      (bytes (live m.after) ++ ahead)
    refine ⟨depth', (Operand.reads ho _ _).append ?_⟩
    rw [Mark.text, live_append, live_cons, ← List.singleton_append]
    exact (reads_space hm.before _ _).append (hread.append (reads_space hm.after _ _))
  | keyword word space names =>
    obtain ⟨hword, -, hspace⟩ := hp
    refine ⟨depth, ?_⟩
    rw [Piece.cells, live_append]
    refine .append (Mask.State.reads_plain ?_ _ _) (reads_space hspace _ _)
    rcases hword with rfl | rfl
    · decide
    · decide

/-- The machine reads pieces one after another. Braces may be left open. -/
theorem reads_pieces {ps : List Piece} (hps : ∀ p ∈ ps, p.Fits) (depth : Nat)
    (before ahead : Text) :
    ∃ depth', Mask.State.Reads ⟨.live, .code, depth, []⟩ before (cells ps) ahead
      ⟨.live, .code, depth', []⟩ := by
  induction ps generalizing depth before with
  | nil => exact ⟨depth, .nil ..⟩
  | cons p ps ih =>
    obtain ⟨r, hr⟩ := Piece.reads (hps p (.head _)) depth before (bytes (cells ps) ++ ahead)
    obtain ⟨depth', h⟩ := ih (fun q hq => hps q (.tail _ hq)) r _
    exact ⟨depth', hr.append h⟩

/-! ## Where a live byte stands -/

/-- A row of cells that is cut in two ways. -/
theorem append_eq_append_cons {w w' u v : List Cell} {c : Cell} (h : w ++ w' = u ++ c :: v) :
    (∃ x, w = u ++ c :: x ∧ v = x ++ w') ∨ ∃ x, u = w ++ x ∧ w' = x ++ c :: v := by
  rcases List.append_eq_append_iff.1 h with ⟨x, rfl, hx⟩ | ⟨x, rfl, hx⟩
  · exact .inr ⟨x, rfl, hx⟩
  · cases x with
    | nil => exact .inr ⟨[], by simp, by simpa using hx.symm⟩
    | cons d x =>
      obtain ⟨rfl, rfl⟩ := List.cons.inj hx
      exact .inl ⟨x, rfl, rfl⟩

theorem live_eq_append_cons {t : Text} {u v : List Cell} {c : Cell} (h : live t = u ++ c :: v) :
    ∃ x y, t = x ++ c.1 :: y ∧ u = live x ∧ v = live y := by
  obtain ⟨x, y', rfl, rfl, hy⟩ := List.map_eq_append_iff.1 h
  obtain ⟨b, y, rfl, rfl, rfl⟩ := List.map_eq_cons_iff.1 hy
  exact ⟨x, y, rfl, rfl, rfl⟩

/-- The byte `b` stands in the word at the start of a piece, between the cells `u` and `v`. -/
structure InWord (p : Piece) (b : UInt8) (u v : List Cell) (x y behind : Text) : Prop where
  word : p.word? = some (x ++ b :: y, behind)
  before : u = live x
  after : v = live (y ++ behind)

theorem Piece.exists_of_live {p : Piece} (hp : p.Fits) {u v : List Cell} {b : UInt8}
    (h : p.cells = u ++ (b, false) :: v) :
    Byte.isSpace b = true ∨ (∃ x y behind, InWord p b u v x y behind) ∨
      ∃ o m, p = .marked o m ∧ m.byte = b ∧ u = o.cells ++ live m.before ∧ v = live m.after := by
  cases p with
  | marked o m =>
    obtain ⟨-, hm, -⟩ := hp
    rcases append_eq_append_cons h with ⟨w, ho, rfl⟩ | ⟨w, rfl, hw⟩
    · -- in front of the mark
      cases o with
      | none => simp [Operand.cells] at ho
      | word t =>
        obtain ⟨x, y, rfl, rfl, rfl⟩ := live_eq_append_cons ho
        exact .inr (.inl ⟨x, y, m.text, rfl, rfl, by simp⟩)
      | string t =>
        have hmem : (b, false) ∈ Operand.cells (.string t) := by simp [ho]
        exact absurd rfl (ne_false_of_mem_masked hmem)
    · obtain ⟨x, y, hxy, rfl, rfl⟩ := live_eq_append_cons hw
      rcases List.append_eq_append_iff.1 hxy with ⟨z, rfl, hz⟩ | ⟨z, hz, hz'⟩
      · cases z with
        | nil =>
          obtain ⟨hb, rfl⟩ := List.cons.inj hz
          exact .inr (.inr ⟨o, m, rfl, hb, by rw [List.append_nil], rfl⟩)
        | cons c z =>
          obtain ⟨-, hz⟩ := List.cons.inj hz
          exact .inl (hm.after b (by simp [hz]))
      · cases z with
        | nil =>
          obtain ⟨hb, rfl⟩ := List.cons.inj hz'
          rw [List.append_nil] at hz
          exact .inr (.inr ⟨o, m, rfl, hb.symm, by rw [hz], rfl⟩)
        | cons c z =>
          obtain ⟨rfl, -⟩ := List.cons.inj hz'
          exact .inl (hm.before _ (by simp [hz]))
  | keyword word space names =>
    obtain ⟨-, -, hspace⟩ := hp
    obtain ⟨x, y, hxy, rfl, rfl⟩ := live_eq_append_cons h
    rcases List.append_eq_append_iff.1 hxy with ⟨z, rfl, hz⟩ | ⟨z, rfl, hz⟩
    · exact .inl (hspace b (by simp [hz]))
    · cases z with
      | nil =>
        rw [List.nil_append] at hz
        exact .inl (hspace b (hz ▸ .head _))
      | cons c z =>
        obtain ⟨rfl, rfl⟩ := List.cons.inj hz
        exact .inr (.inl ⟨x, z, space, rfl, rfl, rfl⟩)

/-- Where a live byte of a body stands that is not blank. -/
theorem exists_of_live {lead : Text} (hlead : ∀ b ∈ lead, Byte.isSpace b = true)
    {ps : List Piece} (hps : ∀ p ∈ ps, p.Fits) {u v : List Cell} {b : UInt8}
    (h : live lead ++ cells ps = u ++ (b, false) :: v) :
    Byte.isSpace b = true ∨
      (∃ pre p post u' v' x y behind, ps = pre ++ p :: post ∧
        u = live lead ++ cells pre ++ u' ∧ v = v' ++ cells post ∧
        InWord p b u' v' x y behind) ∨
      ∃ pre o m post, ps = pre ++ .marked o m :: post ∧ m.byte = b ∧
        u = live lead ++ cells pre ++ (o.cells ++ live m.before) ∧
        v = live m.after ++ cells post := by
  rcases append_eq_append_cons h with ⟨x, hx, -⟩ | ⟨w, rfl, hw⟩
  · obtain ⟨y, z, rfl, -, -⟩ := live_eq_append_cons hx
    exact .inl (hlead b (by simp))
  clear h
  induction ps generalizing w with
  | nil => simp at hw
  | cons p ps ih =>
    rw [cells_cons] at hw
    rcases append_eq_append_cons hw with ⟨x, hp, rfl⟩ | ⟨w', rfl, hw'⟩
    · rcases Piece.exists_of_live (hps p (.head _)) hp with hb | ⟨y, z, behind, hin⟩ |
        ⟨o, m, rfl, hb, hu, hv⟩
      · exact .inl hb
      · exact .inr (.inl ⟨[], p, ps, w, x, y, z, behind, rfl, by simp, rfl, hin⟩)
      · exact .inr (.inr ⟨[], o, m, ps, rfl, hb, by simp [hu], by simp [hv]⟩)
    · rcases ih (fun q hq => hps q (.tail _ hq)) w' hw' with hb |
        ⟨pre, q, post, u', v', y, z, behind, rfl, hu, hv, hin⟩ | ⟨pre, o, m, post, rfl, hb, hu, hv⟩
      · exact .inl hb
      · exact .inr (.inl ⟨p :: pre, q, post, u', v', y, z, behind, rfl, by simp_all, hv, hin⟩)
      · exact .inr (.inr ⟨p :: pre, o, m, post, rfl, hb, by simp_all, hv⟩)

/-! ## What stands before a piece -/

/-- How the text in front of a piece ends, where `last` is the mark of the piece before. Before the
first piece there are blanks only. -/
inductive Ends : (last : Option UInt8) → Text → Prop
  | start {t : Text} : Space t → Ends none t
  | space (t : Text) {c : UInt8} : Byte.isSpace c = true → Ends (some Byte.space) (t ++ [c])
  | mark (t : Text) {b : UInt8} {after : Text} : b ∈ marks →
    (∀ c ∈ after, Byte.isSpace c = true) → b ≠ Byte.dot → Ends (some b) (t ++ b :: after)
  | dot (t : Text) {c : UInt8} : Byte.isWord c = true →
    Ends (some Byte.dot) (t ++ [c, Byte.dot])

theorem Piece.ends {p : Piece} (hp : p.Fits) (t : Text) : Ends (some p.mark) (t ++ bytes p.cells) := by
  cases p with
  | marked o m =>
    obtain ⟨ho, hm, hdot, -⟩ := hp
    simp only [cells, mark, Mark.text, bytes_append, bytes_live]
    by_cases hb : m.byte = Byte.dot
    · obtain ⟨w, rfl⟩ := hdot hb
      obtain ⟨hbefore, hafter⟩ := hm.dot hb
      obtain ⟨x, c, rfl⟩ : ∃ x c, w = x ++ [c] :=
        ⟨w.dropLast, w.getLast ho.1, (List.dropLast_concat_getLast ho.1).symm⟩
      have := Ends.dot (t ++ x) (ho.2.1 c (by simp))
      simpa [Operand.cells, hb, hbefore, hafter] using this
    · have := Ends.mark (t ++ (bytes o.cells ++ m.before)) hm.byte hm.after hb
      simpa using this
  | keyword word space names =>
    obtain ⟨-, hne, hspace⟩ := hp
    obtain ⟨x, c, rfl⟩ : ∃ x c, space = x ++ [c] :=
      ⟨space.dropLast, space.getLast hne, (List.dropLast_concat_getLast hne).symm⟩
    have := Ends.space (t ++ (word ++ x)) (hspace c (by simp))
    simpa [cells, mark] using this

/-! ## Tidy rows -/

/-- The cells of a line in front of what follows it: the semicolon ends it, and it holds no other
semicolon and no newline outside of strings. -/
def IsLine (w : List Cell) (names : List Text) : Prop :=
  ∃ w', w = w' ++ live [Byte.semicolon] ∧ Declares w names ∧
    ∀ c ∈ w', c.2 = false → c.1 ≠ Byte.semicolon ∧ c.1 ≠ Byte.newline

/-- What a piece asks of the mark before it and of the cells behind it: a keyword stands at the
start of a statement, with a line of declarators behind it. -/
def Piece.Stands (last : Option UInt8) (behind : List Cell) : Piece → Prop
  | marked .. => True
  | keyword _ space names => Byte.newline ∉ space ∧ last ≠ some Byte.lparen ∧
      last ≠ some Byte.dot ∧ last ≠ some Byte.space ∧ ∃ w v, behind = w ++ v ∧ IsLine w names

/-- Pieces that look right and stand in the right places. -/
def Tidy : (last : Option UInt8) → List Piece → Prop
  | _, [] => True
  | last, p :: ps => p.Fits ∧ p.Stands last (Script.cells ps) ∧ Tidy (some p.mark) ps

theorem Tidy.fits {last : Option UInt8} {ps : List Piece} (h : Tidy last ps) :
    ∀ p ∈ ps, p.Fits := by
  induction ps generalizing last with
  | nil => simp
  | cons p ps ih => exact List.forall_mem_cons.2 ⟨h.1, ih h.2.2⟩

/-- The mark before the pieces that follow `pre`. -/
def lastMark (last : Option UInt8) : List Piece → Option UInt8
  | [] => last
  | p :: pre => lastMark (some p.mark) pre

/-- One piece of a tidy row, and how the text before it ends. -/
theorem Tidy.split {last : Option UInt8} {pre post : List Piece} {p : Piece} {t : Text}
    (h : Tidy last (pre ++ p :: post)) (ht : Ends last t) :
    Ends (lastMark last pre) (t ++ bytes (Script.cells pre)) ∧ p.Fits ∧
      p.Stands (lastMark last pre) (Script.cells post) := by
  induction pre generalizing last t with
  | nil => exact ⟨by simpa [lastMark] using ht, h.1, h.2.1⟩
  | cons q pre ih =>
    have := ih h.2.2 (Piece.ends h.1 t)
    simpa [lastMark] using this

end PageLang.Script
