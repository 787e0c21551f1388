import PageLang.Proofs.Qualify.Flatten

/-!
# Trees lie tidily

The pieces of a tree look right and stand in the right places. What takes work are the lines of
declarators: their values close what they open, hold no semicolon outside of strings, and no newline.

* `Expr.nesting?_cells`: an expression closes what it opens.
* `Declarators.isLine`: declarators and their semicolon make up a line.
* `Statements.tidy_pieces`: the pieces of statements are tidy.
* `Statements.headless_pieces`: the words before parentheses are called in the tree, or are `if`.
-/

namespace PageLang.Script

open Cell

/-! ## Marks and words -/

/-- A mark that may stand behind an expression. -/
structure Mark.Closes (m : Mark) : Prop extends m.Fits where
  ne_dot : m.byte ≠ Byte.dot
  ne_lbrace : m.byte ≠ Byte.lbrace

theorem space_nil : Space [] := by simp [Space]

theorem Mark.closes_of_space {before after : Text} {b : UInt8} (hbefore : Space before)
    (hafter : Space after) (hb : b ∈ marks ∧ b ≠ Byte.dot ∧ b ≠ Byte.lbrace) :
    Mark.Closes ⟨before, b, after⟩ where
  before := hbefore
  after := hafter
  byte := hb.1
  dot h := absurd h hb.2.1
  ne_dot := hb.2.1
  ne_lbrace := hb.2.2

theorem Spacing.closes_mark (sp : Spacing) {b : UInt8}
    (hb : b ∈ marks ∧ b ≠ Byte.dot ∧ b ≠ Byte.lbrace) : (sp.mark b).Closes :=
  Mark.closes_of_space sp.before.blank sp.after.blank hb

theorem Mark.Closes.fits_marked {m : Mark} (hm : m.Closes) {o : Operand} (ho : o.Fits) :
    (Piece.marked o m).Fits :=
  ⟨ho, hm.toFits, fun h => absurd h hm.ne_dot, fun h => absurd h hm.ne_lbrace⟩

theorem IsName.fits {n : Text} (hn : IsName n) : (Operand.word n).Fits := by
  obtain ⟨b, rest, rfl, hwords, -⟩ := hn.exists_cons
  refine ⟨by simp, hwords, fun hmem => hn.2 ?_⟩
  exact (by decide : ∀ t ∈ declaring, t ∈ reserved) _ hmem

/-! ## Expressions -/

/-- Pieces that are no keywords. -/
def Plain (ps : List Piece) : Prop := ∀ p ∈ ps, p.Fits ∧ ∃ o m, p = .marked o m

theorem plain_singleton {o : Operand} {m : Mark} (ho : o.Fits) (hm : m.Closes) :
    Plain [.marked o m] := by
  simpa [Plain] using hm.fits_marked ho

theorem Plain.append {ps qs : List Piece} (hps : Plain ps) (hqs : Plain qs) : Plain (ps ++ qs) :=
  List.forall_mem_append.2 ⟨hps, hqs⟩

theorem Plain.tidy {ps more : List Piece} (h : Plain ps) {last : Option UInt8}
    (hmore : Tidy (lastMark last ps) more) : Tidy last (ps ++ more) := by
  induction ps generalizing last with
  | nil => exact hmore
  | cons p ps ih =>
    obtain ⟨⟨hp, o, m, rfl⟩, hps⟩ := List.forall_mem_cons.1 h
    exact ⟨hp, trivial, ih hps hmore⟩

theorem Path.plain_pieces (p : Path) {m : Mark} (hm : m.Closes) : Plain (p.pieces m) := by
  unfold pieces
  generalize p.root = n
  induction p.properties generalizing n with
  | nil => exact plain_singleton n.fits.fits hm
  | cons q properties ih =>
    refine List.forall_mem_cons.2 ⟨⟨⟨n.fits.fits, ?_, fun _ => ⟨_, rfl⟩, ?_⟩, _, _, rfl⟩, ih q⟩
    · exact ⟨space_nil, space_nil, by decide, fun _ => ⟨rfl, rfl⟩⟩
    · exact fun h => absurd h (by decide)

theorem Expr.plain_pieces {k : Arity} (e : Expr k) {m : Mark} (hm : m.Closes) :
    Plain (e.pieces m) := by
  induction e generalizing m with
  | path p => exact p.plain_pieces hm
  | integer d =>
    refine plain_singleton ⟨d.nonempty, fun b hb => ?_, fun hmem => ?_⟩ hm
    · exact (not_wordStart_of_isDigit b (d.digits b hb)).2
    · have hletter : ∀ t ∈ declaring, ∃ b ∈ t, Byte.isDigit b = false := by decide
      obtain ⟨b, hb, hdigit⟩ := hletter _ hmem
      simp [d.digits b hb] at hdigit
  | string q => exact plain_singleton q.fits hm
  | sum l sp r ihl ihr => exact (ihl (sp.closes_mark (by decide))).append (ihr hm)
  | call g sp args ih => exact (g.plain_pieces (sp.closes_mark (by decide))).append (ih hm)
  | noArgument =>
    exact (plain_singleton (o := .none) trivial
      (Mark.closes_of_space space_nil space_nil (by decide))).append
        (plain_singleton (o := .none) trivial hm)
  | lastArgument e gap ih =>
    exact (ih (Mark.closes_of_space gap.blank space_nil (by decide))).append
      (plain_singleton (o := .none) trivial hm)
  | argument e sp args ihe ihargs => exact (ihe (sp.closes_mark (by decide))).append (ihargs hm)

/-- An expression with its mask. -/
def Expr.cells : {k : Arity} → Expr k → List Cell
  | _, path p => live (p.written id)
  | _, integer d => live d.text
  | _, string q => masked ([Byte.singleQuote] ++ q.text ++ [Byte.singleQuote])
  | _, sum l sp r => l.cells ++ live (sp.around Byte.plus) ++ r.cells
  | _, call g sp args => live (g.written id ++ sp.around Byte.lparen) ++ args.cells
  | _, noArgument => live [Byte.rparen]
  | _, lastArgument e gap => e.cells ++ live (gap.text ++ [Byte.rparen])
  | _, argument e sp args => e.cells ++ live (sp.around Byte.comma) ++ args.cells

theorem Path.cells_pieces (p : Path) (m : Mark) :
    Script.cells (p.pieces m) = live (p.written id) ++ live m.text := by
  obtain ⟨root, properties⟩ := p
  simp only [pieces, written]
  induction properties generalizing root with
  | nil => simp [wordPieces, Piece.cells, Operand.cells]
  | cons q properties ih =>
    rw [wordPieces, Script.cells_cons, ih]
    simp [Piece.cells, Operand.cells]

theorem Expr.cells_pieces {k : Arity} (e : Expr k) (m : Mark) :
    Script.cells (e.pieces m) = e.cells ++ live m.text := by
  induction e generalizing m with
  | path p => exact p.cells_pieces m
  | integer d => simp [pieces, cells, Piece.cells, Operand.cells]
  | string q => simp [pieces, cells, Piece.cells, Operand.cells]
  | sum l sp r ihl ihr => simp [pieces, cells, ihl, ihr]
  | call g sp args ih => simp [pieces, cells, ih, g.cells_pieces]
  | noArgument => simp [pieces, cells, Piece.cells, Operand.cells]
  | lastArgument e gap ih => simp [pieces, cells, ih, Piece.cells, Operand.cells]
  | argument e sp args ihe ihargs => simp [pieces, cells, ihe, ihargs]

theorem Expr.bytes_cells {k : Arity} (e : Expr k) : bytes e.cells = e.written id := by
  induction e with
  | path | integer | string | noArgument => simp [cells, written]
  | sum l sp r ihl ihr => simp [cells, written, ihl, ihr]
  | call g sp args ih => simp [cells, written, ih]
  | lastArgument e gap ih => simp [cells, written, ih]
  | argument e sp args ihe ihargs => simp [cells, written, ihe, ihargs]

/-! ## Values -/

/-- The brackets that are open around a tree. -/
def Arity.depth : Arity → Nat
  | one => 0
  | arguments => 1

/-- Bytes that open, close and separate nothing. -/
def Quiet (t : Text) : Prop :=
  ∀ b ∈ t, Byte.isWord b = true ∨ Byte.isSpace b = true ∨ b ∈ [Byte.plus, Byte.equals, Byte.dot]

theorem not_bracket_of_quiet : ∀ b, Byte.isWord b = true ∨ Byte.isSpace b = true ∨
    b ∈ [Byte.plus, Byte.equals, Byte.dot] → Byte.isOpening b = false ∧
      Byte.isClosing b = false ∧ b ≠ Byte.comma ∧ b ≠ Byte.semicolon :=
  Byte.forall_of_nibbles (by decide)

theorem Quiet.append {t u : Text} (ht : Quiet t) (hu : Quiet u) : Quiet (t ++ u) :=
  List.forall_mem_append.2 ⟨ht, hu⟩

theorem Quiet.inner {t : Text} (ht : Quiet t) : Inner (live t) := by
  refine inner_of_plain fun c hc _ => ?_
  obtain ⟨b, hb, rfl⟩ := List.mem_map.1 hc
  exact not_bracket_of_quiet b (ht b hb)

theorem quiet_space {t : Text} (ht : Space t) : Quiet t := fun b hb => .inr (.inl (ht b hb))

theorem quiet_word {t : Text} (ht : ∀ b ∈ t, Byte.isWord b = true) : Quiet t :=
  fun b hb => .inl (ht b hb)

theorem quiet_name (n : Name) : Quiet n.text := quiet_word n.fits.fits.2.1

theorem quiet_path (p : Path) : Quiet (p.written id) := by
  refine (quiet_name p.root).append fun b hb => ?_
  obtain ⟨n, -, hb⟩ := List.mem_flatMap.1 hb
  rcases List.mem_cons.1 hb with rfl | hb
  · decide
  · exact quiet_name n b hb

/-- A mark that opens, closes and separates nothing, with its space. -/
theorem Spacing.quiet_around (sp : Spacing) {b : UInt8}
    (hb : b ∈ [Byte.plus, Byte.equals, Byte.dot]) : Quiet (sp.around b) := by
  refine ((quiet_space sp.before.blank).append ?_).append (quiet_space sp.after.blank)
  simpa [Quiet] using .inr (.inr (by simpa using hb))

theorem Spacing.nesting?_around (sp : Spacing) (b : UInt8) (depth : Nat) :
    nesting? depth (live (sp.around b)) = nest? depth (b, false) := by
  have hbefore := (quiet_space sp.before.blank).inner depth
  have hafter := (quiet_space sp.after.blank).inner
  rw [Spacing.around, live_append, live_append, nesting?_append, nesting?_append, hbefore]
  cases hn : nest? depth (b, false) with
  | none => simp [hn]
  | some d => simp [hn, hafter d]

/-- An expression closes what it opens, and arguments close the parenthesis around them. -/
theorem Expr.nesting?_cells {k : Arity} (e : Expr k) (depth : Nat) :
    nesting? (depth + k.depth) e.cells = some depth := by
  induction e generalizing depth with
  | path p => exact (quiet_path p).inner depth
  | integer d =>
    exact (quiet_word fun b hb => (not_wordStart_of_isDigit b (d.digits b hb)).2).inner depth
  | string q => exact inner_masked _ depth
  | sum l sp r ihl ihr =>
    have hr : nesting? depth r.cells = some depth := ihr depth
    have hplus : nest? depth (Byte.plus, false) = some depth := by simp +decide [nest?]
    rw [cells, nesting?_append, nesting?_append, ihl]
    simp [sp.nesting?_around, hplus, hr]
  | call g sp args ih =>
    have hargs : nesting? (depth + 1) args.cells = some depth := ih depth
    have hopen : nest? depth (Byte.lparen, false) = some (depth + 1) := by simp +decide [nest?]
    have hpath : nesting? depth (live (g.written id)) = some depth := (quiet_path g).inner depth
    simp [cells, Arity.depth, hpath, sp.nesting?_around, hopen, hargs]
  | noArgument => simp +decide [cells, Arity.depth, nest?]
  | lastArgument e gap ih =>
    have he : nesting? (depth + 1) e.cells = some (depth + 1) := ih (depth + 1)
    have hgap := (quiet_space gap.blank).inner (depth + 1)
    simp +decide [cells, Arity.depth, he, hgap, nest?]
  | argument e sp args ihe ihargs =>
    have he : nesting? (depth + 1) e.cells = some (depth + 1) := ihe (depth + 1)
    have hargs : nesting? (depth + 1) args.cells = some depth := ihargs depth
    have hcomma : nest? (depth + 1) (Byte.comma, false) = some (depth + 1) := by
      simp +decide [nest?]
    simp [cells, Arity.depth, he, sp.nesting?_around, hcomma, hargs]

/-- Cells without a live semicolon. -/
def Unended (w : List Cell) : Prop := ∀ c ∈ w, c.2 = false → c.1 ≠ Byte.semicolon

theorem Unended.append {w v : List Cell} (hw : Unended w) (hv : Unended v) : Unended (w ++ v) :=
  List.forall_mem_append.2 ⟨hw, hv⟩

theorem unended_live {t : Text} (ht : Byte.semicolon ∉ t) : Unended (live t) := by
  intro c hc _ heq
  obtain ⟨b, hb, rfl⟩ := List.mem_map.1 hc
  exact ht (heq ▸ hb)

theorem Quiet.unended {t : Text} (ht : Quiet t) : Unended (live t) :=
  unended_live fun h => (not_bracket_of_quiet _ (ht _ h)).2.2.2 rfl

theorem Spacing.unended_around (sp : Spacing) {b : UInt8} (hb : b ≠ Byte.semicolon) :
    Unended (live (sp.around b)) := by
  rw [around, live_append, live_append]
  exact ((quiet_space sp.before.blank).unended.append (unended_live (by simpa using hb.symm))).append
    (quiet_space sp.after.blank).unended

/-- No semicolon stands in an expression outside of its strings. -/
theorem Expr.unended_cells {k : Arity} (e : Expr k) : Unended e.cells := by
  induction e with
  | path p => exact (quiet_path p).unended
  | integer d =>
    exact (quiet_word fun b hb => (not_wordStart_of_isDigit b (d.digits b hb)).2).unended
  | string q => exact fun c hc hlive => absurd hlive (ne_false_of_mem_masked hc)
  | sum l sp r ihl ihr => exact (ihl.append (sp.unended_around (by decide))).append ihr
  | call g sp args ih =>
    rw [cells, live_append]
    exact ((quiet_path g).unended.append (sp.unended_around (by decide))).append ih
  | noArgument => exact unended_live (by decide)
  | lastArgument e gap ih =>
    rw [cells, live_append]
    exact ih.append ((quiet_space gap.blank).unended.append (unended_live (by decide)))
  | argument e sp args ihe ihargs =>
    exact (ihe.append (sp.unended_around (by decide))).append ihargs

/-! ## Lines -/

/-- Declarators with their mask. -/
def Declarators.cells : Declarators → List Cell
  | last n sp e gap => live (n.text ++ sp.around Byte.equals) ++ e.cells ++ live gap.text
  | more n sp e sp' rest =>
    live (n.text ++ sp.around Byte.equals) ++ e.cells ++ live (sp'.around Byte.comma) ++ rest.cells

theorem Declarators.cells_pieces (d : Declarators) (after : Blank) :
    Script.cells (d.pieces after) = d.cells ++ live [Byte.semicolon] ++ live after.text := by
  induction d with
  | last n sp e gap => simp [pieces, cells, e.cells_pieces, Piece.cells, Operand.cells]
  | more n sp e sp' rest ih => simp [pieces, cells, e.cells_pieces, Piece.cells, Operand.cells, ih]

theorem Declarators.bytes_cells (d : Declarators) : bytes d.cells = d.written id := by
  induction d with
  | last n sp e gap => simp [cells, written, e.bytes_cells]
  | more n sp e sp' rest ih => simp [cells, written, e.bytes_cells, ih]

theorem Declarators.unended_cells (d : Declarators) : Unended d.cells := by
  induction d with
  | last n sp e gap =>
    rw [cells, live_append]
    exact (((quiet_name n).unended.append (sp.unended_around (by decide))).append
      e.unended_cells).append (quiet_space gap.blank).unended
  | more n sp e sp' rest ih =>
    rw [cells, live_append]
    exact ((((quiet_name n).unended.append (sp.unended_around (by decide))).append
      e.unended_cells).append (sp'.unended_around (by decide))).append ih

theorem isValue_of_inner (sp : Spacing) {w : List Cell} (hw : Inner w) :
    IsValue (live (sp.around Byte.equals) ++ w) := by
  refine ⟨(sp.quiet_around (by decide)).inner.append hw, ?_⟩
  rw [Spacing.around]
  cases hbefore : sp.before.text with
  | nil => exact ⟨(Byte.equals, false), _, rfl, by decide⟩
  | cons b rest =>
    refine ⟨(b, false), _, rfl, ?_⟩
    exact (not_word_of_isSpace b (sp.before.blank b (by simp [hbefore]))).1

theorem Declarators.declares (d : Declarators) {gap : Text} (hgap : Space gap) :
    Declares (live gap ++ d.cells ++ live [Byte.semicolon]) d.names := by
  induction d generalizing gap with
  | last n sp e gap' =>
    have hvalue := isValue_of_inner sp
      (Inner.append (e.nesting?_cells ·) (quiet_space gap'.blank).inner)
    have := Declares.last hgap n.fits.1 hvalue
    simpa [cells, names] using this
  | more n sp e sp' rest ih =>
    have hvalue := isValue_of_inner sp
      (Inner.append (e.nesting?_cells ·) (quiet_space sp'.before.blank).inner)
    have := Declares.more hgap n.fits.1 hvalue (ih sp'.after.blank)
    simpa [cells, names, Spacing.around] using this

/-- Declarators without a newline make up a line. -/
theorem Declarators.isLine (d : Declarators) (hnewline : Byte.newline ∉ d.written id) :
    IsLine (d.cells ++ live [Byte.semicolon]) d.names := by
  refine ⟨d.cells, rfl, by simpa using d.declares space_nil, fun c hc hlive => ?_⟩
  refine ⟨d.unended_cells c hc hlive, fun heq => hnewline ?_⟩
  rw [← d.bytes_cells, ← heq]
  exact List.mem_map_of_mem hc

theorem Declarators.plain_pieces (d : Declarators) (after : Blank) : Plain (d.pieces after) := by
  induction d with
  | last n sp e gap =>
    exact (plain_singleton n.fits.fits (sp.closes_mark (by decide))).append
      (e.plain_pieces (Mark.closes_of_space gap.blank after.blank (by decide)))
  | more n sp e sp' rest ih =>
    exact (plain_singleton n.fits.fits (sp.closes_mark (by decide))).append
      ((e.plain_pieces (sp'.closes_mark (by decide))).append ih)

/-! ## Statements -/

/-- A statement may start behind the mark `last`. -/
def Starts (last : Option UInt8) : Prop :=
  last ≠ some Byte.lparen ∧ last ≠ some Byte.dot ∧ last ≠ some Byte.space

instance (last : Option UInt8) : Decidable (Starts last) := inferInstanceAs (Decidable (_ ∧ _))

theorem tidy_braced {ps : List Piece}
    (hps : ∀ more, Tidy (lastMark (some Byte.lbrace) ps) more → Tidy (some Byte.lbrace) (ps ++ more))
    (opening closing : Blank) {last : Option UInt8} {more : List Piece}
    (hmore : Tidy (some Byte.rbrace) more) : Tidy last (braced opening ps closing ++ more) := by
  have hopening : (Piece.marked .none ⟨[], Byte.lbrace, opening.text⟩).Fits :=
    ⟨trivial, ⟨space_nil, opening.blank, by simp +decide, by simp +decide⟩, by simp +decide,
      fun _ => rfl⟩
  have hclosing : (Piece.marked .none ⟨[], Byte.rbrace, closing.text⟩).Fits :=
    (Mark.closes_of_space space_nil closing.blank (by decide)).fits_marked trivial
  rw [braced, List.append_assoc, List.append_assoc]
  exact ⟨hopening, trivial, hps _ ⟨hclosing, trivial, hmore⟩⟩

/-- The pieces of statements are tidy. -/
theorem Statements.tidy_pieces (S : Statements) {last : Option UInt8} (hlast : Starts last)
    {more : List Piece} (hmore : Tidy (lastMark last S.pieces) more) :
    Tidy last (S.pieces ++ more) := by
  induction S generalizing last more with
  | done => exact hmore
  | block opening inner closing rest ihinner ihrest =>
    rw [pieces, lastMark_append, lastMark_braced] at hmore
    rw [pieces, List.append_assoc]
    exact tidy_braced (fun _ => ihinner (by decide)) opening closing (ihrest (by decide) hmore)
  | branch sp e sp' opening inner closing rest ihinner ihrest =>
    have hif : (Operand.word (Text.ofString "if")).Fits := by
      unfold Operand.Fits
      decide
    have hparen := sp.closes_mark (b := Byte.lparen) (by decide)
    have hclose := sp'.closes_mark (b := Byte.rparen) (by decide)
    rw [pieces, lastMark, lastMark_append, lastMark_append, lastMark_braced] at hmore
    rw [pieces, List.cons_append, List.append_assoc, List.append_assoc]
    refine ⟨hparen.fits_marked hif, trivial, (e.plain_pieces hclose).tidy ?_⟩
    exact tidy_braced (fun _ => ihinner (by decide)) opening closing (ihrest (by decide) hmore)
  | declare l gap rest ih =>
    have hline := l.oneLine
    rw [List.mem_append, not_or] at hline
    have hkeyword : l.keyword = "let" ∨ l.keyword = "const" := by
      unfold Line.keyword
      split
      · exact .inr rfl
      · exact .inl rfl
    rw [pieces, lastMark, lastMark_append, Declarators.lastMark_pieces] at hmore
    rw [pieces, List.cons_append, List.append_assoc]
    refine ⟨⟨hkeyword, l.apart, l.space.blank⟩, ⟨hline.1, hlast.1, hlast.2.1, hlast.2.2,
      _, live gap.text ++ Script.cells (rest.pieces ++ more), ?_,
      l.declarators.isLine hline.2⟩, (l.declarators.plain_pieces gap).tidy ?_⟩
    · rw [cells_append, l.declarators.cells_pieces, List.append_assoc]
    · rw [Declarators.lastMark_pieces]
      exact ih (by decide) hmore
  | run e sp rest ih =>
    rw [pieces, lastMark_append, e.lastMark_pieces] at hmore
    rw [pieces, List.append_assoc]
    refine (e.plain_pieces (sp.closes_mark (by decide))).tidy ?_
    rw [e.lastMark_pieces]
    exact ih (show Starts (some Byte.semicolon) by decide) hmore

/-! ## Calls -/

/-- The words of a path but the last one stand before a dot. -/
theorem Path.eq_final {p : Path} {m m' : Mark} {t : Text}
    (h : .marked (.word t) m' ∈ p.pieces m) (hm' : m'.byte ≠ Byte.dot) : m' = m ∧ t = p.final := by
  obtain ⟨root, properties⟩ := p
  simp only [pieces, final] at h ⊢
  induction properties generalizing root with
  | nil =>
    simp [wordPieces] at h
    exact ⟨h.2, by simp [h.1]⟩
  | cons q properties ih =>
    rcases List.mem_cons.1 h with h | h
    · obtain ⟨-, rfl⟩ : t = root.text ∧ m' = ⟨[], Byte.dot, []⟩ := by simpa using h
      exact absurd rfl hm'
    · obtain ⟨rfl, ht⟩ := ih q h
      refine ⟨rfl, ht.trans ?_⟩
      rw [List.getLastD_cons, List.getLastD_cons, List.getLastD_cons]

theorem Expr.mem_called {k : Arity} {e : Expr k} {m m' : Mark} {t : Text}
    (h : .marked (.word t) m' ∈ e.pieces m) (hm' : m'.byte = Byte.lparen)
    (hm : m.byte ≠ Byte.lparen) : t ∈ e.called := by
  induction e generalizing m with
  | path p =>
    obtain ⟨rfl, -⟩ := Path.eq_final h (by simp +decide [hm'])
    exact absurd hm' hm
  | integer d =>
    obtain ⟨-, rfl⟩ : t = d.text ∧ m' = m := by simpa [pieces] using h
    exact absurd hm' hm
  | string q => simp [pieces] at h
  | sum l sp r ihl ihr =>
    rcases List.mem_append.1 h with h | h
    · exact List.mem_append_left _ (ihl h (by simp +decide))
    · exact List.mem_append_right _ (ihr h hm)
  | call g sp args ih =>
    rcases List.mem_append.1 h with h | h
    · obtain ⟨-, rfl⟩ := Path.eq_final h (by simp +decide [hm'])
      exact .head _
    · exact .tail _ (ih h hm)
  | noArgument => simp [pieces] at h
  | lastArgument e gap ih =>
    rcases List.mem_append.1 h with h | h
    · exact ih h (by simp +decide)
    · simp at h
  | argument e sp args ihe ihargs =>
    rcases List.mem_append.1 h with h | h
    · exact List.mem_append_left _ (ihe h (by simp +decide))
    · exact List.mem_append_right _ (ihargs h hm)

theorem Declarators.mem_called {d : Declarators} {after : Blank} {m : Mark} {t : Text}
    (h : .marked (.word t) m ∈ d.pieces after) (hm : m.byte = Byte.lparen) : t ∈ d.called := by
  induction d with
  | last n sp e gap =>
    rcases List.mem_cons.1 h with h | h
    · obtain ⟨-, rfl⟩ : t = n.text ∧ m = sp.mark Byte.equals := by simpa using h
      exact absurd hm (by simp +decide)
    · exact e.mem_called h hm (by simp +decide)
  | more n sp e sp' rest ih =>
    rcases List.mem_cons.1 h with h | h
    · obtain ⟨-, rfl⟩ : t = n.text ∧ m = sp.mark Byte.equals := by simpa using h
      exact absurd hm (by simp +decide)
    · rcases List.mem_append.1 h with h | h
      · exact List.mem_append_left _ (e.mem_called h hm (by simp +decide))
      · exact List.mem_append_right _ (ih h)

theorem mem_of_mem_braced {opening closing : Blank} {ps : List Piece} {t : Text} {m : Mark}
    (h : .marked (.word t) m ∈ braced opening ps closing) : .marked (.word t) m ∈ ps := by
  simpa [braced] using h

/-- A word before a parenthesis is called, or it is the head of a condition. -/
theorem Statements.mem_called {S : Statements} {m : Mark} {t : Text}
    (h : .marked (.word t) m ∈ S.pieces) (hm : m.byte = Byte.lparen) :
    t = Text.ofString "if" ∨ t ∈ S.called := by
  induction S with
  | done => simp [pieces] at h
  | block opening inner closing rest ihinner ihrest =>
    rw [called, List.mem_append]
    rcases List.mem_append.1 h with h | h
    · exact (ihinner (mem_of_mem_braced h)).imp_right .inl
    · exact (ihrest h).imp_right .inr
  | branch sp e sp' opening inner closing rest ihinner ihrest =>
    rw [called, List.mem_append, List.mem_append, or_assoc]
    rcases List.mem_cons.1 h with h | h
    · obtain ⟨rfl, -⟩ : t = Text.ofString "if" ∧ m = sp.mark Byte.lparen := by simpa using h
      exact .inl rfl
    · rcases List.mem_append.1 h with h | h
      · exact .inr (.inl (e.mem_called h hm (by simp +decide)))
      · rcases List.mem_append.1 h with h | h
        · exact (ihinner (mem_of_mem_braced h)).imp_right fun ht => .inr (.inl ht)
        · exact (ihrest h).imp_right fun ht => .inr (.inr ht)
  | declare l gap rest ih =>
    rw [called, List.mem_append]
    rcases List.mem_cons.1 h with h | h
    · simp at h
    · rcases List.mem_append.1 h with h | h
      · exact .inr (.inl (Declarators.mem_called h hm))
      · exact (ih h).imp_right .inr
  | run e sp rest ih =>
    rw [called, List.mem_append]
    rcases List.mem_append.1 h with h | h
    · exact .inr (.inl (e.mem_called h hm (by simp +decide)))
    · exact (ih h).imp_right .inr

/-- Where no name that is called reads as a head, no piece does. -/
theorem Statements.headless_pieces {S : Statements} (h : ∀ n ∈ S.called, readsAsHead n = false) :
    Headless S.pieces := by
  intro t m hmem hm
  rcases Statements.mem_called hmem hm with rfl | ht
  · decide
  · exact h t ht

end PageLang.Script
