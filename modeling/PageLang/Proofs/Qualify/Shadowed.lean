import PageLang.Proofs.Qualify.Heads

/-!
# Names that heads bind

The names of a list of patterns wait for the next live brace. In front of a block this is the brace of
the block, if no object pattern stands in the list; otherwise it is the first brace of the list, and
when that one closes the names are gone.

* `Parameters.mem_hidden_iff`: a list of parameters hides the names that it binds in every block behind
  it if and only if no object pattern stands in the list.
-/

namespace PageLang

open Cell Qualify MaskedText

namespace Qualify

/-! ## A name that nothing hides -/

/-- A word that stands for itself is a reference. -/
theorem stands_of_word {u n w : Text} {b : UInt8} (hn : n ≠ [])
    (hu : ∀ c ∈ u.getLast?, Byte.isWord c = false ∧ c ≠ Byte.dot)
    (hb : Byte.isWord b = false ∧ Byte.isSpace b = false ∧ b ≠ Byte.colon)
    (hlive : (ofText .code (u ++ (n ++ b :: w))).isLive u.length = true) :
    Reference.Stands (ofText .code (u ++ (n ++ b :: w))) ⟨u.length, n.length, n, .bare⟩ where
  live := hlive
  spelled := by
    refine mem_spellings.2 (.inl ⟨rfl, ?_⟩)
    rw [slice_ofText, Text.slice]
    simp
  pos := List.length_pos_iff.2 hn
  le := by simp [size_ofText]
  before := by
    unfold joinsBefore
    dsimp only
    rcases List.eq_nil_or_concat u with rfl | ⟨v, c, rfl⟩
    · rfl
    · have hc := hu c (by simp)
      have hbyte : (ofText .code (v.concat c ++ (n ++ b :: w))).byte? ((v.concat c).length - 1) =
          some c := by
        rw [byte?_ofText]
        simp
      rw [if_neg (by simp), hbyte]
      simp [hc]
  after := by
    have hbyte : (ofText .code (u ++ (n ++ b :: w))).byte? (u.length + n.length) = some b := by
      rw [byte?_ofText, ← List.append_assoc, ← List.length_append,
        List.getElem?_append_right (Nat.le_refl _)]
      simp
    have hskip : (ofText .code (u ++ (n ++ b :: w))).skipSpace (u.length + n.length) =
        u.length + n.length := by
      have hrest := (rest_zero (ofText .code (u ++ (n ++ b :: w))))
      have hat : (ofText .code (u ++ (n ++ b :: w))).Rest (u.length + n.length)
          ([] ++ (ofText .code (u ++ (n ++ b :: w))).cells.drop (u.length + n.length)) := by
        exact ⟨by simp [size_ofText], rfl⟩
      refine hat.skipSpace (by simp) fun d hd => ?_
      rw [List.head?_drop, getElem?_cells, hbyte] at hd
      obtain rfl : _ = d := by simpa using hd
      exact hb.2.1
    unfold joinsAfter
    dsimp only
    rw [hbyte]
    simp [hb, hskip, hbyte]

end Qualify

namespace ScopeStack

/-! ## Names that are gone -/

variable {s : ScopeStack}

/-- Parameters wait, and change no frame. -/
theorem apply_parameters {d : LocalDeclaration} {function : Bool}
    (hscope : d.scope = .parameters function) (s : ScopeStack) :
    (s.apply d).inner = s.inner ∧ (s.apply d).root = s.root ∧
      (s.apply d).transient = s.transient := by
  unfold ScopeStack.apply
  rw [hscope]
  induction d.names generalizing s with
  | nil => exact ⟨rfl, rfl, rfl⟩
  | cons n names ih => exact ih (s.declarePending n function)

theorem readFrom_parameters {es : List (Nat × Event)} (h : ∀ x ∈ es, ∃ d function,
    x.2 = .declares d ∧ d.scope = .parameters function) (s : ScopeStack) :
    (readFrom s es).inner = s.inner ∧ (readFrom s es).root = s.root ∧
      (readFrom s es).transient = s.transient := by
  induction es generalizing s with
  | nil => exact ⟨rfl, rfl, rfl⟩
  | cons x es ih =>
    obtain ⟨⟨d, function, hx, hscope⟩, hes⟩ := List.forall_mem_cons.1 h
    obtain ⟨hinner, hroot, htransient⟩ := apply_parameters hscope s
    obtain ⟨hinner', hroot', htransient'⟩ := ih hes (s.apply d)
    rw [readFrom_cons, hx]
    exact ⟨hinner'.trans hinner, hroot'.trans hroot, htransient'.trans htransient⟩

/-- Where no name waits, braces open and close frames. -/
theorem readFrom_braces {es : List (Nat × Event)} {depth : Nat} (h : ∀ x ∈ es, x.2.isBrace = true)
    (hpending : s.pending = []) (hnest : nest? s.inner.length es = some depth) :
    (readFrom s es).inner.length = depth ∧ (readFrom s es).pending = [] ∧
      (readFrom s es).root = s.root ∧ (readFrom s es).transient = s.transient := by
  induction es generalizing s with
  | nil => exact ⟨Option.some.inj hnest, hpending, rfl, rfl⟩
  | cons x es ih =>
    obtain ⟨hx, hes⟩ := List.forall_mem_cons.1 h
    obtain ⟨i, e⟩ := x
    rw [readFrom_cons]
    cases e with
    | opens =>
      have hpush : s.push = { s with inner := ⟨s.top.names, false⟩ :: s.inner } := by
        simp [push, hpending]
      have := ih (s := s.push) hes (by rw [hpush]; exact hpending) (by rw [hpush]; exact hnest)
      rw [show Event.scopes s (i, .opens).2 = s.push from rfl, hpush]
      rwa [hpush] at this
    | closes =>
      cases hinner : s.inner with
      | nil =>
        rw [hinner] at hnest
        cases hnest
      | cons f inner =>
        refine ih (s := s.pop) hes hpending ?_
        rw [hinner] at hnest
        rw [pop, hinner]
        exact hnest
    | declares d => cases hx
    | refers r => cases hx

end ScopeStack

namespace MaskedText

/-! ## The braces of live text -/

/-- The braces of a piece are counted by its cells. -/
theorem nest?_braces {s : MaskedText} {i depth depth' : Nat} {w v : List Cell}
    (h : s.Rest i (w ++ v)) (hdepth : depth? (depth + 1) w = some (depth' + 1)) :
    nest? depth (s.braces i w.length) = some depth' := by
  induction w generalizing i depth with
  | nil =>
    obtain rfl : depth = depth' := by simpa using hdepth
    rfl
  | cons c w ih =>
    rw [depth?_cons, Option.bind_eq_some_iff] at hdepth
    obtain ⟨n, hstep, hdepth⟩ := hdepth
    have hlive : s.liveByte? i = _ := h.liveByte?_zero
    obtain ⟨b, m⟩ := c
    rw [List.length_cons]
    cases m with
    | true =>
      obtain rfl : depth + 1 = n := by simpa [step?] using hstep
      rw [braces_of_ne (by simp [hlive]) (by simp [hlive])]
      exact ih h.tail hdepth
    | false =>
      by_cases hl : b = Byte.lbrace
      · subst hl
        obtain rfl : depth + 1 + 1 = n := by simpa [step?] using hstep
        rw [braces_of_lbrace (by simp [hlive])]
        exact ih h.tail hdepth
      by_cases hr : b = Byte.rbrace
      · subst hr
        cases depth with
        | zero => simp +decide [step?] at hstep
        | succ depth =>
          obtain rfl : depth + 1 = n := by simpa +decide [step?] using hstep
          rw [braces_of_rbrace (by simp [hlive])]
          exact ih h.tail hdepth
      · obtain rfl : depth + 1 = n := by simpa [step?, hl, hr] using hstep
        rw [braces_of_ne (by simp [hlive, hl]) (by simp [hlive, hr])]
        exact ih h.tail hdepth

/-- In front of the first brace of a text that closes no other one, no brace closes. -/
theorem depth?_of_not_mem {a : Text} {w : List Cell} {n : Nat} (h : depth? 1 (live a ++ w) = some n)
    (ha : Byte.lbrace ∉ a) : Byte.rbrace ∉ a ∧ depth? 1 w = some n := by
  induction a with
  | nil => exact ⟨by simp, h⟩
  | cons b a ih =>
    rw [List.mem_cons, not_or] at ha
    have hr : b ≠ Byte.rbrace := by
      rintro rfl
      simp +decide [step?] at h
    have hstep : step? 1 (b, false) = some 1 := by simp [step?, Ne.symm ha.1, hr]
    rw [live_cons, List.cons_append, depth?_cons, hstep, Option.bind_some] at h
    obtain ⟨ih, hdepth⟩ := ih h ha.2
    exact ⟨by simp [Ne.symm hr, ih], hdepth⟩

/-- A calm text that closes the braces it opens is live as a whole. -/
theorem rest_of_calm {t : Text} (hcalm : ∀ b ∈ t, Byte.isCalm b = true) (hbalanced : Balanced (live t)) :
    (ofText .code t).Rest 0 (live t) := by
  have hreads : Mask.State.Reads (.start .code) [] (live t) [] ⟨.live, .code, 0, []⟩ :=
    Mask.State.reads_calm 0 [] hcalm (hbalanced 0) [] []
  have := rest_ofText hreads
  rwa [bytes_live] at this

/-- A name is not hidden in a block if the only declarations are parameters in front of all braces,
another brace stands in front of that of the block, and the braces between them match. -/
theorem not_hides_of_brace {s : MaskedText} {k o : Nat} {r : Reference} (hkpos : 0 < k)
    (hdeclarations : ∀ d ∈ s.declarations, d.offset = 0 ∧ ∃ function, d.scope = .parameters function)
    (hfirst : s.liveByte? k = some Byte.lbrace)
    (hbefore : ∀ i < k, s.liveByte? i ≠ some Byte.lbrace ∧ s.liveByte? i ≠ some Byte.rbrace)
    (hk : k < o) (ho : s.liveByte? o = some Byte.lbrace)
    (hnest : nest? 1 (s.braces (k + 1) (o - (k + 1))) = some 0)
    (hbehind : s.liveByte? (o + 1) ≠ some Byte.lbrace ∧ s.liveByte? (o + 1) ≠ some Byte.rbrace)
    (hsize : o + 1 < s.size) (hr : r.offset = o + 1) : s.hides r = false := by
  have hevent : (k, Event.opens) ∈ s.scopeEvents :=
    mem_scopeEvents.2 (.inl (mem_braces.2 ⟨Nat.zero_le _, by omega, .inl ⟨hfirst, rfl⟩⟩))
  obtain ⟨pre, post, hsplit⟩ := exists_split hevent (by dsimp only; omega)
  -- in front of the first brace stand parameters, and behind it braces
  have hpre : ∀ x ∈ pre, ∃ d function, x.2 = .declares d ∧ d.scope = .parameters function := by
    rintro ⟨i, e⟩ hx
    have hmem : (i, e) ∈ s.scopeEvents := by simp [hsplit.eq, hx]
    rcases mem_scopeEvents.1 hmem with hbrace | ⟨d, hd, heq⟩
    · have hlt : i < k := hsplit.pre_lt rfl _ hx
      obtain ⟨-, -, ⟨hlive, -⟩ | ⟨hlive, -⟩⟩ := mem_braces.1 hbrace
      · exact absurd hlive (hbefore i hlt).1
      · exact absurd hlive (hbefore i hlt).2
    · obtain ⟨-, rfl⟩ := Prod.mk.inj heq
      obtain ⟨-, function, hscope⟩ := hdeclarations d hd
      exact ⟨d, function, rfl, hscope⟩
  have hpost : post = s.braces (k + 1) (s.size - (k + 1)) := by
    rw [← hsplit.braces]
    refine (List.filter_eq_self.2 fun x hx => ?_).symm
    have hmem : x ∈ s.scopeEvents := by simp [hsplit.eq, hx]
    rcases mem_scopeEvents.1 hmem with hbrace | ⟨d, hd, rfl⟩
    · exact isBrace_of_mem_braces hbrace
    · have := hsplit.le_post _ hx
      have := (hdeclarations d hd).1
      dsimp only at *
      omega
  have hbraces : s.braces (k + 1) (o + 1 - k) =
      s.braces (k + 1) (o - (k + 1)) ++ [(o, .opens)] := by
    rw [show o + 1 - k = (o - (k + 1)) + 2 by omega, braces_add,
      show k + 1 + (o - (k + 1)) = o by omega, braces_of_lbrace ho, braces_of_ne hbehind.1 hbehind.2]
    rfl
  obtain ⟨hinner, hroot, htransient⟩ := ScopeStack.readFrom_parameters hpre .start
  have hpush : (readFrom .start pre).push.pending = [] ∧
      (readFrom .start pre).push.inner.length = 1 ∧
      (readFrom .start pre).push.root = ScopeStack.start.root ∧
      (readFrom .start pre).push.transient = [] := by
    unfold ScopeStack.push
    split
    · next hpending =>
      exact ⟨List.isEmpty_iff.1 hpending, by rw [List.length_cons, hinner]; rfl, hroot, htransient⟩
    · exact ⟨rfl, by rw [List.length_cons, hinner]; rfl, hroot, htransient⟩
  obtain ⟨hpending, hlength, hroot, htransient⟩ := hpush
  obtain ⟨hinner', hpending', hroot', htransient'⟩ := ScopeStack.readFrom_braces
    (s := (readFrom .start pre).push) (fun x hx => isBrace_of_mem_braces hx) hpending
    (by rw [hlength]; exact hnest)
  have hscopes : s.scopesAt r.offset =
      (readFrom (readFrom .start pre).push (s.braces (k + 1) (o - (k + 1)))).push := by
    rw [hsplit.scopesAt (by dsimp only; omega), hpost, hr, filter_braces_le (by omega) hsize, hbraces,
      readFrom_append]
    rfl
  replace hroot' := hroot'.trans hroot
  replace htransient' := htransient'.trans htransient
  rw [hides, hscopes]
  generalize readFrom (readFrom .start pre).push (s.braces (k + 1) (o - (k + 1))) = scopes
    at hinner' hpending' hroot' htransient'
  have hnil : scopes.inner = [] := List.length_eq_zero_iff.1 hinner'
  simp [ScopeStack.push, hpending', ScopeStack.isDeclared, htransient', hnil, ScopeStack.frames,
    ScopeStack.top, hroot', ScopeStack.start]

end MaskedText

/-! ## Bodies with one arrow function -/

namespace Script

/-- A text is cut in one way at a byte that stands in it once. -/
theorem eq_of_append_cons {a a' b b' : Text} {c : UInt8} (h : a ++ c :: b = a' ++ c :: b')
    (ha : c ∉ a) (hb : c ∉ b) : a = a' := by
  rcases List.append_eq_append_iff.1 h with ⟨e, rfl, he⟩ | ⟨e, rfl, he⟩
  · cases e with
    | nil => simp
    | cons d e =>
      obtain ⟨-, rfl⟩ := List.cons.inj he
      exact absurd (List.mem_append_right _ (.head _)) hb
  · cases e with
    | nil => simp
    | cons d e =>
      obtain ⟨rfl, -⟩ := List.cons.inj he
      exact absurd (List.mem_append_right _ (.head _)) ha

/-- Where no arrow stands, no arrow function is found. -/
theorem not_mem_arrowLocals {t : Text} (ht : Byte.greater ∉ t) {r : Nat × Nat} {d : LocalDeclaration} :
    d ∉ (ofText .code t).arrowLocals r.1 r.2 := by
  intro hd
  obtain ⟨x, hx, -⟩ := List.mem_map.1 hd
  rw [slice_ofText] at hx
  obtain ⟨-, before, b, v, behind, hslice, hrec, -⟩ := exists_of_mem_all_slice (List.mem_filter.1 hx).1
  obtain ⟨front, gap, heq, -, -⟩ := Recogniser.exists_of_arrow hrec
  have harrow : Byte.greater ∈ Text.ofString "=>" := by decide
  have hmem : Byte.greater ∈ b :: v := by simp [heq, harrow]
  rw [← hslice] at hmem
  exact ht (List.mem_of_mem_drop (List.mem_of_mem_take hmem))

/-- An arrow function that is found where only one arrow stands, behind a parenthesis, and an opening
parenthesis only at the beginning, is the whole text up to the arrow. -/
theorem of_arrow_slice {u v : Text} (hu : Byte.greater ∉ u ∧ Byte.lparen ∉ u)
    (hv : Byte.greater ∉ v) {start stop : Nat} {x : Nat × Nat × (Text ⊕ Text)}
    (hx : x ∈ Recogniser.all Recogniser.arrow 0 start []
      (Text.slice (Byte.lparen :: (u ++ Byte.rparen :: (Text.ofString "=>" ++ v))) start stop)) :
    x.1 = 0 ∧ x.2.1 = u.length + 4 := by
  obtain ⟨-, before, b, w, behind, hslice, hrec, hbehind⟩ := exists_of_mem_all_slice hx
  obtain ⟨front, gap, heq, hgap, hfront⟩ := Recogniser.exists_of_arrow hrec
  have harrow : Text.ofString "=>" = [Byte.equals, Byte.greater] := by decide
  rw [harrow] at hslice heq
  -- the arrow that is found is the one in the text
  generalize hwhole : Byte.lparen :: (u ++ Byte.rparen :: ([Byte.equals, Byte.greater] ++ v)) = t
    at hslice
  have hcut : Byte.lparen :: (u ++ [Byte.rparen, Byte.equals]) ++ Byte.greater :: v =
      t.take x.1 ++ (front ++ (gap ++ [Byte.equals])) ++
        Byte.greater :: (behind ++ (t.drop x.1).drop (stop - x.1)) := by
    calc Byte.lparen :: (u ++ [Byte.rparen, Byte.equals]) ++ Byte.greater :: v
      _ = t := by rw [← hwhole]; simp
      _ = t.take x.1 ++ ((b :: w) ++ (t.drop x.1).drop (stop - x.1)) := by
        rw [← hslice, List.take_append_drop, List.take_append_drop]
      _ = _ := by rw [heq]; simp
  replace hcut := eq_of_append_cons hcut (by simp +decide [hu.1]) hv
  generalize hpre : t.take x.1 = pre at hcut
  replace hcut : (Byte.lparen :: u) ++ [Byte.rparen] = (pre ++ front) ++ gap := by
    refine (List.append_left_inj [Byte.equals]).1 ?_
    simpa using hcut
  -- in front of it stands the parenthesis
  obtain rfl : gap = [] := by
    rcases List.eq_nil_or_concat gap with hnil | ⟨g, c, rfl⟩
    · exact hnil
    · rw [List.concat_eq_append, ← List.append_assoc] at hcut
      obtain rfl := (List.concat_inj.1 (by simpa only [List.concat_eq_append] using hcut)).2
      exact absurd (hgap Byte.rparen (by simp)) (by decide)
  rw [List.append_nil] at hcut
  rcases hfront with ⟨inside, rfl, -⟩ | ⟨hne, hword⟩
  · have hlist : Byte.lparen :: u = pre ++ Byte.lparen :: inside :=
      (List.append_left_inj [Byte.rparen]).1 (by simpa using hcut)
    cases pre with
    | cons c pre =>
      obtain ⟨-, rfl⟩ := List.cons.inj hlist
      exact absurd (List.mem_append_right _ (.head _)) hu.2
    | nil =>
      obtain rfl := (List.cons.inj hlist).2
      have hzero : x.1 = 0 := by simpa [← hwhole] using hpre
      refine ⟨hzero, ?_⟩
      rw [hbehind, heq, hzero]
      simp only [List.length_cons, List.length_append, List.length_nil]
      omega
  · obtain ⟨y, c, rfl⟩ := (List.eq_nil_or_concat front).resolve_left hne
    rw [List.concat_eq_append, ← List.append_assoc] at hcut
    obtain rfl := (List.concat_inj.1 (by simpa only [List.concat_eq_append] using hcut)).2
    exact absurd (hword Byte.rparen (by simp)) (by decide)

/-! ## The names that a list hides -/

/-- A list of patterns on one line. -/
structure Parameters where
  list : Binding (.items .elements)
  line : Byte.newline ∉ list.text

namespace Parameters

/-- The names that a list hides in the blocks behind it. -/
def hidden (P : Parameters) : List Text := if P.list.hasObject then [] else P.list.names

theorem isSpace_of_mem_nil : ∀ b ∈ ([] : Text), Byte.isSpace b = true := by
  simp

/-- The list as that of an arrow function, without blanks. -/
def head (P : Parameters) : Head :=
  .arrow ⟨[], isSpace_of_mem_nil⟩ P.list ⟨[], isSpace_of_mem_nil⟩ ⟨[], isSpace_of_mem_nil⟩

theorem text_head (P : Parameters) : P.head.text =
    Byte.lparen :: (P.list.text ++ Byte.rparen :: Text.ofString "=>") := by
  simp [head, Head.text, Head.front, Head.back]

/-- An arrow function whose block holds one name. -/
def body (P : Parameters) (n : Text) : Text := P.head.text ++ Byte.lbrace :: (n ++ [Byte.rbrace])

/-- The name in the block. -/
def reference (P : Parameters) (n : Text) : Reference :=
  ⟨P.head.text.length + 1, n.length, n, .bare⟩

section
variable (P : Parameters) {n : Text} (hn : n.isIdentifier = true)
include hn

theorem settled_body : Settled (P.body n) := by
  have hblock : Settled (Byte.lbrace :: (n ++ [Byte.rbrace])) := by
    have hname := settled_word (word_of_isIdentifier hn)
    refine ⟨?_, ?_, ?_⟩
    · exact List.forall_mem_cons.2
        ⟨by decide, List.forall_mem_append.2 ⟨hname.calm, List.forall_mem_singleton.2 (by decide)⟩⟩
    · simp +decide [hname.semicolon]
    · simpa using hname.balanced.braces
  rw [body, Head.text]
  exact (P.head.settled_front.append (settled_blank _)).append hblock

theorem rest_body : (ofText .code (P.body n)).Rest 0 (live (P.body n)) :=
  rest_of_calm (P.settled_body hn).calm (P.settled_body hn).balanced

/-- In such a body a mark follows each word. -/
theorem rows_body : Rows (Byte.rparen :: patternMarks) (P.body n) := by
  have hname : Rows (Byte.rparen :: patternMarks) (n ++ [Byte.rbrace]) :=
    ((rows_nil _).cons (by decide)).append_word (word_of_isIdentifier hn) (follows_cons (by decide) [])
  have harrow : Rows (Byte.rparen :: patternMarks)
      (Byte.rparen :: (Text.ofString "=>" ++ Byte.lbrace :: (n ++ [Byte.rbrace]))) :=
    ((hname.cons (b := Byte.lbrace) (by decide)).append (by decide)).cons (by decide)
  have := (rows_binding (List.subset_cons_self _ _) P.list (follows_cons (by decide) _) harrow).cons
    (b := Byte.lparen) (by decide)
  simpa [body, text_head] using this

/-- All that is declared are parameters at the beginning. -/
theorem of_mem_declarations {d : LocalDeclaration} (hd : d ∈ (ofText .code (P.body n)).declarations) :
    d.offset = 0 ∧ ∃ function, d.scope = .parameters function := by
  have hword {b : UInt8} (hb : Byte.isWord b = false) : b ∉ n := fun hmem => by
    simp [word_of_isIdentifier hn b hmem] at hb
  have hbody : P.body n = Byte.lparen :: (P.list.text ++ Byte.rparen ::
      (Text.ofString "=>" ++ Byte.lbrace :: (n ++ [Byte.rbrace]))) := by
    simp [body, text_head]
  obtain ⟨r, -, hd⟩ := exists_arrow_of_tame (show Byte.rparen :: patternMarks ⊆ rowMarks by decide) hd
    ((P.rows_body hn).tame _)
  obtain ⟨⟨first, behind, parameters⟩, hx, rfl⟩ := List.mem_map.1 hd
  have hx := (List.mem_filter.1 hx).1
  rw [slice_ofText, hbody] at hx
  obtain ⟨rfl, rfl⟩ : first = 0 ∧ behind = P.list.text.length + 4 := of_arrow_slice
    ⟨fun hmem => (Binding.Fits.plain _ (P.list.fits_text _ hmem)).2.2.2.2.1 rfl,
      fun hmem => (Binding.Fits.plain _ (P.list.fits_text _ hmem)).2.1 rfl⟩
    (by simp +decide [hword (b := Byte.greater) (by decide)]) hx
  refine ⟨rfl, true, ?_⟩
  have hrest : (ofText .code (P.body n)).Rest (P.list.text.length + 4)
      (live [] ++ (Byte.lbrace, false) :: live (n ++ [Byte.rbrace])) := by
    have h := P.rest_body hn
    rw [body, live_append] at h
    have := h.skip
    rw [length_live] at this
    simpa [text_head, body, show (Text.ofString "=>").length = 2 by decide] using this
  have hblock : (ofText .code (P.body n)).byte?
      ((ofText .code (P.body n)).skipTrivia (P.list.text.length + 4)) = some Byte.lbrace := by
    rw [hrest.skipTrivia_space (by simp [Space]) (by decide)]
    exact hrest.byte?_zero
  dsimp only
  rw [if_pos hblock]

/-- If an object pattern stands in the list, the name in the block is not hidden. -/
theorem not_hides (hobject : P.list.hasObject = true) :
    (ofText .code (P.body n)).hides (P.reference n) = false := by
  obtain ⟨a, c, hac, ha⟩ := List.eq_append_cons_of_mem (P.list.lbrace_mem_text.2 hobject)
  obtain ⟨d, m, rfl⟩ : ∃ d m, n = d :: m := by
    cases n with
    | nil => cases hn
    | cons d m => exact ⟨d, m, rfl⟩
  have hd : d ≠ Byte.lbrace ∧ d ≠ Byte.rbrace := by
    have hword := word_of_isIdentifier hn d (.head _)
    constructor <;> rintro rfl <;> simp +decide at hword
  -- between the first brace and that of the block braces match
  have hbalanced := P.list.balanced 0
  rw [hac, live_append, live_cons] at hbalanced
  obtain ⟨hr, hdepth⟩ := depth?_of_not_mem hbalanced ha
  have hdepth : depth? 2 (live (c ++ Byte.rparen :: Text.ofString "=>")) = some 1 := by
    have hinside : depth? 2 (live c) = some 1 := by simpa [step?] using hdepth
    rw [live_append, depth?_append, hinside]
    decide
  have hrest := P.rest_body hn
  have hcells : live (P.body (d :: m)) = live (Byte.lparen :: a) ++ ((Byte.lbrace, false) ::
      (live (c ++ Byte.rparen :: Text.ofString "=>") ++
        ((Byte.lbrace, false) :: ((d, false) :: live (m ++ [Byte.rbrace]))))) := by
    simp [body, text_head, hac]
  rw [hcells] at hrest
  have hfirst := hrest.skip
  rw [length_live, Nat.zero_add] at hfirst
  have hblock := hfirst.tail.skip
  rw [length_live] at hblock
  have ho : (Byte.lparen :: a).length + 1 + (c ++ Byte.rparen :: Text.ofString "=>").length =
      P.head.text.length := by
    simp only [text_head, hac, List.length_cons, List.length_append]
    omega
  rw [ho] at hblock
  refine not_hides_of_brace (k := (Byte.lparen :: a).length) (o := P.head.text.length) (by simp)
    (fun e he => P.of_mem_declarations hn he) hfirst.liveByte?_zero (fun i hi => ?_) (by omega)
    hblock.liveByte?_zero ?_ ?_ ?_ rfl
  · have hlive := hrest.liveByte? i
    rw [Nat.zero_add, List.getElem?_append_left (by simpa using hi)] at hlive
    rw [hlive]
    have hne : ∀ b ∈ Byte.lparen :: a, b ≠ Byte.lbrace ∧ b ≠ Byte.rbrace :=
      List.forall_mem_cons.2 ⟨by decide, fun b hb => ⟨fun heq => ha (heq ▸ hb), fun heq => hr (heq ▸ hb)⟩⟩
    rw [live, List.getElem?_map, List.getElem?_eq_getElem hi]
    simpa using hne (Byte.lparen :: a)[i] (List.getElem_mem hi)
  · rw [show P.head.text.length - ((Byte.lparen :: a).length + 1) =
      (live (c ++ Byte.rparen :: Text.ofString "=>")).length by rw [length_live]; omega]
    exact nest?_braces hfirst.tail hdepth
  · rw [hblock.tail.liveByte?_zero]
    simpa using hd
  · have := hblock.tail.size_eq
    simp only [List.length_cons] at this
    omega

theorem rest_name : (ofText .code (P.body n)).Rest (P.head.text.length + 1)
    (live n ++ (Byte.rbrace, false) :: []) := by
  have h := P.rest_body hn
  rw [body, live_append] at h
  have := h.skip
  rw [length_live, Nat.zero_add, live_cons, live_append] at this
  exact this.tail

theorem stands_head : P.head.Stands [] (n ++ [Byte.rbrace]) where
  live := by
    have h := P.rest_body hn
    rw [← List.append_nil (live _)] at h
    exact h.isLive_of_live (j := 0) (by simp [body, text_head])
  line := by
    simp +decide [head, Head.front, P.line]
  behind := by simp [Head.Behind]
  closes := trivial

theorem isQualified_reference (hobject : P.list.hasObject = true) :
    IsQualified (P.body n) ⟨[n], []⟩ [] .instanced (P.reference n) := by
  have hne : n ≠ [] := by
    rintro rfl
    cases hn
  have hbody : P.body n = (P.head.text ++ [Byte.lbrace]) ++ (n ++ Byte.rbrace :: []) := by simp [body]
  have hlive := (P.rest_name hn).isLive_of_live (j := 0) (List.length_pos_iff.2 hne)
  rw [hbody] at hlive
  have hstands : Reference.Stands (ofText .code ((P.head.text ++ [Byte.lbrace]) ++
      (n ++ Byte.rbrace :: []))) ⟨(P.head.text ++ [Byte.lbrace]).length, n.length, n, .bare⟩ :=
    stands_of_word hne (by simp +decide) (by decide) (by simpa using hlive)
  rw [← hbody] at hstands
  have hsame : P.reference n = ⟨(P.head.text ++ [Byte.lbrace]).length, n.length, n, .bare⟩ := by
    simp [reference]
  rw [← hsame] at hstands
  exact isQualified_of_visible hstands hn (P.not_hides hn hobject)

/-- The name stands in the block. -/
theorem lt_blockEnd : (P.reference n).offset <
    (ofText .code (P.body n)).blockEnd P.head.text.length := by
  have hdepth : depth? 1 (live n) = some 1 := (settled_word (word_of_isIdentifier hn)).balanced 0
  have hclose := (P.rest_name hn).closing? hdepth
  have hpos : 0 < n.length := by
    refine List.length_pos_iff.2 ?_
    rintro rfl
    cases hn
  rw [blockEnd, closingBrace?, hclose, Option.getD_some, length_live]
  exact Nat.lt_add_of_pos_right hpos

end

/-- The names that a list of parameters hides in every block behind it are those that `hidden` gives:
all that it binds if no object pattern stands in it, and else none. -/
theorem mem_hidden_iff (P : Parameters) (n : Text) :
    n ∈ P.hidden ↔ n ∈ P.list.names ∧
      ∀ (h : Head) (pre post : Text) (names : ResolvableNames) (parameters : List Text)
        (context : BodyContext) (r : Reference), h.list = P.list → h.Stands pre post →
        IsQualified (pre ++ (h.text ++ Byte.lbrace :: post)) names parameters context r → r.name = n →
        pre.length + h.text.length ≤ r.offset →
        (ofText .code (pre ++ (h.text ++ Byte.lbrace :: post))).blockEnd (pre.length + h.text.length) ≤
          r.offset := by
  constructor
  · intro hn
    unfold hidden at hn
    split at hn
    · cases hn
    · next hflat =>
      refine ⟨hn, fun h pre post names parameters context r hlist hs hqualified hname hle => ?_⟩
      refine Nat.le_of_not_lt fun hlt => ?_
      have hhides := hs.hides (by rw [hlist]; simpa using hflat) hqualified.stands.1
        (by rw [hlist, hname]; exact hn) hle hlt
      rw [hides_of_isQualified hqualified] at hhides
      cases hhides
  · rintro ⟨hn, hhidden⟩
    have hidentifier := P.list.isIdentifier_of_mem_names hn
    by_contra hnot
    have hobject : P.list.hasObject = true := by
      by_contra hflat
      exact hnot (by rw [hidden, if_neg hflat]; exact hn)
    have hend := hhidden P.head [] (n ++ [Byte.rbrace]) _ _ _ _ rfl (P.stands_head hidentifier)
      (P.isQualified_reference hidentifier hobject) rfl (by simp [reference])
    exact absurd (P.lt_blockEnd hidentifier) (Nat.not_lt_of_le (by simpa [body] using hend))

end Parameters

end Script

end PageLang
