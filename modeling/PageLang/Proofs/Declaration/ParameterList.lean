import PageLang.Proofs.Declaration.Parameters

/-!
# Reading a list of parameters

The parameters of a function are read up to the first parenthesis that closes the list by the
spelling alone, unless none does. Then the list is live text, its strings are masked, and the search
ends at the right parenthesis after all.

* `Parameter.exists_search`: where the search for the closing parenthesis ends.
* `Parameter.declaration?_iff`: the lists that are read as the parameters they hold.
-/

namespace PageLang

open Cell

namespace Mask

variable {d n : Nat} {t rest : Text}

theorem closesParens_nesting (h : Text.Nesting Byte.lparen Byte.rparen d t n) :
    closesParens (d + 1) (t ++ rest) = closesParens (n + 1) rest := by
  induction h with
  | nil => rfl
  | opening _ ih => exact ih
  | @closing d n t _ ih =>
    rw [List.cons_append, closesParens, if_neg (by decide), if_pos rfl, ← ih]
    simp
  | plain hopening hclosing _ ih =>
    rw [List.cons_append, closesParens, if_neg hopening, if_neg hclosing, ih]

namespace State

theorem reads_nesting (h : Text.Nesting Byte.lparen Byte.rparen d t n) {mode : Mode} {depth : Nat}
    {outer : List Frame} (before ahead : Text) :
    Reads ⟨.parameters (d + 1), mode, depth, outer⟩ before (live t) ahead
      ⟨.parameters (n + 1), mode, depth, outer⟩ := by
  induction h generalizing before with
  | nil => exact .nil ..
  | opening _ ih => exact .cons rfl (ih _)
  | @closing d n t _ ih =>
    refine .cons ?_ (ih _)
    have hdepth : ¬ d + 1 + 1 ≤ 1 := by omega
    simp +decide only [State.read, readParameters, if_true, if_false, hdepth, Nat.add_sub_cancel,
      into]
  | plain hopening hclosing _ ih =>
    refine .cons ?_ (ih _)
    simp [State.read, readParameters, hopening, hclosing]

/-- The parenthesis behind a name opens a list of parameters, unless none closes it. -/
theorem reads_colonParen {before : Text} (hbefore : startsStatement before = false)
    (ahead : Text) : Reads ⟨.live, .declarations, 0, []⟩ before
      (live [Byte.colon, Byte.space, Byte.lparen]) ahead
      ⟨if closesParens 1 ahead then .parameters 1 else .live, .declarations, 0, []⟩ := by
  refine .cons (read_colon hbefore _) (.cons rfl (.cons ?_ (.nil ..)))
  simp +decide [State.read, readAfterColon, into]

end State

end Mask

/-- The search for the closing parenthesis counts the parentheses of live text. -/
theorem MaskedText.Rest.search_nesting {s : MaskedText} {i d n k : Nat} {t : Text} {v : List Cell}
    (h : s.Rest i (live t ++ v)) (ht : Text.Nesting Byte.lparen Byte.rparen d t n) :
    closingFrom? s (d + 1) i (t.length + k) = closingFrom? s (n + 1) (i + t.length) k := by
  induction ht generalizing i with
  | nil => simp
  | @opening d n t _ ih =>
    have hbyte : s.liveByte? i = some Byte.lparen := h.liveByte?_zero
    rw [List.length_cons, show t.length + 1 + k = (t.length + k) + 1 by omega, closingFrom?,
      MaskedText.closing?, hbyte, show i + (t.length + 1) = i + 1 + t.length by omega]
    exact ih h.tail
  | @closing d n t _ ih =>
    have hbyte : s.liveByte? i = some Byte.rparen := h.liveByte?_zero
    have hdepth : ¬ d + 1 + 1 ≤ 1 := by omega
    rw [List.length_cons, show t.length + 1 + k = (t.length + k) + 1 by omega, closingFrom?,
      MaskedText.closing?, hbyte, show i + (t.length + 1) = i + 1 + t.length by omega]
    simp +decide only [if_true, if_false, hdepth, Nat.add_sub_cancel]
    exact ih h.tail
  | @plain d n b t hopening hclosing _ ih =>
    have hbyte : s.liveByte? i = some b := h.liveByte?_zero
    rw [List.length_cons, show t.length + 1 + k = (t.length + k) + 1 by omega, closingFrom?,
      MaskedText.closing?, hbyte, show i + (t.length + 1) = i + 1 + t.length by omega]
    simp only [beq_iff_eq, hopening, hclosing, if_false]
    exact ih h.tail

namespace Parameter

open Written

/-- What stands behind the parameters: the closing parenthesis and an empty body. -/
def emptyBody : Text := [Byte.space, Byte.lbrace, Byte.space, Byte.rbrace, Byte.semicolon]

/-- A function with an empty body. -/
def source (ps : List Parameter) (slot : FunctionSlot) (name : Text) : Text :=
  slot.sigil.toList ++ name ++ [Byte.colon, Byte.space, Byte.lparen] ++ listText ps ++
    Byte.rparen :: emptyBody

variable {slot : FunctionSlot} {name : Text} {s : MaskedText} {i : Nat} {w v : List Cell}

/-- The closing parenthesis of a list that the search passes over. -/
theorem closingParen?_eq (h : s.Rest i ((Byte.lparen, false) :: (w ++ (Byte.rparen, false) :: v)))
    (hw : closingFrom? s 1 (i + 1) (w.length + (v.length + 1)) =
      closingFrom? s 1 (i + 1 + w.length) (v.length + 1)) :
    s.closingParen? i = some (i + 1 + w.length) := by
  have hsize : s.size - i = (w.length + (v.length + 1)) + 1 := by
    rw [h.size_eq]
    simp
  have hopen : s.liveByte? i = some Byte.lparen := h.liveByte?_zero
  have hclose : s.liveByte? (i + 1 + w.length) = some Byte.rparen := h.tail.skip.liveByte?_zero
  have hend : closingFrom? s 1 (i + 1 + w.length) (v.length + 1) = some (i + 1 + w.length) := by
    rw [closingFrom?, MaskedText.closing?, hclose]
    rfl
  rw [MaskedText.closingParen?, hsize, MaskedText.closing?, hopen]
  exact hw.trans hend

/-- A function, from its name to the closing parenthesis of its list. -/
def Opens (s : MaskedText) (slot : FunctionSlot) (name : Text) (w v : List Cell) : Prop :=
  s.Rest 0 (live (slot.sigil.toList ++ name) ++ (Byte.colon, false) :: (live [Byte.space] ++
    (Byte.lparen, false) :: (w ++ (Byte.rparen, false) :: v)))

/-- What stands in front of a list, in reverse. -/
def before (slot : FunctionSlot) (name : Text) : Text :=
  [Byte.lparen, Byte.space, Byte.colon] ++ ((bytes (live (slot.sigil.toList ++ name))).reverse ++ [])

/-- A function is read up to its list, and then as its list is. -/
theorem opens_of_reads (hname : NameFits slot.sigil false name) {e : Mask.State}
    (h : Mask.State.Reads
      ⟨if Mask.closesParens 1 (bytes (w ++ (Byte.rparen, false) :: v)) then .parameters 1 else .live,
        .declarations, 0, []⟩ (before slot name) (w ++ (Byte.rparen, false) :: v) [] e) :
    Opens (.ofText .declarations (slot.sigil.toList ++ name ++
      [Byte.colon, Byte.space, Byte.lparen] ++ bytes w ++ Byte.rparen :: bytes v)) slot name w v := by
  have hcolon : Mask.startsStatement ((bytes (live (slot.sigil.toList ++ name))).reverse ++ []) =
      false := by
    rw [bytes_live]
    exact hname.startsStatement_eq slot.isSigil []
  have hparen := Mask.State.reads_colonParen hcolon (bytes (w ++ (Byte.rparen, false) :: v) ++ [])
  rw [List.append_nil (bytes (w ++ _))] at hparen
  have hall : Mask.State.Reads (.start .declarations) [] (live (slot.sigil.toList ++ name) ++
      (live [Byte.colon, Byte.space, Byte.lparen] ++ (w ++ (Byte.rparen, false) :: v))) [] e := by
    refine .append (Mask.State.reads_plain (fun c hc => ?_) _ _) (.append ?_ h)
    · exact (hname.forall_mem_written slot.isSigil c hc).2.1
    · rwa [List.append_nil (bytes (w ++ _))]
  have hrest := MaskedText.rest_ofText hall
  unfold Opens
  simpa using hrest

/-- Where the cells of the list start. -/
theorem Opens.rest_list (h : Opens s slot name w v) :
    s.Rest ((slot.sigil.toList ++ name).length + 2)
      ((Byte.lparen, false) :: (w ++ (Byte.rparen, false) :: v)) := by
  have hparen := h.skip.tail.skip
  rwa [length_live, length_live, Nat.zero_add] at hparen

/-- A list that closes what it opens is read up to its closing parenthesis. -/
theorem opens_of_nesting (hname : NameFits slot.sigil false name) {u : Text}
    (hu : Text.Nesting Byte.lparen Byte.rparen 0 u 0) (rest : List Cell) {e : Mask.State}
    (hread : Mask.State.Reads ⟨.afterParameters, .declarations, 0, []⟩
      (Byte.rparen :: ((bytes (live u)).reverse ++ before slot name)) rest [] e) :
    Opens (.ofText .declarations (slot.sigil.toList ++ name ++
      [Byte.colon, Byte.space, Byte.lparen] ++ u ++ Byte.rparen :: bytes rest)) slot name
        (live u) rest := by
  have hcloses : Mask.closesParens 1 (bytes (live u ++ (Byte.rparen, false) :: rest)) = true := by
    rw [bytes_append, bytes_live]
    exact Mask.closesParens_nesting hu
  have hopens := opens_of_reads (w := live u) (v := rest) hname (e := e) (by
    rw [hcloses]
    exact .append (Mask.State.reads_nesting hu _ _) (.cons rfl hread))
  rwa [bytes_live] at hopens

theorem Opens.closingParen?_nesting {u : Text} (h : Opens s slot name (live u) v)
    (hu : Text.Nesting Byte.lparen Byte.rparen 0 u 0) :
    s.closingParen? ((slot.sigil.toList ++ name).length + 2) =
      some ((slot.sigil.toList ++ name).length + 2 + 1 + (live u).length) := by
  refine closingParen?_eq h.rest_list ?_
  rw [length_live]
  exact h.rest_list.tail.search_nesting hu

/-- The search for the closing parenthesis ends at a front of the list. That is the whole list if no
parenthesis of it, those in strings included, closes one that is not open, and a shorter front
otherwise. -/
theorem exists_search (hname : NameFits slot.sigil false name) (ps : List Parameter) : ∃ w v,
    Opens (.ofText .declarations (source ps slot name)) slot name w v ∧
    (MaskedText.ofText .declarations (source ps slot name)).closingParen?
        ((slot.sigil.toList ++ name).length + 2) =
      some ((slot.sigil.toList ++ name).length + 2 + 1 + w.length) ∧
    (Text.Nests Byte.lparen Byte.rparen 0 (listText ps) ∧ bytes w = listText ps ∧
        v = live emptyBody ∨
      ¬ Text.Nests Byte.lparen Byte.rparen 0 (listText ps) ∧ bytes w <+: listText ps ∧
        bytes w ≠ listText ps) := by
  rcases Text.nesting_or Byte.lparen Byte.rparen 0 (listText ps) with ⟨n, hn⟩ | ⟨u, rest, hlist, hu⟩
  · have hnests : Text.Nests Byte.lparen Byte.rparen 0 (listText ps) := hn.nests (by decide)
    cases n with
    | zero =>
      have hopens := opens_of_nesting hname hn (live emptyBody) (e := .start .declarations)
        (.cons rfl (.cons rfl (.cons rfl (.cons rfl (.cons rfl (.nil ..))))))
      rw [bytes_live] at hopens
      exact ⟨_, _, hopens, hopens.closingParen?_nesting hn, .inl ⟨hnests, bytes_live _, rfl⟩⟩
    | succ n =>
      -- nothing closes the list, so that its strings are masked
      have hcloses : Mask.closesParens 1
          (bytes (listCells ps ++ (Byte.rparen, false) :: live emptyBody)) = false := by
        rw [bytes_append]
        refine (Mask.closesParens_nesting hn).trans ?_
        rw [bytes_cons, bytes_live, Mask.closesParens, if_neg (by decide), if_pos rfl]
        simp +decide [emptyBody, Mask.closesParens]
      have hopens := opens_of_reads (w := listCells ps) (v := live emptyBody) hname
        (e := .start .declarations) (by
          rw [hcloses]
          exact .append ((closed_list ps).reads ..)
            (.cons rfl (.cons rfl (.cons rfl (.cons rfl (.cons rfl (.cons rfl (.nil ..))))))))
      rw [bytes_live] at hopens
      have hclosing := closingParen?_eq hopens.rest_list
        ((closed_list ps).search _ _ 1 _ _ hopens.rest_list.tail Nat.one_pos)
      exact ⟨_, _, hopens, hclosing, .inl ⟨hnests, rfl, rfl⟩⟩
  · obtain ⟨cells, hcells, hread⟩ := Mask.State.exists_reads_after
      ⟨.afterParameters, .declarations, 0, []⟩
      (Byte.rparen :: ((bytes (live u)).reverse ++ before slot name))
      (rest ++ Byte.rparen :: emptyBody) []
    have hopens := opens_of_nesting hname hu cells hread
    have hsource : source ps slot name = slot.sigil.toList ++ name ++
        [Byte.colon, Byte.space, Byte.lparen] ++ u ++ Byte.rparen :: bytes cells := by
      rw [hcells, source, hlist]
      simp
    rw [hsource]
    refine ⟨_, _, hopens, hopens.closingParen?_nesting hu, .inr ⟨?_, ?_, ?_⟩⟩
    · rw [hlist]
      exact hu.not_nests (by decide)
    · rw [bytes_live, hlist]
      exact List.prefix_append _ _
    · rw [bytes_live, hlist]
      simp

/-! ## The parameters that are read -/

/-- The parameters of a function are the pieces of what stands in front of the closing parenthesis. -/
theorem parameters_of_behavior {next : Nat} {written : Text} {f : Behavior}
    (h : s.behavior i written = .ok (f, next)) :
    ∃ close, s.closingParen? i = some close ∧ f.parameters = Text.cutList (s.slice (i + 1) close) := by
  unfold MaskedText.behavior at h
  split at h
  · cases h
  next close hclose =>
  dsimp only at h
  split at h
  · split at h
    · cases h
    · cases h
      exact ⟨close, hclose, rfl⟩
  · cases h

/-- A function whose list is found and whose body is empty is read. -/
theorem behavior_eq (written : Text)
    (h : s.Rest i ((Byte.lparen, false) :: (w ++ (Byte.rparen, false) :: live emptyBody)))
    (hclose : s.closingParen? i = some (i + 1 + w.length)) : ∃ span next,
      s.behavior i written = .ok (⟨Text.cutList (bytes w), "{ }", span⟩, next) := by
  have hbehind : s.Rest (i + 1 + w.length + 1) (live emptyBody) := h.tail.skip.tail
  have hbody : s.Rest (i + 1 + w.length + 1 + 1) ((Byte.lbrace, false) :: live [Byte.space] ++
      (Byte.rbrace, false) :: live [Byte.semicolon]) := hbehind.tail
  have hbrace : s.byte? (i + 1 + w.length + 1 + 1) = some Byte.lbrace := hbody.byte?_zero
  have hskip : s.skipTrivia (i + 1 + w.length + 1) = i + 1 + w.length + 1 + 1 :=
    Gap.skipTrivia [.space Byte.space rfl] hbehind fun b hb => by
      obtain rfl : Byte.lbrace = b := Option.some.inj (hbrace.symm.trans hb)
      decide
  have hstop : s.closingBrace? (i + 1 + w.length + 1 + 1) = some (i + 1 + w.length + 1 + 1 + 1 + 1) :=
    hbody.closingBrace? (balanced_live (by decide))
  have hslice : s.slice (i + 1 + w.length + 1 + 1) (i + 1 + w.length + 1 + 1 + 1 + 1 + 1) = "{ }" :=
    MaskedText.Rest.slice (w := live [Byte.lbrace, Byte.space, Byte.rbrace]) hbody
  rw [MaskedText.behavior, hclose]
  simp only [h.tail.slice, hskip, hbrace, if_true, hstop, hslice]
  exact ⟨_, _, rfl⟩

/-- A function that is declared is the one whose list was found. -/
theorem behavior_of_declaration? (hname : NameFits slot.sigil false name)
    (hopens : Opens s slot name w v) {d : Declaration} {next : Nat} {f : Behavior}
    (hread : s.declaration? 0 = .ok (some (d, next))) (hcontent : d.content = slot.content f) :
    s.behavior ((slot.sigil.toList ++ name).length + 2) (slot.sigil.toList ++ name) =
      .ok (f, next) := by
  have hbyte : s.byte? ((slot.sigil.toList ++ name).length + 2) = some Byte.lparen :=
    hopens.rest_list.byte?_zero
  have hvalue : s.value 0 (0 + (slot.sigil.toList ++ name).length + 1 + [Byte.space].length)
      (slot.sigil.toList ++ name) = (s.behavior ((slot.sigil.toList ++ name).length + 2)
        (slot.sigil.toList ++ name)).map fun r => (.behavior r.1, r.2) := by
    rw [Nat.zero_add, MaskedText.value, show _ + [Byte.space].length = _ + 1 from rfl, hbyte]
    rfl
  rw [declaration?_eq_bind hname slot.isSigil (by decide) hopens (by simp +decide), hvalue] at hread
  cases hbehavior : s.behavior ((slot.sigil.toList ++ name).length + 2)
      (slot.sigil.toList ++ name) with
  | error fault =>
    rw [hbehavior] at hread
    cases hread
  | ok r =>
    obtain ⟨g, stop⟩ := r
    rw [hbehavior] at hread
    change Except.map _ (Except.mapError _ (Content.ofValue _ _ _ (.behavior g))) = _ at hread
    rw [slot.ofValue g _ hname] at hread
    cases hread
    have hsame : g = f := by cases slot <;> cases hcontent <;> rfl
    rw [hsame]

/-- A list of parameters with default values is read as the parameters that it holds exactly if no
parenthesis in it, those in strings included, closes one that is not open, all commas of the
parameters stand in brackets, and all parameters but the last close as many brackets as they open. -/
theorem declaration?_iff (hname : NameFits slot.sigil false name) (ps : List Parameter) :
    (∃ d next f, (MaskedText.ofText .declarations (source ps slot name)).declaration? 0 =
        .ok (some (d, next)) ∧ d.name = name ∧ d.content = slot.content f ∧
          f.parameters = ps.map text ∧ f.body = "{ }") ↔
      (∀ p, p <+: listText ps → p.count Byte.rparen ≤ p.count Byte.lparen) ∧
      (∀ p ∈ ps, ∀ q, q ++ [Byte.comma] <+: p.text → Text.balance q ≠ 0) ∧
      ∀ p ∈ ps.dropLast, Text.balance p.text = 0 := by
  have hnests : Text.Nests Byte.lparen Byte.rparen 0 (listText ps) ↔
      ∀ p, p <+: listText ps → p.count Byte.rparen ≤ p.count Byte.lparen := by
    simp [Text.Nests]
  have hseparate : Text.Separate (ps.map text) ↔
      (∀ p ∈ ps, ∀ q, q ++ [Byte.comma] <+: p.text → Text.balance q ≠ 0) ∧
        ∀ p ∈ ps.dropLast, Text.balance p.text = 0 := by
    simp [Text.Separate, Text.Uncut, ← List.map_dropLast]
  have hparameters : ∀ p ∈ ps.map text, Text.IsParameter p := by
    simpa using fun p _ => isParameter p
  obtain ⟨w, v, hopens, hclose, hlist⟩ := exists_search hname ps
  generalize MaskedText.ofText .declarations (source ps slot name) = s at hopens hclose ⊢
  have hparen : s.Rest ((slot.sigil.toList ++ name).length + 2)
      ((Byte.lparen, false) :: (w ++ (Byte.rparen, false) :: v)) := by
    have := hopens.skip.tail.skip
    rwa [length_live, length_live, Nat.zero_add] at this
  have hcut (h : bytes w <+: listText ps) : Text.cutList (bytes w) = ps.map text ↔
      bytes w = listText ps ∧ Text.Separate (ps.map text) := by
    rw [listText_eq] at h ⊢
    exact Text.cutList_eq_iff hparameters h
  rw [← hnests, ← hseparate]
  constructor
  · rintro ⟨d, next, f, hread, -, hcontent, hps, -⟩
    have hpieces : Text.cutList (bytes w) = ps.map text := by
      obtain ⟨close, hclose', hpieces⟩ :=
        parameters_of_behavior (behavior_of_declaration? hname hopens hread hcontent)
      obtain rfl := Option.some.inj (hclose.symm.trans hclose')
      rw [← hps, hpieces, hparen.tail.slice]
    rcases hlist with ⟨hn, hw, -⟩ | ⟨-, hprefix, hne⟩
    · exact ⟨hn, ((hcut (hw ▸ List.prefix_refl _)).1 hpieces).2⟩
    · exact absurd ((hcut hprefix).1 hpieces).1 hne
  · rintro ⟨hn, hs⟩
    obtain ⟨-, hw, rfl⟩ := hlist.resolve_right fun h => h.1 hn
    obtain ⟨span, next, hbehavior⟩ := behavior_eq (slot.sigil.toList ++ name) hparen hclose
    have hvalue : s.value 0 (0 + (slot.sigil.toList ++ name).length + 2)
        (slot.sigil.toList ++ name) = .ok (.behavior ⟨Text.cutList (bytes w), "{ }", span⟩, next) := by
      rw [Nat.zero_add, MaskedText.value, hparen.byte?_zero]
      show (s.behavior _ _).map _ = _
      rw [hbehavior]
      rfl
    have hread := Written.declaration?_eq hname slot.isSigil hopens (by simp +decide) hvalue
      (slot.ofValue _ _ hname)
    exact ⟨_, _, _, hread, rfl, rfl, (hcut (hw ▸ List.prefix_refl _)).2 ⟨hw, hs⟩, rfl⟩

theorem isQuote_singleQuote : Byte.isQuote Byte.singleQuote = true := rfl

/-- The string `')'`. -/
def sampleParen : Literal := ⟨Byte.singleQuote, ")", isQuote_singleQuote, by decide⟩

theorem oneLine_sampleParen : sampleParen.OneLine where
  newline := by decide
  interpolation h := absurd h (by decide)

theorem isIdentifier_sampleName : Text.isIdentifier "a" = true := by decide

/-- The parameter `a = ')'`. -/
def sampleDefaulted : Parameter where
  name := ⟨"a", isIdentifier_sampleName⟩
  default := some (.string sampleParen oneLine_sampleParen .done)
  fits := by
    rintro _ ⟨⟩
    exact ⟨⟨Byte.singleQuote, _, rfl, by decide⟩,
      ⟨Byte.singleQuote, [Byte.singleQuote, Byte.rparen], by decide, by decide⟩⟩

theorem nameFits_sampleDefaulted : NameFits (FunctionSlot.method .pub).sigil false "f" :=
  ⟨by decide, fun _ => ⟨by decide, by decide⟩⟩

theorem declaration?_iff_sampleDefaulted :
    NameFits (FunctionSlot.method .pub).sigil false "f" ∧
    ¬ ∃ d next f, (MaskedText.ofText .declarations
        (source [sampleDefaulted] (.method .pub) "f")).declaration? 0 = .ok (some (d, next)) ∧
      d.name = "f" ∧ d.content = (FunctionSlot.method .pub).content f ∧
        f.parameters = [sampleDefaulted].map text ∧ f.body = "{ }" := by
  refine ⟨nameFits_sampleDefaulted, fun h => ?_⟩
  have hparens := ((declaration?_iff nameFits_sampleDefaulted [sampleDefaulted]).1 h).1 _
    (List.prefix_refl _)
  exact absurd hparens (by decide)

end Parameter

end PageLang
