import PageLang.Proofs.Qualify.Scoping
import PageLang.Proofs.Script.Frames

/-!
# Names that read as heads

The recognisers of functions and of handlers of errors take a dollar sign for the end of a word. If a
name reads as a head, what it is called with is taken for parameters, and a member that it is called
with is hidden.

* `exists_parameters`: the declaration that is found in a call.
* `qualify_call_ne`: the call is not spelled by the rules of scoping.
* `qualify_text_iff`: the rules of scoping hold if and only if no name that is called reads as a head.
-/

namespace PageLang.Script

open Cell Qualify

/-! ## Waiting names -/

section
variable {body : MaskedText} {prot : List Text} {context : BodyContext}

/-- While a name waits for a block, no reference to it is replaced. -/
theorem made_of_mem_pending {es : List (Nat × Event)} {p : Progress} {x : Text}
    (hpending : x ∈ p.scopes.pending) (hopens : ∀ e ∈ es, e.2 ≠ .opens)
    (hrefers : ∀ e ∈ es, ∀ r, e.2 = .refers r → r.name = x) :
    (es.foldl (Progress.step body prot context) p).made = p.made := by
  induction es generalizing p with
  | nil => rfl
  | cons e es ih =>
    rw [List.forall_mem_cons] at hopens hrefers
    suffices ∃ p', Progress.step body prot context p e = p' ∧ p'.made = p.made ∧
        x ∈ p'.scopes.pending by
      obtain ⟨p', hp', hmade, hpending'⟩ := this
      rw [List.foldl_cons, hp', ih hpending' hopens.2 hrefers.2, hmade]
    obtain ⟨i, e⟩ := e
    cases e with
    | opens => exact absurd rfl hopens.1
    | closes => exact ⟨_, rfl, rfl, hpending⟩
    | declares d => exact ⟨_, rfl, rfl, ScopeStack.mem_pending_apply hpending d⟩
    | refers r =>
      have hdeclared : p.scopes.isDeclared r.name r.offset = true := by
        rw [hrefers.1 r rfl]
        simp [ScopeStack.isDeclared, hpending]
      refine ⟨p, ?_, rfl, hpending⟩
      simp [Progress.step, hdeclared]

theorem made_of_no_reference {es : List (Nat × Event)} {p : Progress}
    (h : ∀ e ∈ es, ∀ r, e.2 ≠ .refers r) :
    (es.foldl (Progress.step body prot context) p).made = p.made := by
  induction es generalizing p with
  | nil => rfl
  | cons e es ih =>
    rw [List.forall_mem_cons] at h
    rw [List.foldl_cons, ih h.2]
    obtain ⟨i, e⟩ := e
    cases e with
    | refers r => exact absurd rfl (h.1 r)
    | opens | closes | declares => rfl

end

/-! ## A call -/

/-- The name of a member. -/
def member : Name := ⟨"x", by decide⟩

/-- The body `n(x);`. -/
def Name.callBody (n : Name) : Body where
  lead := .nothing
  statements :=
    .run (.call ⟨n, []⟩ .tight (.lastArgument (.path ⟨member, []⟩) .nothing)) .tight .done

theorem Name.text_callBody (n : Name) : n.callBody.text = n.text ++ Text.ofString "(x);" := by
  have htail : Text.ofString "(x);" = [Byte.lparen] ++ member.text ++ [Byte.rparen] ++
      [Byte.semicolon] := by decide
  simp [htail, callBody, Body.text, Body.written, Statements.written, Expr.written, Path.written,
    Spacing.around, Spacing.tight, Blank.nothing]

theorem Name.pieces_callBody (n : Name) : n.callBody.statements.pieces =
    [.marked (.word n.text) ⟨[], Byte.lparen, []⟩, .marked (.word "x") ⟨[], Byte.rparen, []⟩,
      .marked .none ⟨[], Byte.semicolon, []⟩] := rfl

theorem exists_of_readsAsHead {n : Text} (h : readsAsHead n = true) :
    ∃ x, (x = [] ∨ ∃ x', x = x' ++ [Byte.dollar]) ∧
      ((∃ y, (∀ c ∈ y.head?, c = Byte.dollar) ∧ n = x ++ (Text.ofString "function" ++ y)) ∨
        n = x ++ Text.ofString "catch") := by
  unfold readsAsHead at h
  rw [Bool.or_eq_true, List.contains_iff_mem, beq_iff_eq] at h
  rcases h with h | h
  · obtain ⟨pre, post, hsplit⟩ := List.append_of_mem h
    obtain ⟨x, hx, heq⟩ := Text.exists_of_splitOn hsplit
    refine ⟨x, hx, .inl ⟨_, ?_, heq⟩⟩
    cases post with
    | nil => simp
    | cons p post => simp
  · obtain ⟨pre, hsplit⟩ := List.getLast?_eq_some_iff.1 h
    obtain ⟨x, hx, heq⟩ := Text.exists_of_splitOn hsplit
    exact ⟨x, hx, .inr (by simpa using heq)⟩

/-- What stands in parentheses in a call. -/
theorem eq_of_group? {n rest behind parameters : Text} (hn : ∀ c ∈ n, Byte.isWord c = true)
    (hsuffix : rest <:+ n ++ Text.ofString "(x);")
    (hgroup : Recogniser.group? rest = some (behind, parameters)) :
    parameters = Text.ofString "x" := by
  obtain ⟨r, rfl⟩ := Recogniser.group?_eq_some hgroup
  obtain ⟨w, hw⟩ := hsuffix
  have htail : Text.ofString "(x);" = Byte.lparen :: Text.ofString "x);" := by decide
  suffices r = Text.ofString "x);" by
    have hx : Recogniser.group? (Byte.lparen :: Text.ofString "x);") =
        some (Text.ofString ";", Text.ofString "x") := by decide
    rw [this, hx] at hgroup
    exact (Prod.mk.inj (Option.some.inj hgroup)).2.symm
  rw [htail] at hw
  rcases List.append_eq_append_iff.1 hw with ⟨a, rfl, ha⟩ | ⟨a, rfl, ha⟩
  · cases a with
    | nil => exact (List.cons.inj ha).2
    | cons c a =>
      obtain ⟨rfl, -⟩ := List.cons.inj ha
      have := hn Byte.lparen (by simp)
      simp +decide at this
  · cases a with
    | nil => exact (List.cons.inj ha).2.symm
    | cons c a =>
      have hmem : Byte.lparen ∈ Text.ofString "x);" := by
        rw [(List.cons.inj ha).2]
        simp
      exact absurd hmem (by decide)

section
variable (n : Name)

theorem tidy_callBody : Tidy none n.callBody.statements.pieces := by
  have htidy : Tidy none (n.callBody.statements.pieces ++ []) :=
    n.callBody.statements.tidy_pieces (by decide) trivial
  rwa [List.append_nil] at htidy

theorem rest_pieces_callBody : (MaskedText.ofText .code n.callBody.text).Rest 0
    (live [] ++ cells n.callBody.statements.pieces) := by
  have hrest := rest_pieces n.callBody.lead.blank (tidy_callBody n).fits
  rwa [← n.callBody.text_eq] at hrest

theorem rest_callBody : (MaskedText.ofText .code n.callBody.text).Rest 0
    (live (n.text ++ Text.ofString "(x)") ++ live [Byte.semicolon]) := by
  have hrest := rest_pieces_callBody n
  have htail : Text.ofString "(x)" = [Byte.lparen] ++ Text.ofString "x" ++ [Byte.rparen] := by
    decide
  rw [n.pieces_callBody] at hrest
  simpa [htail, Piece.cells, Operand.cells] using hrest

theorem slice_callBody :
    (MaskedText.ofText .code n.callBody.text).slice 0 (n.text.length + 4) =
      n.text ++ Text.ofString "(x);" := by
  have htail : Text.ofString "(x);" = Text.ofString "(x)" ++ [Byte.semicolon] := by decide
  have hrest := rest_callBody n
  rw [← live_append, List.append_assoc, ← htail, ← List.append_nil (live _)] at hrest
  have hlen : (live (n.text ++ Text.ofString "(x);")).length = n.text.length + 4 := by
    simp
    decide
  have := hrest.slice
  rw [Nat.zero_add, hlen] at this
  simpa using this

/-- The range of a call is the whole of it. -/
theorem range_callBody :
    (0, n.text.length + 4) ∈ (MaskedText.ofText .code n.callBody.text).statementRanges := by
  have hrest := rest_callBody n
  have hlen : (live (n.text ++ Text.ofString "(x)")).length = n.text.length + 3 := by
    simp
    decide
  have hsize : 0 < (MaskedText.ofText .code n.callBody.text).size := by
    rw [hrest.size_eq, List.length_append, hlen]
    omega
  obtain ⟨r, hr, hle, hlt⟩ := MaskedText.exists_range hsize
  have hend : (MaskedText.ofText .code n.callBody.text).endsRange (0 + (n.text.length + 3)) =
      true := by
    have hlive := hrest.skip.liveByte?_zero
    rw [hlen] at hlive
    unfold MaskedText.endsRange
    rw [hlive]
    rfl
  have hquiet : ∀ c ∈ live (n.text ++ Text.ofString "(x)"), c.2 = false →
      c.1 ≠ Byte.semicolon ∧ c.1 ≠ Byte.newline := by
    intro c hc _
    obtain ⟨b, hb, rfl⟩ := List.mem_map.1 hc
    rcases List.mem_append.1 hb with hb | hb
    · have hword := n.fits.fits.2.1 b hb
      refine ⟨fun heq => ?_, fun heq => ?_⟩ <;> simp +decide [show b = _ from heq] at hword
    · exact (by decide : ∀ b ∈ Text.ofString "(x)", b ≠ Byte.semicolon ∧ b ≠ Byte.newline) b hb
  have hstop := MaskedText.stop_of_mem_statementRanges hr hle hlt hend fun j hj =>
    endsRange_eq_false hrest hquiet (by omega)
  obtain ⟨start, stop⟩ := r
  obtain rfl : start = 0 := by simpa using hle
  obtain rfl : stop = n.text.length + 4 := by
    simp at hstop
    omega
  exact hr

/-- Where something is recognised in a call, it is found or something before it is. -/
theorem exists_found_callBody {α : Type} {recognise : Text → Text → Option (Text × α)} {x t : Text}
    (heq : n.text ++ Text.ofString "(x);" = x ++ t) (ht : t ≠ []) {res : Text × α}
    (hrec : recognise (x.reverse ++ []) t = some res) :
    ∃ i j before t' behind y, i ≤ x.length ∧ t' <:+ n.text ++ Text.ofString "(x);" ∧
      recognise before t' = some (behind, y) ∧
      (i, j, y) ∈ Recogniser.all recognise 0 0 []
        ((MaskedText.ofText .code n.callBody.text).slice 0 (n.text.length + 4)) := by
  obtain ⟨b, v, rfl⟩ := List.exists_cons_of_ne_nil ht
  obtain ⟨u, c, v', behind, y, j, hsplit, hle, hrec', hmem⟩ :=
    Recogniser.exists_mem_all (i := 0) hrec
  rw [slice_callBody, heq]
  refine ⟨_, j, _, c :: v', behind, y, by simpa using hle, ?_, hrec', hmem⟩
  rw [hsplit]
  exact List.suffix_append _ _

theorem endsWord_of_dollar {x : Text} (hx : x = [] ∨ ∃ x', x = x' ++ [Byte.dollar]) :
    Text.endsWord (x.reverse ++ []) = false := by
  rcases hx with rfl | ⟨x', rfl⟩
  · decide
  · rw [List.append_nil, List.reverse_append, List.reverse_singleton, List.singleton_append,
      Text.endsWord_cons (by decide)]
    exact Text.startsWord_dollar

/-- What is taken for a parameter in a call is found among all local declarations. -/
theorem mem_locals_callBody {d : LocalDeclaration} (hnames : d.names = [Text.ofString "x"])
    (hlt : d.offset < n.text.length)
    (hd : d ∈ (MaskedText.ofText .code n.callBody.text).functionLocals 0 (n.text.length + 4) ++
      (MaskedText.ofText .code n.callBody.text).catchLocals 0 (n.text.length + 4)) :
    d ∈ (MaskedText.ofText .code n.callBody.text).statementRanges.flatMap
      (fun r => (MaskedText.ofText .code n.callBody.text).locals r.1 r.2) := by
  have hle : d.offset < (n.text ++ Text.ofString "(x)").length := by
    rw [List.length_append]
    omega
  have hlive? := (rest_callBody n).liveByte? d.offset
  rw [Nat.zero_add, List.getElem?_append_left (by simpa using hle), live, List.getElem?_map,
    List.getElem?_eq_getElem hle] at hlive?
  obtain ⟨hmask, hbyte⟩ := MaskedText.liveByte?_eq_some hlive?
  have hsize := MaskedText.byte?_eq_some_lt hbyte
  have hlive : (MaskedText.ofText .code n.callBody.text).isLive d.offset = true := by
    simp [MaskedText.isLive, hmask, hsize]
  refine List.mem_flatMap.2 ⟨_, range_callBody n, ?_⟩
  rw [MaskedText.locals, (List.mergeSort_perm _ _).mem_iff, List.mem_filter]
  refine ⟨?_, by simp [hlive, hnames]⟩
  rw [List.append_assoc (MaskedText.keywordLocals _ _ _)]
  simp only [List.mem_append] at hd ⊢
  exact .inl (.inl (.inr hd))

/-- Something in a call is taken for a parameter that waits for a block. -/
theorem exists_parameters (hn : readsAsHead n.text = true) :
    ∃ d ∈ (MaskedText.ofText .code n.callBody.text).statementRanges.flatMap
        (fun r => (MaskedText.ofText .code n.callBody.text).locals r.1 r.2),
      d.names = [Text.ofString "x"] ∧ (∃ function, d.scope = .parameters function) ∧
        d.offset < n.text.length := by
  have hwords := n.fits.fits.2.1
  have htail : Text.ofString "(x);" = Byte.lparen :: Text.ofString "x);" := by decide
  have hgroup : Recogniser.group? (Byte.lparen :: Text.ofString "x);") =
      some (Text.ofString ";", Text.ofString "x") := by decide
  have hnames : Pattern.names (Text.ofString "x") = [Text.ofString "x"] :=
    Pattern.names_of_isIdentifier (by decide)
  obtain ⟨x, hx, ⟨y, hy, heq⟩ | heq⟩ := exists_of_readsAsHead hn
  · obtain ⟨name, hfunction⟩ := Recogniser.function_eq_some (endsWord_of_dollar hx)
      (fun c hc => hwords c (by simp [heq, hc])) hy hgroup
    obtain ⟨i, j, before, t, behind, ⟨name', parameters⟩, hi, hsuffix, hrec, hmem⟩ :=
      exists_found_callBody n (by rw [heq, htail]; simp) (by simp) hfunction
    obtain ⟨rest, hrest, hgroup'⟩ := Recogniser.exists_group_of_function hrec
    obtain rfl := eq_of_group? hwords (hrest.trans hsuffix) hgroup'
    have hpos : 0 < (Text.ofString "function").length := by decide
    have hlt : i < n.text.length := by
      rw [heq, List.length_append, List.length_append]
      omega
    refine ⟨⟨i, _, .parameters true⟩, mem_locals_callBody n hnames hlt ?_, hnames, ⟨true, rfl⟩, hlt⟩
    exact List.mem_append_left _ (List.mem_flatMap.2 ⟨_, hmem, by simp⟩)
  · have hcatch := Recogniser.catchHead_eq_some (endsWord_of_dollar hx) hgroup
    obtain ⟨i, j, before, t, behind, parameters, hi, hsuffix, hrec, hmem⟩ :=
      exists_found_callBody n (by rw [heq, htail]; simp) (by simp) hcatch
    obtain ⟨rest, hrest, hgroup'⟩ := Recogniser.exists_group_of_catchHead hrec
    obtain rfl := eq_of_group? hwords (hrest.trans hsuffix) hgroup'
    have hpos : 0 < (Text.ofString "catch").length := by decide
    have hlt : i < n.text.length := by
      rw [heq, List.length_append]
      omega
    refine ⟨⟨i, _, .parameters false⟩, mem_locals_callBody n hnames hlt ?_, hnames,
      ⟨false, rfl⟩, hlt⟩
    exact List.mem_append_right _ (List.mem_map.2 ⟨_, hmem, rfl⟩)

theorem ne_opens_callBody {e : Nat × Event}
    (he : e ∈ (MaskedText.ofText .code n.callBody.text).events [Text.ofString "x"]) :
    e.2 ≠ .opens := by
  obtain ⟨i, e⟩ := e
  rintro rfl
  rcases MaskedText.mem_events.1 he with (he | ⟨d, -, heq⟩) | ⟨r, -, heq⟩
  · rw [mem_braces_iff space_nil (tidy_callBody n) (rest_pieces_callBody n) [] (.inl ⟨rfl, rfl⟩),
      mem_events_brace (.inl ⟨rfl, rfl⟩)] at he
    obtain ⟨pre, o, m, post, hsplit, hm, -⟩ := he
    have hmem : .marked o m ∈ n.callBody.statements.pieces := hsplit ▸ by simp
    rw [n.pieces_callBody] at hmem
    simp at hmem
    rcases hmem with ⟨-, rfl⟩ | ⟨-, rfl⟩ | ⟨-, rfl⟩ <;> simp +decide at hm
  · simp at heq
  · simp at heq

theorem of_refers_callBody (hne : n.text ≠ Text.ofString "x") {i : Nat} {r : Reference}
    (he : (i, .refers r) ∈ (MaskedText.ofText .code n.callBody.text).events [Text.ofString "x"]) :
    r.name = Text.ofString "x" ∧ n.text.length ≤ i := by
  rcases MaskedText.mem_events.1 he with (he | ⟨d, -, heq⟩) | ⟨r', hr', heq⟩
  · obtain ⟨-, -, ⟨-, he⟩ | ⟨-, he⟩⟩ := MaskedText.mem_braces.1 he <;> simp at he
  · simp at heq
  · obtain ⟨rfl, rfl⟩ : r'.offset = i ∧ r' = r := by simpa using heq
    rw [mem_references space_nil (tidy_callBody n) (rest_pieces_callBody n) (by decide),
      mem_events_refers] at hr'
    obtain ⟨pre, t, m, post, hsplit, -, ht, hoffset, hr⟩ := hr'
    obtain rfl : t = Text.ofString "x" := by simpa using ht
    refine ⟨by rw [hr], ?_⟩
    rw [n.pieces_callBody] at hsplit
    cases pre with
    | nil =>
      obtain ⟨heq, -⟩ : n.text = Text.ofString "x" ∧ _ := by simpa using (List.cons.inj hsplit).1
      exact absurd heq hne
    | cons p pre =>
      obtain ⟨rfl, -⟩ := List.cons.inj hsplit
      rw [hoffset]
      simp [Piece.cells, Operand.cells]

theorem ne_of_readsAsHead (hn : readsAsHead n.text = true) : n.text ≠ Text.ofString "x" := by
  intro heq
  rw [heq] at hn
  exact absurd hn (by decide)

/-- No reference to the member is replaced in the call. -/
theorem replacements_callBody (hn : readsAsHead n.text = true) :
    replacements (.ofText .code n.callBody.text) ⟨[Text.ofString "x"], []⟩ [] .instanced = [] := by
  have hne := ne_of_readsAsHead n hn
  have hcandidates : candidates ⟨[Text.ofString "x"], []⟩ [] = [Text.ofString "x"] := by
    have hfilter : [Text.ofString "x"].filter (fun n => !n.isEmpty) = [Text.ofString "x"] := by
      decide
    simp [candidates, Text.sorted, hfilter, List.eraseDups_cons]
  obtain ⟨d, hd, hnames, ⟨function, hscope⟩, hlt⟩ := exists_parameters n hn
  obtain ⟨before, after, hsplit⟩ :=
    List.append_of_mem (MaskedText.mem_events.2 (.inl (.inr ⟨d, hd, rfl⟩)) :
      (d.offset, .declares d) ∈ MaskedText.events _ [Text.ofString "x"])
  have hpairwise := MaskedText.pairwise_events (.ofText .code n.callBody.text) [Text.ofString "x"]
  rw [hsplit] at hpairwise
  -- the parameter is declared in front of all references
  have hbefore : ∀ e ∈ before, ∀ r, e.2 ≠ .refers r := by
    rintro ⟨i, e⟩ he r rfl
    have hle := (List.pairwise_append.1 hpairwise).2.2 _ he _ (.head _)
    have := (of_refers_callBody n hne (hsplit ▸ List.mem_append_left _ he)).2
    simp at hle
    omega
  have hafter : ∀ e ∈ after, e.2 ≠ .opens ∧ ∀ r, e.2 = .refers r → r.name = Text.ofString "x" := by
    rintro ⟨i, e⟩ he
    have hmem := hsplit ▸ List.mem_append_right before (List.mem_cons_of_mem _ he)
    refine ⟨ne_opens_callBody n hmem, ?_⟩
    rintro r rfl
    exact (of_refers_callBody n hne hmem).1
  rw [replacements, hcandidates, hsplit, List.foldl_append, List.foldl_cons,
    made_of_mem_pending (x := Text.ofString "x") ?_ (fun e he => (hafter e he).1)
      (fun e he => (hafter e he).2)]
  · rw [Progress.step, made_of_no_reference hbefore]
    rfl
  · rw [Progress.step]
    generalize List.foldl _ _ before = p
    simp [ScopeStack.apply, hnames, hscope, ScopeStack.declareIn, ScopeStack.declarePending]

/-- The call is not spelled by the rules of scoping. -/
theorem qualify_call_ne (hn : readsAsHead n.text = true) :
    qualify n.callBody.text ⟨[Text.ofString "x"], []⟩ [] .instanced ≠
      n.callBody.written (scopedName ⟨[Text.ofString "x"], []⟩ [] .instanced) := by
  have hmember : scopedName ⟨[Text.ofString "x"], []⟩ [] .instanced [] member.text =
      Text.ofString "__nazcaThis.x" := by decide
  have hname : scopedName ⟨[Text.ofString "x"], []⟩ [] .instanced [] n.text = n.text :=
    if_neg fun h => ne_of_readsAsHead n hn (by simpa using h.1)
  have hwritten : n.callBody.written (scopedName ⟨[Text.ofString "x"], []⟩ [] .instanced) =
      n.text ++ ([Byte.lparen] ++ Text.ofString "__nazcaThis.x" ++ [Byte.rparen, Byte.semicolon]) := by
    simp [Name.callBody, Body.written, Statements.written, Expr.written, Path.written, hname, hmember,
      Spacing.around, Spacing.tight, Blank.nothing]
  rw [qualify, replacements_callBody n hn, hwritten, n.text_callBody]
  show n.text ++ _ ≠ _
  rw [Ne, List.append_right_inj]
  decide

end

/-- The rules of scoping hold of all bodies that call only certain names if and only if none of these
names reads as the head of a function or of a handler of errors. -/
theorem qualify_text_iff (callable : Text → Prop) :
    (∀ (b : Body) (names : ResolvableNames) (parameters : List Text) (context : BodyContext),
      (∀ n ∈ b.statements.called, callable n) → (∀ n ∈ names.pub ++ names.prot, IsName n) →
      (∀ p ∈ parameters, p.isIdentifier = true) →
      qualify b.text names parameters context = b.written (scopedName names parameters context)) ↔
    ∀ n, IsName n → callable n → readsAsHead n = false := by
  constructor
  · intro h n hn hcallable
    refine Bool.eq_false_iff.2 fun hhead => ?_
    have hcalled : (⟨n, hn⟩ : Name).callBody.statements.called = [n] := rfl
    refine qualify_call_ne ⟨n, hn⟩ hhead (h _ _ _ _ ?_ ?_ (by simp))
    · simpa [hcalled] using hcallable
    · decide
  · intro h b names parameters context hcalled hnames hparameters
    refine qualify_text b (fun n hn => ?_) hnames hparameters context
    exact h n (Statements.isName_of_mem_called hn) (hcalled n hn)

end PageLang.Script
