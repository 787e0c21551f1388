import PageLang.Proofs.ClassTable.Reads
import PageLang.Proofs.Element.Body
import PageLang.Proofs.Hierarchy.Statements

/-!
# Where functions are read

The methods, getters, setters and event handlers of a class, and those of the elements inside it or
on the page, all come from declarations, and the function of a declaration stands behind the
parenthesis that opens its parameter list.

* `MaskedText.FunctionAt`: a function and the text it was read from.
* `MaskedText.functions`: the functions of all classes and elements of a text.
* `MaskedText.functionAt_of_mem_functions`: each of them stands in the text.
-/

namespace PageLang

/-! ## Functions -/

/-- The function that a content is. -/
def Content.function? : Content → Option Behavior
  | .method _ f | .getter f | .setter f | .eventHandler f => some f
  | .var .. | .attr _ | .style _ | .state _ => none

/-- The methods, getters, setters and event handlers among some members. -/
def Members.functions (m : Members) : List Behavior := m.bodies.map (fun e => e.2.2)

/-- The functions of all elements of a forest. -/
def Element.functionsAll (es : List Element) : List Behavior :=
  (Element.preorderAll es).flatMap (fun e => e.overrides.functions)

/-- The functions of a class and of the elements inside it. -/
def ClassDefinition.functions (d : ClassDefinition) : List Behavior :=
  d.members.functions ++ Element.functionsAll d.children

/-- The functions of the elements on the page. -/
def Hierarchy.functions (h : Hierarchy) : List Behavior := Element.functionsAll h.roots

/-- The functions of the declarations and the elements of a body. -/
def Body.functions (b : Body) : List Behavior :=
  b.declarations.filterMap (fun d => d.content.function?) ++ Element.functionsAll b.children

theorem ByAccess.mem_values_insert {β : Type} {m : ByAccess β} {access : Access} {key : Text}
    {value v : β} (h : v ∈ (m.insert access key value).entries.map Prod.snd) :
    v = value ∨ v ∈ m.entries.map Prod.snd := by
  simp only [entries, List.map_append, List.mem_append] at h ⊢
  cases access with
  | pub =>
    rcases h with (h | h) | h
    · exact (OrderedMap.mem_values_insert h).imp_right fun h => .inl (.inl h)
    · exact .inr (.inl (.inr h))
    · exact .inr (.inr h)
  | prot =>
    rcases h with (h | h) | h
    · exact .inr (.inl (.inl h))
    · exact (OrderedMap.mem_values_insert h).imp_right fun h => .inl (.inr h)
    · exact .inr (.inr h)
  | priv =>
    rcases h with (h | h) | h
    · exact .inr (.inl (.inl h))
    · exact .inr (.inl (.inr h))
    · exact (OrderedMap.mem_values_insert h).imp_right .inr

namespace Members

variable {m : Members} {f : Behavior}

/-- A function among some members is a method or stands in one of the other three maps. -/
theorem mem_functions : f ∈ m.functions ↔ f ∈ m.methods.entries.map Prod.snd ∨
    f ∈ m.getters.values ∨ f ∈ m.setters.values ∨ f ∈ m.eventHandlers.values := by
  simp only [functions, bodies, OrderedMap.values, List.map_append, List.map_map, List.mem_append,
    or_assoc]
  rfl

/-- A function among the members with one more declaration was there before or is declared. -/
theorem mem_functions_insert {d : Declaration} (h : f ∈ (m.insert d).functions) :
    f ∈ m.functions ∨ d.content.function? = some f := by
  obtain ⟨name, content, span⟩ := d
  rw [mem_functions] at h ⊢
  have declared {g : Behavior} (hg : f = g) : some g = some f := congrArg some hg.symm
  cases content with
  | var access value => exact .inl h
  | attr value => exact .inl h
  | style value => exact .inl h
  | state block => exact .inl h
  | method access g =>
    rcases h with h | h
    · exact (ByAccess.mem_values_insert h).symm.imp .inl declared
    · exact .inl (.inr h)
  | getter g =>
    rcases h with h | h | h
    · exact .inl (.inl h)
    · exact (OrderedMap.mem_values_insert h).symm.imp (fun h => .inr (.inl h)) declared
    · exact .inl (.inr (.inr h))
  | setter g =>
    rcases h with h | h | h | h
    · exact .inl (.inl h)
    · exact .inl (.inr (.inl h))
    · exact (OrderedMap.mem_values_insert h).symm.imp (fun h => .inr (.inr (.inl h))) declared
    · exact .inl (.inr (.inr (.inr h)))
  | eventHandler g =>
    rcases h with h | h | h | h
    · exact .inl (.inl h)
    · exact .inl (.inr (.inl h))
    · exact .inl (.inr (.inr (.inl h)))
    · exact (OrderedMap.mem_values_insert h).symm.imp (fun h => .inr (.inr (.inr h))) declared

theorem not_mem_functions_empty : f ∉ (∅ : Members).functions := List.not_mem_nil

/-- The functions of filed declarations are declared by them. -/
theorem mem_functions_ofDeclarations {ds : List Declaration}
    (h : f ∈ (ofDeclarations ds).functions) : f ∈ ds.filterMap (fun d => d.content.function?) := by
  have hfold (ds : List Declaration) (m : Members) (h : f ∈ (ds.foldl insert m).functions) :
      f ∈ m.functions ∨ f ∈ ds.filterMap (fun d => d.content.function?) := by
    induction ds generalizing m with
    | nil => exact .inl h
    | cons d ds ih =>
      rw [List.mem_filterMap]
      rcases ih (m.insert d) h with h | h
      · rcases mem_functions_insert h with h | h
        · exact .inl h
        · exact .inr ⟨d, .head _, h⟩
      · obtain ⟨e, he, hf⟩ := List.mem_filterMap.1 h
        exact .inr ⟨e, .tail _ he, hf⟩
  exact (hfold ds ∅ h).resolve_left not_mem_functions_empty

end Members

/-! ## Reading functions -/

namespace MaskedText

/-- The function `f` stands behind the parenthesis at `paren`: its parameter list ends at `close`,
and its body is the block behind the blank space and the comments that follow. -/
structure FunctionAt (s : MaskedText) (f : Behavior) (paren close : Nat) : Prop where
  lparen : s.byte? paren = some Byte.lparen
  rparen : s.closingParen? paren = some close
  start : f.bodySpan.start = s.skipTrivia (close + 1)
  brace : s.byte? f.bodySpan.start = some Byte.lbrace
  stop : ∃ last, s.closingBrace? f.bodySpan.start = some last ∧ f.bodySpan.stop = last + 1
  body : f.body = s.slice f.bodySpan.start f.bodySpan.stop

/-- A function stands somewhere in a text. -/
def HasFunction (s : MaskedText) (f : Behavior) : Prop := ∃ paren close, s.FunctionAt f paren close

variable {s : MaskedText} {f : Behavior}

theorem hasFunction_of_value {start i next : Nat} {written : Text}
    (h : s.value start i written = .ok (.behavior f, next)) : s.HasFunction f := by
  rcases value_cases h with ⟨g, hparen, hg, hread⟩ | ⟨last, -, -, hv, -⟩ | ⟨stop, b, -, -, -, hv, -⟩
  · cases hg
    obtain ⟨close, last, hclose, hbrace, hlast, hspan, hbody, -⟩ := behavior_eq_ok hread
    refine ⟨i, close, hparen, hclose, ?_, ?_, ⟨last, ?_, ?_⟩, ?_⟩ <;> rw [hspan]
    · exact hbrace
    · exact hlast
    · exact hbody
  · cases hv
  · cases hv

/-- A content is a function only if its value is. -/
theorem eq_behavior_of_ofValue {sigil : Option UInt8} {name written : Text} {v : RawValue}
    {content : Content} (h : Content.ofValue sigil name written v = .ok content)
    (hf : content.function? = some f) : v = .behavior f := by
  have reachable {access : Access} (h : Content.reachable access v = content) :
      v = .behavior f := by
    cases v with
    | scalar value => cases h; cases hf
    | object block => cases h; cases hf
    | behavior g => cases h; cases hf; rfl
  unfold Content.ofValue at h
  split at h
  · exact reachable (Except.ok.inj h)
  · exact reachable (Except.ok.inj h)
  · cases h; cases hf; rfl
  · cases h
  · cases h; cases hf; rfl
  · cases h
  · cases h; cases hf; rfl
  · cases h
  · cases h; cases hf
  · cases h
  · cases h; cases hf
  · cases h
  · split at h
    · split at h
      · cases h; cases hf
      · cases h
    · exact reachable (Except.ok.inj h)

theorem hasFunction_of_declaration? {start next : Nat} {d : Declaration}
    (h : s.declaration? start = .ok (some (d, next))) (hf : d.content.function? = some f) :
    s.HasFunction f := by
  obtain ⟨-, colon, sigil, name, written, v, -, hvalue, hcontent⟩ := value_of_declaration? h
  rw [eq_behavior_of_ofValue hcontent hf] at hvalue
  exact hasFunction_of_value hvalue

/-! ## Bodies and elements -/

theorem functionsAll_cons (e : Element) (es : List Element) :
    Element.functionsAll (e :: es) = Element.functionsAll [e] ++ Element.functionsAll es := by
  simp [Element.functionsAll, Element.preorderAll]

theorem functionsAll_append (es es' : List Element) :
    Element.functionsAll (es ++ es') = Element.functionsAll es ++ Element.functionsAll es' := by
  induction es with
  | nil => rfl
  | cons e es ih =>
    rw [List.cons_append, functionsAll_cons, ih, functionsAll_cons e es, List.append_assoc]

/-- The functions of an element are those of its body. -/
theorem mem_functions_of_element {head : ElementHead} {b : Body} {e : Element}
    (h : head.element b = .ok e) (hf : f ∈ Element.functionsAll [e]) : f ∈ b.functions := by
  unfold ElementHead.element at h
  split at h
  · cases h
  · cases h
    simp only [Element.functionsAll, Element.preorderAll, Element.preorder, List.append_nil,
      List.flatMap_cons, List.mem_append] at hf
    exact List.mem_append.2 (hf.imp_left Members.mem_functions_ofDeclarations)

theorem mem_functions_consDeclaration {d : Declaration} {b : Body}
    (h : f ∈ (b.consDeclaration d).functions) :
    d.content.function? = some f ∨ f ∈ b.functions := by
  rcases List.mem_append.1 h with h | h
  · obtain ⟨e, he, hf⟩ := List.mem_filterMap.1 h
    rcases List.mem_cons.1 he with rfl | he
    · exact .inl hf
    · exact .inr (List.mem_append_left _ (List.mem_filterMap.2 ⟨e, he, hf⟩))
  · exact .inr (List.mem_append_right _ h)

theorem mem_functions_consChild {e : Element} {b : Body} (h : f ∈ (b.consChild e).functions) :
    f ∈ Element.functionsAll [e] ∨ f ∈ b.functions := by
  rcases List.mem_append.1 h with h | h
  · exact .inr (List.mem_append_left _ h)
  · change f ∈ Element.functionsAll (e :: b.children) at h
    rw [functionsAll_cons] at h
    exact (List.mem_append.1 h).imp_right (List.mem_append_right _)

/-- The functions of a body stand in the text. -/
theorem hasFunction_of_mem_body (unknown : Problem) (close pos : Nat) :
    ∀ f ∈ (s.body unknown close pos).functions, s.HasFunction f := by
  intro f hf
  rw [body_eq] at hf
  induction unknown, close, pos using body.induct s with
  | case1 unknown close pos i hclose =>
    rw [if_pos hclose] at hf
    cases hf
  | case2 unknown close pos i hclose hkind =>
    simp only [if_neg hclose, hkind, i] at hf
    cases hf
  | case3 unknown close pos i hclose hkind ih =>
    simp only [if_neg hclose, hkind, i] at hf
    rw [body_eq] at hf
    exact ih hf
  | case4 unknown close pos i hclose hkind fault hd =>
    simp only [if_neg hclose, hkind, hd, i] at hf
    cases hf
  | case5 unknown close pos i hclose hkind hd =>
    simp only [if_neg hclose, hkind, hd, i] at hf
    cases hf
  | case6 unknown close pos i hclose hkind d next hd ih =>
    simp only [if_neg hclose, hkind, hd, i] at hf
    rcases mem_functions_consDeclaration hf with hf | hf
    · exact hasFunction_of_declaration? hd hf
    · rw [body_eq] at hf
      exact ih hf
  | case7 unknown close pos i hclose hkind fault hhead =>
    simp only [if_neg hclose, hkind, hhead, i] at hf
    cases hf
  | case8 unknown close pos i hclose hkind head hhead inner fault he ihBlock =>
    rw [show inner = s.innerBody head from (innerBody_eq s head).symm] at he
    simp only [if_neg hclose, hkind, hhead, he, i] at hf
    cases hf
  | case9 unknown close pos i hclose hkind head hhead inner e he ihBlock ih =>
    rw [show inner = s.innerBody head from (innerBody_eq s head).symm] at he
    simp only [if_neg hclose, hkind, hhead, he, i] at hf
    rcases mem_functions_consChild hf with hf | hf
    · have hinner := mem_functions_of_element he hf
      unfold innerBody at hinner
      split at hinner
      · cases hinner
      · next opening stop hblock =>
        rw [body_eq] at hinner
        exact ihBlock opening stop hblock hinner
    · rw [body_eq] at hf
      exact ih hf
  | case10 unknown close pos i hclose hkind =>
    simp only [if_neg hclose, hkind, i] at hf
    cases hf

theorem hasFunction_of_mem_innerBody {head : ElementHead} (hf : f ∈ (s.innerBody head).functions) :
    s.HasFunction f := by
  unfold innerBody at hf
  split at hf
  · cases hf
  · exact hasFunction_of_mem_body _ _ _ f hf

/-- The functions of an element stand in the text. -/
theorem hasFunction_of_mem_element {start next : Nat} {e : Element}
    (h : s.element start = .ok (e, next)) (hf : f ∈ Element.functionsAll [e]) :
    s.HasFunction f := by
  rw [element_eq_innerBody] at h
  split at h
  · cases h
  next head _ =>
    cases he : head.element (s.innerBody head) with
    | error fault =>
      rw [he] at h
      cases h
    | ok e' =>
      rw [he] at h
      cases h
      exact hasFunction_of_mem_innerBody (mem_functions_of_element he hf)

/-! ## Classes and the tree -/

/-- The functions of a class that is read at `start` stand in the text. -/
theorem hasFunction_of_mem_classAt {file : Text} {start : Nat} {d : ClassDefinition}
    (h : (s.classAt file start).definition = some d) (hf : f ∈ d.functions) : s.HasFunction f := by
  unfold classAt at h
  split at h
  · cases h
  next opening b _ =>
  split at h
  · split at h
    · cases h
    next close _ =>
      unfold classWithin at h
      split at h
      · cases h
      · cases h
        refine hasFunction_of_mem_body .classStatement close (opening + 1) f ?_
        rcases List.mem_append.1 hf with hf | hf
        · exact List.mem_append_left _ (Members.mem_functions_ofDeclarations hf)
        · exact List.mem_append_right _ hf
  · cases h

/-- The functions of a top-level statement stand in the text. -/
theorem hasFunction_of_mem_piece {i : Nat} (hf : f ∈ (s.topLevelAt i).piece.functions) :
    s.HasFunction f := by
  have hnone {top : TopLevel} (hroots : top.piece.roots = []) : f ∉ top.piece.functions := by
    rw [Hierarchy.functions, hroots]
    exact List.not_mem_nil
  unfold topLevelAt at hf
  split at hf
  · exact absurd hf (hnone rfl)
  split at hf
  · exact absurd hf (hnone rfl)
  split at hf
  · refine absurd hf (hnone ?_)
    unfold fontFaceAt
    dsimp only
    repeat' split
    all_goals rfl
  split at hf
  · refine absurd hf (hnone ?_)
    unfold passClass
    repeat' split
    all_goals rfl
  split at hf
  · unfold rootAt at hf
    split at hf
    · next he => exact hasFunction_of_mem_element he hf
    · exact absurd hf (hnone rfl)
  · exact absurd hf (hnone rfl)

/-- The tree that reading ended with. -/
def hierarchyRead : Except (ParseFailure Hierarchy) Hierarchy → Hierarchy
  | .ok tree => tree
  | .error failure => failure.partialResult

theorem functions_append (a b : Hierarchy) : (a.append b).functions = a.functions ++ b.functions :=
  functionsAll_append _ _

theorem hasFunction_of_mem_hierarchyFrom (tree : Hierarchy) (pos : Nat)
    (htree : ∀ f ∈ tree.functions, s.HasFunction f) :
    ∀ f ∈ (hierarchyRead (s.hierarchyFrom tree pos)).functions, s.HasFunction f := by
  induction tree, pos using hierarchyFrom.induct s with
  | case1 tree pos start hlt hstep =>
    rw [hierarchyFrom_ended hlt hstep]
    exact htree
  | case2 tree pos start hlt piece next hstep ih =>
    rw [hierarchyFrom_found rfl hlt hstep]
    refine ih fun f hf => ?_
    rw [functions_append] at hf
    rcases List.mem_append.1 hf with hf | hf
    · exact htree f hf
    · refine hasFunction_of_mem_piece (i := start) ?_
      rw [hstep]
      exact hf
  | case3 tree pos start hlt fault resumeAt hstep =>
    rw [hierarchyFrom_failed hlt hstep]
    exact htree
  | case4 tree pos start hlt =>
    rw [hierarchyFrom_end (Nat.not_lt.1 hlt)]
    exact htree

theorem hasFunction_of_mem_recoverHierarchy (tree : Hierarchy) (faults : List Fault) (pos : Nat)
    (htree : ∀ f ∈ tree.functions, s.HasFunction f) :
    ∀ f ∈ (s.recoverHierarchy tree faults pos).1.functions, s.HasFunction f := by
  have hempty : ∀ f ∈ (∅ : Hierarchy).functions, s.HasFunction f := by
    intro f hf
    cases hf
  have hpass : ∀ (tree : Hierarchy) (pos : Nat), (∀ f ∈ tree.functions, s.HasFunction f) →
      ∀ f ∈ (tree.append (hierarchyRead (s.hierarchy pos))).functions, s.HasFunction f := by
    intro tree pos htree f hf
    rw [functions_append] at hf
    rcases List.mem_append.1 hf with hf | hf
    · exact htree f hf
    · exact hasFunction_of_mem_hierarchyFrom ∅ pos hempty f hf
  induction tree, faults, pos using recoverHierarchy.induct s with
  | case1 tree faults pos found hfound =>
    have h := hpass tree pos htree
    rw [recoverHierarchy]
    rw [hfound] at h ⊢
    exact h
  | case2 tree faults pos failure hfailure tree' faults' hgo ih =>
    have h := hpass tree pos htree
    rw [recoverHierarchy]
    rw [hfailure] at h ⊢
    simp only [if_pos hgo]
    exact ih h
  | case3 tree faults pos failure hfailure hgo =>
    have h := hpass tree pos htree
    rw [recoverHierarchy]
    rw [hfailure] at h ⊢
    simp only [if_neg hgo]
    exact h

/-- A function that reading a text gives: one of a class in the table or of an element in the tree,
read up to the first fault or on behind all of them. -/
inductive Gives (s : MaskedText) (f : Behavior) : Prop
  | classes {file : Text} {pos : Nat} {d : ClassDefinition} :
    d ∈ (classesRead (s.classes file pos)).values → f ∈ d.functions → Gives s f
  | tree {pos : Nat} : f ∈ (hierarchyRead (s.hierarchy pos)).functions → Gives s f
  | allClasses {file : Text} {d : ClassDefinition} :
    d ∈ (s.classesRecovering file).1.values → f ∈ d.functions → Gives s f
  | wholeTree : f ∈ s.hierarchyRecovering.1.functions → Gives s f

/-- Every function that reading a text gives stands in the text. -/
theorem Gives.hasFunction (h : s.Gives f) : s.HasFunction f := by
  have hclass {file : Text} {d : ClassDefinition} (hd : s.ReadFrom file d) (hf : f ∈ d.functions) :
      s.HasFunction f := hasFunction_of_mem_classAt hd.read hf
  cases h with
  | @classes file pos d hd hf =>
    refine hclass (readFrom_of_mem_classesFrom ∅ pos ?_ d hd) hf
    intro e he
    cases he
  | tree hf =>
    refine hasFunction_of_mem_hierarchyFrom ∅ _ ?_ f hf
    intro g hg
    cases hg
  | allClasses hd hf => exact hclass (readFrom_of_mem_classesRecovering hd) hf
  | wholeTree hf =>
    refine hasFunction_of_mem_recoverHierarchy ∅ [] 0 ?_ f hf
    intro g hg
    cases hg

end MaskedText

end PageLang
