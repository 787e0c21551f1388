import PageLang.Proofs.Hierarchy.Functions
import PageLang.Proofs.RoundTrip.Files

/-!
# What a declaration that is read is like

A declaration that is read covers what stands from its first byte up to where reading goes on. Its
kind is announced by its sigil, its name and the shape of its value, and its value is just the one
behind the colon. Filed among members, it changes one entry of one map.

* `Content.ofValue_eq_ok_iff`: the kinds of contents, and the values each of them takes.
* `Members.value?_insert`: one more declaration among members.
* `MaskedText.readsAs_of_declaration?`: what every declaration that is read is like.
-/

namespace PageLang

/-! ## Kinds and values -/

/-- What a declaration declares, without the value. -/
inductive Content.Kind where
  | var (access : Access)
  | method (access : Access)
  | getter
  | setter
  | eventHandler
  | attr
  | style
  | state
  deriving DecidableEq

/-- The value of a variable as it is read. -/
def Value.raw : Value → RawValue
  | .scalar value => .scalar value
  | .object block => .object block

namespace Content

namespace Kind

/-- The values that a kind takes. -/
def Takes : Kind → RawValue → Prop
  | .var _, v => ∀ f, v ≠ .behavior f
  | .method _, v | .getter, v | .setter, v | .eventHandler, v => ∃ f, v = .behavior f
  | .attr, v | .style, v => ∃ value, v = .scalar value
  | .state, v => ∃ block, v = .object block

/-- A method or a variable, by the value. -/
def reachable (access : Access) : RawValue → Kind
  | .behavior _ => .method access
  | .scalar _ | .object _ => .var access

/-- The kind that a sigil and the name behind it announce. -/
def announced (sigil : Option UInt8) (name : Text) (v : RawValue) : Kind :=
  match sigil with
  | some Byte.hash => reachable .prot v
  | some Byte.hyphen => reachable .priv v
  | some Byte.less => .getter
  | some Byte.greater => .setter
  | some Byte.dollar => .attr
  | some Byte.atSign => .eventHandler
  | some _ => .state
  | none => if Vocabulary.isStyleProperty name then .style else reachable .pub v

end Kind

/-- The kind of a content. -/
def kind : Content → Kind
  | .var access _ => .var access
  | .method access _ => .method access
  | .getter _ => .getter
  | .setter _ => .setter
  | .eventHandler _ => .eventHandler
  | .attr _ => .attr
  | .style _ => .style
  | .state _ => .state

/-- The value of a content. -/
def value : Content → RawValue
  | .var _ value => value.raw
  | .method _ f | .getter f | .setter f | .eventHandler f => .behavior f
  | .attr value | .style value => .scalar value
  | .state block => .object block

/-- The value of a content is one that its kind takes. -/
theorem takes_value (c : Content) : c.kind.Takes c.value := by
  cases c with
  | var access value => cases value <;> exact fun f => nofun
  | method | getter | setter | eventHandler | attr | style | state => exact ⟨_, rfl⟩

theorem reachable_eq_iff {access : Access} {v : RawValue} {c : Content} :
    reachable access v = c ↔ c.kind = Kind.reachable access v ∧ c.value = v := by
  constructor
  · rintro rfl
    cases v <;> exact ⟨rfl, rfl⟩
  · rintro ⟨hkind, rfl⟩
    cases c with
    | var other value =>
      cases value <;> cases hkind <;> rfl
    | method other f => cases hkind; rfl
    | getter | setter | eventHandler | attr | style | state => cases hkind

/-- A content is what its kind and its value say. -/
theorem ext_kind {c c' : Content} (hkind : c.kind = c'.kind) (hvalue : c.value = c'.value) :
    c = c' := by
  cases c with
  | var access value =>
    cases c' with
    | var access' value' =>
      cases hkind
      cases value <;> cases value' <;> cases hvalue <;> rfl
    | _ => cases hkind
  | _ => cases c' <;> cases hkind <;> cases hvalue <;> rfl

/-- A value that the announced kind takes makes a content of that kind. -/
theorem exists_ofValue {sigil : Option UInt8} {name written : Text} {v : RawValue}
    (h : (Kind.announced sigil name v).Takes v) : ∃ c, ofValue sigil name written v = .ok c := by
  unfold Kind.announced at h
  unfold ofValue
  split at h
  · exact ⟨_, rfl⟩
  · exact ⟨_, rfl⟩
  · obtain ⟨f, rfl⟩ := h
    exact ⟨_, rfl⟩
  · obtain ⟨f, rfl⟩ := h
    exact ⟨_, rfl⟩
  · obtain ⟨value, rfl⟩ := h
    exact ⟨_, rfl⟩
  · obtain ⟨f, rfl⟩ := h
    exact ⟨_, rfl⟩
  · obtain ⟨block, rfl⟩ := h
    split <;> first | exact ⟨_, rfl⟩ | (exfalso; simp_all)
  · split at h
    · next hstyle =>
      obtain ⟨value, rfl⟩ := h
      exact ⟨_, if_pos hstyle⟩
    · next hstyle => exact ⟨_, if_neg hstyle⟩

/-- A value makes a content exactly if the kind that is announced takes it, and the content has that
kind and that value. -/
theorem ofValue_eq_ok_iff {sigil : Option UInt8} {name written : Text} {v : RawValue}
    {c : Content} : ofValue sigil name written v = .ok c ↔
      c.kind = Kind.announced sigil name v ∧ c.value = v := by
  have hforward {c : Content} (h : ofValue sigil name written v = .ok c) :
      c.kind = Kind.announced sigil name v ∧ c.value = v := by
    unfold ofValue at h
    split at h
    · exact reachable_eq_iff.1 (Except.ok.inj h)
    · exact reachable_eq_iff.1 (Except.ok.inj h)
    · cases h; exact ⟨rfl, rfl⟩
    · cases h
    · cases h; exact ⟨rfl, rfl⟩
    · cases h
    · cases h; exact ⟨rfl, rfl⟩
    · cases h
    · cases h; exact ⟨rfl, rfl⟩
    · cases h
    · cases h
      refine ⟨?_, rfl⟩
      unfold Kind.announced
      split <;> first | rfl | (exfalso; simp_all)
    · cases h
    · split at h
      · next hstyle =>
        split at h
        · cases h
          exact ⟨(if_pos hstyle).symm, rfl⟩
        · cases h
      · next hstyle =>
        refine (reachable_eq_iff.1 (Except.ok.inj h)).imp_left fun hkind => ?_
        exact hkind.trans (if_neg hstyle).symm
  refine ⟨hforward, fun ⟨hkind, hvalue⟩ => ?_⟩
  obtain ⟨c', hc'⟩ : ∃ c', ofValue sigil name written v = .ok c' :=
    exists_ofValue (hkind ▸ hvalue ▸ c.takes_value)
  obtain ⟨hkind', hvalue'⟩ := hforward hc'
  rw [hc', ext_kind (hkind'.trans hkind.symm) (hvalue'.trans hvalue.symm)]

end Content

/-! ## Filing -/

theorem OrderedMap.map_get?_insert {β γ : Type} (m : OrderedMap β) (g : β → γ) (key name : Text)
    (value : β) : ((m.insert key value).get? name).map g =
      if name = key then some (g value) else (m.get? name).map g := by
  rw [get?_insert]
  split <;> rfl

theorem ByAccess.map_get?_insert {β γ : Type} (m : ByAccess β) (g : β → γ) (access other : Access)
    (key name : Text) (value : β) : (((m.insert access key value).get other).get? name).map g =
      if other = access ∧ name = key then some (g value) else ((m.get other).get? name).map g := by
  rw [get_insert]
  by_cases h : other = access
  · subst h
    simp only [if_true, true_and, OrderedMap.map_get?_insert]
  · simp only [h, if_false, false_and]

namespace Members

/-- The value under a name in the map of a kind. -/
def value? (m : Members) (kind : Content.Kind) (name : Text) : Option RawValue :=
  match kind with
  | .var access => ((m.vars.get access).get? name).map Value.raw
  | .method access => ((m.methods.get access).get? name).map .behavior
  | .getter => (m.getters.get? name).map .behavior
  | .setter => (m.setters.get? name).map .behavior
  | .eventHandler => (m.eventHandlers.get? name).map .behavior
  | .attr => (m.attributes.get? name).map .scalar
  | .style => (m.style.get? name).map .scalar
  | .state => (m.states.get? name).map .object

/-- One more declaration puts its value under its name into the map of its kind, and nothing else
changes in any map. -/
theorem value?_insert (m : Members) (d : Declaration) (kind : Content.Kind) (name : Text) :
    (m.insert d).value? kind name =
      if kind = d.content.kind ∧ name = d.name then some d.content.value else m.value? kind name := by
  obtain ⟨own, content, span⟩ := d
  cases content <;> cases kind <;>
    simp [insert, value?, Content.kind, Content.value, ByAccess.map_get?_insert,
      OrderedMap.map_get?_insert]

end Members

/-! ## Reading -/

namespace MaskedText

variable {s : MaskedText}

/-- What reading a declaration from its first byte on comes to: a name up to a colon, the value
behind the colon, and what the two of them declare. -/
theorem parts_of_declaration? {start next : Nat} {d : Declaration}
    (h : s.declaration? start = .ok (some (d, next))) :
    d.span = ⟨s.skipTrivia start, next⟩ ∧ ∃ colon,
      let written := (s.slice (s.skipTrivia start) colon).trim
      let (sigil, name) := Declaration.splitSigil written
      s.nameEnd? (s.skipTrivia start) = some colon ∧ d.name = name ∧ name.isMemberName = true ∧
        s.value (s.skipTrivia start) (s.skipSpace (colon + 1)) written = .ok (d.content.value, next) ∧
        d.content.kind = .announced sigil name d.content.value := by
  unfold declaration? at h
  dsimp only at h
  split at h
  · cases h
  · cases h
  split at h
  · cases h
  next colon hcolon =>
  cases hat : s.declarationAt (s.skipTrivia start) colon with
  | error fault =>
    rw [hat] at h
    cases h
  | ok r =>
    rw [hat] at h
    cases h
    unfold declarationAt at hat
    dsimp only at hat
    split at hat
    · next hname =>
      split at hat
      · cases hat
      next v stop hvalue =>
        split at hat
        · cases hat
        next content hcontent =>
          cases hat
          obtain ⟨hkind, hv⟩ := Content.ofValue_eq_ok_iff.1 hcontent
          subst hv
          exact ⟨rfl, colon, hcolon, rfl, hname, hvalue, hkind⟩
    · cases hat

theorem afterBlock_le_size {stop : Nat} (h : stop ≤ s.size) : s.afterBlock stop ≤ s.size := by
  unfold afterBlock
  dsimp only
  split
  · next hb => exact byte?_eq_some_lt hb
  · exact h

/-- A declaration ends in the text. -/
theorem next_declaration?_le_size {i next : Nat} {d : Declaration}
    (h : s.declaration? i = .ok (some (d, next))) : next ≤ s.size := by
  obtain ⟨-, colon, -, -, -, hvalue, -⟩ := parts_of_declaration? h
  rcases value_cases hvalue with ⟨f, -, -, hf⟩ | ⟨last, -, hlast, -, rfl⟩ |
    ⟨stop, b, -, -, hfind, -, rfl⟩
  · obtain ⟨close, last, -, -, hlast, -, -, rfl⟩ := behavior_eq_ok hf
    exact afterBlock_le_size (closingBrace?_eq_some hlast).2
  · exact afterBlock_le_size (closingBrace?_eq_some hlast).2
  · have hlt := (findAny?_eq_some hfind).2.1
    split <;> omega

/-- The body of a function that is read stands behind its parenthesis and in front of where reading
goes on, and it is a block with its braces. -/
theorem body_of_value {start i next : Nat} {written : Text} {f : Behavior}
    (h : s.value start i written = .ok (.behavior f, next)) :
    i ≤ f.bodySpan.start ∧ f.bodySpan.stop ≤ next ∧
      f.body = s.slice f.bodySpan.start f.bodySpan.stop ∧ f.body.head? = some Byte.lbrace ∧
      ∃ last, s.closingBrace? f.bodySpan.start = some last ∧ f.bodySpan.stop = last + 1 := by
  rcases value_cases h with ⟨g, -, hg, hread⟩ | ⟨last, -, -, hv, -⟩ | ⟨stop, b, -, -, -, hv, -⟩
  · cases hg
    obtain ⟨close, last, hclose, hbrace, hlast, hspan, hbody, rfl⟩ := behavior_eq_ok hread
    have hparen := (closingParen?_eq_some hclose).1
    have hgap := le_skipTrivia_of_lt (byte?_eq_some_lt hbrace)
    have hblock := (closingBrace?_eq_some hlast).1
    rw [hspan, hbody]
    refine ⟨?_, s.le_afterBlock _, rfl, ?_, last, hlast, rfl⟩
    · show i ≤ s.skipTrivia (close + 1)
      omega
    · rw [List.head?_eq_getElem?, getElem?_slice (by omega), Nat.add_zero, hbrace]
  · cases hv
  · cases hv

/-- The declaration `d` is looked for from `start` on and reaches up to `next`. -/
structure ReadsAs (s : MaskedText) (start next : Nat) (d : Declaration) : Prop where
  gap : start ≤ s.skipTrivia start
  advances : s.skipTrivia start < next
  inside : next ≤ s.size
  span : d.span = ⟨s.skipTrivia start, next⟩
  /-- The value is the one behind the colon, of the kind that sigil, name and value announce. -/
  parts : ∃ colon,
    let written := (s.slice (s.skipTrivia start) colon).trim
    let (sigil, name) := Declaration.splitSigil written
    s.nameEnd? (s.skipTrivia start) = some colon ∧ d.name = name ∧ name.isMemberName = true ∧
      s.value (s.skipTrivia start) (s.skipSpace (colon + 1)) written = .ok (d.content.value, next) ∧
      d.content.kind = .announced sigil name d.content.value
  takes : d.content.kind.Takes d.content.value
  /-- The body of a function is a block in the declaration, as it stands in the text. -/
  body : ∀ f, d.content.value = .behavior f →
    d.span.start ≤ f.bodySpan.start ∧ f.bodySpan.stop ≤ d.span.stop ∧
      f.body = s.slice f.bodySpan.start f.bodySpan.stop ∧ f.body.head? = some Byte.lbrace ∧
      ∃ last, s.closingBrace? f.bodySpan.start = some last ∧ f.bodySpan.stop = last + 1
  filed : ∀ (m : Members) (kind : Content.Kind) (name : Text), (m.insert d).value? kind name =
    if kind = d.content.kind ∧ name = d.name then some d.content.value else m.value? kind name

/-- A declaration that is read starts behind a gap and ends in the text behind its start, has a
value of its kind, and is filed under its name. -/
theorem readsAs_of_declaration? {start next : Nat} {d : Declaration}
    (h : s.declaration? start = .ok (some (d, next))) : s.ReadsAs start next d := by
  obtain ⟨hspan, colon, hparts⟩ := parts_of_declaration? h
  have hlt := (value_of_declaration? h).1
  have hcolon := (nameEnd?_eq_some hparts.1).1
  have hspace := s.le_skipSpace (colon + 1)
  have hvalue := hparts.2.2.2.1
  have hnext := le_of_value hvalue
  refine ⟨le_skipTrivia_of_lt hlt, by omega, next_declaration?_le_size h, hspan, ⟨colon, hparts⟩,
    d.content.takes_value, fun f hf => ?_, fun m => m.value?_insert d⟩
  rw [hf] at hvalue
  obtain ⟨hstart, hbody⟩ := body_of_value hvalue
  rw [hspan]
  refine ⟨?_, hbody⟩
  show s.skipTrivia start ≤ f.bodySpan.start
  omega

/-- A getter behind a comment. -/
def sampleGetter : MaskedText := ofText .declarations "/* a */ <b: (c) { d; } ; e"

theorem readsAs_of_declaration?_sampleGetter : ∃ d,
    sampleGetter.declaration? 0 = .ok (some (d, 24)) ∧ sampleGetter.ReadsAs 0 24 d :=
  have h : sampleGetter.declaration? 0 =
      .ok (some (⟨"b", .getter ⟨["c"], "{ d; }", ⟨16, 22⟩⟩, ⟨8, 24⟩⟩, 24)) := by rfl
  ⟨_, h, readsAs_of_declaration? h⟩

end MaskedText

end PageLang
