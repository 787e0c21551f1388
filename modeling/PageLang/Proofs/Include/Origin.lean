import PageLang.Include.Expansion

/-!
# Where flattened bytes come from

`Sources.origins` says of every byte of a flattened text which byte of which source it is a copy
of. It follows the directives of the files alone and knows nothing of lines and regions, so the
position map can be compared with it.

* `Sources.includeInduct`: induction along the includes of a file, one case for each fate of a
  directive.
* `Sources.origins_known`: every origin lies in the root or in a file of the sources.
-/

namespace PageLang

/-- A byte of a source: the name of the file, its text, and the offset. -/
structure Origin where
  file : Text
  source : Text
  offset : Nat

namespace Origin

/-- The byte at an origin. -/
def byte? (o : Origin) : Option UInt8 := o.source[o.offset]?

/-- The line of an origin in its own source, counted from 1. -/
def line (o : Origin) : Nat := Text.newlines (o.source.take o.offset) + 1

/-- The origins of the bytes of a source from `start` up to `stop`. -/
def ofRange (file source : Text) (start stop : Nat) : List Origin :=
  (List.range' start (min stop source.length - start)).map (⟨file, source, ·⟩)

end Origin

namespace Sources

/-- The directives of a file, in order. -/
def directivesOf (name source : Text) : List Directive :=
  ((MaskedText.ofText .declarations source).directives (Path.ofText name).directory).1

/-- The origins of a file's text from `cursor` on, where `directives` are still to follow and
`stack` holds the names of the files being flattened. -/
def originsFrom (s : Sources) (stack : List Text) (name source : Text) (cursor : Nat) :
    (directives : List Directive) → List Origin
  | [] => Origin.ofRange name source cursor source.length
  | d :: rest =>
    Origin.ofRange name source cursor d.span.start ++
      (if _hstack : d.target ∈ stack then Origin.ofRange name source d.span.start d.span.stop
      else match _hread : s.get? d.target with
        | none => Origin.ofRange name source d.span.start d.span.stop
        | some inner =>
          s.originsFrom (d.target :: stack) d.target inner 0 (directivesOf d.target inner)) ++
      s.originsFrom stack name source d.span.stop rest
termination_by directives => (s.unseen stack, directives.length)
decreasing_by
  · exact Prod.Lex.left _ _ (OrderedMap.unseen_cons_lt (OrderedMap.mem_keys_of_get? _hread) _hstack)
  · exact Prod.Lex.right _ (Nat.lt_succ_self _)

/-- The origins of the flattened text of a root file. -/
def origins (s : Sources) (root source : Text) : List Origin :=
  s.originsFrom [(Path.ofText root).key] root source 0 (directivesOf root source)

/-! ## The fate of a directive -/

section
variable {s : Sources} {stack : List Text} {name source : Text} {cursor : Nat} {d : Directive}
  {rest : List Directive}

theorem originsFrom_nil :
    s.originsFrom stack name source cursor [] =
      Origin.ofRange name source cursor source.length := by
  rw [originsFrom]

/-- A directive that is not expanded stays where it stands. -/
theorem originsFrom_kept (h : d.target ∈ stack ∨ s.get? d.target = none) :
    s.originsFrom stack name source cursor (d :: rest) =
      Origin.ofRange name source cursor d.span.start ++
        Origin.ofRange name source d.span.start d.span.stop ++
        s.originsFrom stack name source d.span.stop rest := by
  rw [originsFrom]
  rcases Decidable.em (d.target ∈ stack) with hs | hs
  · rw [dif_pos hs]
  · rw [dif_neg hs]
    have hr := h.resolve_left hs
    split
    · rfl
    · next inner hread => rw [hr] at hread; cases hread

theorem originsFrom_included {inner : Text} (hs : d.target ∉ stack)
    (hr : s.get? d.target = some inner) :
    s.originsFrom stack name source cursor (d :: rest) =
      Origin.ofRange name source cursor d.span.start ++
        s.originsFrom (d.target :: stack) d.target inner 0 (directivesOf d.target inner) ++
        s.originsFrom stack name source d.span.stop rest := by
  rw [originsFrom, dif_neg hs]
  split
  · next hread => rw [hr] at hread; cases hread
  · next other hread => rw [hr] at hread; cases hread; rfl

end

/-- Induction along the includes: a property of all directives of a file from an offset on holds
when it holds where none is left, and each directive that is kept or followed keeps it. -/
theorem includeInduct {s : Sources}
    {P : (stack : List Text) → (name source : Text) → (cursor : Nat) → List Directive → Prop}
    (nil : ∀ stack name source cursor, P stack name source cursor [])
    (kept : ∀ stack name source cursor d rest, d.target ∈ stack ∨ s.get? d.target = none →
      P stack name source d.span.stop rest → P stack name source cursor (d :: rest))
    (included : ∀ stack name source cursor d rest inner, d.target ∉ stack →
      s.get? d.target = some inner →
      P (d.target :: stack) d.target inner 0 (directivesOf d.target inner) →
      P stack name source d.span.stop rest → P stack name source cursor (d :: rest)) :
    ∀ stack name source cursor directives, P stack name source cursor directives
  | _, _, _, _, [] => nil _ _ _ _
  | stack, name, source, cursor, d :: rest => by
    have hrest := includeInduct nil kept included stack name source d.span.stop rest
    by_cases hs : d.target ∈ stack
    · exact kept _ _ _ _ _ _ (.inl hs) hrest
    · cases hr : s.get? d.target with
      | none => exact kept _ _ _ _ _ _ (.inr hr) hrest
      | some inner =>
        exact included _ _ _ _ _ _ inner hs hr (includeInduct nil kept included _ _ _ _ _) hrest
termination_by stack _ _ _ directives => (s.unseen stack, directives.length)
decreasing_by
  · exact Prod.Lex.right _ (Nat.lt_succ_self _)
  · exact Prod.Lex.left _ _ (OrderedMap.unseen_cons_lt (OrderedMap.mem_keys_of_get? hr) hs)

/-! ## Known sources -/

theorem originsFrom_known {s : Sources} {root text : Text} (stack : List Text)
    (name source : Text) (cursor : Nat) (directives : List Directive) :
    name = root ∧ source = text ∨ s.get? name = some source →
    ∀ o ∈ s.originsFrom stack name source cursor directives,
      o.file = root ∧ o.source = text ∨ s.get? o.file = some o.source := by
  have own : ∀ {name source : Text}, name = root ∧ source = text ∨ s.get? name = some source →
      ∀ start stop, ∀ o ∈ Origin.ofRange name source start stop,
        o.file = root ∧ o.source = text ∨ s.get? o.file = some o.source := by
    intro name source h start stop o ho
    obtain ⟨i, _, rfl⟩ := List.mem_map.1 ho
    exact h
  induction stack, name, source, cursor, directives using includeInduct (s := s) with
  | nil stack name source cursor =>
    rw [originsFrom_nil]
    exact fun h => own h _ _
  | kept stack name source cursor d rest hkept ih =>
    intro h o ho
    rw [originsFrom_kept hkept] at ho
    rcases List.mem_append.1 ho with ho | ho
    · rcases List.mem_append.1 ho with ho | ho
      · exact own h _ _ o ho
      · exact own h _ _ o ho
    · exact ih h o ho
  | included stack name source cursor d rest inner hs hr ihInner ih =>
    intro h o ho
    rw [originsFrom_included hs hr] at ho
    rcases List.mem_append.1 ho with ho | ho
    · rcases List.mem_append.1 ho with ho | ho
      · exact own h _ _ o ho
      · exact ihInner (.inr hr) o ho
    · exact ih h o ho

/-- Every byte comes from the root or from a file that can be read. -/
theorem origins_known (s : Sources) (root source : Text) : ∀ o ∈ s.origins root source,
    o.file = root ∧ o.source = source ∨ s.get? o.file = some o.source :=
  originsFrom_known _ _ _ _ _ (.inl ⟨rfl, rfl⟩)

end Sources

end PageLang
