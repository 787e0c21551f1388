import Mathlib.Data.List.Perm.Subperm
import Mathlib.Logic.Relation
import PageLang.Proofs.Include.Splice
import PageLang.Proofs.Path.Normalize

/-!
# The files being flattened

Flattening a file calls itself: behind each directive it goes on with the rest of the file, and a
directive that is replaced is a call for the file it asks for. Every call carries the names of the
files being flattened. A file is entered only if its name is not among them and can be read, so the
names stay distinct, there are no more of them than files and the root, and no sequence of calls
goes on forever, whatever the files ask for.

* `Sources.Call.Makes`: the calls that one call makes.
* `Sources.Call.wellFounded_makes`: there is no endless sequence of calls.
* `Sources.Call.Nested`: the invariant of the names, kept by every call.
* `Call.mem_met_iff`: the directives that are met are those that a call has in front of it.
* `Sources.expandSource_stack`: a root file.
-/

namespace PageLang

namespace Sources

/-- A call: what is left of a file that is being flattened, the names of all such files, and what is
written so far. -/
structure Call where
  stack : List Text
  file : OpenFile
  cursor : Nat
  directives : List Directive
  written : Expansion

namespace Call

/-- What a call comes to. -/
def result (s : Sources) (c : Call) : Expansion :=
  s.expandFrom c.stack c.file c.cursor c.directives c.written

/-- The call for a whole file. -/
def entering (stack : List Text) (e : Expansion) (name source : Text) (depth : Nat) : Call :=
  let opened := e.openFile name source depth
  ⟨stack, opened.1, 0, opened.2.1, opened.2.2⟩

/-- The call for a root file. -/
def ofRoot (root source : Text) : Call :=
  entering [(Path.ofText root).key] Expansion.empty root source 0

/-- The call for the file of a directive, behind the text in front of the directive. -/
def inner (c : Call) (d : Directive) (source : Text) : Call :=
  entering (d.target :: c.stack) (c.written.pushSlice c.file c.cursor d.span.start) d.target source
    (c.file.depth + 1)

/-- The call for what follows a directive. -/
def behind (c : Call) (d : Directive) (rest : List Directive) (written : Expansion) : Call :=
  ⟨c.stack, c.file, d.span.stop, rest, written⟩

/-- The calls that a call makes. -/
inductive Makes (s : Sources) (c : Call) : Call → Prop
  /-- The directive in front is kept, and the file goes on behind it. -/
  | kept {d : Directive} {rest : List Directive} : c.directives = d :: rest →
      s.replacement? c.stack d = none →
      Makes s c (c.behind d rest ((c.written.pushSlice c.file c.cursor d.span.start).reject c.file d
        (refusal c.stack d)))
  /-- The file of the directive in front is entered. -/
  | entered {d : Directive} {rest : List Directive} {source : Text} : c.directives = d :: rest →
      s.replacement? c.stack d = some source → Makes s c (c.inner d source)
  /-- Behind all of that file, the file with the directive goes on. -/
  | returned {d : Directive} {rest : List Directive} {source : Text} : c.directives = d :: rest →
      s.replacement? c.stack d = some source →
      Makes s c (c.behind d rest (((c.inner d source).result s).record c.file d
        ((c.written.pushSlice c.file c.cursor d.span.start).lines + 1)))

/-- The calls made by a call, by those it makes, and so on, and the call itself. -/
def Reaches (s : Sources) : Call → Call → Prop := Relation.ReflTransGen (Makes s)

end Call

end Sources

/-! ## Names of files -/

namespace MaskedText

/-- The name that a directive asks for is that of a path. -/
theorem target_of_directiveAt {t : MaskedText} {directory : Path} {start : Nat} {d : Directive}
    (hdirectory : directory.Readable) (h : (t.directiveAt directory start).result = .ok d) :
    ∃ p : Path, p.Readable ∧ d.target = p.key := by
  unfold directiveAt at h
  dsimp only at h
  split at h
  · split at h
    · cases h
    · cases h
      exact ⟨_, hdirectory.join (Path.readable_ofText _), rfl⟩
  · cases h

theorem target_of_mem_directivesFrom {t : MaskedText} {directory : Path} {pos : Nat} {d : Directive}
    (hdirectory : directory.Readable) (h : .ok d ∈ t.directivesFrom directory pos) :
    ∃ p : Path, p.Readable ∧ d.target = p.key := by
  induction pos using directivesFrom.induct t directory with
  | case1 pos hfind =>
    rw [directivesFrom_none hfind] at h
    cases h
  | case2 pos start hfind ih =>
    rw [directivesFrom_some hfind] at h
    rcases List.mem_cons.1 h with hd | h
    · exact target_of_directiveAt hdirectory hd.symm
    · exact ih h

end MaskedText

namespace Sources

/-- A directive asks for a file by its one name. -/
theorem key_target {name source : Text} {d : Directive} (h : d ∈ directivesOf name source) :
    (Path.ofText d.target).key = d.target := by
  obtain ⟨reading, hreading, hd⟩ := List.mem_filterMap.1 h
  cases reading with
  | error fault => cases hd
  | ok d' =>
    cases hd
    obtain ⟨p, hp, hkey⟩ := MaskedText.target_of_mem_directivesFrom
      (Path.readable_ofText name).directory hreading
    rw [hkey, Path.key_key hp]

theorem key_key_ofText (t : Text) : (Path.ofText (Path.ofText t).key).key = (Path.ofText t).key :=
  Path.key_key (Path.readable_ofText t)

/-! ## Calls end -/

namespace Call

variable {s : Sources} {root source : Text} {c c' : Call}

/-- The names of the files being flattened are distinct, each is the one name of its file, and the
files can be read, but for the root. The first of them is the file of the call. -/
structure Nested (s : Sources) (root : Text) (c : Call) : Prop where
  nodup : c.stack.Nodup
  known : ∀ name ∈ c.stack, name = (Path.ofText root).key ∨ name ∈ s.keys
  settled : ∀ name ∈ c.stack, (Path.ofText name).key = name
  first : c.stack.head? = some (Path.ofText c.file.name).key
  depth : c.stack.length = c.file.depth + 1
  own : c.directives ⊆ directivesOf c.file.name c.file.source

theorem nested_ofRoot (s : Sources) (root source : Text) : Nested s root (ofRoot root source) where
  nodup := List.nodup_cons.2 ⟨List.not_mem_nil, List.nodup_nil⟩
  known _ hname := .inl (List.mem_singleton.1 hname)
  settled _ hname := List.mem_singleton.1 hname ▸ key_key_ofText root
  first := rfl
  depth := rfl
  own := List.Subset.refl _

theorem Nested.behind {d : Directive} {rest : List Directive} (h : Nested s root c)
    (hd : c.directives = d :: rest) (written : Expansion) :
    Nested s root (c.behind d rest written) where
  nodup := h.nodup
  known := h.known
  settled := h.settled
  first := h.first
  depth := h.depth
  own := fun _ hx => h.own (hd ▸ List.mem_cons_of_mem d hx)

/-- A file that is entered is not among those being flattened, and can be read. -/
theorem Nested.inner {d : Directive} {rest : List Directive} {inner : Text} (h : Nested s root c)
    (hd : c.directives = d :: rest) (hr : s.replacement? c.stack d = some inner) :
    Nested s root (c.inner d inner) := by
  obtain ⟨hstack, hread⟩ := replacement?_eq_some.1 hr
  have hkey : (Path.ofText d.target).key = d.target :=
    key_target (h.own (hd ▸ List.mem_cons_self))
  exact {
    nodup := List.nodup_cons.2 ⟨hstack, h.nodup⟩
    known := List.forall_mem_cons.2 ⟨.inr (OrderedMap.mem_keys_of_get? hread), h.known⟩
    settled := List.forall_mem_cons.2 ⟨hkey, h.settled⟩
    first := congrArg some hkey.symm
    depth := congrArg (· + 1) h.depth
    own := List.Subset.refl _ }

/-- Every call keeps the invariant. -/
theorem Nested.makes (h : Nested s root c) (hmakes : Makes s c c') : Nested s root c' := by
  cases hmakes with
  | kept hd _ => exact h.behind hd _
  | entered hd hr => exact h.inner hd hr
  | returned hd _ => exact h.behind hd _

theorem Nested.reaches (h : Nested s root c) (hreaches : Reaches s c c') : Nested s root c' := by
  induction hreaches with
  | refl => exact h
  | tail _ hmakes ih => exact ih.makes hmakes

/-- There are no more files being flattened than files and the root. -/
theorem Nested.length_stack_le (h : Nested s root c) : c.stack.length ≤ s.size + 1 := by
  have hsub : c.stack ⊆ (Path.ofText root).key :: s.keys :=
    fun name hname => List.mem_cons.2 (h.known name hname)
  have hle := (List.subperm_of_subset h.nodup hsub).length_le
  rwa [List.length_cons, show s.keys.length = s.size from List.length_map _] at hle

/-- No sequence of calls goes on forever: a call makes calls with fewer files left to enter, or
with fewer directives to follow. -/
theorem wellFounded_makes (s : Sources) : WellFounded (fun c' c => Makes s c c') := by
  have hmeasure : WellFounded
      (Prod.Lex (· < ·) (· < ·) : Nat × Nat → Nat × Nat → Prop) :=
    (Prod.lex Nat.lt_wfRel Nat.lt_wfRel).wf
  refine Subrelation.wf (fun {c' c} hmakes => ?_)
    (InvImage.wf (fun c : Call => (s.unseen c.stack, c.directives.length)) hmeasure)
  cases hmakes with
  | kept hd _ =>
    refine Prod.Lex.right _ ?_
    rw [hd]
    exact Nat.lt_succ_self _
  | entered _ hr => exact Prod.Lex.left _ _ (unseen_lt_of_replacement? hr)
  | returned hd _ =>
    refine Prod.Lex.right _ ?_
    rw [hd]
    exact Nat.lt_succ_self _

/-- A call writes what is left of its file, or comes to what the last call that it makes comes
to. -/
theorem result_eq (s : Sources) (c : Call) :
    c.directives = [] ∧ c.result s = c.written.pushSlice c.file c.cursor c.file.source.length ∨
      ∃ c', Makes s c c' ∧ c.result s = c'.result s := by
  obtain ⟨stack, file, cursor, directives, written⟩ := c
  cases directives with
  | nil => exact .inl ⟨rfl, expandFrom_nil⟩
  | cons d rest =>
    right
    cases hr : s.replacement? stack d with
    | none => exact ⟨_, .kept rfl hr, expandFrom_refused file cursor rest written hr⟩
    | some source => exact ⟨_, .returned rfl hr, expandFrom_replaced file cursor rest written hr⟩

/-! ## Directives that are met -/

/-- The directive in front of a call, as it is met there. -/
def encounter? (c : Call) : Option Encounter :=
  c.directives.head?.map (⟨c.file.name, c.file.source, c.stack, c.file.depth, .ok ·⟩)

/-- The directives that are still to be met from a call on. -/
def met (s : Sources) (c : Call) : List Encounter :=
  c.directives.flatMap (s.encountersAt c.stack c.file.name c.file.source c.file.depth)

theorem met_cons {d : Directive} {rest : List Directive} (h : c.directives = d :: rest) :
    c.met s = s.encountersAt c.stack c.file.name c.file.source c.file.depth d ++
      rest.flatMap (s.encountersAt c.stack c.file.name c.file.source c.file.depth) := by
  rw [met, h, List.flatMap_cons]

/-- Of the directives met in a whole file those of the form are met from its call on. -/
theorem mem_encounters_ok {stack : List Text} {e : Expansion} {name source : Text} {depth : Nat}
    {x : Encounter} {d : Directive} (hx : x.reading = .ok d) :
    x ∈ s.encounters stack name source depth ↔ x ∈ (entering stack e name source depth).met s := by
  rw [(encounters_perm s stack name source depth).mem_iff, List.mem_append]
  refine ⟨fun h => h.resolve_left ?_, .inr⟩
  intro hmem
  obtain ⟨fault, -, rfl⟩ := List.mem_map.1 hmem
  cases hx

/-- A directive that is met from a call on is in front of a call that is reached. -/
theorem exists_of_mem_met {x : Encounter} {d : Directive} (hx : x.reading = .ok d) (c : Call)
    (h : x ∈ c.met s) : ∃ c', Reaches s c c' ∧ c'.encounter? = some x := by
  induction c using (wellFounded_makes s).induction with
  | _ c ih =>
  have step {c' : Call} (hmakes : Makes s c c') (h : x ∈ c'.met s) :
      ∃ c', Reaches s c c' ∧ c'.encounter? = some x := by
    obtain ⟨c'', hreaches, hfront⟩ := ih c' hmakes h
    exact ⟨c'', .head hmakes hreaches, hfront⟩
  cases hd : c.directives with
  | nil =>
    rw [met, hd] at h
    cases h
  | cons d' rest =>
    rw [met_cons hd, encountersAt] at h
    cases hr : s.replacement? c.stack d' with
    | none =>
      rw [hr] at h
      rcases List.mem_cons.1 h with rfl | h
      · exact ⟨c, .refl, by rw [encounter?, hd]; rfl⟩
      · exact step (.kept hd hr) h
    | some inner =>
      rw [hr] at h
      rcases List.mem_cons.1 h with rfl | h
      · exact ⟨c, .refl, by rw [encounter?, hd]; rfl⟩
      · rcases List.mem_append.1 h with h | h
        · exact step (.entered hd hr) ((mem_encounters_ok hx).1 h)
        · exact step (.returned hd hr) h

theorem mem_met_of_makes {x : Encounter} {d : Directive} (hx : x.reading = .ok d)
    (hmakes : Makes s c c') (h : x ∈ c'.met s) : x ∈ c.met s := by
  cases hmakes with
  | kept hd _ =>
    rw [met_cons hd]
    exact List.mem_append_right _ h
  | @entered d' rest inner hd hr =>
    have hmem := (mem_encounters_ok hx).2 h
    rw [met_cons hd, encountersAt, hr]
    exact List.mem_append_left _ (List.mem_cons_of_mem _ hmem)
  | returned hd _ =>
    rw [met_cons hd]
    exact List.mem_append_right _ h

theorem mem_met_of_reaches {x : Encounter} {d : Directive} (hx : x.reading = .ok d)
    (hreaches : Reaches s c c') (h : x ∈ c'.met s) : x ∈ c.met s := by
  induction hreaches with
  | refl => exact h
  | tail _ hmakes ih => exact ih (mem_met_of_makes hx hmakes h)

/-- The directives of the form that are met from a call on are those in front of the calls that are
reached. -/
theorem mem_met_iff {x : Encounter} {d : Directive} (hx : x.reading = .ok d) :
    x ∈ c.met s ↔ ∃ c', Reaches s c c' ∧ c'.encounter? = some x := by
  refine ⟨exists_of_mem_met hx c, ?_⟩
  rintro ⟨c', hreaches, hfront⟩
  refine mem_met_of_reaches hx hreaches ?_
  obtain ⟨d', hhead, rfl⟩ := Option.map_eq_some_iff.1 hfront
  obtain ⟨rest, hd⟩ := List.head?_eq_some_iff.1 hhead
  rw [met_cons hd]
  exact List.mem_append_left _ List.mem_cons_self

end Call

end Sources

/-! ## Circular includes -/

/-- The diagnostic of a directive that asks for a file which is being flattened. -/
def Encounter.circular? (x : Encounter) : Option Diagnostic :=
  match x.reading with
  | .ok d =>
    if d.target ∈ x.chain then
      some (Fault.diagnostic ⟨.circularInclude d.target, d.span⟩ x.file x.source)
    else none
  | .error _ => none

/-- Whether a diagnostic reports a circular include. -/
def Diagnostic.isCircular (g : Diagnostic) : Bool := g.code = some .circularInclude

namespace Sources

/-- Of the diagnostics of a directive, one that reports a circular include says that its file is
being flattened. -/
theorem Genuine.filter_isCircular {s : Sources} {root text : Text} {x : Encounter}
    (hx : Genuine s root text x) :
    (x.diagnostic? s).filter (·.isCircular) = x.circular? := by
  obtain ⟨-, hfound⟩ := hx
  obtain ⟨file, source, chain, depth, reading⟩ := x
  cases reading with
  | error fault =>
    have hproblem := problem_of_mem_directivesFrom hfound
    obtain ⟨problem, span⟩ := fault
    obtain rfl : problem = .invalidInclude := hproblem
    rfl
  | ok d =>
    unfold Encounter.diagnostic? Encounter.fault? Encounter.circular?
    dsimp only
    split
    · rfl
    · split <;> rfl

theorem Genuine.mem_directivesOf {s : Sources} {root text : Text} {x : Encounter} {d : Directive}
    (hx : x.reading = .ok d) (h : Genuine s root text x) : d ∈ directivesOf x.file x.source :=
  List.mem_filterMap.2 ⟨x.reading, h.found, by rw [hx]; rfl⟩

/-- The circular includes that are reported are the directives met while their files are being
flattened. -/
theorem circular_expandSource (s : Sources) (root source : Text) :
    ((s.expandSource root source).diagnostics.filter (·.isCircular)).Perm
      ((s.encounters [(Path.ofText root).key] root source 0).filterMap (·.circular?)) := by
  refine ((meets_expandSource s root source).diagnostics.filter _).trans ?_
  rw [List.filter_append, List.filter_filterMap]
  refine .of_eq (List.filterMap_congr fun x hx => ?_)
  exact (genuine_encounters _ 0 x hx).filter_isCircular

/-- Flattening a root file ends. No sequence of the calls that it makes goes on forever. In each
call the names of the files being flattened are distinct, each is the one name of a file that can be
read or of the root, and there is at most one more of them than there are files. Of the diagnostics
those that report a circular include are one each for the directives that are met while the file
they ask for is among those being flattened; a directive is met where a call has it in front of it,
with the names of that call, and the file it asks for is looked up by the name it is compared by. -/
theorem expandSource_stack (files : List (Text × Text)) (root source : Text) :
    let s := Sources.ofFiles files
    let e := s.expandSource root source
    let first := Call.ofRoot root source
    let met := s.encounters [(Path.ofText root).key] root source 0
    first.result s = e ∧
    WellFounded (fun c' c => Call.Makes s c c') ∧
    (∀ c, first.Reaches s c →
      (c.directives = [] ∧ c.result s = c.written.pushSlice c.file c.cursor c.file.source.length ∨
        ∃ c', Call.Makes s c c' ∧ c.result s = c'.result s) ∧
      c.stack.Nodup ∧ c.stack.length ≤ s.size + 1 ∧
      c.stack.head? = some (Path.ofText c.file.name).key ∧
      ∀ name ∈ c.stack, (Path.ofText name).key = name ∧
        (name = (Path.ofText root).key ∨ name ∈ s.keys)) ∧
    (e.diagnostics.filter (·.isCircular)).Perm (met.filterMap (·.circular?)) ∧
    ∀ x d, x.reading = .ok d →
      (x ∈ met ↔ ∃ c, first.Reaches s c ∧ c.encounter? = some x) ∧
      (x ∈ met → (Path.ofText d.target).key = d.target ∧ s.read? d.target = s.get? d.target) := by
  intro s e first met
  refine ⟨rfl, Call.wellFounded_makes s, fun c hc => ?_, ?_, fun x d hx => ?_⟩
  · have hnested := (Call.nested_ofRoot s root source).reaches hc
    exact ⟨c.result_eq s, hnested.nodup, hnested.length_stack_le, hnested.first,
      fun name hname => ⟨hnested.settled name hname, hnested.known name hname⟩⟩
  · exact circular_expandSource s root source
  · have hmet : x ∈ met ↔ ∃ c, first.Reaches s c ∧ c.encounter? = some x :=
      (Call.mem_encounters_ok hx).trans (Call.mem_met_iff hx)
    refine ⟨hmet, fun hmem => ?_⟩
    have hkey := key_target ((genuine_encounters _ 0 x hmem).mem_directivesOf hx)
    exact ⟨hkey, congrArg s.get? hkey⟩

end Sources

end PageLang
