import PageLang.Proofs.Include.Splice

/-!
# The includes of a file itself

Of the includes that are recorded while a file is flattened, some are made by the file itself, and
each of the others is made on the way through the file of one of these. The lines of an include
enclose those of all that are made on the way, and two includes of one file share a line at most,
the last of the one and the first of the other.

* `OwnInclude.Made`: an include that a file makes itself.
* `Expansion.Includes`: the includes that the directives of a file leave.
* `Sources.expandFrom_own`: they do so whatever directives the file has.
* `OwnInclude.Made.encloses_earlier`, `OwnInclude.Made.encloses_later`: what another directive
  leaves among the lines of an include.
-/

namespace PageLang

/-- An include that a file makes itself, and those made on the way while its file is flattened. -/
structure OwnInclude where
  directive : Directive
  record : IncludeRecord
  during : List IncludeRecord

namespace OwnInclude

/-- All records that a directive leaves, its own behind those made on the way. -/
def records (o : OwnInclude) : List IncludeRecord := o.during ++ [o.record]

/-- An include is made by the open file `f`: it stands at its directive and records what is met
there. All of it stands among its own lines, and what is made on the way stands deeper. -/
structure Made (s : Sources) (chain : List Text) (f : OpenFile) (o : OwnInclude) : Prop where
  site : o.record.site =
    (f.name, o.directive.target, f.source.place o.directive.span.start, f.depth)
  sites : (o.records.map IncludeRecord.site).Perm
    ((s.encountersAt chain f.name f.source f.depth o.directive).filterMap (·.site? s))
  within : ∀ r ∈ o.records, o.record.Encloses r ∧ r.flatStart < r.flatStop
  deeper : ∀ r ∈ o.during, f.depth < r.depth

theorem record_mem (o : OwnInclude) : o.record ∈ o.records :=
  List.mem_append_right _ (List.mem_singleton_self _)

end OwnInclude

namespace Expansion

/-- Between two expansions the directives of an open file leave the includes `own`: one for each
directive that is replaced, in their order, one behind the other. -/
structure Includes (s : Sources) (chain : List Text) (f : OpenFile) (directives : List Directive)
    (own : List OwnInclude) (e e' : Expansion) : Prop where
  lines : e.lines ≤ e'.lines
  includes : e'.includes = e.includes ++ own.flatMap (·.records)
  directives : own.map (·.directive) =
    directives.filter (fun d => (s.replacement? chain d).isSome)
  within : ∀ o ∈ own, e.lines + 1 ≤ o.record.flatStart ∧ o.record.flatStop ≤ e'.lines + 2
  apart : own.Pairwise (fun o o' => o.record.flatStop ≤ o'.record.flatStart + 1)
  made : ∀ o ∈ own, o.Made s chain f

section
variable {s : Sources} {chain : List Text} {f : OpenFile} {rest : List Directive}
  {own : List OwnInclude} {e e₁ e' : Expansion}

/-- The rest of a file, without directives. -/
theorem includes_pushed (f : OpenFile) (start stop : Nat) :
    Includes s chain f [] [] e (e.pushSlice f start stop) where
  lines := lines_pushSlice _ _ _ _
  includes := by rw [includes_pushSlice]; exact (List.append_nil _).symm
  directives := rfl
  within := by simp
  apart := .nil
  made := by simp

/-- A directive that is kept leaves no include. -/
theorem Includes.kept {d : Directive} (h : Includes s chain f rest own e₁ e')
    (hnone : s.replacement? chain d = none) (hlines : e.lines ≤ e₁.lines)
    (hincludes : e₁.includes = e.includes) : Includes s chain f (d :: rest) own e e' where
  lines := Nat.le_trans hlines h.lines
  includes := by rw [h.includes, hincludes]
  directives := by
    rw [h.directives, List.filter_cons_of_neg (by rw [hnone]; exact Bool.false_ne_true)]
  within := fun o ho => by
    have := h.within o ho
    omega
  apart := h.apart
  made := h.made

/-- A directive that is replaced leaves its include, and the others follow on its last line or
behind. -/
theorem Includes.cons {o : OwnInclude} {inner : Text} (h : Includes s chain f rest own e₁ e')
    (hsome : s.replacement? chain o.directive = some inner) (hmade : o.Made s chain f)
    (hstart : e.lines + 1 ≤ o.record.flatStart) (hstop : o.record.flatStop = e₁.lines + 2)
    (hincludes : e₁.includes = e.includes ++ o.records) :
    Includes s chain f (o.directive :: rest) (o :: own) e e' := by
  have hlt := (hmade.within _ o.record_mem).2
  have hlines := h.lines
  constructor
  · omega
  · rw [h.includes, hincludes, List.append_assoc, List.flatMap_cons]
  · rw [List.map_cons, h.directives, List.filter_cons_of_pos (by rw [hsome]; rfl)]
  · refine List.forall_mem_cons.2 ⟨by omega, fun o' ho' => ?_⟩
    have := h.within o' ho'
    omega
  · refine List.pairwise_cons.2 ⟨fun o' ho' => ?_, h.apart⟩
    have := h.within o' ho'
    omega
  · exact List.forall_mem_cons.2 ⟨hmade, h.made⟩

end

end Expansion

namespace Sources

open Expansion

variable {s : Sources} {chain : List Text}

/-- A directive that is replaced leaves an include around all that its file leaves. -/
theorem exists_own {d : Directive} {inner : Text} (f : OpenFile) (e : Expansion)
    (h : s.replacement? chain d = some inner) :
    let e₁ := (s.expandFile (d.target :: chain) e d.target inner (f.depth + 1)).record f d
      (e.lines + 1)
    ∃ o : OwnInclude, o.directive = d ∧ o.Made s chain f ∧ o.record.flatStart = e.lines + 1 ∧
      o.record.flatStop = e₁.lines + 2 ∧ e₁.includes = e.includes ++ o.records := by
  intro e₁
  obtain ⟨names, during, hextends⟩ : ∃ names during, Extends (f.depth + 1) d.target names during
      (e.openFile d.target inner (f.depth + 1)).2.2
      (s.expandFile (d.target :: chain) e d.target inner (f.depth + 1)) :=
    expandFrom_extends (d.target :: chain) d.target inner 0 (directivesOf d.target inner) _ _ _
  have hlines : e.lines ≤ e₁.lines := hextends.lines
  have hmeets : Meets s _ e e₁ :=
    (expandFile_meets_of (expandFrom_meets (d.target :: chain) d.target inner 0 _) e
      (f.depth + 1)).record h
  let o : OwnInclude := ⟨d, ⟨f.name, d.target, f.source.place d.span.start, e.lines + 1,
    e₁.lines + 2, f.depth⟩, during⟩
  have hrecords : e₁.includes = e.includes ++ o.records := by
    have hincludes : (s.expandFile (d.target :: chain) e d.target inner (f.depth + 1)).includes =
        e.includes ++ during := hextends.includes
    change _ ++ [_] = _
    rw [hincludes, List.append_assoc]
    rfl
  have hsites : (o.records.map IncludeRecord.site).Perm
      ((s.encountersAt chain f.name f.source f.depth d).filterMap (·.site? s)) := by
    have hperm := hmeets.includes
    rw [hrecords, List.map_append, List.perm_append_left_iff] at hperm
    rw [encountersAt, h]
    exact hperm
  refine ⟨o, rfl, ⟨rfl, hsites, fun r hr => ?_, fun r hr => ?_⟩, rfl, rfl, hrecords⟩
  · rcases List.mem_append.1 hr with hr | hr
    · exact ⟨hextends.within r hr, (hextends.proper r hr).2⟩
    · rw [List.mem_singleton.1 hr]
      refine ⟨⟨Nat.le_refl _, Nat.le_refl _⟩, ?_⟩
      change e.lines + 1 < e₁.lines + 2
      omega
  · exact (hextends.proper r hr).1

/-- The directives of an open file leave its own includes, whatever they are. -/
theorem expandFrom_own (chain : List Text) (f : OpenFile) (directives : List Directive)
    (cursor : Nat) (e : Expansion) :
    ∃ own, Includes s chain f directives own e (s.expandFrom chain f cursor directives e) := by
  induction directives generalizing cursor e with
  | nil =>
    rw [expandFrom_nil]
    exact ⟨[], includes_pushed f cursor f.source.length⟩
  | cons d rest ih =>
    cases hr : s.replacement? chain d with
    | none =>
      rw [expandFrom_refused _ _ _ _ hr]
      obtain ⟨own, hrest⟩ := ih d.span.stop
        ((e.pushSlice f cursor d.span.start).reject f d (refusal chain d))
      have hkept := (extends_pushSlice f.depth f.name e f cursor d.span.start).trans
        (extends_reject f.depth _ f d (refusal chain d))
      exact ⟨own, hrest.kept hr hkept.lines (hkept.includes.trans (List.append_nil _))⟩
    | some inner =>
      rw [expandFrom_replaced _ _ _ _ hr]
      obtain ⟨o, rfl, hmade, hstart, hstop, hincludes⟩ :=
        exists_own f (e.pushSlice f cursor d.span.start) hr
      obtain ⟨own, hrest⟩ := ih o.directive.span.stop _
      have hpush := lines_pushSlice e f cursor o.directive.span.start
      rw [includes_pushSlice] at hincludes
      exact ⟨o :: own, hrest.cons hr hmade (by omega) hstop hincludes⟩

end Sources

/-! ## Lines in common -/

/-- An include stands in one line. -/
def IncludeRecord.IsLine (r : IncludeRecord) (line : Nat) : Prop :=
  r.flatStart = line ∧ r.flatStop = line + 1

/-- The last line of an include. -/
def IncludeRecord.lastLine (r : IncludeRecord) : Nat := r.flatStop - 1

namespace OwnInclude

variable {s : Sources} {chain : List Text} {f : OpenFile} {o o' : OwnInclude} {r : IncludeRecord}

/-- Of what an earlier directive leaves, an include encloses what stands in its own first line. -/
theorem Made.encloses_earlier (h : o.Made s chain f) (h' : o'.Made s chain f)
    (hapart : o'.record.flatStop ≤ o.record.flatStart + 1) (hr : r ∈ o'.records) :
    o.record.Encloses r ↔ r.IsLine o.record.flatStart := by
  have hlt := (h.within _ o.record_mem).2
  obtain ⟨⟨-, hstop⟩, hline⟩ := h'.within r hr
  unfold IncludeRecord.Encloses IncludeRecord.IsLine
  omega

/-- Of what a later directive leaves, an include encloses what stands in its own last line. -/
theorem Made.encloses_later (h : o.Made s chain f) (h' : o'.Made s chain f)
    (hapart : o.record.flatStop ≤ o'.record.flatStart + 1) (hr : r ∈ o'.records) :
    o.record.Encloses r ↔ r.IsLine o.record.lastLine := by
  have hlt := (h.within _ o.record_mem).2
  obtain ⟨⟨hstart, -⟩, hline⟩ := h'.within r hr
  unfold IncludeRecord.Encloses IncludeRecord.IsLine IncludeRecord.lastLine
  omega

end OwnInclude

end PageLang
