import PageLang.Proofs.Include.Layout
import PageLang.Proofs.Include.Records
import PageLang.Proofs.Text.Replace

/-!
# Includes as replaced directives

Flattening a file replaces directives: the text that a file is flattened to takes the place of each
directive that asks for it, unless the file cannot be read or is being flattened already. Nothing
else is changed. On the way each directive that is met leaves one trace, an include record if it is
replaced and a diagnostic if it is not.

* `Sources.splice`: the text of a file with its directives replaced, by recursion on the includes.
* `Sources.encounters`: the directives that are met, malformed ones included.
* `Sources.expandSource_spliced`: what flattening a root file makes of it.
-/

namespace PageLang

/-- Where an include stands: the file that holds it, the file asked for, its place, and how many
includes are around it. -/
def IncludeRecord.site (r : IncludeRecord) : Text × Text × Place × Nat :=
  (r.includingFile, r.includedFile, r.place, r.depth)

namespace Sources

/-- The source that takes the place of a directive while the files of `chain` are being flattened. -/
def replacement? (s : Sources) (chain : List Text) (d : Directive) : Option Text :=
  if d.target ∈ chain then none else s.get? d.target

theorem replacement?_eq_some {s : Sources} {chain : List Text} {d : Directive} {inner : Text} :
    s.replacement? chain d = some inner ↔ d.target ∉ chain ∧ s.get? d.target = some inner := by
  unfold replacement?
  split <;> simp_all

theorem replacement?_eq_none {s : Sources} {chain : List Text} {d : Directive} :
    s.replacement? chain d = none ↔ d.target ∈ chain ∨ s.get? d.target = none := by
  unfold replacement?
  split <;> simp_all

theorem unseen_lt_of_replacement? {s : Sources} {chain : List Text} {d : Directive} {inner : Text}
    (h : s.replacement? chain d = some inner) : s.unseen (d.target :: chain) < s.unseen chain :=
  have ⟨hchain, hread⟩ := replacement?_eq_some.1 h
  OrderedMap.unseen_cons_lt (OrderedMap.mem_keys_of_get? hread) hchain

/-- The text that a file is flattened to while the files of `chain` are being flattened. -/
def splice (s : Sources) (chain : List Text) (name source : Text) : Text :=
  source.replaceAll ((directivesOf name source).filterMap fun d =>
    match _h : s.replacement? chain d with
    | some inner =>
      some ⟨d.span.start, d.span.stop - d.span.start,
        s.splice (d.target :: chain) d.target inner⟩
    | none => none)
termination_by s.unseen chain
decreasing_by exact unseen_lt_of_replacement? _h

end Sources

/-- A directive met while files are being flattened. -/
structure Encounter where
  /-- The file that holds it. -/
  file : Text
  source : Text
  /-- The names of the files being flattened. -/
  chain : List Text
  /-- How many includes are around it. -/
  depth : Nat
  /-- How it reads. -/
  reading : Except Fault Directive

namespace Encounter

/-- What a directive covers of its file. -/
def span (x : Encounter) : Span :=
  match x.reading with
  | .ok d => d.span
  | .error fault => fault.span

/-- Where the include stands that replaces a directive. -/
def site? (s : Sources) (x : Encounter) : Option (Text × Text × Place × Nat) :=
  match x.reading with
  | .ok d =>
    if (s.replacement? x.chain d).isSome then
      some (x.file, d.target, x.source.place d.span.start, x.depth)
    else none
  | .error _ => none

/-- What is wrong with a directive that is not replaced: it breaks the form, it asks for a file that
is being flattened, or for one that cannot be read. -/
def fault? (s : Sources) (x : Encounter) : Option Fault :=
  match x.reading with
  | .ok d =>
    if d.target ∈ x.chain then some ⟨.circularInclude d.target, d.span⟩
    else if s.get? d.target = none then some ⟨.missingInclude, d.span⟩
    else none
  | .error fault => some fault

/-- The diagnostic of a directive that is not replaced. -/
def diagnostic? (s : Sources) (x : Encounter) : Option Diagnostic :=
  (x.fault? s).map (·.diagnostic x.file x.source)

/-- A directive is replaced, or something is wrong with it. -/
theorem site?_eq_none {s : Sources} {x : Encounter} :
    x.site? s = none ↔ ∃ g, x.diagnostic? s = some g := by
  obtain ⟨file, source, chain, depth, reading⟩ := x
  cases reading with
  | error fault => simp [site?, diagnostic?, fault?]
  | ok d =>
    simp only [site?, diagnostic?, fault?, Sources.replacement?]
    by_cases hchain : d.target ∈ chain
    · simp [hchain]
    · simp only [if_neg hchain]
      cases s.get? d.target <;> simp

/-- A directive that is replaced is of the form, and its file is entered. -/
theorem site?_eq_some {s : Sources} {x : Encounter} {site : Text × Text × Place × Nat} :
    x.site? s = some site ↔ ∃ d inner, x.reading = .ok d ∧
      s.replacement? x.chain d = some inner ∧
      site = (x.file, d.target, x.source.place d.span.start, x.depth) := by
  obtain ⟨file, source, chain, depth, reading⟩ := x
  cases reading with
  | error fault => simp [site?]
  | ok d =>
    cases hr : s.replacement? chain d with
    | none => simp [site?, hr]
    | some inner => simp [site?, hr, eq_comm]

end Encounter

theorem Expansion.text_record (e : Expansion) (f : OpenFile) (d : Directive) (flatStart : Nat) :
    (e.record f d flatStart).text = e.text := rfl

namespace Sources

/-- The directives met while a file is flattened whose name is the first of `chain`: its own, and
behind each one that is replaced those of the file asked for. -/
def encounters (s : Sources) (chain : List Text) (name source : Text) (depth : Nat) :
    List Encounter :=
  ((MaskedText.ofText .declarations source).directivesFrom
      (Path.ofText name).directory 0).flatMap fun reading =>
    ⟨name, source, chain, depth, reading⟩ :: match reading with
      | .error _ => []
      | .ok d =>
        match _h : s.replacement? chain d with
        | some inner => s.encounters (d.target :: chain) d.target inner (depth + 1)
        | none => []
termination_by s.unseen chain
decreasing_by exact unseen_lt_of_replacement? _h

/-! ## One directive -/

/-- What takes the place of a directive. -/
def replacementOf (s : Sources) (chain : List Text) (d : Directive) : Option Replacement :=
  (s.replacement? chain d).map fun inner =>
    ⟨d.span.start, d.span.stop - d.span.start, s.splice (d.target :: chain) d.target inner⟩

/-- The directives met at a directive of the form: itself, and those of the file asked for. -/
def encountersAt (s : Sources) (chain : List Text) (name source : Text) (depth : Nat)
    (d : Directive) : List Encounter :=
  ⟨name, source, chain, depth, .ok d⟩ :: match s.replacement? chain d with
    | some inner => s.encounters (d.target :: chain) d.target inner (depth + 1)
    | none => []

theorem splice_eq (s : Sources) (chain : List Text) (name source : Text) :
    s.splice chain name source =
      source.replaceAll ((directivesOf name source).filterMap (s.replacementOf chain)) := by
  rw [splice]
  congr 2
  funext d
  unfold replacementOf
  split <;> simp_all

/-- Malformed directives are met as well, between the others. -/
theorem encounters_perm (s : Sources) (chain : List Text) (name source : Text) (depth : Nat) :
    (s.encounters chain name source depth).Perm
      ((((MaskedText.ofText .declarations source).directives (Path.ofText name).directory).2.map
          (⟨name, source, chain, depth, .error ·⟩)) ++
        (directivesOf name source).flatMap (s.encountersAt chain name source depth)) := by
  rw [encounters, directivesOf, MaskedText.directives]
  generalize (MaskedText.ofText .declarations source).directivesFrom _ 0 = readings
  induction readings with
  | nil => exact .refl _
  | cons reading readings ih =>
    rw [List.flatMap_cons]
    cases reading with
    | error fault => exact (ih.cons _)
    | ok d =>
      have hat : (⟨name, source, chain, depth, .ok d⟩ :: match _h : s.replacement? chain d with
            | some inner => s.encounters (d.target :: chain) d.target inner (depth + 1)
            | none => []) = s.encountersAt chain name source depth d := by
        unfold encountersAt
        split <;> simp_all
      dsimp only
      rw [hat]
      refine (ih.append_left _).trans ?_
      simp only [List.filterMap_cons, List.flatMap_cons, Except.toOption]
      exact List.perm_append_comm_assoc _ _ _

/-! ## The order of directives -/

/-- Directives from an offset on, each behind the one before. -/
inductive InOrder : (cursor : Nat) → List Directive → Prop
  | nil (cursor : Nat) : InOrder cursor []
  | cons {cursor : Nat} {d : Directive} {rest : List Directive} : cursor ≤ d.span.start →
      d.span.start < d.span.stop → InOrder d.span.stop rest → InOrder cursor (d :: rest)

theorem InOrder.le {cursor : Nat} {directives : List Directive} (h : InOrder cursor directives) :
    ∀ d ∈ directives, cursor ≤ d.span.start := by
  induction h with
  | nil => simp
  | cons hle hlt _ ih =>
    refine List.forall_mem_cons.2 ⟨hle, fun d hd => ?_⟩
    have := ih d hd
    omega

theorem InOrder.lt {cursor : Nat} {directives : List Directive} (h : InOrder cursor directives) :
    ∀ d ∈ directives, d.span.start < d.span.stop := by
  induction h with
  | nil => simp
  | cons _ hlt _ ih => exact List.forall_mem_cons.2 ⟨hlt, ih⟩

theorem InOrder.pairwise {cursor : Nat} {directives : List Directive}
    (h : InOrder cursor directives) :
    directives.Pairwise (fun d d' => d.span.stop ≤ d'.span.start) := by
  induction h with
  | nil => exact .nil
  | cons _ _ hrest ih => exact .cons hrest.le ih

theorem inOrder_directivesFrom (t : MaskedText) (directory : Path) (pos : Nat) :
    ∀ cursor, cursor ≤ pos →
      InOrder cursor ((t.directivesFrom directory pos).filterMap (fun r => r.toOption)) := by
  induction pos using MaskedText.directivesFrom.induct t directory with
  | case1 pos hfind =>
    intro cursor _
    rw [MaskedText.directivesFrom_none hfind]
    exact .nil cursor
  | case2 pos start hfind ih =>
    intro cursor hcursor
    rw [MaskedText.directivesFrom_some hfind]
    have hpos := (MaskedText.indexOf?_eq_some hfind (by decide)).1
    have hnext := t.lt_next_directiveAt directory start
    cases hread : (t.directiveAt directory start).result with
    | error fault =>
      rw [List.filterMap_cons_none rfl]
      exact ih cursor (by omega)
    | ok d =>
      obtain ⟨hstart, hstop⟩ := MaskedText.span_of_directiveAt hread
      exact .cons (by omega) (by omega) (ih _ (by omega))

/-- The directives of a file stand one behind the other. -/
theorem inOrder_directivesOf (name source : Text) : InOrder 0 (directivesOf name source) :=
  inOrder_directivesFrom _ _ 0 0 (Nat.le_refl 0)

/-! ## Whole files -/

/-- A file flattened behind the text there is. -/
def expandFile (s : Sources) (chain : List Text) (e : Expansion) (name source : Text)
    (depth : Nat) : Expansion :=
  let opened := e.openFile name source depth
  s.expandFrom chain opened.1 0 opened.2.1 opened.2.2

/-- Why a directive of the form is not replaced. -/
def refusal (chain : List Text) (d : Directive) : Problem :=
  if d.target ∈ chain then .circularInclude d.target else .missingInclude

section
variable {s : Sources} {chain : List Text} {d : Directive}

theorem expandFrom_refused (f : OpenFile) (cursor : Nat) (rest : List Directive) (e : Expansion)
    (h : s.replacement? chain d = none) :
    s.expandFrom chain f cursor (d :: rest) e =
      s.expandFrom chain f d.span.stop rest
        ((e.pushSlice f cursor d.span.start).reject f d (refusal chain d)) := by
  rw [expandFrom, refusal]
  by_cases hs : d.target ∈ chain
  · rw [dif_pos hs, if_pos hs]
  · rw [dif_neg hs, if_neg hs]
    have hr := (replacement?_eq_none.1 h).resolve_left hs
    split
    · rfl
    · next inner hread => rw [hr] at hread; cases hread

/-- A directive that is replaced flattens the file it asks for and records that. -/
theorem expandFrom_replaced (f : OpenFile) (cursor : Nat) (rest : List Directive) (e : Expansion)
    {inner : Text} (h : s.replacement? chain d = some inner) :
    s.expandFrom chain f cursor (d :: rest) e =
      let e := e.pushSlice f cursor d.span.start
      s.expandFrom chain f d.span.stop rest
        ((s.expandFile (d.target :: chain) e d.target inner (f.depth + 1)).record f d
          (e.lines + 1)) :=
  have ⟨hs, hr⟩ := replacement?_eq_some.1 h
  expandFrom_included hs hr

theorem diagnostic?_refused (name source : Text) (depth : Nat)
    (h : s.replacement? chain d = none) :
    Encounter.diagnostic? s ⟨name, source, chain, depth, .ok d⟩ =
      some (Fault.diagnostic ⟨refusal chain d, d.span⟩ name source) := by
  unfold Encounter.diagnostic? Encounter.fault? refusal
  dsimp only
  by_cases hs : d.target ∈ chain
  · simp [hs]
  · simp [hs, (replacement?_eq_none.1 h).resolve_left hs]

theorem diagnostic?_replaced {inner : Text} (name source : Text) (depth : Nat)
    (h : s.replacement? chain d = some inner) :
    Encounter.diagnostic? s ⟨name, source, chain, depth, .ok d⟩ = none := by
  obtain ⟨hs, hr⟩ := replacement?_eq_some.1 h
  simp [Encounter.diagnostic?, Encounter.fault?, hs, hr]

end

theorem replacementOf_eq_some {s : Sources} {chain : List Text} {d : Directive} {inner : Text}
    (h : s.replacement? chain d = some inner) :
    s.replacementOf chain d = some ⟨d.span.start, d.span.stop - d.span.start,
      s.splice (d.target :: chain) d.target inner⟩ := by
  rw [replacementOf, h, Option.map_some]

theorem start_replacementOf {s : Sources} {chain : List Text} {d : Directive} {r : Replacement}
    (h : s.replacementOf chain d = some r) : r.start = d.span.start := by
  obtain ⟨inner, -, rfl⟩ := Option.map_eq_some_iff.1 h
  rfl

/-- The text of an open file from an offset on has its directives replaced. -/
theorem text_expandFrom {s : Sources} (chain : List Text) (name source : Text) (cursor : Nat)
    (directives : List Directive) : ∀ {index depth : Nat} {e : Expansion},
    InOrder cursor directives →
    (s.expandFrom chain ⟨name, source, index, depth⟩ cursor directives e).text =
      e.text ++ Text.replaceFrom cursor (source.drop cursor)
        (directives.filterMap (s.replacementOf chain)) := by
  induction chain, name, source, cursor, directives using includeInduct (s := s) with
  | nil chain name source cursor =>
    intro index depth e _
    rw [expandFrom_nil, Expansion.text_pushSlice]
    dsimp only
    rw [Text.slice, List.take_of_length_le (by simp), List.filterMap_nil, Text.replaceFrom]
  | kept chain name source cursor d rest hkept ih =>
    intro index depth e horder
    have hnone := replacement?_eq_none.2 hkept
    obtain _ | ⟨hle, hlt, hrest⟩ := horder
    have hbehind : ∀ r ∈ rest.filterMap (s.replacementOf chain), d.span.stop ≤ r.start := by
      intro r hr
      obtain ⟨d', hd', hr⟩ := List.mem_filterMap.1 hr
      rw [start_replacementOf hr]
      exact hrest.le d' hd'
    have hskip := Text.replaceFrom_skip (t := source) (show cursor ≤ d.span.stop by omega) hbehind
    -- what stands in front of the directive and the directive are one part of the source
    rw [expandFrom_refused _ _ _ _ hnone, ih hrest, Expansion.text_reject,
      Expansion.text_pushSlice, List.filterMap_cons_none (by rw [replacementOf, hnone]; rfl),
      hskip, ← Text.slice_append_slice hle (Nat.le_of_lt hlt)]
    simp only [List.append_assoc]
  | included chain name source cursor d rest inner hs hr ihInner ih =>
    intro index depth e horder
    have hsome := replacement?_eq_some.2 ⟨hs, hr⟩
    obtain _ | ⟨hle, hlt, hrest⟩ := horder
    have hwidth : d.span.start + (d.span.stop - d.span.start) = d.span.stop := by omega
    have hinner (e : Expansion) : (s.expandFile (d.target :: chain) e d.target inner
        (depth + 1)).text = e.text ++ s.splice (d.target :: chain) d.target inner := by
      rw [splice_eq]
      exact ihInner (inOrder_directivesOf d.target inner)
    rw [expandFrom_replaced _ _ _ _ hsome, ih hrest, Expansion.text_record, hinner,
      List.filterMap_cons_some (replacementOf_eq_some hsome), Text.replaceFrom_cons (by exact hle)]
    dsimp only [Replacement.stop]
    rw [hwidth, Expansion.text_pushSlice]
    simp only [List.append_assoc]

/-- A file is flattened to its text with the directives replaced. -/
theorem text_expandFile (s : Sources) (chain : List Text) (e : Expansion) (name source : Text)
    (depth : Nat) :
    (s.expandFile chain e name source depth).text = e.text ++ s.splice chain name source := by
  rw [splice_eq, Text.replaceAll]
  exact text_expandFrom chain name source 0 _ (inOrder_directivesOf name source)

end Sources

/-! ## What the directives leave -/

namespace Expansion

/-- Between two expansions the directives `met` are met: each leaves an include or a diagnostic. -/
structure Meets (s : Sources) (met : List Encounter) (e e' : Expansion) : Prop where
  includes : (e'.includes.map IncludeRecord.site).Perm
    (e.includes.map IncludeRecord.site ++ met.filterMap (·.site? s))
  diagnostics : e'.diagnostics.Perm (e.diagnostics ++ met.filterMap (·.diagnostic? s))

section
variable {s : Sources} {met met₁ met₂ : List Encounter} {e e₁ e₂ : Expansion}

theorem Meets.trans (h₁ : Meets s met₁ e e₁) (h₂ : Meets s met₂ e₁ e₂) :
    Meets s (met₁ ++ met₂) e e₂ where
  includes := by
    rw [List.filterMap_append, ← List.append_assoc]
    exact h₂.includes.trans (h₁.includes.append_right _)
  diagnostics := by
    rw [List.filterMap_append, ← List.append_assoc]
    exact h₂.diagnostics.trans (h₁.diagnostics.append_right _)

theorem Meets.perm (h : Meets s met₁ e e₁) (hperm : met₁.Perm met₂) : Meets s met₂ e e₁ where
  includes := h.includes.trans ((hperm.filterMap _).append_left _)
  diagnostics := h.diagnostics.trans ((hperm.filterMap _).append_left _)

theorem meets_pushSlice (e : Expansion) (f : OpenFile) (start stop : Nat) :
    Meets s [] e (e.pushSlice f start stop) where
  includes := by simp [includes_pushSlice]
  diagnostics := by simp [diagnostics_pushSlice]

/-- Opening a file reports the directives that break the form. -/
theorem meets_openFile (e : Expansion) (chain : List Text) (name source : Text) (depth : Nat) :
    Meets s (((MaskedText.ofText .declarations source).directives (Path.ofText name).directory).2.map
      (⟨name, source, chain, depth, .error ·⟩)) e (e.openFile name source depth).2.2 where
  includes := by
    simp [openFile, List.filterMap_map, Encounter.site?]
  diagnostics := by
    simp [openFile, List.filterMap_map, Encounter.diagnostic?, Encounter.fault?]

/-- A directive that is kept leaves a diagnostic. -/
theorem meets_reject (e : Expansion) {chain : List Text} {d : Directive} (f : OpenFile)
    (h : s.replacement? chain d = none) :
    Meets s [⟨f.name, f.source, chain, f.depth, .ok d⟩] e
      (e.reject f d (Sources.refusal chain d)) where
  includes := by
    rw [reject, includes_pushSlice]
    simp [Encounter.site?, h]
  diagnostics := by
    rw [reject, diagnostics_pushSlice]
    simp [Sources.diagnostic?_refused, h]

/-- A directive that is replaced leaves an include, behind all that its file leaves. -/
theorem Meets.record {chain : List Text} {d : Directive} {inner : Text} {f : OpenFile}
    {flatStart : Nat} (h : Meets s met e e₁) (hinner : s.replacement? chain d = some inner) :
    Meets s (⟨f.name, f.source, chain, f.depth, .ok d⟩ :: met) e (e₁.record f d flatStart) where
  includes := by
    have hsite : Encounter.site? s ⟨f.name, f.source, chain, f.depth, .ok d⟩ =
        some (f.name, d.target, f.source.place d.span.start, f.depth) := by
      simp [Encounter.site?, hinner]
    rw [Expansion.record, List.map_append, List.filterMap_cons_some hsite]
    refine (h.includes.append_right _).trans ?_
    rw [List.append_assoc]
    exact (List.perm_append_singleton _ _).append_left _
  diagnostics := by
    rw [List.filterMap_cons_none (Sources.diagnostic?_replaced _ _ _ hinner)]
    exact h.diagnostics

end

end Expansion

namespace Sources

open Expansion

/-- Flattening a file meets the directives of the file and of the files they ask for, if flattening
its directives does. -/
theorem expandFile_meets_of {s : Sources} {chain : List Text} {name source : Text}
    (h : ∀ (index depth : Nat) (e : Expansion),
      Meets s ((directivesOf name source).flatMap (s.encountersAt chain name source depth)) e
        (s.expandFrom chain ⟨name, source, index, depth⟩ 0 (directivesOf name source) e))
    (e : Expansion) (depth : Nat) :
    Meets s (s.encounters chain name source depth) e (s.expandFile chain e name source depth) :=
  ((meets_openFile e chain name source depth).trans (h _ depth _)).perm
    (encounters_perm s chain name source depth).symm

/-- Flattening the rest of an open file meets its directives and those of the files they ask for. -/
theorem expandFrom_meets {s : Sources} (chain : List Text) (name source : Text) (cursor : Nat)
    (directives : List Directive) : ∀ (index depth : Nat) (e : Expansion),
    Meets s (directives.flatMap (s.encountersAt chain name source depth)) e
      (s.expandFrom chain ⟨name, source, index, depth⟩ cursor directives e) := by
  induction chain, name, source, cursor, directives using includeInduct (s := s) with
  | nil chain name source cursor =>
    intro index depth e
    rw [expandFrom_nil]
    exact meets_pushSlice _ _ _ _
  | kept chain name source cursor d rest hkept ih =>
    intro index depth e
    have hnone := replacement?_eq_none.2 hkept
    rw [expandFrom_refused _ _ _ _ hnone, List.flatMap_cons, encountersAt, hnone]
    exact ((meets_pushSlice e _ _ _).trans (meets_reject _ ⟨name, source, index, depth⟩ hnone)).trans
      (ih index depth _)
  | included chain name source cursor d rest inner hs hr ihInner ih =>
    intro index depth e
    have hsome := replacement?_eq_some.2 ⟨hs, hr⟩
    rw [expandFrom_replaced _ _ _ _ hsome, List.flatMap_cons, encountersAt, hsome]
    have hpush := meets_pushSlice (s := s) e ⟨name, source, index, depth⟩ cursor d.span.start
    have hinner := expandFile_meets_of ihInner (e.pushSlice ⟨name, source, index, depth⟩ cursor
      d.span.start) (depth + 1)
    exact (hpush.trans (hinner.record (f := ⟨name, source, index, depth⟩) hsome)).trans
      (ih index depth _)

/-- Flattening a root file meets its directives and those of the files they ask for. -/
theorem meets_expandSource (s : Sources) (root source : Text) :
    Meets s (s.encounters [(Path.ofText root).key] root source 0) Expansion.empty
      (s.expandSource root source) :=
  expandFile_meets_of (expandFrom_meets _ root source 0 _) Expansion.empty 0

/-! ## What the directives are -/

/-- An encounter is with a directive of its file, and the file is the root or can be read. -/
structure Genuine (s : Sources) (root text : Text) (x : Encounter) : Prop where
  known : x.file = root ∧ x.source = text ∨ s.get? x.file = some x.source
  found : x.reading ∈ (MaskedText.ofText .declarations x.source).directivesFrom
    (Path.ofText x.file).directory 0

theorem genuine_encounters_of {s : Sources} {root text : Text} {chain : List Text}
    {name source : Text} {depth : Nat}
    (hknown : name = root ∧ source = text ∨ s.get? name = some source)
    (h : ∀ x ∈ (directivesOf name source).flatMap (s.encountersAt chain name source depth),
      Genuine s root text x) :
    ∀ x ∈ s.encounters chain name source depth, Genuine s root text x := by
  intro x hx
  rcases List.mem_append.1 ((encounters_perm s chain name source depth).mem_iff.1 hx) with hx | hx
  · obtain ⟨fault, hfault, rfl⟩ := List.mem_map.1 hx
    obtain ⟨reading, hreading, hfault⟩ := List.mem_filterMap.1 hfault
    refine ⟨hknown, ?_⟩
    cases reading with
    | error fault' => cases hfault; exact hreading
    | ok d => cases hfault
  · exact h x hx

theorem genuine_encountersAt {s : Sources} {root text : Text} (chain : List Text)
    (name source : Text) (cursor : Nat) (directives : List Directive) : ∀ (depth : Nat),
    name = root ∧ source = text ∨ s.get? name = some source →
    directives ⊆ directivesOf name source →
    ∀ x ∈ directives.flatMap (s.encountersAt chain name source depth), Genuine s root text x := by
  have own : ∀ {name source : Text} {d : Directive} {chain : List Text} {depth : Nat},
      name = root ∧ source = text ∨ s.get? name = some source → d ∈ directivesOf name source →
      Genuine s root text ⟨name, source, chain, depth, .ok d⟩ := by
    intro name source d chain depth hknown hd
    obtain ⟨reading, hreading, hd⟩ := List.mem_filterMap.1 hd
    refine ⟨hknown, ?_⟩
    cases reading with
    | error fault => cases hd
    | ok d' => cases hd; exact hreading
  induction chain, name, source, cursor, directives using includeInduct (s := s) with
  | nil chain name source cursor => simp
  | kept chain name source cursor d rest hkept ih =>
    intro depth hknown hsub x hx
    obtain ⟨hd, hrest⟩ := List.cons_subset.1 hsub
    rw [List.flatMap_cons, encountersAt, replacement?_eq_none.2 hkept] at hx
    rcases List.mem_append.1 hx with hx | hx
    · rw [List.mem_singleton.1 hx]
      exact own hknown hd
    · exact ih depth hknown hrest x hx
  | included chain name source cursor d rest inner hs hr ihInner ih =>
    intro depth hknown hsub x hx
    obtain ⟨hd, hrest⟩ := List.cons_subset.1 hsub
    rw [List.flatMap_cons, encountersAt, replacement?_eq_some.2 ⟨hs, hr⟩] at hx
    rcases List.mem_append.1 hx with hx | hx
    · rcases List.mem_cons.1 hx with rfl | hx
      · exact own hknown hd
      · exact genuine_encounters_of (.inr hr)
          (ihInner (depth + 1) (.inr hr) (List.Subset.refl _)) x hx
    · exact ih depth hknown hrest x hx

theorem genuine_encounters {s : Sources} {root source : Text} (chain : List Text) (depth : Nat) :
    ∀ x ∈ s.encounters chain root source depth, Genuine s root source x :=
  genuine_encounters_of (.inl ⟨rfl, rfl⟩)
    (genuine_encountersAt chain root source 0 _ depth (.inl ⟨rfl, rfl⟩) (List.Subset.refl _))

/-- A directive that breaks the form is reported as such. -/
theorem problem_of_mem_directivesFrom {t : MaskedText} {directory : Path} {pos : Nat}
    {fault : Fault} (h : .error fault ∈ t.directivesFrom directory pos) :
    fault.problem = .invalidInclude := by
  induction pos using MaskedText.directivesFrom.induct t directory with
  | case1 pos hfind =>
    rw [MaskedText.directivesFrom_none hfind] at h
    cases h
  | case2 pos start hfind ih =>
    rw [MaskedText.directivesFrom_some hfind] at h
    rcases List.mem_cons.1 h with h | h
    · unfold MaskedText.directiveAt at h
      dsimp only at h
      split at h
      · split at h <;> cases h
        rfl
      · cases h
        rfl
    · exact ih h

/-- What is wrong with a directive concerns the directive, and is a matter of resources. -/
theorem Genuine.fault {s : Sources} {root text : Text} {x : Encounter} {fault : Fault}
    (hx : Genuine s root text x) (h : x.fault? s = some fault) :
    fault.span = x.span ∧ fault.problem.code.category = .resource := by
  obtain ⟨-, hfound⟩ := hx
  obtain ⟨file, source, chain, depth, reading⟩ := x
  cases reading with
  | error fault' =>
    cases h
    refine ⟨rfl, ?_⟩
    rw [problem_of_mem_directivesFrom hfound]
    rfl
  | ok d =>
    unfold Encounter.fault? at h
    dsimp only at h
    split at h
    · cases h
      exact ⟨rfl, rfl⟩
    · split at h
      · cases h
        exact ⟨rfl, rfl⟩
      · cases h

theorem Genuine.diagnostic {s : Sources} {root text : Text} {x : Encounter} {g : Diagnostic}
    (hx : Genuine s root text x) (h : x.diagnostic? s = some g) :
    g.category = .resource ∧ g.file = x.file ∧ g.span = some x.span := by
  obtain ⟨fault, hfault, rfl⟩ := Option.map_eq_some_iff.1 h
  obtain ⟨hspan, hcategory⟩ := hx.fault hfault
  refine ⟨hcategory, rfl, ?_⟩
  rw [← hspan]
  rfl

/-- Flattening is splicing. The directives of a file stand one behind the other, and the flattened
text of a root is its text with each directive replaced by the text its file is flattened to,
provided that the file can be read and is not being flattened already. The directives met on the way
are those of the root and of files that can be read, and each of them either is replaced or has
something wrong with it: the replaced ones are the includes that are recorded, with their file, their
place and their depth, and the others are those of which one diagnostic each is reported. -/
theorem expandSource_spliced (s : Sources) (root source : Text) :
    let e := s.expandSource root source
    let chain := [(Path.ofText root).key]
    let met := s.encounters chain root source 0
    (∀ name text, (directivesOf name text).Pairwise (fun d d' => d.span.stop ≤ d'.span.start) ∧
      ∀ d ∈ directivesOf name text, d.span.start < d.span.stop ∧ d.span.stop ≤ text.length) ∧
    e.text = s.splice chain root source ∧
    (e.includes.map IncludeRecord.site).Perm (met.filterMap (·.site? s)) ∧
    e.diagnostics.Perm (met.filterMap (·.diagnostic? s)) ∧
    ∀ x ∈ met,
      (x.file = root ∧ x.source = source ∨ s.get? x.file = some x.source) ∧
      x.reading ∈ (MaskedText.ofText .declarations x.source).directivesFrom
        (Path.ofText x.file).directory 0 ∧
      (x.site? s = none ↔ ∃ g, x.diagnostic? s = some g) ∧
      ∀ g, x.diagnostic? s = some g →
        g.category = .resource ∧ g.file = x.file ∧ g.span = some x.span := by
  intro e chain met
  have hmeets : Meets s met Expansion.empty e := meets_expandSource s root source
  refine ⟨fun name text => ⟨(inOrder_directivesOf name text).pairwise, fun d hd => ?_⟩,
    text_expandFile s chain Expansion.empty root source 0, hmeets.includes, hmeets.diagnostics,
    fun x hx => ?_⟩
  · have hlt := (inOrder_directivesOf name text).lt d hd
    obtain ⟨-, k, hk, hsemi⟩ := bytes_of_mem_directivesOf hd
    have := (List.getElem?_eq_some_iff.1 hsemi).1
    omega
  · have hgenuine := genuine_encounters chain 0 x hx
    exact ⟨hgenuine.known, hgenuine.found, Encounter.site?_eq_none, fun g => hgenuine.diagnostic⟩

end Sources

end PageLang
