import PageLang.Document
import PageLang.Proofs.ClassTable.Reads
import PageLang.Proofs.Include.Records
import PageLang.Proofs.Inheritance.Ancestry

/-!
# The diagnostics of a document

The diagnostics of a document are those of its includes, then those of its flattened text, which
are faults of the root or of a class and are moved to where they come from. None of them names a
file that is not among the files of the document.

* `Document.exists_flat`: the two parts of the diagnostics.
* `Document.recorded`: a diagnostic names the root or a file that an include of the root brought in.
* `Document.resolveElement_eq_ok`, `Document.resolve_eq_ok`: without errors, every element and every
  class resolves.
-/

namespace PageLang

/-! ## Severities and files -/

theorem Diagnostic.isError_located (g : Diagnostic) (text : Text) :
    (g.located text).isError = g.isError := by
  unfold Diagnostic.located
  split <;> rfl

/-- Why an ancestry is missing is never mere advice. -/
theorem Fault.isError_unlocated {f : Fault} (h : ClassTable.IsAncestryFault f) (file : Text) :
    (f.unlocated file).isError = true := by
  obtain ⟨problem, span⟩ := f
  rcases h with ⟨name, rfl⟩ | ⟨name, through, rfl⟩ <;> rfl

namespace PositionMap

theorem isError_relocate (m : PositionMap) (g : Diagnostic) :
    (m.relocate g).isError = g.isError := by
  unfold relocate
  split <;> rfl

theorem mem_files_of_sourceLine? {m : PositionMap} {flat line : Nat} {file : Text}
    (h : m.sourceLine? flat = some (file, line)) : file ∈ m.files := by
  cases flat with
  | zero => cases h
  | succ flat =>
    rw [sourceLine?_succ] at h
    obtain ⟨region, _, h⟩ := Option.bind_eq_some_iff.1 h
    obtain ⟨other, hother, h⟩ := Option.map_eq_some_iff.1 h
    cases h
    exact List.mem_of_getElem? hother

theorem file_relocate (m : PositionMap) (g : Diagnostic) :
    (m.relocate g).file = g.file ∨ (m.relocate g).file ∈ m.files := by
  unfold relocate
  split
  · exact .inl rfl
  · next file first h => exact .inr (mem_files_of_sourceLine? h)

theorem mem_files_of_fileAt? {m : PositionMap} {text : Text} {offset : Nat} {file : Text}
    (h : m.fileAt? text offset = some file) : file ∈ m.files := by
  obtain ⟨⟨other, line⟩, hline, rfl⟩ := Option.map_eq_some_iff.1 h
  exact mem_files_of_sourceLine? hline

end PositionMap

/-! ## Ancestries that are missing -/

namespace ClassTable

theorem fault_of_merge {table : ClassTable} {heir : Heir} {parents : List Text} {own : Members}
    {children : List Element} {g : Diagnostic}
    (h : table.merge heir parents own children = .error g) :
    ∃ f file, g = Fault.unlocated f file ∧ IsAncestryFault f ∧
      (file = heir.file ∨ ∃ d ∈ table.values, file = d.sourceFile) := by
  unfold merge at h
  cases hancestry : table.ancestry [heir.name] heir parents with
  | ok ancestors =>
    rw [hancestry] at h
    cases h
  | error e =>
    rw [hancestry] at h
    cases h
    exact fault_of_ancestry _ _ _ hancestry

end ClassTable

namespace Document

variable {root : Text} {e : Expansion}

theorem mem_of_error? {α : Type} {r : Except Diagnostic α} {g : Diagnostic}
    (h : error? r = some g) : r = .error g := by
  cases r with
  | ok a => cases h
  | error d => cases h; rfl

/-- The faults of a flattened text that the parsers of its parts find. -/
def parseFaults (root : Text) (e : Expansion) : List Fault :=
  let code := MaskedText.ofText .declarations e.text
  (code.classesRecovering root).2 ++ code.hierarchyRecovering.2 ++ code.dataImports.2 ++
    (GlobalNames.ofRoots code.hierarchyRecovering.1.roots).faults

/-- The diagnostics of the flattened text before they are moved. -/
def flatDiagnostics (root : Text) (e : Expansion) : List Diagnostic :=
  let d := ofExpansion root e
  (parseFaults root e).map (·.diagnostic root e.text) ++
    d.classes.entries.flatMap (fun c => classErrors d.classes root e.text c.1 c.2) ++
    referenceErrors d.classes root e.text d.hierarchy.roots

theorem diagnostics_ofExpansion (root : Text) (e : Expansion) :
    (ofExpansion root e).diagnostics =
      e.diagnostics ++ (flatDiagnostics root e).map e.positionMap.relocate := rfl

/-- A class of a document was read in the flattened text, and stands in the root or in another file
of the document. -/
theorem of_mem_classes {c : ClassDefinition} (h : c ∈ (ofExpansion root e).classes.values) :
    ∃ d, (MaskedText.ofText .declarations e.text).ReadFrom root d ∧
      c = { d with sourceFile := (e.positionMap.fileAt? e.text d.span.start).getD root } := by
  have hclasses : (ofExpansion root e).classes.values =
      ((MaskedText.ofText .declarations e.text).classesRecovering root).1.values.map fun d =>
        { d with sourceFile :=
            (e.positionMap.fileAt? e.text d.span.start).getD d.sourceFile } :=
    OrderedMap.values_map _ _
  rw [hclasses] at h
  obtain ⟨d, hd, rfl⟩ := List.mem_map.1 h
  have hread := MaskedText.readFrom_of_mem_classesRecovering hd
  exact ⟨d, hread, by rw [hread.file_eq]⟩

theorem sourceFile_mem {c : ClassDefinition} (h : c ∈ (ofExpansion root e).classes.values) :
    c.sourceFile ∈ root :: e.positionMap.files := by
  obtain ⟨d, _, rfl⟩ := of_mem_classes h
  dsimp only
  cases hfile : e.positionMap.fileAt? e.text d.span.start with
  | none => exact List.mem_cons_self
  | some file => exact List.mem_cons_of_mem _ (PositionMap.mem_files_of_fileAt? hfile)

theorem isFlat_of_mem_referenceErrors {table : ClassTable} {text : Text} {elements : List Element}
    {g : Diagnostic} (h : g ∈ referenceErrors table root text elements) :
    ∃ f file, g = Fault.diagnostic f file text ∧
      (file = root ∨ ∃ c ∈ table.values, file = c.sourceFile) := by
  obtain ⟨element, _, h⟩ := List.mem_filterMap.1 h
  obtain ⟨g', hg', rfl⟩ := Option.map_eq_some_iff.1 h
  obtain ⟨f, file, rfl, _, hfile⟩ := ClassTable.fault_of_merge (mem_of_error? hg')
  exact ⟨f, file, rfl, hfile⟩

theorem isFlat_of_mem_classErrors {table : ClassTable} {text name : Text} {c : ClassDefinition}
    {g : Diagnostic} (hname : name ∈ table.keys) (h : g ∈ classErrors table root text name c) :
    ∃ f file, g = Fault.diagnostic f file text ∧
      (file = root ∨ ∃ c ∈ table.values, file = c.sourceFile) := by
  rcases List.mem_append.1 h with h | h
  · obtain ⟨g', hg', rfl⟩ := List.mem_map.1 h
    have hresolve := mem_of_error? (Option.mem_toList.1 hg')
    unfold ClassTable.resolve at hresolve
    split at hresolve
    · next hnone => exact absurd hname (OrderedMap.get?_eq_none.1 hnone)
    · next d hd =>
      obtain ⟨f, file, rfl, _, hfile⟩ := ClassTable.fault_of_merge hresolve
      refine ⟨f, file, rfl, .inr ?_⟩
      rcases hfile with hfile | hfile
      · exact ⟨d, OrderedMap.mem_values_of_get? hd, hfile⟩
      · exact hfile
  · exact isFlat_of_mem_referenceErrors h

/-- The diagnostics of the flattened text are those of faults, under the root or under the file of
a class. -/
theorem isFlat_of_mem_flatDiagnostics {g : Diagnostic} (h : g ∈ flatDiagnostics root e) :
    ∃ f file, g = Fault.diagnostic f file e.text ∧
      (file = root ∨ ∃ c ∈ (ofExpansion root e).classes.values, file = c.sourceFile) := by
  rcases List.mem_append.1 h with h | h
  · rcases List.mem_append.1 h with h | h
    · obtain ⟨f, _, rfl⟩ := List.mem_map.1 h
      exact ⟨f, root, rfl, .inl rfl⟩
    · obtain ⟨c, hc, h⟩ := List.mem_flatMap.1 h
      exact isFlat_of_mem_classErrors (List.mem_map_of_mem hc) h
  · exact isFlat_of_mem_referenceErrors h

/-! ## Files that are named -/

/-- A diagnostic names the root, or a file that the includes brought in under one of the root. -/
theorem recorded {s : Sources} {source : Text} {g : Diagnostic}
    (h : g ∈ (ofExpansion root (s.expandSource root source)).diagnostics) :
    g.file = root ∨
      IncludeRecord.BroughtIn (s.expandSource root source).includes 0 g.file := by
  obtain ⟨names, hfiles, hbrought, hdiagnostics⟩ := s.expandSource_recorded root source
  have hcases : g.file ∈ root :: names → g.file = root ∨
      IncludeRecord.BroughtIn (s.expandSource root source).includes 0 g.file := by
    intro hmem
    rcases List.mem_cons.1 hmem with hroot | hname
    · exact .inl hroot
    · exact .inr (hbrought _ hname)
  apply hcases
  rw [diagnostics_ofExpansion] at h
  rcases List.mem_append.1 h with h | h
  · exact hdiagnostics g h
  · obtain ⟨flat, hflat, rfl⟩ := List.mem_map.1 h
    obtain ⟨f, file, rfl, hfile⟩ := isFlat_of_mem_flatDiagnostics hflat
    have hmem : file ∈ root :: names := by
      rcases hfile with rfl | ⟨c, hc, rfl⟩
      · exact List.mem_cons_self
      · have := sourceFile_mem hc
        rw [hfiles] at this
        simpa using this
    rcases PositionMap.file_relocate (s.expandSource root source).positionMap
      (f.diagnostic file (s.expandSource root source).text) with hsame | hother
    · rw [hsame, Fault.file_diagnostic]
      exact hmem
    · rwa [hfiles] at hother

/-! ## References that resolve -/

/-- An element of a document: one of the tree, or one in a class. -/
def HasElement (d : Document) (element : Element) : Prop :=
  element ∈ Element.preorderAll d.hierarchy.roots ∨
    ∃ c ∈ d.classes.values, element ∈ Element.preorderAll c.children

mutual

/-- The descendants of a descendant are descendants. -/
theorem preorder_subset {x : Element} : (e : Element) → x ∈ e.preorder → x.preorder ⊆ e.preorder
  | ⟨name, classRefs, overrides, children, span⟩, hx => by
    rw [Element.preorder] at hx
    rcases List.mem_cons.1 hx with rfl | hx
    · exact List.Subset.refl _
    · rw [Element.preorder.eq_def ⟨name, classRefs, overrides, children, span⟩]
      exact List.Subset.trans (preorderAll_subset children hx) (List.subset_cons_self _ _)

theorem preorderAll_subset {x : Element} : (es : List Element) → x ∈ Element.preorderAll es →
    x.preorder ⊆ Element.preorderAll es
  | [], hx => by
    rw [Element.preorderAll] at hx
    cases hx
  | e :: rest, hx => by
    rw [Element.preorderAll] at hx ⊢
    rcases List.mem_append.1 hx with hx | hx
    · exact List.Subset.trans (preorder_subset e hx) (List.subset_append_left _ _)
    · exact List.Subset.trans (preorderAll_subset rest hx) (List.subset_append_right _ _)

end

theorem HasElement.of_mem_preorder {d : Document} {x y : Element} (h : d.HasElement x)
    (hy : y ∈ x.preorder) : d.HasElement y := by
  rcases h with h | ⟨c, hc, h⟩
  · exact .inl (preorderAll_subset _ h hy)
  · exact .inr ⟨c, hc, preorderAll_subset _ h hy⟩

theorem mem_flatDiagnostics {element : Element} (h : (ofExpansion root e).HasElement element)
    {g : Diagnostic} (hg : (ofExpansion root e).classes.resolveElement root element = .error g) :
    g.located e.text ∈ flatDiagnostics root e := by
  have hmem : ∀ elements, element ∈ Element.preorderAll elements →
      g.located e.text ∈
        referenceErrors (ofExpansion root e).classes root e.text elements := by
    intro elements helement
    refine List.mem_filterMap.2 ⟨element, helement, ?_⟩
    rw [hg]
    rfl
  rcases h with h | ⟨c, hc, h⟩
  · exact List.mem_append_right _ (hmem _ h)
  · obtain ⟨⟨name, _⟩, hentry, rfl⟩ := List.mem_map.1 hc
    refine List.mem_append_left _ (List.mem_append_right _ ?_)
    exact List.mem_flatMap.2 ⟨_, hentry, List.mem_append_right _ (hmem _ h)⟩

theorem hasErrors_of_mem_flat {g : Diagnostic} (h : g ∈ flatDiagnostics root e)
    (herror : g.isError = true) : (ofExpansion root e).hasErrors = true := by
  refine List.any_eq_true.2 ⟨e.positionMap.relocate g, ?_, ?_⟩
  · rw [diagnostics_ofExpansion]
    exact List.mem_append_right _ (List.mem_map_of_mem h)
  · rw [PositionMap.isError_relocate, herror]

/-- Without errors, every element of the document resolves. -/
theorem resolveElement_eq_ok {element : Element} (h : (ofExpansion root e).hasErrors = false)
    (helement : (ofExpansion root e).HasElement element) :
    ∃ r, (ofExpansion root e).classes.resolveElement root element = .ok r := by
  cases hresolve : (ofExpansion root e).classes.resolveElement root element with
  | ok r => exact ⟨r, rfl⟩
  | error g =>
    exfalso
    obtain ⟨f, file, rfl, hf, _⟩ := ClassTable.fault_of_merge hresolve
    have herror : ((f.unlocated file).located e.text).isError = true := by
      rw [Diagnostic.isError_located, Fault.isError_unlocated hf]
    have hany := hasErrors_of_mem_flat (mem_flatDiagnostics helement hresolve) herror
    rw [h] at hany
    cases hany

/-- Without errors, every class of the document resolves. -/
theorem resolve_eq_ok {name : Text} {c : ClassDefinition}
    (h : (ofExpansion root e).hasErrors = false)
    (hget : (ofExpansion root e).classes.get? name = some c) :
    ∃ r, (ofExpansion root e).classes.resolve name = .ok r := by
  cases hresolve : (ofExpansion root e).classes.resolve name with
  | ok r => exact ⟨r, rfl⟩
  | error g =>
    exfalso
    have hmem : g.located e.text ∈ flatDiagnostics root e := by
      refine List.mem_append_left _ (List.mem_append_right _ ?_)
      refine List.mem_flatMap.2 ⟨(name, c), OrderedMap.mem_entries_of_get? hget, ?_⟩
      refine List.mem_append_left _ (List.mem_map.2 ⟨g, ?_, rfl⟩)
      rw [hresolve]
      exact List.mem_singleton_self g
    have herror : (g.located e.text).isError = true := by
      unfold ClassTable.resolve at hresolve
      rw [hget] at hresolve
      obtain ⟨f, file, rfl, hf, _⟩ := ClassTable.fault_of_merge hresolve
      rw [Diagnostic.isError_located, Fault.isError_unlocated hf]
    have hany := hasErrors_of_mem_flat hmem herror
    rw [h] at hany
    cases hany

end Document

end PageLang
