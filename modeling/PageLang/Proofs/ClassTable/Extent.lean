import PageLang.Proofs.ClassTable.Blocks
import PageLang.Proofs.Element.Extent

/-!
# Where the members of a class stand

The block of a class is found by its braces before the body is read, and the braces of a parameter
list count there, those in the strings of a default value among them. The list itself is found by
its parentheses. So a list may hold the brace that closes the class, and the body of the function
stands behind the class; or the list leaves a brace open, and the body of the class ends at the next
closing brace, while the class goes on behind it. Where the braces of every list match, neither
happens.

* `MaskedText.staysIn_members`: where the members of a class stand.
* `MaskedText.stop_classBody`: what the reading of a class body ends at.
-/

namespace PageLang.MaskedText

variable {t file : Text} {d : ClassDefinition} {opening close : Nat}

theorem runs_classBody (s : MaskedText) (opening close : Nat) :
    s.Runs close (opening + 1) (s.classBody opening close) :=
  s.runs_body .classStatement close (opening + 1)

/-- The members of every class that is read are declared in its block. They end in the block too,
but for functions whose parameter list runs over the end of the block; their body stands behind it.
Where the lists of the block match there is no such function. -/
theorem staysIn_members {start : Nat}
    (hd : d ∈ (classesRead ((ofText .declarations t).classes file start)).values) :
    ∃ opening close, (ofText .declarations t).Owns d opening close ∧
      let declarations := ((ofText .declarations t).classBody opening close).declarations
      (∀ f ∈ d.members.functions, ∃ r ∈ declarations, r.content.function? = some f) ∧
      (∀ r ∈ declarations, opening < r.span.start ∧ StaysIn t close r) ∧
      (StatementBlock t opening close → ∀ r ∈ declarations, r.span.stop ≤ close) := by
  have hread : (ofText .declarations t).ReadFrom file d :=
    readFrom_of_mem_classesFrom ∅ start (fun d hd => nomatch hd) d hd
  obtain ⟨opening, close, howns, -⟩ := exists_owns hread.read
  have hruns := runs_classBody (ofText .declarations t) opening close
  refine ⟨opening, close, howns, fun f hf => ?_, fun r hr => ?_, fun hblock => ?_⟩
  · rw [howns.members] at hf
    exact List.mem_filterMap.1 (Members.mem_functions_ofDeclarations hf)
  · obtain ⟨i, next, hi, hlt, hskip, hread⟩ := hruns.exists_of_mem hr
    obtain ⟨hspan, hstays⟩ := staysIn_of_declaration? howns.closes hi hlt hskip hread
    refine ⟨?_, hstays⟩
    rw [hspan]
    exact hi
  · exact (hruns.in_block hblock (Nat.lt_succ_self opening) howns.lt.2.1
      (hblock.rests rfl)).1

/-- A class with a method whose parameter has a string of braces for its default. -/
def sampleBraces : Text := "class A \x7b f: (a = '\x7b\x7d') { } \x7d;"

/-- The method of the class, as it is read. -/
def sampleBracesMethod : Declaration :=
  ⟨"f", .method .pub ⟨["a = '\x7b\x7d'"], "{ }", ⟨24, 27⟩⟩, ⟨10, 27⟩⟩

/-- The class, as it is read. -/
def sampleBracesClass : ClassDefinition :=
  ⟨"A", [], .ofDeclarations [sampleBracesMethod], [], "main.nazca", ⟨0, 29⟩⟩

theorem classBody_sampleBraces : (ofText .declarations sampleBraces).classBody 8 28 =
    ⟨[sampleBracesMethod], [], none, 28⟩ := by
  have hfirst : (ofText .declarations sampleBraces).skipTrivia (8 + 1) = 10 := by decide
  have hkind : (ofText .declarations sampleBraces).statementKind 10 = .declaration := by decide
  have hread : (ofText .declarations sampleBraces).declaration? 10 =
      .ok (some (sampleBracesMethod, 27)) := by rfl
  have hlast : (ofText .declarations sampleBraces).skipTrivia 27 = 28 := by decide
  rw [classBody, body_declaration hfirst (by decide) hkind hread, body_ended hlast (Nat.le_refl 28)]
  rfl

theorem classes_sampleBraces : (ofText .declarations sampleBraces).classes "main.nazca" 0 =
    .ok ((∅ : ClassTable).insert "A" sampleBracesClass) := by
  have hat : (ofText .declarations sampleBraces).classKeyword? 0 = some 0 := by decide
  have hopening : (ofText .declarations sampleBraces).findAny?
      [Byte.lbrace, Byte.semicolon, Byte.rbrace] 0 = some (8, Byte.lbrace) := by decide
  have hclose : (ofText .declarations sampleBraces).closingBrace? 8 = some 28 := by decide
  have hheader : ClassHeader.parse? ((ofText .declarations sampleBraces).slice 0 8).trim =
      some (Text.ofString "A", []) := by decide
  have hread : (ofText .declarations sampleBraces).classAt "main.nazca" 0 =
      ⟨some sampleBracesClass, none, 29⟩ :=
    classAt_of_body hopening hclose hheader classBody_sampleBraces (by rfl)
  exact classes_single hat hread (by decide)

theorem statementBlock_sampleBraces : StatementBlock sampleBraces 8 28 where
  lbrace := by decide
  closes := by decide
  region n := by
    have hlive : (stateAt sampleBraces 8).region = .live := by decide
    rw [hlive]
    exact nofun
  lists := by decide +kernel
  mode := by decide

/-- The block of the class. -/
theorem eq_of_owns_sampleBracesClass
    (h : (ofText .declarations sampleBraces).Owns sampleBracesClass opening close) :
    opening = 8 ∧ close = 28 := by
  have hopening : (ofText .declarations sampleBraces).findAny?
      [Byte.lbrace, Byte.semicolon, Byte.rbrace] 0 = some (8, Byte.lbrace) := by decide
  have hclose : (ofText .declarations sampleBraces).closingBrace? 8 = some 28 := by decide
  obtain ⟨rfl, -⟩ := Prod.mk.inj (Option.some.inj (hopening.symm.trans h.opens))
  exact ⟨rfl, Option.some.inj (h.closes.symm.trans hclose)⟩

theorem staysIn_members_sampleBraces :
    sampleBracesClass ∈
        (classesRead ((ofText .declarations sampleBraces).classes "main.nazca" 0)).values ∧
      ∃ opening close, (ofText .declarations sampleBraces).Owns sampleBracesClass opening close ∧
        StatementBlock sampleBraces opening close ∧
        ∀ r ∈ ((ofText .declarations sampleBraces).classBody opening close).declarations,
          r.span.stop ≤ close := by
  have hmem : sampleBracesClass ∈
      (classesRead ((ofText .declarations sampleBraces).classes "main.nazca" 0)).values := by
    rw [classes_sampleBraces]
    exact List.mem_singleton_self _
  obtain ⟨opening, close, howns, -, -, hstop⟩ := staysIn_members hmem
  obtain ⟨rfl, rfl⟩ := eq_of_owns_sampleBracesClass howns
  exact ⟨hmem, 8, 28, howns, statementBlock_sampleBraces, hstop statementBlock_sampleBraces⟩

/-- The body of every class of a table without faults is read up to the end of its block, or up to
a closing brace in front of that. Where the parameter lists of the block match, it is read up to the
end. -/
theorem stop_classBody {start : Nat} {table : ClassTable}
    (h : (ofText .declarations t).classes file start = .ok table) (hd : d ∈ table.values) :
    ∃ opening close, (ofText .declarations t).Owns d opening close ∧
      let stop := ((ofText .declarations t).classBody opening close).stop
      (stop < close → (ofText .declarations t).byte? stop = some Byte.rbrace) ∧
      (StatementBlock t opening close → stop = close) := by
  obtain ⟨opening, close, howns, hfault, -⟩ := exists_owns_of_mem_classes h hd
  have hruns := runs_classBody (ofText .declarations t) opening close
  refine ⟨opening, close, howns, hruns.byte_stop hfault howns.lt.2.2, fun hblock => ?_⟩
  exact (hruns.in_block hblock (Nat.lt_succ_self opening) howns.lt.2.1 (hblock.rests rfl)).2 hfault

theorem stop_classBody_sampleBraces :
    (ofText .declarations sampleBraces).classes "main.nazca" 0 =
        .ok ((∅ : ClassTable).insert "A" sampleBracesClass) ∧
      ∃ opening close, (ofText .declarations sampleBraces).Owns sampleBracesClass opening close ∧
        StatementBlock sampleBraces opening close ∧
        ((ofText .declarations sampleBraces).classBody opening close).stop = close := by
  obtain ⟨opening, close, howns, -, hstop⟩ :=
    stop_classBody classes_sampleBraces (List.mem_singleton_self _)
  obtain ⟨rfl, rfl⟩ := eq_of_owns_sampleBracesClass howns
  exact ⟨classes_sampleBraces, 8, 28, howns, statementBlock_sampleBraces,
    hstop statementBlock_sampleBraces⟩

end PageLang.MaskedText
