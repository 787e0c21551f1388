import PageLang.Proofs.ClassTable.Keywords
import PageLang.Proofs.Hierarchy.Statements

/-!
# The classes of the tree and the classes of the table

The tree parser takes a statement for a class when it starts with the keyword and a blank of any
kind; the class parser takes the keyword for a class wherever it stands outside all blocks, between
ASCII blanks or behind a semicolon or a brace. In a text without faults the two find the same
classes if and only if the keyword of every class is set off and no other statement has a keyword
in its header.

* `MaskedText.SetOff`: what this asks of a statement.
* `MaskedText.classKeyword?_next`: the class parser passes over every other statement.
* `MaskedText.passedClasses_eq_iff`: the two parsers.
-/

namespace PageLang.MaskedText

open Mask

/-! ## Statements that are set off -/

/-- The offset behind the header of the statement at `i`: its block or its semicolon. A directive
is all header. -/
def headerStop (s : MaskedText) (i : Nat) : Nat :=
  if s.isDirective i then s.statementEnd i
  else ((s.findAny? [Byte.lbrace, Byte.semicolon] i).map Prod.fst).getD s.size

/-- The offset behind the brace or the semicolon that ends the statement at `i`. -/
def statementStop (s : MaskedText) (i : Nat) : Nat :=
  if s.isDirective i then s.statementEnd i
  else match s.findAny? [Byte.lbrace, Byte.semicolon] i with
    | some (stop, b) =>
      if b = Byte.lbrace then ((s.closingBrace? stop).map (· + 1)).getD s.size else stop + 1
    | none => s.size

/-- No class keyword stands in the header of the statement at `i`. -/
def PlainHeader (s : MaskedText) (i : Nat) : Prop :=
  ∀ j, i ≤ j → j < s.headerStop i → ∀ b, s.liveByte? j = some b → s.isClassKeyword j = false

/-- The class parser sees in a statement what the tree parser sees: a class starts with a keyword
for both, and the header of any other statement has none. -/
structure SetOff (s : MaskedText) (i : Nat) : Prop where
  keyword : s.startsClass i = true → s.isClassKeyword i = true
  header : s.startsClass i = false → s.PlainHeader i

/-- Behind a statement both parsers go on in live text outside all blocks: a directive ends before
any block, and no parameter list is open at the end. -/
structure Regular (t : Text) (i : Nat) : Prop where
  directive : (ofText .declarations t).isDirective i = true → ∀ stop,
    (ofText .declarations t).findAny? [Byte.semicolon, Byte.lbrace, Byte.rbrace] i ≠
      some (stop, Byte.lbrace)
  parameters : ∀ n,
    (stateAt t ((ofText .declarations t).statementStop i)).region ≠ .parameters n

section
variable {s : MaskedText} {i next : Nat}

theorem headerStop_of_isDirective (h : s.isDirective i = true) :
    s.headerStop i = s.statementEnd i :=
  if_pos h

theorem headerStop_of_find {stop : Nat} {b : UInt8} (h : ¬ s.isDirective i = true)
    (hfind : s.findAny? [Byte.lbrace, Byte.semicolon] i = some (stop, b)) :
    s.headerStop i = stop := by
  unfold headerStop
  rw [if_neg h, hfind]
  rfl

theorem statementStop_of_semicolon {stop : Nat} (h : ¬ s.isDirective i = true)
    (hfind : s.findAny? [Byte.lbrace, Byte.semicolon] i = some (stop, Byte.semicolon)) :
    s.statementStop i = stop + 1 := by
  unfold statementStop
  rw [if_neg h, hfind]
  rfl

theorem statementStop_of_block {opening close : Nat} (h : ¬ s.isDirective i = true)
    (hfind : s.findAny? [Byte.lbrace, Byte.semicolon] i = some (opening, Byte.lbrace))
    (hclose : s.closingBrace? opening = some close) : s.statementStop i = close + 1 := by
  unfold statementStop
  rw [if_neg h, hfind]
  dsimp only
  rw [if_pos rfl, hclose]
  rfl

/-- The header of a statement is part of it. -/
theorem Shape.headerStop_le (h : s.Shape i next) : s.headerStop i ≤ next := by
  cases h with
  | directive hdirective =>
    exact Nat.le_of_eq (headerStop_of_isDirective hdirective)
  | short hdirective hfind =>
    rw [headerStop_of_find hdirective hfind]
    omega
  | @block opening close hdirective hfind hclose =>
    rw [headerStop_of_find hdirective hfind]
    exact Nat.le_of_lt (lt_skipSemicolon_of_closingBrace? hclose)

/-- A byte that is no letter starts no keyword. -/
theorem isClassKeyword_eq_false {k : Nat} {b : UInt8} (hb : s.liveByte? k = some b)
    (hne : b ≠ 0x63) : s.isClassKeyword k = false := by
  apply Bool.eq_false_iff.2
  intro hkey
  have hbyte := (liveByte?_eq_some hb).2
  rw [byte?_of_isClassKeyword hkey] at hbyte
  exact hne (Option.some.inj hbyte).symm

/-- Between two offsets at which nothing but a byte that is neither a brace nor a letter stands. -/
theorem quiet_succ {k : Nat} {b : UInt8} (hb : s.liveByte? k = some b) (hbrace : b ≠ Byte.lbrace)
    (hne : b ≠ 0x63) : s.Quiet k (k + 1) := by
  intro j h1 h2 c hc
  obtain rfl : j = k := by omega
  rw [hb] at hc
  cases hc
  exact ⟨hbrace, isClassKeyword_eq_false hb hne⟩

/-- Up to the first of some bytes, one of them the opening brace. -/
theorem quiet_of_findAny? {set : Text} {stop : Nat} {b : UInt8}
    (hfind : s.findAny? set i = some (stop, b)) (hset : Byte.lbrace ∈ set)
    (hheader : ∀ j, i ≤ j → j < stop → ∀ b, s.liveByte? j = some b →
      s.isClassKeyword j = false) : s.Quiet i stop := by
  intro k h1 h2 c hc
  exact ⟨fun e => not_mem_of_findAny? hfind h1 h2 hc (e ▸ hset), hheader k h1 h2 c hc⟩

end

/-! ## From one statement to the next -/

section
variable {t : Text} {p i next : Nat}

theorem between_close {opening close : Nat} (hregular : Regular t i)
    (hdirective : ¬ (ofText .declarations t).isDirective i = true)
    (hfind : (ofText .declarations t).findAny? [Byte.lbrace, Byte.semicolon] i =
      some (opening, Byte.lbrace))
    (hclose : (ofText .declarations t).closingBrace? opening = some close) :
    Between t (close + 1) := by
  have hparameters := hregular.parameters
  rw [statementStop_of_block hdirective hfind hclose] at hparameters
  exact between_of_ends (liveByte?_of_closingBrace? hclose) (.inr (.inr rfl)) hparameters

/-- Both parsers go on between two statements. -/
theorem between_next (h : (ofText .declarations t).Shape i next) (hregular : Regular t i) :
    Between t next := by
  have hparameters := hregular.parameters
  cases h with
  | directive hdirective =>
    unfold statementStop at hparameters
    rw [if_pos hdirective] at hparameters
    rcases hfind : (ofText .declarations t).findAny? [Byte.semicolon, Byte.lbrace, Byte.rbrace] i
      with _ | ⟨stop, b⟩
    · rw [statementEnd_of_none hfind, size_ofText]
      exact between_length t
    · rw [statementEnd_of_some hfind] at hparameters ⊢
      obtain ⟨_, _, hlive, hset⟩ := findAny?_eq_some hfind
      have hends : State.Ends b := by
        unfold State.Ends
        simpa using hset
      exact between_of_ends hlive hends hparameters
  | short hdirective hfind =>
    rw [statementStop_of_semicolon hdirective hfind] at hparameters
    exact between_of_ends (findAny?_eq_some hfind).2.2.1 (.inl rfl) hparameters
  | block hdirective hfind hclose =>
    exact (between_close hregular hdirective hfind hclose).skipSemicolon

/-- Nothing between two statements is for the class parser. -/
theorem Between.quiet (h : Between t p) :
    (ofText .declarations t).Quiet p ((ofText .declarations t).skipTrivia p) := by
  intro k h1 h2 b hb
  have hspace := h.isSpace h1 h2 hb
  refine ⟨?_, isClassKeyword_eq_false hb ?_⟩
  · rintro rfl
    revert hspace
    decide
  · rintro rfl
    revert hspace
    decide

theorem Between.quiet_skipSemicolon (h : Between t p) :
    (ofText .declarations t).Quiet p ((ofText .declarations t).skipSemicolon p) := by
  unfold MaskedText.skipSemicolon
  dsimp only
  split
  · next hb =>
    rw [byte?_ofText] at hb
    have hlt := (List.getElem?_eq_some_iff.1 hb).1
    have hlive := ((h.startsStatement hlt).plain hb (by decide)).1
    exact h.quiet.append (quiet_succ hlive (by decide) (by decide))
  · exact quiet_self _ _

theorem quiet_directive (hregular : Regular t i)
    (hdirective : (ofText .declarations t).isDirective i = true)
    (hheader : (ofText .declarations t).PlainHeader i) :
    (ofText .declarations t).Quiet i ((ofText .declarations t).statementEnd i) := by
  intro k h1 h2 c hc
  refine ⟨?_, hheader k h1 (by rwa [headerStop_of_isDirective hdirective]) c hc⟩
  rintro rfl
  rcases hfind : (ofText .declarations t).findAny? [Byte.semicolon, Byte.lbrace, Byte.rbrace] i
    with _ | ⟨stop, b⟩
  · exact findAny?_eq_none hfind h1 hc (by simp)
  · rw [statementEnd_of_some hfind] at h2
    rcases Nat.eq_or_lt_of_le (Nat.le_of_lt_succ h2) with rfl | hlt
    · obtain ⟨_, _, hlive, _⟩ := findAny?_eq_some hfind
      rw [hc] at hlive
      cases hlive
      exact hregular.directive hdirective k hfind
    · exact not_mem_of_findAny? hfind h1 hlt hc (by simp)

/-- The class parser passes over a statement whose header has no keyword. -/
theorem classKeyword?_next (h : Between t p) (hi : (ofText .declarations t).skipTrivia p = i)
    (hshape : (ofText .declarations t).Shape i next) (hregular : Regular t i)
    (hheader : (ofText .declarations t).PlainHeader i) :
    (ofText .declarations t).classKeyword? p = (ofText .declarations t).classKeyword? next := by
  have hp : p ≤ i := hi ▸ h.le_skipTrivia
  have hnext := (between_next hshape hregular).le_size
  have hgap : (ofText .declarations t).Quiet p i := hi ▸ h.quiet
  unfold PlainHeader at hheader
  cases hshape with
  | directive hdirective =>
    have hlt := lt_statementEnd (byte?_eq_some_lt (byte?_of_isDirective hdirective))
    exact classKeyword?_quiet (by omega) hnext
      (hgap.append (quiet_directive hregular hdirective hheader))
  | @short stop hdirective hfind =>
    obtain ⟨hle, _, hlive, _⟩ := findAny?_eq_some hfind
    rw [headerStop_of_find hdirective hfind] at hheader
    apply classKeyword?_quiet (by omega) hnext
    exact hgap.append ((quiet_of_findAny? hfind (by simp) hheader).append
      (quiet_succ hlive (by decide) (by decide)))
  | @block opening close hdirective hfind hclose =>
    obtain ⟨hle, hlt, hlive, _⟩ := findAny?_eq_some hfind
    rw [headerStop_of_find hdirective hfind] at hheader
    calc (ofText .declarations t).classKeyword? p
        = (ofText .declarations t).classKeyword? opening :=
          classKeyword?_quiet (by omega) (Nat.le_of_lt hlt)
            (hgap.append (quiet_of_findAny? hfind (by simp) hheader))
      _ = (ofText .declarations t).classKeyword? (close + 1) := classKeyword?_block hlive hclose
      _ = (ofText .declarations t).classKeyword?
            ((ofText .declarations t).skipSemicolon (close + 1)) :=
          classKeyword?_quiet le_skipSemicolon hnext
            (between_close hregular hdirective hfind hclose).quiet_skipSemicolon

/-- No block opens in a header. -/
theorem Shape.not_lbrace {s : MaskedText} (h : s.Shape i next) {k j : Nat} (hk : i ≤ k)
    (hkj : k < j) (hj : j < s.headerStop i) : s.liveByte? k ≠ some Byte.lbrace := by
  intro hb
  cases h with
  | directive hdirective =>
    rw [headerStop_of_isDirective hdirective] at hj
    rcases hfind : s.findAny? [Byte.semicolon, Byte.lbrace, Byte.rbrace] i with _ | ⟨stop, b⟩
    · exact findAny?_eq_none hfind hk hb (by simp)
    · rw [statementEnd_of_some hfind] at hj
      exact not_mem_of_findAny? hfind hk (by omega) hb (by simp)
  | short hdirective hfind =>
    rw [headerStop_of_find hdirective hfind] at hj
    exact not_mem_of_findAny? hfind hk (by omega) hb (by simp)
  | block hdirective hfind hclose =>
    rw [headerStop_of_find hdirective hfind] at hj
    exact not_mem_of_findAny? hfind hk (by omega) hb (by simp)

/-- At a keyword in a header, or before it, the class parser finds a class. -/
theorem classKeyword?_header (h : Between t p) (hi : (ofText .declarations t).skipTrivia p = i)
    (hshape : (ofText .declarations t).Shape i next)
    (hheader : ¬ (ofText .declarations t).PlainHeader i) :
    ∃ k, (ofText .declarations t).classKeyword? p = some k ∧ k < next := by
  unfold PlainHeader at hheader
  simp only [Classical.not_forall, Bool.not_eq_false] at hheader
  obtain ⟨j, hij, hj, b, hb, hkey⟩ := hheader
  have hp : p ≤ i := hi ▸ h.le_skipTrivia
  have hgap : (ofText .declarations t).Quiet p i := hi ▸ h.quiet
  have hbefore : ∀ k, p ≤ k → k < j → (ofText .declarations t).liveByte? k ≠ some Byte.lbrace := by
    intro k h1 h2 hk
    rcases Nat.lt_or_ge k i with hlt | hge
    · exact (hgap k h1 hlt _ hk).1 rfl
    · exact hshape.not_lbrace hge h2 hj hk
  obtain ⟨k, hfound, _, hkj⟩ := classKeyword?_le (by omega) hbefore hb hkey
  have := hshape.headerStop_le
  exact ⟨k, hfound, by omega⟩

end

/-! ## The two parsers -/

/-- The offsets at which the tree parser passes over a class, from `pos` on. -/
def passedClasses (s : MaskedText) (pos : Nat) : List Nat :=
  (s.topLevelStarts pos).filter s.startsClass

section
variable {s : MaskedText} {p next : Nat} {piece : Hierarchy}

theorem passedClasses_class (hlt : s.skipTrivia p < s.size)
    (hstep : s.topLevelAt (s.skipTrivia p) = .found piece next)
    (hclass : s.startsClass (s.skipTrivia p) = true) :
    s.passedClasses p = s.skipTrivia p :: s.passedClasses next := by
  unfold passedClasses
  rw [topLevelStarts_found hlt hstep, List.filter_cons_of_pos hclass]

theorem passedClasses_other (hlt : s.skipTrivia p < s.size)
    (hstep : s.topLevelAt (s.skipTrivia p) = .found piece next)
    (hclass : ¬ s.startsClass (s.skipTrivia p) = true) :
    s.passedClasses p = s.passedClasses next := by
  unfold passedClasses
  rw [topLevelStarts_found hlt hstep, List.filter_cons_of_neg hclass]

theorem le_of_mem_passedClasses {i : Nat} (h : i ∈ s.passedClasses p) : p ≤ i :=
  le_of_mem_topLevelStarts (List.mem_filter.1 h).1

end

section
variable {t file : Text} {p i next : Nat} {piece : Hierarchy}

/-- A class with a keyword is read by both parsers. -/
theorem classStarts_keyword (file : Text) (h : Between t p)
    (hi : (ofText .declarations t).skipTrivia p = i)
    (hclass : (ofText .declarations t).startsClass i = true)
    (hkey : (ofText .declarations t).isClassKeyword i = true) :
    (ofText .declarations t).classStarts file p =
      i :: (ofText .declarations t).classStarts file
        ((ofText .declarations t).classAt file i).next := by
  have hbyte := byte?_of_startsClass hclass
  rw [byte?_ofText] at hbyte
  have hlt := (List.getElem?_eq_some_iff.1 hbyte).1
  have hp : p ≤ i := hi ▸ h.le_skipTrivia
  have hlive := ((hi ▸ h.startsStatement (hi ▸ hlt) : StartsStatement t i).plain hbyte
    (by decide)).1
  apply classStarts_cons
  rw [classKeyword?_quiet hp (by rw [size_ofText]; exact Nat.le_of_lt hlt) (hi ▸ h.quiet)]
  exact classKeyword?_here hlive hkey

/-- Behind a class the two parsers go on alike. -/
theorem classStarts_class (hregular : Regular t i)
    (hclass : (ofText .declarations t).startsClass i = true)
    (hstep : (ofText .declarations t).topLevelAt i = .found piece next)
    (hfault : ((ofText .declarations t).classAt file i).fault = none) :
    (ofText .declarations t).classStarts file ((ofText .declarations t).classAt file i).next =
      (ofText .declarations t).classStarts file next := by
  obtain ⟨opening, close, d, hfind, hclose, _⟩ := definition_of_fault_eq_none hfault
  rw [topLevelAt_of_startsClass hclass, passClass_block hfind hclose] at hstep
  cases hstep
  rw [classAt_block hfind hclose, next_classWithin]
  have hbehind : Between t (close + 1) :=
    between_close hregular (not_isDirective_of_startsClass hclass)
      (findAny?_subset hfind (by simp) (by simp)) hclose
  apply classStarts_congr
  exact classKeyword?_quiet le_skipSemicolon hbehind.skipSemicolon.le_size
    hbehind.quiet_skipSemicolon

/-- At a statement that is not set off the two parsers part. -/
theorem passedClasses_ne (file : Text) (h : Between t p)
    (hi : (ofText .declarations t).skipTrivia p = i)
    (hlt : i < (ofText .declarations t).size)
    (hstep : (ofText .declarations t).topLevelAt i = .found piece next)
    (hshape : (ofText .declarations t).Shape i next)
    (hset : ¬ (ofText .declarations t).SetOff i) :
    (ofText .declarations t).passedClasses p ≠ (ofText .declarations t).classStarts file p := by
  intro heq
  subst hi
  by_cases hclass : (ofText .declarations t).startsClass ((ofText .declarations t).skipTrivia p) =
      true
  · -- a class without a keyword is passed over, and not read
    rw [passedClasses_class hlt hstep hclass] at heq
    have hkey := isClassKeyword_of_mem_classStarts (heq ▸ List.mem_cons_self)
    exact hset ⟨fun _ => hkey, fun h => by rw [hclass] at h; cases h⟩
  · -- at a keyword in a header, or before it, a class is read, and none is passed over
    have hheader : ¬ (ofText .declarations t).PlainHeader
        ((ofText .declarations t).skipTrivia p) :=
      fun hheader => hset ⟨fun h => absurd h hclass, fun _ => hheader⟩
    obtain ⟨k, hk, hknext⟩ := classKeyword?_header h rfl hshape hheader
    rw [passedClasses_other hlt hstep hclass, classStarts_cons hk] at heq
    have := le_of_mem_passedClasses (heq ▸ List.mem_cons_self)
    omega

/-- A class that is never closed is a fault where it is read, so it has no keyword to be read at. -/
theorem not_isClassKeyword_of_ended (h : Between t p)
    (hi : (ofText .declarations t).skipTrivia p = i)
    (hclasses : ∀ i ∈ (ofText .declarations t).classStarts file p,
      ((ofText .declarations t).classAt file i).fault = none)
    (hstep : (ofText .declarations t).topLevelAt i = .ended) :
    (ofText .declarations t).startsClass i = true ∧
      ¬ (ofText .declarations t).isClassKeyword i = true := by
  obtain ⟨hclass, opening, hfind, hclose⟩ := startsClass_of_ended hstep
  refine ⟨hclass, fun hkey => ?_⟩
  rw [classStarts_keyword file h hi hclass hkey] at hclasses
  obtain ⟨opening', close, _, hfind', hclose', _⟩ :=
    definition_of_fault_eq_none (hclasses _ List.mem_cons_self)
  rw [hfind] at hfind'
  cases hfind'
  rw [hclose] at hclose'
  cases hclose'

theorem classKeyword?_size (s : MaskedText) : s.classKeyword? s.size = none := by
  unfold classKeyword?
  rw [Nat.sub_self]
  rfl

/-- From an offset between two statements on, the tree parser passes over the classes that the
class parser reads if and only if every statement is set off. -/
theorem passedClasses_iff_of_between (hp : Between t p)
    (hclasses : ∀ i ∈ (ofText .declarations t).classStarts file p,
      ((ofText .declarations t).classAt file i).fault = none)
    (htree : ∀ i ∈ (ofText .declarations t).topLevelStarts p, ∀ fault resumeAt,
      (ofText .declarations t).topLevelAt i ≠ .failed fault resumeAt)
    (hregular : ∀ i ∈ (ofText .declarations t).topLevelStarts p, Regular t i) :
    (ofText .declarations t).passedClasses p = (ofText .declarations t).classStarts file p ↔
      ∀ i ∈ (ofText .declarations t).topLevelStarts p, (ofText .declarations t).SetOff i := by
  induction p using topLevelStarts.induct (ofText .declarations t) with
  | case1 p start hlt piece next hstep ih =>
    have hstarts := hp.startsStatement (by rwa [size_ofText] at hlt)
    have hshape : (ofText .declarations t).Shape start next := by
      refine shape_of_topLevelAt (fun hsemicolon => ?_) hstep
      rw [byte?_ofText] at hsemicolon
      exact (hstarts.plain hsemicolon (by decide)).1
    rw [topLevelStarts_found hlt hstep] at htree hregular
    obtain ⟨hstart, hrest⟩ := List.forall_mem_cons.1 hregular
    by_cases hset : (ofText .declarations t).SetOff start
    · specialize ih (between_next hshape hstart)
      rw [topLevelStarts_found hlt hstep, List.forall_mem_cons]
      by_cases hclass : (ofText .declarations t).startsClass start = true
      · have hread := classStarts_keyword file hp rfl hclass (hset.keyword hclass)
        rw [hread] at hclasses
        rw [classStarts_class hstart hclass hstep (hclasses _ List.mem_cons_self)]
          at hread hclasses
        specialize ih (List.forall_mem_cons.1 hclasses).2 (List.forall_mem_cons.1 htree).2 hrest
        rw [passedClasses_class hlt hstep hclass, hread, List.cons.injEq, ih]
        exact ⟨fun h => ⟨hset, h.2⟩, fun h => ⟨rfl, h.2⟩⟩
      · have hsame := classStarts_congr file (classKeyword?_next hp rfl hshape hstart
          (hset.header (by simpa using hclass)))
        rw [hsame] at hclasses
        specialize ih hclasses (List.forall_mem_cons.1 htree).2 hrest
        rw [passedClasses_other hlt hstep hclass, hsame, ih]
        exact ⟨fun h => ⟨hset, h⟩, And.right⟩
    · have hne := passedClasses_ne file hp rfl hlt hstep hshape hset
      rw [topLevelStarts_found hlt hstep]
      exact ⟨fun h => absurd h hne, fun h => absurd (h start List.mem_cons_self) hset⟩
  | case2 p start hlt hstep =>
    obtain ⟨hclass, hkey⟩ := not_isClassKeyword_of_ended hp rfl hclasses hstep
    unfold passedClasses
    rw [topLevelStarts_ended hlt hstep, List.filter_cons_of_pos hclass]
    constructor
    · intro heq
      exact absurd (isClassKeyword_of_mem_classStarts (heq ▸ List.mem_cons_self)) hkey
    · intro hset
      exact absurd ((hset start List.mem_cons_self).keyword hclass) hkey
  | case3 p start hlt fault resumeAt hstep =>
    refine absurd hstep (htree start ?_ fault resumeAt)
    rw [topLevelStarts_failed hlt hstep]
    exact List.mem_cons_self
  | case4 p start hlt =>
    have hend : start = (ofText .declarations t).size := by
      have := (ofText .declarations t).skipTrivia_le_size p
      omega
    have hnone : (ofText .declarations t).classKeyword? p = none := by
      rw [classKeyword?_quiet hp.le_size (Nat.le_refl _) (hend ▸ hp.quiet)]
      exact classKeyword?_size _
    unfold passedClasses
    rw [topLevelStarts_end hlt, classStarts_end hnone]
    exact ⟨fun _ i hi => (List.not_mem_nil hi).elim, fun _ => rfl⟩

/-- In a text without faults the tree is put together from the top-level statements and the table
from the classes at the keywords. The tree parser passes over the classes that the class parser
reads if and only if every statement is set off. Every class that is read has its name in the
table, and where the tree parser passes over one, it passes over its span and a semicolon that may
follow. -/
theorem passedClasses_eq_iff
    (hclasses : ((ofText .declarations t).classesRecovering file).2 = [])
    (htree : (ofText .declarations t).hierarchyRecovering.2 = [])
    (hregular : ∀ i ∈ (ofText .declarations t).topLevelStarts 0, Regular t i) :
    (ofText .declarations t).hierarchyRecovering.1 =
      ((ofText .declarations t).topLevelStarts 0).foldl
        (fun m i => m.append ((ofText .declarations t).topLevelAt i).piece) ∅ ∧
    ((ofText .declarations t).classesRecovering file).1 =
      OrderedMap.insertAll ∅ (((ofText .declarations t).classStarts file 0).foldl
        (fun m i => addRead m ((ofText .declarations t).classAt file i)) ∅) ∧
    ((ofText .declarations t).passedClasses 0 = (ofText .declarations t).classStarts file 0 ↔
      ∀ i ∈ (ofText .declarations t).topLevelStarts 0, (ofText .declarations t).SetOff i) ∧
    ∀ i ∈ (ofText .declarations t).classStarts file 0, ∃ d,
      ((ofText .declarations t).classAt file i).definition = some d ∧ d.span.start = i ∧
      d.name ∈ ((ofText .declarations t).classesRecovering file).1.keys ∧
      ((ofText .declarations t).startsClass i = true →
        (ofText .declarations t).topLevelAt i =
          .found ∅ ((ofText .declarations t).skipSemicolon d.span.stop)) := by
  obtain ⟨hread, htable⟩ := classesRecovering_eq hclasses
  obtain ⟨hfound, hpieces⟩ := hierarchyRecovering_eq htree
  refine ⟨hpieces, htable, passedClasses_iff_of_between (between_zero t) hread hfound hregular,
    fun i hi => ?_⟩
  obtain ⟨opening, close, d, hfind, hclose, hd, hspan⟩ := definition_of_fault_eq_none (hread i hi)
  refine ⟨d, hd, by rw [hspan], ?_, fun hclass => ?_⟩
  · rw [htable]
    exact OrderedMap.mem_keys_insertAll.2 (.inr (mem_keys_foldl_addRead hi hd))
  · rw [topLevelAt_of_startsClass hclass, passClass_block hfind hclose, hspan]

/-- A class whose name is set off by a blank that is not ASCII. -/
def sampleBlank : Text := "class\u00a0A \x7b \x7d;\n"

theorem topLevelAt_sampleBlank :
    (ofText .declarations sampleBlank).topLevelAt 0 = .found ∅ 13 := by
  have hfind : (ofText .declarations sampleBlank).findAny?
      [Byte.lbrace, Byte.semicolon, Byte.rbrace] 0 = some (9, Byte.lbrace) := by decide
  have hclose : (ofText .declarations sampleBlank).closingBrace? 9 = some 11 := by decide
  rw [topLevelAt_of_startsClass (by decide), passClass_block hfind hclose]
  rfl

theorem topLevelStarts_sampleBlank : (ofText .declarations sampleBlank).topLevelStarts 0 = [0] := by
  have hskip : (ofText .declarations sampleBlank).skipTrivia 0 = 0 := by decide
  rw [topLevelStarts_found (by decide) (hskip.symm ▸ topLevelAt_sampleBlank), hskip,
    topLevelStarts_end (by decide)]

/-- Behind the keyword stands a blank that only the tree parser knows: it passes over the class,
and the class parser does not read it. -/
theorem passedClasses_eq_iff_sampleBlank :
    ((ofText .declarations sampleBlank).classesRecovering "main.nazca").2 = [] ∧
    (ofText .declarations sampleBlank).hierarchyRecovering.2 = [] ∧
    (∀ i ∈ (ofText .declarations sampleBlank).topLevelStarts 0, Regular sampleBlank i) ∧
    (ofText .declarations sampleBlank).passedClasses 0 ≠
      (ofText .declarations sampleBlank).classStarts "main.nazca" 0 := by
  have hclasses : ((ofText .declarations sampleBlank).classesRecovering "main.nazca").2 = [] := by
    unfold classesRecovering
    rw [recoverClasses, classes, classesFrom_end (by decide)]
  have htree : (ofText .declarations sampleBlank).hierarchyRecovering.2 = [] := by
    unfold hierarchyRecovering
    rw [recoverHierarchy, hierarchy, hierarchyFrom_found (by decide) (by decide)
      topLevelAt_sampleBlank, hierarchyFrom_end (by decide)]
  have hregular :
      ∀ i ∈ (ofText .declarations sampleBlank).topLevelStarts 0, Regular sampleBlank i := by
    rw [topLevelStarts_sampleBlank]
    intro i hi
    obtain rfl := List.mem_singleton.1 hi
    have hregion : (stateAt sampleBlank
        ((ofText .declarations sampleBlank).statementStop 0)).region = .live := by decide
    exact ⟨fun h => absurd h (by decide), fun n => by rw [hregion]; exact Mask.Region.noConfusion⟩
  refine ⟨hclasses, htree, hregular, fun heq => ?_⟩
  have hset := (passedClasses_eq_iff hclasses htree hregular).2.2.1.1 heq 0
    (by rw [topLevelStarts_sampleBlank]; exact List.mem_cons_self)
  have hkey := hset.keyword (by decide)
  revert hkey
  decide

end

end PageLang.MaskedText
