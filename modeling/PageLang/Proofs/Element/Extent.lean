import PageLang.Proofs.Declaration.Extent
import PageLang.Proofs.Element.Agree

/-!
# Where the reading of a body ends

A body is read statement by statement, and the reading ends at the closing brace of the block, at a
fault, or at another closing brace. In a block in which the parameter lists match, each statement
leads from a place between two statements to another one, so no other closing brace is met.

* `MaskedText.Runs`, `MaskedText.runs_body`: the statements of a body.
* `MaskedText.Runs.exists_of_mem`: where the declarations of a body are read.
* `MaskedText.Runs.byte_stop`: what the reading of a body ends at.
* `MaskedText.Runs.in_block`: a body in a block in which the lists match.
-/

namespace PageLang

open Mask

/-! ## Headers -/

theorem Text.mem_of_splitOn (separator : UInt8) {t : Text} {b : UInt8} (hb : b ∈ t) :
    b = separator ∨ ∃ piece ∈ t.splitOn separator, b ∈ piece := by
  induction t with
  | nil => cases hb
  | cons c rest ih =>
    rw [splitOn]
    by_cases hc : c = separator
    · rw [if_pos (beq_iff_eq.2 hc)]
      rcases List.mem_cons.1 hb with rfl | hb
      · exact .inl hc
      · rcases ih hb with hb | ⟨piece, hpiece, hb⟩
        · exact .inl hb
        · exact .inr ⟨piece, .tail _ hpiece, hb⟩
    · rw [if_neg (mt beq_iff_eq.1 hc)]
      cases hsplit : splitOn separator rest with
      | nil => exact absurd hsplit (splitOn_ne_nil _ _)
      | cons first pieces =>
        rw [hsplit] at ih
        rcases List.mem_cons.1 hb with rfl | hb
        · exact .inr ⟨b :: first, .head _, .head _⟩
        · rcases ih hb with hb | ⟨piece, hpiece, hb⟩
          · exact .inl hb
          · rcases List.mem_cons.1 hpiece with rfl | hpiece
            · exact .inr ⟨c :: piece, .head _, .tail _ hb⟩
            · exact .inr ⟨piece, .tail _ hpiece, hb⟩

theorem Byte.isNamePart_of_isMemberName {name : Text} (h : name.isMemberName = true) :
    ∀ b ∈ name, isNamePart b = true := by
  obtain ⟨b, rest, rfl, -, hall⟩ := Written.isMemberName_iff.1 h
  exact hall

/-- The header of an element holds bytes of names, points and blanks. -/
theorem isNaming_of_isElementHeader {header : Text} (h : isElementHeader header.trim = true) :
    ∀ b ∈ header, Byte.isNaming b = true := by
  have hblanks : ∀ m ∈ Text.blanks, ∀ b ∈ m, Byte.isNaming b = true := by decide
  refine Text.forall_of_trim hblanks (Text.forall_of_trim hblanks fun b hb => ?_)
  unfold isElementHeader at h
  split at h
  · cases h
  · next name refs hsplit _ =>
    rw [Bool.and_eq_true, List.all_eq_true, List.all_eq_true] at h
    rcases Text.mem_of_splitOn Byte.dot hb with rfl | ⟨piece, hpiece, hb⟩
    · rfl
    · rw [hsplit] at hpiece
      refine Byte.isNaming_of_isNamePart b ?_
      rcases List.mem_cons.1 hpiece with rfl | hpiece
      · exact h.1 b hb
      · exact Byte.isNamePart_of_isMemberName (h.2 piece hpiece) b hb
  · cases h

namespace MaskedText

section
variable {s : MaskedText} {i : Nat} {b : UInt8}

/-- No gap begins at a byte that is neither blank nor a slash. -/
theorem skipTrivia_of_byte? (hb : s.byte? i = some b) (hspace : Byte.isSpace b = false)
    (hslash : b ≠ Byte.slash) : s.skipTrivia i = i := by
  have hlt := byte?_eq_some_lt hb
  have hat {pattern : Text} (hp : pattern[0]? = some Byte.slash) : s.startsAt pattern i = false := by
    refine Bool.eq_false_iff.2 fun h => hslash ?_
    have hfirst := byte?_add_of_startsAt h (List.getElem?_eq_some_iff.1 hp).1
    rw [Nat.add_zero, hb, hp] at hfirst
    exact Option.some.inj hfirst
  have hnone : s.gapNext? .blank i = none := by
    rw [gapNext?, hb, Option.any_some, hspace, hat (by decide), hat (by decide)]
    rfl
  unfold skipTrivia
  rw [Nat.min_eq_left (Nat.le_of_lt hlt), show s.size - i = s.size - i - 1 + 1 by omega,
    gapEnd_succ, hnone]

theorem byte?_of_ended (hi : i < s.size) (h : s.statementKind i = .ended) :
    s.byte? i = some Byte.rbrace := by
  unfold statementKind at h
  split at h
  · next hb =>
    have hsize : s.size ≤ i := Array.getElem?_eq_none_iff.1 hb
    omega
  · next hb => exact hb
  · cases h
  dsimp only at h
  split at h
  · split at h
    · cases h
    · split at h <;> cases h
  · cases h

end

theorem isElementHeader_of_elementHead {s : MaskedText} {i stop : Nat} {b : UInt8}
    {head : ElementHead} (h : s.elementHead i = .ok head)
    (hfind : s.findAny? [Byte.semicolon, Byte.lbrace] i = some (stop, b)) :
    isElementHeader (s.slice i stop).trim = true := by
  unfold elementHead at h
  rw [hfind] at h
  dsimp only at h
  split at h
  · next hheader => exact hheader
  · cases h

section
variable {t : Text} {i p opening close : Nat}

/-- The header of an element in a block ends in the block, and in live text it is live. -/
theorem header_in_block {stop : Nat} {b : UInt8} {head : ElementHead}
    (hhead : (ofText .declarations t).elementHead i = .ok head)
    (hfind : (ofText .declarations t).findAny? [Byte.semicolon, Byte.lbrace] i = some (stop, b))
    (hi : i < close) (hbyte : t[close]? = some Byte.rbrace)
    (hlive : (stateAt t i).region = .live) : stop ≤ close ∧ stateAt t stop = stateAt t i := by
  obtain ⟨hle, hlt, -⟩ := findAny?_eq_some hfind
  rw [size_ofText] at hlt
  have hnaming {k : Nat} (hik : i ≤ k) (hks : k < stop) : Byte.isNaming t[k] = true := by
    refine isNaming_of_isElementHeader (isElementHeader_of_elementHead hhead hfind) _ ?_
    rw [List.mem_iff_getElem?]
    refine ⟨k - i, ?_⟩
    rw [getElem?_slice (by omega), byte?_ofText, show i + (k - i) = k by omega]
    exact List.getElem?_eq_getElem (by omega)
  constructor
  · refine Nat.le_of_not_lt fun hcs => ?_
    have hclose := hnaming (Nat.le_of_lt hi) hcs
    rw [(List.getElem?_eq_some_iff.1 hbyte).2] at hclose
    cases hclose
  · refine stateAt_of_plain hle (.inl hlive) fun k hik hks => ?_
    obtain ⟨hplain, hlparen, hrparen, -⟩ := isNaming_iff.1 (hnaming hik hks)
    exact ⟨t[k], List.getElem?_eq_getElem (by omega), hplain, hlparen, hrparen⟩

/-! ## Statements of a block -/

section
variable (hblock : BlockAt t opening close)
include hblock

/-- A semicolon between two statements leads to another place between statements. -/
theorem BlockAt.rests_semicolon (hstate : stateAt t p = stateAt t (opening + 1))
    (hb : t[p]? = some Byte.semicolon) : stateAt t (p + 1) = stateAt t (opening + 1) := by
  have hlive : (stateAt t p).region = .live := by rw [hstate, hblock.region_first]
  rw [stateAt_succ hb, State.read_plain hlive (by decide), into_region hlive, hstate]

/-- Where a statement may start in front of the end of the block, no closing brace ends the body. It
would close the block. -/
theorem BlockAt.not_ended (hstate : stateAt t p = stateAt t (opening + 1)) (hp : opening < p)
    (hlt : p < close) : (ofText .declarations t).statementKind p ≠ .ended := by
  intro hkind
  have hsize := (closingBrace?_eq_some hblock.closes).2
  have hbyte := byte?_of_ended (Nat.lt_trans hlt hsize) hkind
  rw [byte?_ofText] at hbyte
  have hregion : ∀ n, (stateAt t p).region ≠ .parameters n := by
    intro n hn
    rw [hstate, hblock.region_first] at hn
    cases hn
  have heq := hblock.eq_close hp (Nat.le_of_lt hlt) (hblock.liveByte?_rbrace hstate hbyte) hregion
    (hblock.rests hstate).context
  exact absurd heq (Nat.ne_of_lt hlt)

/-- Where a gap between two statements ends in the block, a statement starts. -/
theorem Rests.skipTrivia (h : Rests t opening p) (hp : opening < p) (hle : p ≤ close) :
    (ofText .declarations t).skipTrivia p ≤ close ∧
      ((ofText .declarations t).skipTrivia p < close →
        stateAt t ((ofText .declarations t).skipTrivia p) = stateAt t (opening + 1)) := by
  have hend := liveByte?_of_closingBrace? hblock.closes
  have hsize := (closingBrace?_eq_some hblock.closes).2
  rw [size_ofText] at hsize
  rcases h.ready with hlive | ⟨hbrace, hregion⟩
  · refine ⟨skipTrivia_le hle (.inl hlive) hend, fun hlt => ?_⟩
    rw [stateAt_skipTrivia hlive (by omega), ← h.context]
    exact (into_region hlive).symm
  · obtain rfl := hblock.eq_close hp hle hbrace hregion h.context
    rw [skipTrivia_of_byte? (liveByte?_eq_some hend).2 (by decide) (by decide)]
    exact ⟨Nat.le_refl p, fun hlt => absurd hlt (Nat.lt_irrefl p)⟩

theorem BlockAt.skipSemicolon (hstate : stateAt t p = stateAt t (opening + 1))
    (hp : opening < p) (hle : p ≤ close) :
    (ofText .declarations t).skipSemicolon p ≤ close ∧
      stateAt t ((ofText .declarations t).skipSemicolon p) = stateAt t (opening + 1) := by
  obtain ⟨hskip, hthere⟩ := (hblock.rests hstate).skipTrivia hblock hp hle
  have hend := (liveByte?_eq_some (liveByte?_of_closingBrace? hblock.closes)).2
  unfold MaskedText.skipSemicolon
  dsimp only
  split
  · next hb =>
    have hlt := Nat.lt_of_le_of_ne hskip (ne_of_byte? hb hend (by decide))
    rw [byte?_ofText] at hb
    exact ⟨hlt, hblock.rests_semicolon (hthere hlt) hb⟩
  · exact ⟨hle, hstate⟩

/-- An element in a block in which the lists match ends in the block, between two statements. -/
theorem BlockAt.rests_of_element {next : Nat} {e : Element} (ho : opening < i) (hi : i < close)
    (hstate : stateAt t i = stateAt t (opening + 1))
    (h : (ofText .declarations t).element i = .ok (e, next)) :
    next ≤ close ∧ stateAt t next = stateAt t (opening + 1) := by
  obtain ⟨head, hhead, rfl, -⟩ := elementHead_of_element h
  have hlive : (stateAt t i).region = .live := by rw [hstate, hblock.region_first]
  have hend := (liveByte?_eq_some (liveByte?_of_closingBrace? hblock.closes)).2
  have hbyte := hend
  rw [byte?_ofText] at hbyte
  rcases elementHead_cases hhead with
    ⟨stop, hfind, -, hnext⟩ | ⟨brace, last, hfind, hlast, -, hnext⟩
  · obtain ⟨hle, hsame⟩ := header_in_block hhead hfind hi hbyte hlive
    have hb := (liveByte?_eq_some (findAny?_eq_some hfind).2.2.1).2
    have hlt := Nat.lt_of_le_of_ne hle (ne_of_byte? hb hend (by decide))
    rw [byte?_ofText] at hb
    rw [hnext]
    exact ⟨hlt, hblock.rests_semicolon (hsame.trans hstate) hb⟩
  · obtain ⟨hle, hsame⟩ := header_in_block hhead hfind hi hbyte hlive
    obtain ⟨hstart, -, hlbrace, -⟩ := findAny?_eq_some hfind
    have hlt := Nat.lt_of_le_of_ne hle
      (ne_of_byte? (liveByte?_eq_some hlbrace).2 hend (by decide))
    obtain ⟨hlast', hinner⟩ := hblock.inner hlbrace hlast (by omega) hlt fun n hn => by
      rw [hsame, hlive] at hn
      cases hn
    have hin := (closingBrace?_eq_some hlast).1
    have hbehind : stateAt t (last + 1) = stateAt t (opening + 1) := by
      rw [hinner.stateAt_close, hsame, into_region hlive, hstate]
    rw [hnext]
    exact hblock.skipSemicolon hbehind (by omega) hlast'

end

end

/-! ## Bodies -/

/-- A block that the mask reads as declarations, and in which the parameter lists match. -/
structure StatementBlock (t : Text) (opening close : Nat) : Prop extends
    BlockAt t opening close where
  mode : (stateAt t (opening + 1)).mode = .declarations

/-- How a body is read from `pos` on: the statements in front of `close`, each behind a gap. -/
inductive Runs (s : MaskedText) (close : Nat) : Nat → Body → Prop
  | closed {pos : Nat} : close ≤ s.skipTrivia pos → Runs s close pos (.ended (s.skipTrivia pos))
  | ended {pos : Nat} : s.skipTrivia pos < close → s.statementKind (s.skipTrivia pos) = .ended →
    Runs s close pos (.ended (s.skipTrivia pos))
  | failed (pos : Nat) (fault : Fault) : Runs s close pos (.failed fault (s.skipTrivia pos))
  | empty {pos : Nat} {b : Body} : s.skipTrivia pos < close →
    s.statementKind (s.skipTrivia pos) = .empty → Runs s close (s.skipTrivia pos + 1) b →
    Runs s close pos b
  | declaration {pos next : Nat} {d : Declaration} {b : Body} : s.skipTrivia pos < close →
    s.statementKind (s.skipTrivia pos) = .declaration →
    s.declaration? (s.skipTrivia pos) = .ok (some (d, next)) → Runs s close next b →
    Runs s close pos (b.consDeclaration d)
  | child {pos next : Nat} {e : Element} {b : Body} : s.skipTrivia pos < close →
    s.statementKind (s.skipTrivia pos) = .element → s.element (s.skipTrivia pos) = .ok (e, next) →
    Runs s close next b → Runs s close pos (b.consChild e)

/-- A body is read so. A statement that announces a declaration is one, or a fault. -/
theorem runs_body (s : MaskedText) (unknown : Problem) (close pos : Nat) :
    Runs s close pos (s.body unknown close pos) := by
  induction unknown, close, pos using body.induct s with
  | case1 unknown close pos i hclose =>
    rw [body_eq]
    simp only [if_pos hclose, i]
    exact .closed hclose
  | case2 unknown close pos i hclose hkind =>
    rw [body_eq]
    simp only [if_neg hclose, hkind, i]
    exact .ended (Nat.lt_of_not_le hclose) hkind
  | case3 unknown close pos i hclose hkind ih =>
    rw [body_eq]
    simp only [if_neg hclose, hkind, i]
    exact .empty (Nat.lt_of_not_le hclose) hkind ih
  | case4 unknown close pos i hclose hkind fault hd =>
    rw [body_eq]
    simp only [if_neg hclose, hkind, hd, i]
    exact .failed pos fault
  | case5 unknown close pos i hclose hkind hd =>
    exact absurd hd (Window.declaration?_ne_none (s.skipTrivia_skipTrivia pos) hkind)
  | case6 unknown close pos i hclose hkind d next hd ih =>
    rw [body_eq]
    simp only [if_neg hclose, hkind, hd, i]
    exact .declaration (Nat.lt_of_not_le hclose) hkind hd ih
  | case7 unknown close pos i hclose hkind fault hhead =>
    rw [body_eq]
    simp only [if_neg hclose, hkind, hhead, i]
    exact .failed pos fault
  | case8 unknown close pos i hclose hkind head hhead inner fault he ihBlock =>
    rw [show inner = s.innerBody head from (innerBody_eq s head).symm] at he
    rw [body_eq]
    simp only [if_neg hclose, hkind, hhead, he, i]
    exact .failed pos fault
  | case9 unknown close pos i hclose hkind head hhead inner e he ihBlock ih =>
    rw [show inner = s.innerBody head from (innerBody_eq s head).symm] at he
    rw [body_eq]
    simp only [if_neg hclose, hkind, hhead, he, i]
    refine .child (Nat.lt_of_not_le hclose) hkind ?_ ih
    rw [element_eq_innerBody, hhead]
    dsimp only
    rw [he]
    rfl
  | case10 unknown close pos i hclose hkind =>
    rw [body_eq]
    simp only [if_neg hclose, hkind, i]
    exact .failed pos _

namespace Runs

variable {s : MaskedText} {close pos : Nat} {b : Body}

/-- A declaration of a body is read at the start of a statement in front of the end of the body. -/
theorem exists_of_mem (h : Runs s close pos b) {d : Declaration} (hd : d ∈ b.declarations) :
    ∃ i next, pos ≤ i ∧ i < close ∧ s.skipTrivia i = i ∧
      s.declaration? i = .ok (some (d, next)) := by
  induction h with
  | closed | ended | failed => cases hd
  | empty hlt hkind _ ih =>
    obtain ⟨i, next, hi, hrest⟩ := ih hd
    have := le_skipTrivia_of_lt (lt_size_of_statementKind (by rw [hkind]; exact nofun))
    exact ⟨i, next, by omega, hrest⟩
  | @declaration pos next d' b hlt hkind hread _ ih =>
    have hpos := le_skipTrivia_of_lt (lt_size_of_statementKind (by rw [hkind]; exact nofun))
    rcases List.mem_cons.1 hd with rfl | hd
    · exact ⟨_, next, hpos, hlt, s.skipTrivia_skipTrivia pos, hread⟩
    · obtain ⟨i, next', hi, hrest⟩ := ih hd
      have := lt_of_declaration? hread
      exact ⟨i, next', by omega, hrest⟩
  | @child pos next e b hlt hkind hread _ ih =>
    obtain ⟨i, next', hi, hrest⟩ := ih hd
    have := le_skipTrivia_of_lt (lt_size_of_statementKind (by rw [hkind]; exact nofun))
    have := lt_of_element hread
    exact ⟨i, next', by omega, hrest⟩

/-- Where the reading of a body without faults ends in front of the end of the block, a closing
brace stands. -/
theorem byte_stop (h : Runs s close pos b) (hfault : b.fault = none) (hsize : close < s.size)
    (hstop : b.stop < close) : s.byte? b.stop = some Byte.rbrace := by
  induction h with
  | closed hle => exact absurd hstop (Nat.not_lt.2 hle)
  | ended hlt hkind =>
    exact byte?_of_ended (Nat.lt_trans hlt hsize) hkind
  | failed => cases hfault
  | empty _ _ _ ih | declaration _ _ _ _ ih | child _ _ _ _ ih => exact ih hfault hstop

/-- In a block in which the parameter lists match, every declaration ends in the block, and a body
without faults is read up to the brace that closes the block. -/
theorem in_block {t : Text} {opening : Nat} (hblock : StatementBlock t opening close)
    (h : Runs (ofText .declarations t) close pos b) (hpos : opening < pos) (hle : pos ≤ close)
    (hrests : Rests t opening pos) :
    (∀ d ∈ b.declarations, d.span.stop ≤ close) ∧ (b.fault = none → b.stop = close) := by
  have hat := hblock.toBlockAt
  have hgap {pos : Nat} (hlt : (ofText .declarations t).skipTrivia pos < close) :=
    le_skipTrivia_of_lt (Nat.lt_trans hlt (closingBrace?_eq_some hat.closes).2)
  induction h with
  | closed hclose =>
    exact ⟨nofun, fun _ => Nat.le_antisymm (hrests.skipTrivia hat hpos hle).1 hclose⟩
  | @ended pos hlt hkind =>
    have hpos' := Nat.lt_of_lt_of_le hpos (hgap hlt)
    have hstate := (hrests.skipTrivia hat hpos hle).2 hlt
    exact absurd hkind (hat.not_ended hstate hpos' hlt)
  | failed => exact ⟨nofun, nofun⟩
  | @empty pos b hlt hkind _ ih =>
    have hstate := (hrests.skipTrivia hat hpos hle).2 hlt
    have hpos' := Nat.lt_of_lt_of_le hpos (hgap hlt)
    have hbyte := statementKind_eq_empty.1 hkind
    rw [byte?_ofText] at hbyte
    exact ih (Nat.lt_succ_of_lt hpos') hlt (hat.rests (hat.rests_semicolon hstate hbyte))
  | @declaration pos next d b hlt hkind hread _ ih =>
    have hstate := (hrests.skipTrivia hat hpos hle).2 hlt
    have hpos' := Nat.lt_of_lt_of_le hpos (hgap hlt)
    have hskip := skipTrivia_skipTrivia (ofText .declarations t) pos
    obtain ⟨hnext, hrests'⟩ :=
      Rests.of_declaration? hat hpos' hblock.mode hlt hstate hskip hread
    have hlater := Nat.lt_trans hpos' (lt_of_declaration? hread)
    refine (ih hlater hnext hrests').imp_left fun hrest => ?_
    refine List.forall_mem_cons.2 ⟨?_, hrest⟩
    rw [(parts_of_declaration? hread).1]
    exact hnext
  | @child pos next e b hlt hkind hread _ ih =>
    have hstate := (hrests.skipTrivia hat hpos hle).2 hlt
    have hpos' := Nat.lt_of_lt_of_le hpos (hgap hlt)
    obtain ⟨hnext, hstate'⟩ := hat.rests_of_element hpos' hlt hstate hread
    exact ih (Nat.lt_trans hpos' (lt_of_element hread)) hnext (hat.rests hstate')

end Runs

end MaskedText

end PageLang
