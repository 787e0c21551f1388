import PageLang.Proofs.Include.Lines
import PageLang.Proofs.Mask.Exchange
import PageLang.Proofs.MaskedText.Exchange

/-!
# Directives around a function body

Includes and data imports are searched for in all live text, that of function bodies too. A body in
which neither keyword is live when it is masked alone, as code, may be exchanged for another such
body: the same directives are found, with the same faults, and those behind the body are moved with
the text. A keyword that is live in a body is always taken for a directive.

* `MaskedText.directiveAt_agree`, `MaskedText.directiveAt_shift`: one directive.
* `MaskedText.BodyIn.exchanged`: two texts that differ in a body.
* `MaskedText.bodies_opaque`: the directives and the data imports of both.
-/

namespace PageLang

/-! ## Moved spans -/

/-- A span whose ends are moved. -/
def Span.moved (f : Nat → Nat) (s : Span) : Span := ⟨f s.start, f s.stop⟩
/-- A fault whose span is moved. -/
def Fault.moved (f : Nat → Nat) (fault : Fault) : Fault :=
  { fault with span := fault.span.moved f }
/-- A directive whose span is moved. -/
def Directive.moved (f : Nat → Nat) (d : Directive) : Directive := { d with span := d.span.moved f }
/-- A data import whose span is moved. -/
def DataImport.moved (f : Nat → Nat) (i : DataImport) : DataImport :=
  { i with span := i.span.moved f }

/-- What was read, or its fault, with its span moved. -/
def Fault.movedOr {α : Type} (f : Nat → Nat) (move : α → α) : Except Fault α → Except Fault α
  | .ok a => .ok (move a)
  | .error fault => .error (fault.moved f)

namespace MaskedText

open Cell Mask

section
variable {α : Type} (f : Nat → Nat) (move : α → α) (found : List (Except Fault α))

theorem filterMap_toOption_movedOr :
    (found.map (Fault.movedOr f move)).filterMap (fun r => r.toOption) =
      (found.filterMap (fun r => r.toOption)).map move := by
  rw [List.filterMap_map, List.map_filterMap]
  congr 1
  funext r
  cases r <;> rfl

theorem filterMap_error_movedOr {fault? : Except Fault α → Option Fault}
    (hok : ∀ a, fault? (.ok a) = none) (herror : ∀ fault, fault? (.error fault) = some fault) :
    (found.map (Fault.movedOr f move)).filterMap fault? =
      (found.filterMap fault?).map (Fault.moved f) := by
  rw [List.filterMap_map, List.map_filterMap]
  congr 1
  funext r
  cases r with
  | ok a => simp [Fault.movedOr, hok]
  | error fault => simp [Fault.movedOr, herror]

end

/-! ## One directive -/

/-- The span of a directive or of its fault. -/
def readSpan : Except Fault Directive → Span
  | .ok d => d.span
  | .error fault => fault.span

/-- A directive of the form up to its semicolon at `stop`, apart from its path. -/
structure DirectiveTo (s : MaskedText) (start stop : Nat) : Prop where
  colon : s.byte? (s.skipTrivia (start + 8)) = some Byte.colon
  semicolon : s.findAny? [Byte.semicolon] (s.skipTrivia (start + 8)) = some (stop, Byte.semicolon)

section
variable {s s' : MaskedText} {directory : Path} {start stop : Nat}

theorem DirectiveTo.lt (h : s.DirectiveTo start stop) : s.skipTrivia (start + 8) < stop := by
  obtain ⟨hle, -, hlive, -⟩ := findAny?_eq_some h.semicolon
  refine Nat.lt_of_le_of_ne hle fun heq => ?_
  have := h.colon
  rw [heq, (liveByte?_eq_some hlive).2] at this
  cases this

theorem directiveAt_of_to (h : s.DirectiveTo start stop) : s.directiveAt directory start =
    let path := (s.slice (s.skipTrivia (start + 8) + 1) stop).trim.stripBytes
      (fun b => b == Byte.singleQuote || b == Byte.doubleQuote)
    if path.isEmpty then ⟨.error ⟨.invalidInclude, ⟨start, stop + 1⟩⟩, stop + 1⟩
    else ⟨.ok ⟨⟨start, stop + 1⟩, (directory.join (.ofText path)).key⟩, stop + 1⟩ := by
  unfold directiveAt
  dsimp only
  rw [h.colon, h.semicolon]
  rfl

theorem directiveAt_of_not (h : ∀ stop, ¬ s.DirectiveTo start stop) :
    s.directiveAt directory start =
      ⟨.error ⟨.invalidInclude, ⟨start,
        ((s.findAny? [Byte.semicolon, Byte.newline] start).map (·.1)).getD s.size⟩⟩, start + 1⟩ := by
  unfold directiveAt
  dsimp only
  split
  · next stop b hcolon hfind =>
    have hb : b = Byte.semicolon := by simpa using (findAny?_eq_some hfind).2.2.2
    exact absurd ⟨hcolon, hb ▸ hfind⟩ (h stop)
  · rfl

theorem readSpan_of_to (h : s.DirectiveTo start stop) :
    readSpan (s.directiveAt directory start).result = ⟨start, stop + 1⟩ ∧
      (s.directiveAt directory start).next = stop + 1 := by
  rw [directiveAt_of_to h]
  dsimp only
  split <;> exact ⟨rfl, rfl⟩

theorem start_readSpan : (readSpan (s.directiveAt directory start).result).start = start := by
  by_cases hto : ∃ stop, s.DirectiveTo start stop
  · obtain ⟨stop, hto⟩ := hto
    rw [(readSpan_of_to hto).1]
  · rw [directiveAt_of_not fun stop h => hto ⟨stop, h⟩]
    rfl

/-- Looking for directives goes on at the end of the last one, or right behind its start. -/
theorem next_directiveAt_le {n : Nat} (hstart : start < n)
    (hstop : (readSpan (s.directiveAt directory start).result).stop ≤ n) :
    (s.directiveAt directory start).next ≤ n := by
  by_cases hto : ∃ stop, s.DirectiveTo start stop
  · obtain ⟨stop, hto⟩ := hto
    rw [(readSpan_of_to hto).1] at hstop
    exact (readSpan_of_to hto).2.trans_le hstop
  · rw [directiveAt_of_not fun stop h => hto ⟨stop, h⟩]
    exact hstart

/-- A directive that ends in a range where two texts agree, if it does so in both of them. -/
theorem directiveAt_agree {n : Nat} (h : AgreeOn s s' 0 n)
    (hstop : (readSpan (s.directiveAt directory start).result).stop < n)
    (hstop' : (readSpan (s'.directiveAt directory start).result).stop < n) :
    s'.directiveAt directory start = s.directiveAt directory start := by
  have hto {s s' : MaskedText} {stop : Nat} (h : AgreeOn s s' 0 n) (hto : s.DirectiveTo start stop)
      (hstop : (readSpan (s.directiveAt directory start).result).stop < n) :
      s'.DirectiveTo start stop ∧
        s'.directiveAt directory start = s.directiveAt directory start := by
    rw [(readSpan_of_to hto).1] at hstop
    dsimp only at hstop
    have hlt := hto.lt
    have hskip := h.skipTrivia_eq (Nat.zero_le _) (by omega : s.skipTrivia (start + 8) + 1 < n)
    have hto' : s'.DirectiveTo start stop := by
      refine ⟨?_, ?_⟩
      · rw [hskip, h.byte? _ (Nat.zero_le _) (by omega)]
        exact hto.colon
      · rw [hskip]
        exact h.findAny?_eq (Nat.zero_le _) (by omega) hto.semicolon
    refine ⟨hto', ?_⟩
    rw [directiveAt_of_to hto, directiveAt_of_to hto', hskip,
      h.slice_eq (Nat.zero_le _) (by omega)]
  by_cases hform : ∃ stop, s.DirectiveTo start stop
  · obtain ⟨stop, hform⟩ := hform
    exact (hto h hform hstop).2
  have hform' : ∀ stop, ¬ s'.DirectiveTo start stop := fun stop hform' =>
    hform ⟨stop, (hto h.symm hform' hstop').1⟩
  rw [directiveAt_of_not fun stop h => hform ⟨stop, h⟩] at hstop ⊢
  rw [directiveAt_of_not hform']
  have hle := h.le
  cases hfind : s.findAny? [Byte.semicolon, Byte.newline] start with
  | none =>
    rw [hfind] at hstop
    simp only [readSpan, Option.map_none, Option.getD_none] at hstop
    omega
  | some r =>
    rw [hfind] at hstop
    rw [h.findAny?_eq (Nat.zero_le _) hstop hfind]
    rfl

/-- A directive in a text whose end two texts have in common. -/
theorem directiveAt_shift {m m' k : Nat} {f : Nat → Nat} (h : Shifted s s' m m') (hsize : m < s.size)
    (hk : 0 < k) (hf : ∀ k, 0 < k → f (m + k) = m' + k) :
    (s'.directiveAt directory (m' + k)).result =
        Fault.movedOr f (Directive.moved f) (s.directiveAt directory (m + k)).result ∧
      ∃ j, (s.directiveAt directory (m + k)).next = m + j ∧
        (s'.directiveAt directory (m' + k)).next = m' + j := by
  have hto {s s' : MaskedText} {m m' stop : Nat} (h : Shifted s s' m m')
      (hto : s.DirectiveTo (m + k) stop) : ∃ c j, c < j ∧ stop = m + j ∧
        s.skipTrivia (m + k + 8) = m + c ∧ s'.skipTrivia (m' + k + 8) = m' + c ∧
        s'.DirectiveTo (m' + k) (m' + j) := by
    have hle := le_skipTrivia_of_lt (byte?_eq_some_lt hto.colon)
    have hlt := hto.lt
    have hskip := h.skipTrivia_eq (k + 8)
    rw [← Nat.add_assoc, ← Nat.add_assoc] at hskip
    obtain ⟨c, hc⟩ := Nat.exists_eq_add_of_le (show m ≤ s.skipTrivia (m + k + 8) by omega)
    obtain ⟨j, rfl⟩ := Nat.exists_eq_add_of_le (show m ≤ stop by omega)
    have hc' : s'.skipTrivia (m' + k + 8) = m' + c := by omega
    have hcolon := hto.colon
    have hsemicolon := hto.semicolon
    rw [hc] at hcolon hsemicolon
    refine ⟨c, j, by omega, rfl, hc, hc', ?_, ?_⟩
    · rw [hc', h.byte?]
      exact hcolon
    · rw [hc']
      exact h.findAny?_of_some hsemicolon
  by_cases hform : ∃ stop, s.DirectiveTo (m + k) stop
  · obtain ⟨stop, hform⟩ := hform
    obtain ⟨c, j, hcj, rfl, hc, hc', hform'⟩ := hto h hform
    have hslice := h.slice_eq (c + 1) j
    rw [directiveAt_of_to hform, directiveAt_of_to hform', hc, hc',
      show m' + c + 1 = m' + (c + 1) from rfl, show m + c + 1 = m + (c + 1) from rfl, hslice]
    have hspan : (⟨m' + k, m' + j + 1⟩ : Span) = Span.moved f ⟨m + k, m + j + 1⟩ := by
      unfold Span.moved
      rw [hf k hk, Nat.add_assoc m, hf (j + 1) (Nat.succ_pos j), ← Nat.add_assoc]
    dsimp only
    split
    · exact ⟨by rw [hspan]; rfl, j + 1, rfl, rfl⟩
    · exact ⟨by rw [hspan]; rfl, j + 1, rfl, rfl⟩
  · have hform' : ∀ stop, ¬ s'.DirectiveTo (m' + k) stop := fun stop hform' => by
      obtain ⟨_, _, _, _, _, _, hform''⟩ := hto h.symm hform'
      exact hform ⟨_, hform''⟩
    rw [directiveAt_of_not fun stop h => hform ⟨stop, h⟩, directiveAt_of_not hform']
    refine ⟨?_, k + 1, rfl, rfl⟩
    have hspan : ∀ stop stop', stop' = f stop →
        (⟨m' + k, stop'⟩ : Span) = Span.moved f ⟨m + k, stop⟩ := fun stop stop' hstop => by
      rw [Span.moved, hf k hk, hstop]
    rcases h.findAny?_eq [Byte.semicolon, Byte.newline] k with ⟨j, b, hkj, hj, hj'⟩ | ⟨hj, hj'⟩
    · rw [hj, hj']
      exact congrArg (fun span => Except.error (Fault.mk .invalidInclude span))
        (hspan _ _ (hf j (by omega)).symm)
    · rw [hj, hj']
      have := h.size_eq
      obtain ⟨j, hj⟩ := Nat.exists_eq_add_of_lt hsize
      refine congrArg (fun span => Except.error (Fault.mk .invalidInclude span)) (hspan _ _ ?_)
      simp only [Option.map_none, Option.getD_none]
      rw [hj, Nat.add_assoc, hf (j + 1) (Nat.succ_pos j)]
      omega

/-! ## One data import -/

/-- The span of a data import or of its fault starts where it was read. -/
theorem start_dataImport (s : MaskedText) (i stop : Nat) :
    (match s.dataImport i stop with
      | .ok d => d.span
      | .error fault => fault.span).start = i := by
  unfold dataImport
  dsimp only
  split <;> (rename_i heq; split at heq <;> cases heq; rfl)

/-- A data import in a range where two texts agree, and which ends with a live brace. -/
theorem dataImport_agree {n i : Nat} (h : AgreeOn s s' 0 n)
    (hbrace : s.liveByte? (n - 1) = some Byte.lbrace) (hi : i < n) :
    s'.statementEnd i = s.statementEnd i ∧ s.statementEnd i ≤ n ∧
      s'.dataImport i (s.statementEnd i) = s.dataImport i (s.statementEnd i) := by
  have hend : ∃ j b, s.findAny? [Byte.semicolon, Byte.lbrace, Byte.rbrace] i = some (j, b) ∧
      j < n := by
    cases hfind : s.findAny? [Byte.semicolon, Byte.lbrace, Byte.rbrace] i with
    | none =>
      exact absurd (List.mem_cons_of_mem _ (List.mem_cons_self ..))
        (findAny?_eq_none hfind (show i ≤ n - 1 by omega) hbrace)
    | some r =>
      obtain ⟨j, b⟩ := r
      refine ⟨j, b, rfl, Nat.lt_of_not_le fun hle => ?_⟩
      exact absurd (List.mem_cons_of_mem _ (List.mem_cons_self ..))
        (not_mem_of_findAny? hfind (show i ≤ n - 1 by omega) (by omega) hbrace)
  obtain ⟨j, b, hfind, hj⟩ := hend
  obtain ⟨hend', hread⟩ := h.dataImport_eq (Nat.zero_le _) hfind hj
  have hend : s.statementEnd i = j + 1 := by
    unfold statementEnd
    rw [hfind]
  exact ⟨hend', by omega, hread⟩

theorem statementEnd_shift {m m' : Nat} (h : Shifted s s' m m') (hsize : m < s.size) (k : Nat) :
    ∃ j, s.statementEnd (m + k) = m + (j + 1) ∧ s'.statementEnd (m' + k) = m' + (j + 1) := by
  unfold statementEnd
  rcases h.findAny?_eq [Byte.semicolon, Byte.lbrace, Byte.rbrace] k with
    ⟨j, b, -, hj, hj'⟩ | ⟨hj, hj'⟩
  · rw [hj, hj']
    exact ⟨j, rfl, rfl⟩
  · rw [hj, hj']
    have := h.size_eq
    obtain ⟨j, hj⟩ := Nat.exists_eq_add_of_lt hsize
    exact ⟨j, hj, by dsimp only; omega⟩

/-- A data import in a text whose end two texts have in common. -/
theorem dataImport_shift {m m' k : Nat} {f : Nat → Nat} (h : Shifted s s' m m') (hk : 0 < k)
    (hf : ∀ k, 0 < k → f (m + k) = m' + k) (j : Nat) :
    s'.dataImport (m' + k) (m' + (j + 1)) =
      Fault.movedOr f (DataImport.moved f) (s.dataImport (m + k) (m + (j + 1))) := by
  have hspan : (⟨m' + k, m' + (j + 1)⟩ : Span) = Span.moved f ⟨m + k, m + (j + 1)⟩ := by
    rw [Span.moved, hf k hk, hf (j + 1) (Nat.succ_pos j)]
  have hslice : s'.slice (m' + k + 5) (m' + (j + 1)) = s.slice (m + k + 5) (m + (j + 1)) :=
    h.slice_eq (k + 5) (j + 1)
  have hbyte : s'.byte? (m' + (j + 1) - 1) = s.byte? (m + (j + 1) - 1) := h.byte? j
  unfold dataImport
  rw [hslice, hbyte, hspan]
  dsimp only
  split <;> rfl

end

/-! ## Texts that differ in a body -/

/-- Where an offset moves to if a body behind `front` is exchanged for another one. -/
def movedBehind (front body body' : Text) (i : Nat) : Nat :=
  if i ≤ front.length + 1 then i else i - body.length + body'.length

section
variable {front body body' back : Text}

/-- A body has its own bytes and bits inside its text. -/
theorem of_body (h : BodyIn front body back) {k : Nat} (hk : k < body.length) :
    (ofText .declarations (front ++ body ++ back)).byte? (front.length + k) =
        (ofText .code body).byte? k ∧
      (ofText .declarations (front ++ body ++ back)).isMasked (front.length + k) =
        (ofText .code body).isMasked k := by
  obtain ⟨w, w', hw, hmask, -⟩ := h.ofText_exchange h
  constructor
  · rw [byte?_ofText, byte?_ofText, List.append_assoc,
      List.getElem?_append_right (Nat.le_add_right ..), Nat.add_sub_cancel_left,
      List.getElem?_append_left hk]
  · rw [isMasked_eq_getD, isMasked_eq_getD, hmask, List.append_assoc, ← hw,
      List.getElem?_append_right (Nat.le_add_right ..), Nat.add_sub_cancel_left,
      List.getElem?_append_left (by rwa [Mask.length_ofText])]

/-- A body with its braces, and its bits. -/
theorem exists_inner (h : BodyIn front body back) :
    ∃ v, body = [Byte.lbrace] ++ Cell.bytes v ++ [Byte.rbrace] ∧
      Mask.ofText .code body = [false] ++ Cell.bits v ++ [false] := by
  obtain ⟨v, hcells, -⟩ := h.zip_eq
  have hlength : (Mask.ofText .code body).length = body.length := Mask.length_ofText ..
  have hbytes := bytes_zip hlength
  have hbits : Cell.bits (body.zip (Mask.ofText .code body)) = Mask.ofText .code body :=
    List.map_snd_zip (Nat.le_of_eq hlength)
  rw [hcells] at hbytes hbits
  exact ⟨v, by rw [← hbytes]; simp, by rw [← hbits]; simp [Cell.bits, live]⟩

/-- Two texts that differ in a body differ in what stands between its braces. -/
theorem exchanged_of_bodies (h : BodyIn front body back) (h' : BodyIn front body' back) :
    Exchanged (ofText .declarations (front ++ body ++ back))
      (ofText .declarations (front ++ body' ++ back)) (front.length + 1)
      (front.length + (body.length - 1)) (front.length + (body'.length - 1)) := by
  obtain ⟨w, w', hw, hmask, hmask'⟩ := h.ofText_exchange h'
  obtain ⟨v, hbody, hbits⟩ := exists_inner h
  obtain ⟨v', hbody', hbits'⟩ := exists_inner h'
  have hlive := of_body h (k := 0) (by rw [hbody]; simp)
  have htext {body : Text} {v : List Cell}
      (hbody : body = [Byte.lbrace] ++ Cell.bytes v ++ [Byte.rbrace]) :
      front ++ body ++ back =
        (front ++ [Byte.lbrace]) ++ Cell.bytes v ++ ([Byte.rbrace] ++ back) := by
    rw [hbody]
    simp
  have hlength {body : Text} {v : List Cell}
      (hbody : body = [Byte.lbrace] ++ Cell.bytes v ++ [Byte.rbrace]) :
      front.length + (body.length - 1) =
        (front ++ [Byte.lbrace]).length + (Cell.bytes v).length := by
    rw [hbody]
    simp
    omega
  have hp : (w ++ [false]).length = (front ++ [Byte.lbrace]).length := by simp [hw]
  have hbytes (v : List Cell) : (Cell.bits v).length = (Cell.bytes v).length := by
    simp [Cell.bits, Cell.bytes]
  have hm : Mask.ofText .declarations
      ((front ++ [Byte.lbrace]) ++ Cell.bytes v ++ ([Byte.rbrace] ++ back)) =
        (w ++ [false]) ++ Cell.bits v ++ ([false] ++ w') := by
    rw [← htext hbody, hmask, hbits]
    simp
  have hm' : Mask.ofText .declarations
      ((front ++ [Byte.lbrace]) ++ Cell.bytes v' ++ ([Byte.rbrace] ++ back)) =
        (w ++ [false]) ++ Cell.bits v' ++ ([false] ++ w') := by
    rw [← htext hbody', hmask', hbits']
    simp
  rw [hlength hbody, hlength hbody', show front.length + 1 = (front ++ [Byte.lbrace]).length by simp]
  have hfront := agreeOn_append hm hm' hp
  have hback := shifted_append hm hm' hp (hbytes v) (hbytes v')
  rw [← htext hbody, ← htext hbody'] at hfront hback
  refine ⟨hfront, hback, Nat.le_add_right .., Nat.le_add_right .., by simp, ?_, ?_⟩
  · have hlast : (front ++ [Byte.lbrace]).length - 1 = front.length + 0 := by simp
    have hfirst : (ofText .code body).byte? 0 = some Byte.lbrace := by
      rw [byte?_ofText, hbody]
      rfl
    have hbit : (ofText .code body).isMasked 0 = false := by
      rw [isMasked_eq_getD, hbits]
      rfl
    unfold liveByte?
    rw [hlast, hlive.1, hlive.2, hfirst, hbit]
    rfl
  · rw [byte?_ofText, htext hbody, ← List.length_append,
      List.getElem?_append_right (Nat.le_refl _), Nat.sub_self]
    rfl

/-! ## Keywords in a body -/

theorem Occurs.le {s : MaskedText} {pattern : Text} {k : Nat} (h : s.Occurs pattern k)
    (hpattern : pattern ≠ []) : k + pattern.length ≤ s.size := by
  have hlength : (s.slice k (k + pattern.length)).length = pattern.length :=
    congrArg List.length (eq_of_beq h.1)
  have hpos := List.length_pos_iff.2 hpattern
  rw [length_slice] at hlength
  omega

/-- A keyword is live in a body inside its text where it is live in the body alone. -/
theorem occurs_body_iff (h : BodyIn front body back) {pattern : Text} (hkey : IsKeyword pattern)
    {k : Nat} (hk : k < body.length) :
    (ofText .declarations (front ++ body ++ back)).Occurs pattern (front.length + k) ↔
      (ofText .code body).Occurs pattern k := by
  have hslice (hle : k + pattern.length ≤ body.length) :
      (ofText .declarations (front ++ body ++ back)).slice (front.length + k)
          (front.length + k + pattern.length) =
        (ofText .code body).slice k (k + pattern.length) := by
    refine List.ext_getElem? fun j => ?_
    by_cases hj : j < pattern.length
    · rw [getElem?_slice (by omega), getElem?_slice (by omega), Nat.add_assoc,
        (of_body h (by omega)).1]
    · rw [List.getElem?_eq_none (by rw [length_slice]; omega),
        List.getElem?_eq_none (by rw [length_slice]; omega)]
  have hmask := (of_body h hk).2
  constructor
  · intro hoccurs
    have hle : k + pattern.length ≤ body.length := by
      refine Nat.le_of_not_lt fun hlt => hkey.rbrace ?_
      obtain ⟨v, hbody, -⟩ := exists_inner h
      have hlast : (ofText .code body).byte? (body.length - 1) = some Byte.rbrace := by
        rw [byte?_ofText, hbody]
        simp
      have hat := byte?_add_of_startsAt hoccurs.1
        (show body.length - 1 - k < pattern.length by omega)
      rw [show front.length + k + (body.length - 1 - k) = front.length + (body.length - 1) by omega,
        (of_body h (by omega)).1, hlast] at hat
      exact List.mem_of_getElem? hat.symm
    refine ⟨?_, by rw [← hmask]; exact hoccurs.2⟩
    unfold startsAt
    rw [← hslice hle]
    exact hoccurs.1
  · intro hoccurs
    have hle := hoccurs.le hkey.ne_nil
    rw [size_ofText] at hle
    refine ⟨?_, by rw [hmask]; exact hoccurs.2⟩
    unfold startsAt
    rw [hslice hle]
    exact hoccurs.1

/-- A keyword that is not live in a body is not live in it inside its text. -/
theorem silent_of_body (h : BodyIn front body back) {pattern : Text} (hkey : IsKeyword pattern)
    (hsilent : (ofText .code body).indexOf? pattern 0 = none) (k : Nat)
    (hk : front.length + 1 ≤ k) (hlt : k < front.length + (body.length - 1)) :
    ¬ (ofText .declarations (front ++ body ++ back)).Occurs pattern k := by
  obtain ⟨j, rfl⟩ := Nat.exists_eq_add_of_le (show front.length ≤ k by omega)
  rw [occurs_body_iff h hkey (by omega)]
  exact (indexOf?_eq_none_iff hkey).1 hsilent j (Nat.zero_le _)

theorem movedBehind_front {i : Nat} (hi : i ≤ front.length + 1) :
    movedBehind front body body' i = i := if_pos hi

theorem movedBehind_back (h : BodyIn front body back) (h' : BodyIn front body' back) {k : Nat}
    (hk : 0 < k) : movedBehind front body body' (front.length + (body.length - 1) + k) =
      front.length + (body'.length - 1) + k := by
  obtain ⟨v, hbody, -⟩ := exists_inner h
  obtain ⟨v', hbody', -⟩ := exists_inner h'
  have hlength := congrArg List.length hbody
  have hlength' := congrArg List.length hbody'
  simp only [List.length_append, List.length_cons, List.length_nil] at hlength hlength'
  unfold movedBehind
  rw [if_neg (by omega)]
  omega

/-- No directive that starts in front of `n`, faulty or not, goes on behind `n`. -/
def EndsBefore (found : List Directive × List Fault) (n : Nat) : Prop :=
  (∀ d ∈ found.1, d.span.start < n → d.span.stop ≤ n) ∧
    ∀ fault ∈ found.2, fault.span.start < n → fault.span.stop ≤ n

instance (found : List Directive × List Fault) (n : Nat) : Decidable (EndsBefore found n) :=
  inferInstanceAs (Decidable (_ ∧ _))

theorem EndsBefore.stop_le {s : MaskedText} {directory : Path} {n : Nat}
    (h : EndsBefore (s.directives directory) n) {r : Except Fault Directive}
    (hr : r ∈ s.directivesFrom directory 0) (hstart : (readSpan r).start < n) :
    (readSpan r).stop ≤ n := by
  cases r with
  | ok d => exact h.1 d (List.mem_filterMap.2 ⟨_, hr, rfl⟩) hstart
  | error fault => exact h.2 fault (List.mem_filterMap.2 ⟨_, hr, rfl⟩) hstart

/-- What stands in front of a body is not moved. -/
theorem movedOr_directive {r : Except Fault Directive}
    (hstart : (readSpan r).start ≤ front.length + 1) (hstop : (readSpan r).stop ≤ front.length + 1) :
    Fault.movedOr (movedBehind front body body') (Directive.moved (movedBehind front body body'))
      r = r := by
  have hspan : Span.moved (movedBehind front body body') (readSpan r) = readSpan r := by
    rw [Span.moved, movedBehind_front hstart, movedBehind_front hstop]
  cases r with
  | ok d => exact congrArg (fun span => Except.ok { d with span }) hspan
  | error fault => exact congrArg (fun span => Except.error { fault with span }) hspan

theorem movedOr_dataImport {s : MaskedText} {start stop : Nat} (hstart : start ≤ front.length + 1)
    (hstop : stop ≤ front.length + 1) :
    Fault.movedOr (movedBehind front body body') (DataImport.moved (movedBehind front body body'))
      (s.dataImport start stop) = s.dataImport start stop := by
  unfold dataImport
  dsimp only
  split <;>
  · simp only [Fault.movedOr, DataImport.moved, Fault.moved, Span.moved, movedBehind_front hstart,
      movedBehind_front hstop]

/-- A directive is read at its keyword. -/
theorem occurs_of_mem_directivesFrom {s : MaskedText} {directory : Path}
    {r : Except Fault Directive} (hr : r ∈ s.directivesFrom directory 0) :
    s.Occurs "*include" (readSpan r).start := by
  obtain ⟨i, rfl, hoccurs⟩ := (s.scans_directives directory 0).exists_occurs isKeyword_include hr
  rwa [start_readSpan]

/-- The directives in a text and in the text with another body, if the keyword is live in neither
body. -/
theorem directivesFrom_of_bodies (h : BodyIn front body back) (h' : BodyIn front body' back)
    {directory : Path}
    (hends : EndsBefore ((ofText .declarations (front ++ body ++ back)).directives directory)
      front.length)
    (hends' : EndsBefore ((ofText .declarations (front ++ body' ++ back)).directives directory)
      front.length)
    (hsilent : (ofText .code body).indexOf? "*include" 0 = none)
    (hsilent' : (ofText .code body').indexOf? "*include" 0 = none) :
    (ofText .declarations (front ++ body' ++ back)).directivesFrom directory 0 =
      ((ofText .declarations (front ++ body ++ back)).directivesFrom directory 0).map
        (Fault.movedOr (movedBehind front body body')
          (Directive.moved (movedBehind front body body'))) := by
  have hx := exchanged_of_bodies h h'
  refine hx.scans isKeyword_include (silent_of_body h isKeyword_include hsilent)
    (silent_of_body h' isKeyword_include hsilent') (fun i j hij hi hj => ?_)
    (scans_directives _ directory 0) (scans_directives _ directory 0) (.front (Nat.zero_le _))
    (List.Subset.refl _) (List.Subset.refl _)
  cases hij with
  | front hlt =>
    have hi' : i < front.length := by
      refine Nat.lt_of_le_of_ne (Nat.lt_succ_iff.1 hlt) fun heq => ?_
      have hstar := byte?_add_of_startsAt (occurs_of_mem_directivesFrom hi).1 (Nat.succ_pos _)
      have hbrace := (liveByte?_eq_some hx.lbrace).2
      rw [start_readSpan, Nat.add_zero, heq] at hstar
      rw [Nat.add_sub_cancel, hstar] at hbrace
      cases hbrace
    have hstop := hends.stop_le hi (by rwa [start_readSpan])
    have hstop' := hends'.stop_le hj (by rwa [start_readSpan])
    have hread := directiveAt_agree hx.front (Nat.lt_succ_of_le hstop) (Nat.lt_succ_of_le hstop')
    rw [hread, movedOr_directive (by rw [start_readSpan]; omega) (by omega)]
    exact ⟨rfl, .front (next_directiveAt_le hlt (by omega))⟩
  | @back k hk =>
    obtain ⟨hread, j, hnext, hnext'⟩ := directiveAt_shift hx.back (byte?_eq_some_lt hx.rbrace) hk
      fun k hk => movedBehind_back h h' hk
    refine ⟨hread, ?_⟩
    rw [hnext, hnext']
    exact .back j

/-- The data imports in a text and in the text with another body, if the keyword is live in neither
body. -/
theorem dataImportsFrom_of_bodies (h : BodyIn front body back) (h' : BodyIn front body' back)
    (hsilent : (ofText .code body).indexOf? "*json" 0 = none)
    (hsilent' : (ofText .code body').indexOf? "*json" 0 = none) :
    (ofText .declarations (front ++ body' ++ back)).dataImportsFrom 0 =
      ((ofText .declarations (front ++ body ++ back)).dataImportsFrom 0).map
        (Fault.movedOr (movedBehind front body body')
          (DataImport.moved (movedBehind front body body'))) := by
  have hx := exchanged_of_bodies h h'
  refine hx.scans isKeyword_json (silent_of_body h isKeyword_json hsilent)
    (silent_of_body h' isKeyword_json hsilent') (fun i j hij _ _ => ?_)
    (scans_dataImports _ 0) (scans_dataImports _ 0) (.front (Nat.zero_le _))
    (List.Subset.refl _) (List.Subset.refl _)
  cases hij with
  | front hlt =>
    obtain ⟨hend, hle, hread⟩ := dataImport_agree hx.front hx.lbrace hlt
    rw [hend, hread, movedOr_dataImport (by omega) hle]
    exact ⟨rfl, .front (by omega)⟩
  | @back k hk =>
    obtain ⟨j, hend, hend'⟩ := statementEnd_shift hx.back (byte?_eq_some_lt hx.rbrace) k
    rw [hend, hend', dataImport_shift hx.back hk (fun k hk => movedBehind_back h h' hk) j]
    refine ⟨rfl, ?_⟩
    rw [Nat.add_assoc _ k, Nat.add_assoc _ k, Nat.add_max_add_left, Nat.add_max_add_left]
    exact .back _

/-- A live keyword in the body starts a directive, faulty or not. -/
theorem exists_directive_inside (h : BodyIn front body back) {directory : Path}
    (hends : EndsBefore ((ofText .declarations (front ++ body ++ back)).directives directory)
      front.length)
    (hlive : (ofText .code body).indexOf? "*include" 0 ≠ none) :
    ∃ r ∈ (ofText .declarations (front ++ body ++ back)).directivesFrom directory 0,
      front.length ≤ (readSpan r).start ∧ (readSpan r).start < front.length + body.length := by
  obtain ⟨j, hfind⟩ := Option.ne_none_iff_exists'.1 hlive
  obtain ⟨-, hoccurs, -⟩ := (indexOf?_eq_some_iff isKeyword_include).1 hfind
  have hj : j < body.length := by
    have hle := hoccurs.le isKeyword_include.ne_nil
    have hpos := List.length_pos_iff.2 isKeyword_include.ne_nil
    rw [size_ofText] at hle
    omega
  obtain ⟨i, hi, hij, hmem⟩ := (scans_directives _ directory 0).exists_mem isKeyword_include
    (fun i hi hmem => next_directiveAt_le hi (hends.stop_le hmem (by rwa [start_readSpan])))
    (Nat.zero_le _) (Nat.le_add_right _ _) ((occurs_body_iff h isKeyword_include hj).2 hoccurs)
  exact ⟨_, hmem, by rw [start_readSpan]; omega⟩

theorem exists_dataImport_inside (h : BodyIn front body back)
    (hlive : (ofText .code body).indexOf? "*json" 0 ≠ none) :
    ∃ i, front.length ≤ i ∧ i < front.length + body.length ∧
      (ofText .declarations (front ++ body ++ back)).dataImport i
          ((ofText .declarations (front ++ body ++ back)).statementEnd i) ∈
        (ofText .declarations (front ++ body ++ back)).dataImportsFrom 0 := by
  obtain ⟨j, hfind⟩ := Option.ne_none_iff_exists'.1 hlive
  obtain ⟨-, hoccurs, -⟩ := (indexOf?_eq_some_iff isKeyword_json).1 hfind
  have hj : 0 < j ∧ j < body.length := by
    have hle := hoccurs.le isKeyword_json.ne_nil
    have hpos := List.length_pos_iff.2 isKeyword_json.ne_nil
    rw [size_ofText] at hle
    refine ⟨Nat.pos_of_ne_zero fun hzero => ?_, by omega⟩
    have hstar := byte?_add_of_startsAt hoccurs.1 hpos
    rw [hzero, byte?_ofText, ← List.head?_eq_getElem?, h.brace] at hstar
    cases hstar
  have hx := exchanged_of_bodies h h
  obtain ⟨i, hi, hij, hmem⟩ := (scans_dataImports _ 0).exists_mem isKeyword_json
    (fun i hi _ => Nat.max_le.2 ⟨(dataImport_agree hx.front hx.lbrace hi).2.1, hi⟩)
    (Nat.zero_le _) (show front.length + 1 ≤ front.length + j by omega)
    ((occurs_body_iff h isKeyword_json hj.2).2 hoccurs)
  exact ⟨i, by omega, by omega, hmem⟩

end

/-! ## Directives and data imports -/

/-- A span that starts in the body behind `front`. -/
def StartsIn (front body : Text) (span : Span) : Prop :=
  front.length ≤ span.start ∧ span.start < front.length + body.length

/-- Two texts that differ in one function body, which the mask comes to behind a parameter list in
both of them, and in which no directive in front of the body goes on. If the keyword is live in
neither body when the bodies are masked alone, as code, the same includes and the same data imports
are found, with the same faults, each moved with the text around it. A keyword that is live in the
body is always taken for a directive, faulty or not. -/
theorem bodies_opaque {front body body' back : Text} (h : BodyIn front body back)
    (h' : BodyIn front body' back) (directory : Path)
    (hends : EndsBefore ((ofText .declarations (front ++ body ++ back)).directives directory)
      front.length)
    (hends' : EndsBefore ((ofText .declarations (front ++ body' ++ back)).directives directory)
      front.length) :
    let s := ofText .declarations (front ++ body ++ back)
    let s' := ofText .declarations (front ++ body' ++ back)
    let f := movedBehind front body body'
    ((ofText .code body).indexOf? "*include" 0 = none →
      (ofText .code body').indexOf? "*include" 0 = none →
      s'.directives directory = ((s.directives directory).1.map (Directive.moved f),
        (s.directives directory).2.map (Fault.moved f))) ∧
    ((ofText .code body).indexOf? "*json" 0 = none →
      (ofText .code body').indexOf? "*json" 0 = none →
      s'.dataImports =
        (s.dataImports.1.map (DataImport.moved f), s.dataImports.2.map (Fault.moved f))) ∧
    ((ofText .code body).indexOf? "*include" 0 ≠ none →
      (∃ d ∈ (s.directives directory).1, StartsIn front body d.span) ∨
        ∃ fault ∈ (s.directives directory).2, StartsIn front body fault.span) ∧
    ((ofText .code body).indexOf? "*json" 0 ≠ none →
      (∃ i ∈ s.dataImports.1, StartsIn front body i.span) ∨
        ∃ fault ∈ s.dataImports.2, StartsIn front body fault.span) := by
  intro s s' f
  refine ⟨fun hsilent hsilent' => ?_, fun hsilent hsilent' => ?_, fun hlive => ?_, fun hlive => ?_⟩
  · unfold directives
    rw [directivesFrom_of_bodies h h' hends hends' hsilent hsilent']
    exact Prod.ext (filterMap_toOption_movedOr ..)
      (filterMap_error_movedOr _ _ _ (fun _ => rfl) fun _ => rfl)
  · unfold dataImports
    rw [dataImportsFrom_of_bodies h h' hsilent hsilent']
    exact Prod.ext (filterMap_toOption_movedOr ..)
      (filterMap_error_movedOr _ _ _ (fun _ => rfl) fun _ => rfl)
  · obtain ⟨r, hr, hstarts⟩ := exists_directive_inside h hends hlive
    cases r with
    | ok d => exact .inl ⟨d, List.mem_filterMap.2 ⟨_, hr, rfl⟩, hstarts⟩
    | error fault => exact .inr ⟨fault, List.mem_filterMap.2 ⟨_, hr, rfl⟩, hstarts⟩
  · obtain ⟨i, hle, hlt, hmem⟩ := exists_dataImport_inside h hlive
    have hstart := start_dataImport s i (s.statementEnd i)
    cases hr : s.dataImport i (s.statementEnd i) with
    | ok d =>
      rw [hr] at hmem hstart
      exact .inl ⟨d, List.mem_filterMap.2 ⟨_, hmem, rfl⟩, hstart.ge.trans' hle, hstart.trans_lt hlt⟩
    | error fault =>
      rw [hr] at hmem hstart
      exact .inr ⟨fault, List.mem_filterMap.2 ⟨_, hmem, rfl⟩, hstart.ge.trans' hle,
        hstart.trans_lt hlt⟩

/-- What stands in front of a body: an import, a class and a parameter list. -/
def sampleAbove : Text := "*json: a=a.json; class A \x7b f: () "
/-- What stands behind the body: an include and another import. -/
def sampleBelow : Text := "; \x7d; *include: b.nazca; *json: c=c.json;"

theorem bodies_opaque_sample :
    let body : Text := "\x7b return 1; \x7d"
    let body' : Text := "\x7b return '*json' + 2; \x7d"
    let s := ofText .declarations (sampleAbove ++ body ++ sampleBelow)
    let s' := ofText .declarations (sampleAbove ++ body' ++ sampleBelow)
    let f := movedBehind sampleAbove body body'
    (s.directives (.ofText [])).1.length = 1 ∧ s.dataImports.1.length = 2 ∧
    s'.directives (.ofText []) = ((s.directives (.ofText [])).1.map (Directive.moved f),
      (s.directives (.ofText [])).2.map (Fault.moved f)) ∧
    s'.dataImports =
      (s.dataImports.1.map (DataImport.moved f), s.dataImports.2.map (Fault.moved f)) := by
  intro body body' s s' f
  have hin : BodyIn sampleAbove body sampleBelow :=
    ⟨by decide, by decide, by decide⟩
  have hin' : BodyIn sampleAbove body' sampleBelow :=
    ⟨by decide, by decide, by decide⟩
  have hopaque := bodies_opaque hin hin' (.ofText []) (by decide +kernel) (by decide +kernel)
  exact ⟨by decide +kernel, by decide +kernel, hopaque.1 (by decide +kernel) (by decide +kernel),
    hopaque.2.1 (by decide) (by decide)⟩

end MaskedText

end PageLang
