import PageLang.Proofs.MaskedText.Agree
import PageLang.Proofs.Qualify.Twice
import PageLang.Proofs.Qualify.Waiting

/-!
# Variables of functions

A variable is declared in the innermost block that is read as that of a function. If a parameter waits
for the block of a function, then nothing is left of its variables behind it: without such a declaration
the same names are qualified there. But the block of a function without parameters is read like any
other one, so its variables are declared around it, and hide members behind it
(`isQualified_behind`).

* `MaskedText.Encloses`: a block that no parameter and no expression leads out of.
* `Encloses.scopes`: what is left of the block of a function.
* `hides_of_function`: what a variable hides behind blocks that are read as no function's.
* `LeavesOut`: a piece of a block without which the body around the block is read the same.
-/

namespace PageLang

open MaskedText Qualify

/-! ## Scopes behind an offset -/

namespace ScopeStack

variable {s s' : ScopeStack} {f : Nat → Nat} {c : Nat}

/-- The scopes of two texts that are read the same from offsets on that `f` relates. -/
structure AgreeBehind (f : Nat → Nat) (c : Nat) (s s' : ScopeStack) : Prop where
  inner : s'.inner = s.inner
  root : s'.root = s.root
  pending : s'.pending = s.pending
  pendingFunction : s'.pendingFunction = s.pendingFunction
  transient : ∀ n i, c ≤ i → s'.transient.any (fun t => t.1 == n && f i < t.2) =
    s.transient.any (fun t => t.1 == n && i < t.2)

theorem agreeBehind_start (f : Nat → Nat) (c : Nat) : AgreeBehind f c start start :=
  ⟨rfl, rfl, rfl, rfl, fun _ _ _ => rfl⟩

namespace AgreeBehind

theorem isDeclared (h : AgreeBehind f c s s') (n : Text) {i : Nat} (hi : c ≤ i) :
    s'.isDeclared n (f i) = s.isDeclared n i := by
  unfold ScopeStack.isDeclared frames
  rw [h.pending, h.transient n i hi, h.inner, h.root]

theorem push (h : AgreeBehind f c s s') : AgreeBehind f c s.push s'.push := by
  obtain ⟨inner, root, pending, function, transient⟩ := s
  obtain ⟨inner', root', pending', function', transient'⟩ := s'
  obtain ⟨rfl, rfl, rfl, rfl, htransient⟩ := h
  unfold ScopeStack.push
  dsimp only
  split <;> exact ⟨rfl, rfl, rfl, rfl, htransient⟩

theorem pop (h : AgreeBehind f c s s') : AgreeBehind f c s.pop s'.pop :=
  ⟨congrArg List.tail h.inner, h.root, h.pending, h.pendingFunction, h.transient⟩

section
variable (hf : ∀ i j, c ≤ i → (f i < f j ↔ i < j))
include hf

theorem declareIn (h : AgreeBehind f c s s') (scope : BindingScope) (m : Text) :
    AgreeBehind f c (s.declareIn scope m) (s'.declareIn (scope.moved f) m) := by
  obtain ⟨inner, root, pending, function, transient⟩ := s
  obtain ⟨inner', root', pending', function', transient'⟩ := s'
  obtain ⟨rfl, rfl, rfl, rfl, htransient⟩ := h
  cases scope with
  | block =>
    unfold ScopeStack.declareIn BindingScope.moved declare
    dsimp only
    split <;> exact ⟨rfl, rfl, rfl, rfl, htransient⟩
  | function =>
    unfold ScopeStack.declareIn BindingScope.moved declareFunctionScoped
    dsimp only
    split <;> exact ⟨rfl, rfl, rfl, rfl, htransient⟩
  | parameters ofFunction => exact ⟨rfl, rfl, rfl, rfl, htransient⟩
  | expression stop =>
    refine ⟨rfl, rfl, rfl, rfl, fun n i hi => ?_⟩
    have htail := htransient n i hi
    simp only [ScopeStack.declareIn, BindingScope.moved, declareUntil, List.any_cons, hf i stop hi]
    rw [htail]

theorem apply (h : AgreeBehind f c s s') (d : LocalDeclaration) :
    AgreeBehind f c (s.apply d) (s'.apply (d.moved f)) := by
  unfold ScopeStack.apply LocalDeclaration.moved
  dsimp only
  induction d.names generalizing s s' with
  | nil => exact h
  | cons m names ih => exact ih (h.declareIn hf d.scope m)

theorem readFrom (h : AgreeBehind f c s s') (es : List (Nat × Event)) :
    AgreeBehind f c (readFrom s es) (readFrom s' (es.map fun x => (f x.1, x.2.moved f))) := by
  induction es generalizing s s' with
  | nil => exact h
  | cons x es ih =>
    obtain ⟨i, e⟩ := x
    rw [List.map_cons, readFrom_cons, readFrom_cons]
    cases e with
    | opens => exact ih h.push
    | closes => exact ih h.pop
    | declares d => exact ih (h.apply hf d)
    | refers r => exact ih h

end

end AgreeBehind

/-- Behind its expression a name is not kept. -/
theorem any_transient_readFrom {es : List (Nat × Event)} {i : Nat} (hes : ∀ k d, (k, .declares d) ∈ es →
    ∀ stop, d.scope = .expression stop → stop ≤ i) (s : ScopeStack) (n : Text) :
    (readFrom s es).transient.any (fun t => t.1 == n && i < t.2) =
      s.transient.any (fun t => t.1 == n && i < t.2) := by
  have happly (s : ScopeStack) {d : LocalDeclaration} (hd : ∀ stop, d.scope = .expression stop → stop ≤ i) :
      (s.apply d).transient.any (fun t => t.1 == n && i < t.2) =
        s.transient.any (fun t => t.1 == n && i < t.2) := by
    unfold ScopeStack.apply
    induction d.names generalizing s with
    | nil => rfl
    | cons m names ih =>
      rw [List.foldl_cons, ih]
      cases hscope : d.scope with
      | block => rw [declareIn, (s.declare_eq m).2.1]
      | function =>
        rw [declareIn, declareFunctionScoped]
        split <;> rfl
      | parameters function => rfl
      | expression stop => simp [declareIn, declareUntil, Nat.not_lt.2 (hd stop hscope)]
  induction es generalizing s with
  | nil => rfl
  | cons x es ih =>
    obtain ⟨k, e⟩ := x
    have ih := ih fun j d hd => hes j d (.tail _ hd)
    rw [readFrom_cons]
    cases e with
    | opens =>
      rw [Event.scopes, ih, ScopeStack.push]
      split <;> rfl
    | closes => exact ih s.pop
    | declares d => rw [Event.scopes, ih, happly s (hes k d (.head _))]
    | refers r => exact ih s

end ScopeStack

namespace MaskedText

/-! ## References behind a brace -/

namespace Shifted

variable {s s' : MaskedText} {m m' : Nat} (h : Shifted s s' m m') {c : Nat}
  (hc : s.byte? (m + c) = some Byte.rbrace)
include h

theorem drop_text (k : Nat) : s'.text.drop (m' + k) = s.text.drop (m + k) := by
  refine List.ext_getElem? fun i => ?_
  have hbyte := h.byte? (k + i)
  unfold MaskedText.byte? at hbyte
  rw [List.getElem?_drop, List.getElem?_drop, text, text, Array.getElem?_toList, Array.getElem?_toList,
    Nat.add_assoc, hbyte, Nat.add_assoc]

theorem isLive_eq (k : Nat) : s'.isLive (m' + k) = s.isLive (m + k) := by
  have := h.size_eq
  have hlt : m' + k < s'.size ↔ m + k < s.size := by omega
  rw [isLive, isLive, h.isMasked, decide_eq_decide.2 hlt]

include hc

theorem inkBefore?_eq {k : Nat} (hk : c < k) : s'.inkBefore? (m' + k) = s.inkBefore? (m + k) := by
  induction k with
  | zero => omega
  | succ k ih =>
    rw [← Nat.add_assoc, ← Nat.add_assoc, inkBefore?, inkBefore?, h.byte?]
    rcases Nat.lt_succ_iff_lt_or_eq.1 hk with hlt | rfl
    · rw [ih hlt]
    · have hspace : Byte.isSpace Byte.rbrace = false := by decide
      simp [hc, hspace]

theorem dotsBefore_iff {k : Nat} (hk : c < k) (n : Nat) :
    s'.dotsBefore n (m' + k) ↔ s.dotsBefore n (m + k) := by
  induction n generalizing k with
  | zero => exact Iff.rfl
  | succ n ih =>
    obtain ⟨k, rfl⟩ : ∃ j, k = j + 1 := ⟨k - 1, by omega⟩
    rw [← Nat.add_assoc, ← Nat.add_assoc, dotsBefore, dotsBefore, h.byte?]
    rcases Nat.lt_succ_iff_lt_or_eq.1 hk with hlt | rfl
    · rw [ih hlt]
    · have hdot : Byte.rbrace ≠ Byte.dot := by decide
      simp [hc, hdot]

theorem joinsBefore_eq {k : Nat} (hk : c < k) : s'.joinsBefore (m' + k) = s.joinsBefore (m + k) := by
  rw [Bool.eq_iff_iff, joinsBefore_iff, joinsBefore_iff, h.dotsBefore_iff hc hk 3,
    show m' + k - 1 = m' + (k - 1) by omega, show m + k - 1 = m + (k - 1) by omega, h.byte?]
  refine and_congr_left' ?_
  omega

theorem joinsAfter_eq {i j : Nat} (hi : c < i) (hj : m + j ≤ s.size) :
    s'.joinsAfter (m' + i) (m' + j) = s.joinsAfter (m + i) (m + j) := by
  have hsize := h.size_eq
  unfold joinsAfter
  rw [h.byte?, byte?_skipSpace hj, byte?_skipSpace (by omega), h.drop_text, h.inkBefore?_eq hc hi]

/-- What stands behind the brace stands in the other text, too. -/
theorem stands {k width : Nat} {n : Text} {form : Form} (hk : c < k)
    (hr : Reference.Stands s ⟨m + k, width, n, form⟩) :
    Reference.Stands s' ⟨m' + k, width, n, form⟩ := by
  have hsize := h.size_eq
  obtain ⟨hlive, hspelled, hpos, hle, hbefore, hafter⟩ := hr
  dsimp only at hlive hspelled hpos hle hbefore hafter
  rw [Nat.add_assoc] at hle hspelled hafter
  refine ⟨?_, ?_, hpos, ?_, ?_, ?_⟩ <;> dsimp only <;> try rw [Nat.add_assoc]
  · rwa [h.isLive_eq]
  · rwa [h.slice_eq]
  · omega
  · rwa [h.joinsBefore_eq hc hk]
  · rwa [h.joinsAfter_eq hc hk hle]

end Shifted

/-! ## The block of a function -/

/-- A block from a brace to the brace that closes it. No parameter in it waits for a block behind it,
and no expression in it ends behind it. -/
structure Encloses (s : MaskedText) (o c : Nat) : Prop where
  opens : s.liveByte? o = some Byte.lbrace
  closes : s.closingBrace? o = some c
  waits : ∀ function n, ¬ s.Waits c function n
  expression : ∀ d ∈ s.declarations, o ≤ d.offset → d.offset < c →
    ∀ stop, d.scope = .expression stop → stop ≤ c

/-- If a parameter of a function waits for a block, then nothing that is declared in the block is left
behind it. -/
theorem Encloses.scopes {s : MaskedText} {o c : Nat} (h : s.Encloses o c)
    {pre mid rest : List (Nat × Event)} (hopens : s.Split (o, .opens) pre (mid ++ (c, .closes) :: rest))
    (hcloses : s.Split (c, .closes) (pre ++ (o, .opens) :: mid) rest) (hnest : nest? 0 mid = some 0)
    (hfunction : (scopesOf pre).pendingFunction = true) :
    let behind := (scopesOf (pre ++ (o, .opens) :: mid)).pop
    behind.inner = (scopesOf pre).inner ∧ behind.root = (scopesOf pre).root ∧ behind.pending = [] ∧
      behind.pendingFunction = false ∧ ∀ n i, c ≤ i →
        behind.transient.any (fun t => t.1 == n && i < t.2) =
          (scopesOf pre).transient.any (fun t => t.1 == n && i < t.2) := by
  have hread : scopesOf (pre ++ (o, .opens) :: mid) = readFrom (scopesOf pre) ((o, .opens) :: mid) :=
    readFrom_append .start pre _
  -- the frame of the block is that of a function
  obtain ⟨f, hinner, hroot, -, -, hf⟩ := (scopesOf pre).inner_push
  obtain ⟨n, hn⟩ := pendingFunction_scopesOf.1 hfunction
  have hpending : (scopesOf pre).pending ≠ [] :=
    List.ne_nil_of_mem (mem_pending_scopesOf.2 ⟨true, hn⟩)
  rw [hfunction, Bool.and_true, List.isEmpty_eq_false_iff.2 hpending, Bool.not_false] at hf
  have hinside : (scopesOf pre).push.Inside 0 (scopesOf pre).inner := ⟨[], f, hinner, rfl, hf⟩
  obtain ⟨⟨blocks, g, hframes, hblocks, -⟩, hroot'⟩ := hinside.readFrom hnest
  obtain rfl := List.length_eq_zero_iff.1 hblocks
  refine ⟨?_, ?_, ?_, ?_, fun n i hi => ?_⟩
  · show (scopesOf _).inner.tail = _
    rw [hread, readFrom_cons, Event.scopes, hframes]
    rfl
  · show (scopesOf _).root = _
    rw [hread, readFrom_cons, Event.scopes, hroot', hroot]
  · refine List.eq_nil_iff_forall_not_mem.2 fun n hn => ?_
    obtain ⟨function, hn⟩ := mem_pending_scopesOf.1 hn
    exact h.waits function n ((hcloses.waitsBehind_iff rfl).1 hn)
  · refine Bool.eq_false_iff.2 fun hwaiting => ?_
    obtain ⟨n, hn⟩ := pendingFunction_scopesOf.1 hwaiting
    exact h.waits true n ((hcloses.waitsBehind_iff rfl).1 hn)
  · show (scopesOf _).transient.any _ = _
    rw [hread]
    refine ScopeStack.any_transient_readFrom (fun k d hd stop hstop => ?_) _ n
    have hmid : (k, Event.declares d) ∈ mid := by simpa using hd
    obtain ⟨hd', rfl⟩ := declares_mem_scopeEvents.1
      (show (k, Event.declares d) ∈ s.scopeEvents by simp [hcloses.eq, hmid])
    exact Nat.le_trans (h.expression d hd' (hopens.le_post _ (List.mem_append_left _ hmid))
      (hcloses.pre_lt rfl (d.offset, .declares d) (by simp [hmid])) stop hstop) hi

/-! ## Variables behind a block -/

/-- Where a declaration stands in a block and in no block in it that is read as that of a function, the
frames of these blocks are no frames of functions. -/
theorem blocks_of_split {s : MaskedText} {o : Nat} {d : LocalDeclaration}
    {pre mid rest : List (Nat × Event)} {depth : Nat}
    (hsplit : s.Split (d.offset, .declares d) (pre ++ (o, .opens) :: mid) rest)
    (hnest : nest? 0 mid = some depth) (hlt : d.offset < s.size) (hplain : ∀ k, o ≤ k → k ≤ d.offset →
      s.liveByte? k = some Byte.lbrace → d.offset < s.blockEnd k → ∀ n, ¬ s.Waits k true n) :
    (scopesOf (pre ++ (o, .opens) :: mid)).Blocks (depth + 1) := by
  have hread : scopesOf (pre ++ (o, .opens) :: mid) = readFrom (scopesOf pre).push mid :=
    readFrom_append .start pre _
  refine ⟨?_, fun b hb => ?_⟩
  · obtain ⟨f, hinner, -⟩ := (scopesOf pre).inner_push
    rw [hread, ScopeStack.length_inner_readFrom (k := (scopesOf pre).inner.length + 1) hnest
      (by rw [hinner]; rfl)]
    omega
  rw [← List.map_take] at hb
  obtain ⟨f, hf, rfl⟩ := List.mem_map.1 hb
  obtain ⟨j, hj, rfl⟩ := List.getElem_of_mem hf
  rw [List.length_take] at hj
  rw [List.getElem_take]
  refine Bool.eq_false_iff.2 fun hfunction => ?_
  obtain ⟨pre', k, post, n, heq, hpost, hwaits⟩ :=
    exists_opens_of_function (List.getElem?_eq_getElem (by omega)) hfunction
  have hmem : (k, Event.opens) ∈ pre ++ (o, .opens) :: mid := by simp [heq]
  -- the block of the function was opened from `o` on
  have hk : o ≤ k := by
    have hpre : s.Split (o, .opens) pre (mid ++ (d.offset, .declares d) :: rest) :=
      split_of_eq (by simp [hsplit.eq]) (Nat.lt_of_le_of_lt (hsplit.pre_le (o, .opens) (by simp)) hlt)
    rw [List.mem_append, List.mem_cons] at hmem
    rcases List.append_eq_append_iff.1 heq with ⟨front, hpre', hmid⟩ | ⟨front, hpre', hpost'⟩
    · cases front with
      | nil => exact Nat.le_of_eq (Prod.mk.inj (List.cons.inj hmid).1).1
      | cons x front =>
        rw [List.cons_append] at hmid
        obtain ⟨-, hmid⟩ := List.cons.inj hmid
        exact hpre.le_post (k, .opens) (by simp [hmid])
    · cases front with
      | nil => exact Nat.le_of_eq (Prod.mk.inj (List.cons.inj hpost').1).1.symm
      | cons x front =>
        obtain ⟨-, hpost'⟩ := List.cons.inj hpost'
        rw [show post = front ++ (o, .opens) :: mid from hpost', nest?_append,
          Option.bind_eq_some_iff] at hpost
        obtain ⟨j', -, hpost⟩ := hpost
        have hadd := nest?_add hnest (j' + 1)
        rw [Nat.zero_add] at hadd
        have := Option.some.inj (hadd.symm.trans hpost)
        omega
  have hkd : k ≤ d.offset := hsplit.pre_le _ hmem
  have hfunction : s.Split (k, .opens) pre' (post ++ (d.offset, .declares d) :: rest) := by
    refine split_of_eq ?_ (Nat.lt_of_le_of_lt hkd hlt)
    rw [hsplit.eq, heq]
    simp
  have hend : d.offset < s.blockEnd k := by
    have hbraces := hfunction.braces_between rfl hlt
    have hnest' : nest? 0 (post ++ [(d.offset, .declares d)]) = some j := by
      rw [nest?_append, hpost]
      rfl
    rw [← nest?_filter, hbraces] at hnest'
    have := le_blockEnd hnest' (by dsimp only; omega)
    dsimp only at this
    omega
  have hlive := opens_mem_scopeEvents.1 (show (k, Event.opens) ∈ s.scopeEvents by simp [hfunction.eq])
  exact hplain k hk hkd hlive hend n ((hfunction.waitsBehind_iff rfl).1 hwaits)

end MaskedText

namespace Qualify

/-- A variable in a block is hidden behind the block, up to the end of the block around it, if neither
this block nor one in it around the variable is read as that of a function. -/
theorem hides_of_function {s : MaskedText} {o c : Nat} (ho : s.liveByte? o = some Byte.lbrace)
    (hclose : s.closingBrace? o = some c) {d : LocalDeclaration} (hd : d ∈ s.declarations)
    (hscope : d.scope = .function) (hle : o ≤ d.offset) (hlt : d.offset < c)
    (hplain : ∀ k, o ≤ k → k ≤ d.offset → s.liveByte? k = some Byte.lbrace →
      d.offset < s.blockEnd k → ∀ n, ¬ s.Waits k true n)
    {r : Reference} (hr : r.Stands s) (hname : r.name ∈ d.names) (hcr : c ≤ r.offset)
    (hend : r.offset < s.blockEnd c) : s.hides r = true := by
  obtain ⟨pre, mid, rest, hopens, hcloses, hnest⟩ := exists_block ho hclose
  have hmem : (d.offset, Event.declares d) ∈ mid := by
    have hevent := declares_mem_scopeEvents.2 ⟨hd, rfl⟩
    rw [hopens.eq, List.mem_append, List.mem_cons, List.mem_append, List.mem_cons] at hevent
    rcases hevent with hevent | hevent | hevent | hevent | hevent
    · exact absurd (hopens.pre_lt rfl _ hevent) (Nat.not_lt_of_le hle)
    · cases (Prod.mk.inj hevent).2
    · exact hevent
    · cases (Prod.mk.inj hevent).2
    · exact absurd (hcloses.le_post _ hevent) (Nat.not_le_of_lt hlt)
  obtain ⟨front, back, rfl⟩ := List.append_of_mem hmem
  rw [nest?_append, Option.bind_eq_some_iff] at hnest
  obtain ⟨depth, hfront, hback⟩ := hnest
  have hsplit : s.Split (d.offset, .declares d) (pre ++ (o, .opens) :: front)
      (back ++ (c, .closes) :: rest) :=
    split_of_eq (by simp [hcloses.eq]) (mem_declarations_lt hd)
  have hblocks := blocks_of_split hsplit hfront (mem_declarations_lt hd) hplain
  have hread : scopesOf (pre ++ (o, .opens) :: (front ++ (d.offset, .declares d) :: back)) =
      readFrom ((scopesOf (pre ++ (o, .opens) :: front)).apply d) back := by
    rw [← List.cons_append, ← List.append_assoc]
    exact readFrom_append .start _ _
  have hbehind : nest? (depth + 1) back = some (0 + 1) := nest?_add hback 1
  obtain ⟨depth', hnest'⟩ := hcloses.exists_nest? hcr hend hr.lt_size
  have hholds := (((hblocks.holds_apply hscope hname).readFrom hbehind).pop).readFrom hnest'
  rw [hides, hcloses.scopesAt hcr, hread]
  exact hholds.isDeclared r.offset

/-! ## Leaving out a piece of a block -/

/-- Where an offset comes to stand when `width` bytes from `start` on are left out. -/
def leftOut (start width i : Nat) : Nat := if i < start then i else max start (i - width)

theorem leftOut_lt_leftOut {start width i : Nat} (hi : start + width ≤ i) (j : Nat) :
    leftOut start width i < leftOut start width j ↔ i < j := by
  unfold leftOut
  split <;> split <;> omega

theorem leftOut_of_le {start width i : Nat} (hi : start + width ≤ i) :
    leftOut start width i = i - width := by
  unfold leftOut
  split <;> omega

/-- A piece of a block, without which the body around the block is read the same. -/
structure LeavesOut (front piece back : Text) (o c : Nat) : Prop where
  opens_lt : o < front.length
  le_closes : front.length + piece.length ≤ c
  encloses : (ofText .code (front ++ (piece ++ back))).Encloses o c
  encloses' : (ofText .code (front ++ back)).Encloses o (c - piece.length)
  before : (ofText .code (front ++ back)).scopeEvents.filter (fun x => x.1 < o) =
    ((ofText .code (front ++ (piece ++ back))).scopeEvents.filter (fun x => x.1 < o)).map fun x =>
      (leftOut front.length piece.length x.1, x.2.moved (leftOut front.length piece.length))
  behind : (ofText .code (front ++ back)).scopeEvents.filter (fun x => c - piece.length ≤ x.1) =
    ((ofText .code (front ++ (piece ++ back))).scopeEvents.filter (fun x => c ≤ x.1)).map fun x =>
      (leftOut front.length piece.length x.1, x.2.moved (leftOut front.length piece.length))
  masked : ∀ k, (ofText .code (front ++ back)).isMasked (front.length + k) =
    (ofText .code (front ++ (piece ++ back))).isMasked (front.length + piece.length + k)

namespace LeavesOut

variable {front piece back : Text} {o c : Nat} (h : LeavesOut front piece back o c)
include h

theorem shifted : Shifted (ofText .code (front ++ (piece ++ back))) (ofText .code (front ++ back))
    (front.length + piece.length) front.length where
  le := by simp [size_ofText, ← Nat.add_assoc]
  size_eq := by
    simp only [size_ofText, List.length_append]
    omega
  byte? k := by
    rw [byte?_ofText, byte?_ofText, ← List.append_assoc,
      ← List.length_append, List.getElem?_append_right (by omega), List.getElem?_append_right (by omega)]
    simp
  isMasked := h.masked

/-- What stands behind the block is the same without the piece. -/
theorem stands_iff {r : Reference} (hr : c < r.offset) :
    r.Stands (ofText .code (front ++ (piece ++ back))) ↔
      Reference.Stands (ofText .code (front ++ back)) { r with offset := r.offset - piece.length } := by
  have hle := h.le_closes
  obtain ⟨offset, width, n, form⟩ := r
  dsimp only at hr ⊢
  obtain ⟨k, rfl⟩ := Nat.exists_eq_add_of_le hle
  obtain ⟨j, rfl⟩ := Nat.exists_eq_add_of_le (show front.length + piece.length ≤ offset by omega)
  have hclose := (liveByte?_eq_some (nest?_closingBrace? h.encloses.closes).2.1).2
  have hclose' := (liveByte?_eq_some (nest?_closingBrace? h.encloses'.closes).2.1).2
  rw [show front.length + piece.length + k - piece.length = front.length + k by omega] at hclose'
  rw [show front.length + piece.length + j - piece.length = front.length + j by omega]
  exact ⟨h.shifted.stands hclose (by omega), h.shifted.symm.stands hclose' (by omega)⟩

/-- If a parameter of a function waits for the block, the same is hidden behind it without the piece. -/
theorem hides_eq {n : Text} (hn : (ofText .code (front ++ (piece ++ back))).Waits o true n) {r : Reference}
    (hr : c < r.offset) : (ofText .code (front ++ back)).hides { r with offset := r.offset - piece.length } =
      (ofText .code (front ++ (piece ++ back))).hides r := by
  have hle := h.le_closes
  have hf (i j : Nat) (hi : c ≤ i) := leftOut_lt_leftOut (Nat.le_trans hle hi) j
  have hmoved := leftOut_of_le (Nat.le_trans hle (Nat.le_of_lt hr))
  have hbefore := h.before
  have hbehind := h.behind
  obtain ⟨pre, mid, rest, hopens, hcloses, hnest⟩ := exists_block h.encloses.opens h.encloses.closes
  obtain ⟨pre', mid', rest', hopens', hcloses', hnest'⟩ :=
    exists_block h.encloses'.opens h.encloses'.closes
  rw [hopens.filter_lt rfl, hopens'.filter_lt rfl] at hbefore
  rw [hcloses.filter_le rfl, hcloses'.filter_le rfl, List.map_cons] at hbehind
  obtain ⟨-, hrest⟩ := List.cons.inj hbehind
  -- in front of the block, and then behind it, both bodies have the same scopes
  have hfront : ScopeStack.AgreeBehind (leftOut front.length piece.length) c (scopesOf pre)
      (scopesOf pre') := by
    rw [hbefore]
    exact (ScopeStack.agreeBehind_start _ c).readFrom hf pre
  have hfunction := pendingFunction_scopesOf.2 ⟨n, (hopens.waitsBehind_iff rfl).2 hn⟩
  obtain ⟨hinner, hroot, hpending, hwaiting, htransient⟩ :=
    h.encloses.scopes hopens hcloses hnest hfunction
  obtain ⟨hinner', hroot', hpending', hwaiting', htransient'⟩ :=
    h.encloses'.scopes hopens' hcloses' hnest' (hfront.pendingFunction.trans hfunction)
  have hblock : ScopeStack.AgreeBehind (leftOut front.length piece.length) c
      (scopesOf (pre ++ (o, .opens) :: mid)).pop (scopesOf (pre' ++ (o, .opens) :: mid')).pop := by
    refine ⟨hinner'.trans (hfront.inner.trans hinner.symm), hroot'.trans (hfront.root.trans hroot.symm),
      hpending'.trans hpending.symm, hwaiting'.trans hwaiting.symm, fun m i hi => ?_⟩
    rw [htransient m i hi, ← hfront.transient m i hi]
    refine htransient' m _ ?_
    rw [leftOut_of_le (Nat.le_trans hle hi)]
    omega
  have hfilter : rest'.filter (fun x => x.1 ≤ r.offset - piece.length) =
      (rest.filter (fun x => x.1 ≤ r.offset)).map fun x =>
        (leftOut front.length piece.length x.1, x.2.moved (leftOut front.length piece.length)) := by
    rw [hrest, List.filter_map]
    congr 1
    refine List.filter_congr fun x _ => ?_
    have := hf r.offset x.1 (Nat.le_of_lt hr)
    rw [← hmoved]
    simp only [Function.comp_apply, decide_eq_decide]
    omega
  have hagree := (hblock.readFrom hf (rest.filter (fun x => x.1 ≤ r.offset))).isDeclared r.name
    (Nat.le_of_lt hr)
  rw [hides, hides, hcloses.scopesAt (Nat.le_of_lt hr), hcloses'.scopesAt (by dsimp only; omega), hfilter]
  rw [hmoved] at hagree
  exact hagree

end LeavesOut

/-- A variable is declared in a part of a body that stands in the block from `o` on, and in no block in
this block that is read as that of a function. -/
def DeclaresVariable (s : MaskedText) (o start stop : Nat) (n : Text) : Prop :=
  ∃ d ∈ s.declarations, d.scope = .function ∧ n ∈ d.names ∧ start ≤ d.offset ∧ d.offset < stop ∧
    ∀ k, o < k → k ≤ d.offset → s.liveByte? k = some Byte.lbrace → d.offset < s.blockEnd k →
      ∀ m, ¬ s.Waits k true m

/-- Behind a block that a parameter of a function waits for, names are qualified as they are without a
piece of the block, whatever it declares. Behind a block that none waits for, the variables of the piece
are not qualified up to the end of the block around it. -/
theorem isQualified_behind {front piece back : Text} {o c : Nat} (h : LeavesOut front piece back o c)
    {names : ResolvableNames} {parameters : List Text}
    (hnames : ∀ n ∈ candidates names parameters, n.isIdentifier = true) (context : BodyContext)
    {r : Reference} (hr : c < r.offset) :
    ((∃ n, (ofText .code (front ++ (piece ++ back))).Waits o true n) →
      (IsQualified (front ++ (piece ++ back)) names parameters context r ↔
        IsQualified (front ++ back) names parameters context
          { r with offset := r.offset - piece.length })) ∧
    ((∀ n, ¬ (ofText .code (front ++ (piece ++ back))).Waits o true n) →
      DeclaresVariable (ofText .code (front ++ (piece ++ back))) o front.length
        (front.length + piece.length) r.name →
      r.offset < (ofText .code (front ++ (piece ++ back))).blockEnd c →
      ¬ IsQualified (front ++ (piece ++ back)) names parameters context r) := by
  constructor
  · rintro ⟨n, hn⟩
    rw [isQualified_iff hnames, isQualified_iff hnames, h.stands_iff hr, h.hides_eq hn hr]
  · rintro hnone ⟨d, hd, hscope, hname, hstart, hstop, hplain⟩ hend hqualified
    have hle := h.opens_lt
    have hle' := h.le_closes
    have hhides := hides_of_function h.encloses.opens h.encloses.closes hd hscope (by omega) (by omega)
      (fun k hok hkd hlive hblock => ?_) hqualified.stands.1 hname (Nat.le_of_lt hr) hend
    · rw [hides_of_isQualified hqualified] at hhides
      cases hhides
    · rcases Nat.eq_or_lt_of_le hok with rfl | hlt
      · exact hnone
      · exact hplain k hlt hkd hlive hblock

/-! ## A variable in the block of a function -/

deriving instance DecidableEq for Event

/-- A function up to the variable that it declares, with its parameters. -/
def sampleFunction (parameters : Text) : Text :=
  "\x7b f(function(" ++ parameters ++ ") \x7b "

def sampleVariable : Text := "var x = 1;"

def sampleBehind : Text := " \x7d); x; \x7d"

/-- The events of the function without parameters, and without its variable. -/
theorem scopeEvents_sampleFunction :
    (MaskedText.ofText .code (sampleFunction [] ++ (sampleVariable ++ sampleBehind))).scopeEvents =
      [(0, .opens), (15, .opens), (17, .declares ⟨17, ["x"], .function⟩), (28, .closes), (35, .closes)] ∧
    (MaskedText.ofText .code (sampleFunction [] ++ sampleBehind)).scopeEvents =
      [(0, .opens), (15, .opens), (18, .closes), (25, .closes)] :=
  ⟨scopeEvents_eq_of_perm [⟨17, ["x"], .function⟩] (by decide +kernel) (by decide +kernel) (by decide),
    scopeEvents_eq_of_perm [] (by decide +kernel) (by decide +kernel) (by decide)⟩

/-- The events of the function with a parameter, and without its variable. -/
theorem scopeEvents_sampleFunction_parameter :
    (MaskedText.ofText .code (sampleFunction "a" ++ (sampleVariable ++ sampleBehind))).scopeEvents =
      [(0, .opens), (4, .declares ⟨4, ["a"], .parameters true⟩), (16, .opens),
        (18, .declares ⟨18, ["x"], .function⟩), (29, .closes), (36, .closes)] ∧
    (MaskedText.ofText .code (sampleFunction "a" ++ sampleBehind)).scopeEvents =
      [(0, .opens), (4, .declares ⟨4, ["a"], .parameters true⟩), (16, .opens), (19, .closes),
        (26, .closes)] :=
  ⟨scopeEvents_eq_of_perm [⟨18, ["x"], .function⟩, ⟨4, ["a"], .parameters true⟩]
      (by decide +kernel) (by decide +kernel) (by decide),
    scopeEvents_eq_of_perm [⟨4, ["a"], .parameters true⟩] (by decide +kernel) (by decide +kernel)
      (by decide)⟩

theorem isMasked_of_all {t : Text} (h : (Mask.ofText .code t).all (!·) = true) (k : Nat) :
    (MaskedText.ofText .code t).isMasked k = false := by
  rw [isMasked_eq_getD]
  cases hk : (Mask.ofText .code t)[k]? with
  | none => rfl
  | some b => simpa using List.all_eq_true.1 h b (List.mem_of_getElem? hk)

theorem encloses_of_scopeEvents {s : MaskedText} {es : List (Nat × Event)} {o c : Nat}
    (hes : s.scopeEvents = es) (hopens : s.liveByte? o = some Byte.lbrace)
    (hcloses : s.closingBrace? o = some c)
    (hdeclares : ∀ x ∈ es, ∀ d, x.2 = .declares d → d.scope = .function ∨
      d.offset < o ∧ ∃ function, d.scope = .parameters function) : s.Encloses o c := by
  have hscope {d : LocalDeclaration} (hd : d ∈ s.declarations) := hdeclares (d.offset, .declares d)
    (hes ▸ declares_mem_scopeEvents.2 ⟨hd, rfl⟩) d rfl
  refine ⟨hopens, hcloses, ?_, fun d hd _ _ stop hstop => ?_⟩
  · rintro function n ⟨d, hd, hparameters, -, -, hfree⟩
    rcases hscope hd with hfunction | ⟨hlt, -⟩
    · rw [hfunction] at hparameters
      cases hparameters
    · exact hfree o hlt (nest?_closingBrace? hcloses).1 hopens
  · rcases hscope hd with hfunction | ⟨-, function, hparameters⟩
    · rw [hfunction] at hstop
      cases hstop
    · rw [hparameters] at hstop
      cases hstop

/-- The variable can be left out. -/
theorem leavesOut_sampleVariable :
    LeavesOut (sampleFunction []) sampleVariable sampleBehind 15 28 ∧
      LeavesOut (sampleFunction "a") sampleVariable sampleBehind 16 29 := by
  obtain ⟨hevents, hevents'⟩ := scopeEvents_sampleFunction
  obtain ⟨hparameter, hparameter'⟩ := scopeEvents_sampleFunction_parameter
  constructor
  · refine ⟨by decide, by decide, encloses_of_scopeEvents hevents (by decide) (by decide) (by simp),
      encloses_of_scopeEvents hevents' (by decide) (by decide) (by simp), ?_, ?_, fun k => ?_⟩
    · rw [hevents, hevents']
      rfl
    · rw [hevents, hevents']
      rfl
    · rw [isMasked_of_all (by decide), isMasked_of_all (by decide)]
  · refine ⟨by decide, by decide, encloses_of_scopeEvents hparameter (by decide) (by decide) (by simp),
      encloses_of_scopeEvents hparameter' (by decide) (by decide) (by simp), ?_, ?_, fun k => ?_⟩
    · rw [hparameter, hparameter']
      rfl
    · rw [hparameter, hparameter']
      rfl
    · rw [isMasked_of_all (by decide), isMasked_of_all (by decide)]

/-- Without a parameter the variable hides the member behind the function, and with one it does not. -/
theorem isQualified_behind_sampleVariable :
    (LeavesOut (sampleFunction []) sampleVariable sampleBehind 15 28 ∧
      ¬ IsQualified (sampleFunction [] ++ (sampleVariable ++ sampleBehind)) ⟨["x"], []⟩ [] .instanced
        ⟨32, 1, "x", .bare⟩ ∧
      IsQualified (sampleFunction [] ++ sampleBehind) ⟨["x"], []⟩ [] .instanced ⟨22, 1, "x", .bare⟩) ∧
    (LeavesOut (sampleFunction "a") sampleVariable sampleBehind 16 29 ∧
      IsQualified (sampleFunction "a" ++ (sampleVariable ++ sampleBehind)) ⟨["x"], []⟩ [] .instanced
        ⟨33, 1, "x", .bare⟩ ∧
      IsQualified (sampleFunction "a" ++ sampleBehind) ⟨["x"], []⟩ [] .instanced
        ⟨23, 1, "x", .bare⟩) := by
  obtain ⟨hleaves, hleaves'⟩ := leavesOut_sampleVariable
  obtain ⟨hevents, hevents'⟩ := scopeEvents_sampleFunction
  obtain ⟨hparameter, hparameter'⟩ := scopeEvents_sampleFunction_parameter
  have hnames : ∀ n ∈ candidates ⟨["x"], []⟩ [], n.isIdentifier = true := fun n hn => by
    obtain rfl : n = "x" := by simpa using (mem_candidates_iff.1 hn).1
    decide
  -- without the variable nothing hides the member
  have hvisible : IsQualified (sampleFunction [] ++ sampleBehind) ⟨["x"], []⟩ [] .instanced
      ⟨22, 1, "x", .bare⟩ := by
    have hstands : Reference.Stands (.ofText .code (sampleFunction [] ++ sampleBehind))
        ⟨22, 1, "x", .bare⟩ :=
      ⟨by decide, by decide, by decide, by decide, by decide, by decide⟩
    refine isQualified_of_visible hstands (by decide) ?_
    rw [hides, scopesAt, hevents']
    rfl
  have hvisible' : IsQualified (sampleFunction "a" ++ sampleBehind) ⟨["x"], []⟩ [] .instanced
      ⟨23, 1, "x", .bare⟩ := by
    have hstands : Reference.Stands (.ofText .code (sampleFunction "a" ++ sampleBehind))
        ⟨23, 1, "x", .bare⟩ :=
      ⟨by decide, by decide, by decide, by decide, by decide, by decide⟩
    refine isQualified_of_visible hstands (by decide) ?_
    rw [hides, scopesAt, hparameter']
    rfl
  have hnone (k : Nat) (function : Bool) (n : Text) : ¬ (MaskedText.ofText .code (sampleFunction [] ++
      (sampleVariable ++ sampleBehind))).Waits k function n := by
    rintro ⟨d, hd, hscope, -⟩
    have hevent := declares_mem_scopeEvents.2 ⟨hd, rfl⟩
    rw [hevents] at hevent
    simp_all
  have hvariable : (⟨17, ["x"], .function⟩ : LocalDeclaration) ∈ (MaskedText.ofText .code
      (sampleFunction [] ++ (sampleVariable ++ sampleBehind))).declarations :=
    (declares_mem_scopeEvents (i := 17)).1 (by simp [hevents]) |>.1
  have hfirst : (⟨4, ["a"], .parameters true⟩ : LocalDeclaration) ∈ (MaskedText.ofText .code
      (sampleFunction "a" ++ (sampleVariable ++ sampleBehind))).declarations :=
    (declares_mem_scopeEvents (i := 4)).1 (by simp [hparameter]) |>.1
  have hfree : ∀ i < 16, 4 < i → (MaskedText.ofText .code (sampleFunction "a" ++
      (sampleVariable ++ sampleBehind))).liveByte? i ≠ some Byte.lbrace := by decide
  refine ⟨⟨hleaves, ?_, hvisible⟩, hleaves', ?_, hvisible'⟩
  · exact (isQualified_behind hleaves hnames .instanced (r := ⟨32, 1, "x", .bare⟩) (by decide)).2
      (hnone 15 true) ⟨_, hvariable, rfl, by simp, by decide, by decide,
        fun k _ _ _ _ => hnone k true⟩ (by decide)
  · exact ((isQualified_behind hleaves' hnames .instanced (r := ⟨33, 1, "x", .bare⟩) (by decide)).1
      ⟨"a", _, hfirst, rfl, by simp, by decide, fun i h4 h16 => hfree i h16 h4⟩).2 hvisible'

end Qualify

end PageLang
