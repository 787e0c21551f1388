import PageLang.Proofs.Qualify.Visible
import PageLang.Proofs.Script.Frames

/-!
# Names in their blocks

Behind an event of a body, the events that follow close no block that they did not open up to the brace
that closes the block around them: `nest?` counts the open blocks, as the search for the closing brace
does (`exists_nest?_braces`). So what one event does to the frames is carried through a block
(`Holds.readFrom`), and a declaration hides its names up to the end of its block.

* `MaskedText.blockEnd`: the offset of the brace that closes a block.
* `MaskedText.exists_split`: the events of a body around one of them.
* `hides_of_block`: what a declaration hides, and up to where.
* `not_hides`: a name that is not declared is not hidden.
-/

namespace PageLang

open Qualify

namespace Qualify

/-! ## Reading events -/

/-- The scopes behind events that are read from the scopes `s` on. -/
def readFrom (s : ScopeStack) (events : List (Nat × Event)) : ScopeStack :=
  events.foldl (fun scopes x => x.2.scopes scopes) s

theorem readFrom_append (s : ScopeStack) (es es' : List (Nat × Event)) :
    readFrom s (es ++ es') = readFrom (readFrom s es) es' := List.foldl_append

theorem readFrom_cons (s : ScopeStack) (x : Nat × Event) (es : List (Nat × Event)) :
    readFrom s (x :: es) = readFrom (x.2.scopes s) es := rfl

/-- Whether an event is a brace. -/
def Event.isBrace : Event → Bool
  | .opens | .closes => true
  | _ => false

/-- The number of open blocks behind events, where `depth` blocks are open in front of them, unless
they close another block. -/
def nest? : (depth : Nat) → List (Nat × Event) → Option Nat
  | depth, [] => some depth
  | depth, (_, .opens) :: es => nest? (depth + 1) es
  | 0, (_, .closes) :: _ => none
  | depth + 1, (_, .closes) :: es => nest? depth es
  | depth, (_, .declares _) :: es | depth, (_, .refers _) :: es => nest? depth es

/-- Only braces count. -/
theorem nest?_filter (depth : Nat) (es : List (Nat × Event)) :
    nest? depth (es.filter (fun x => x.2.isBrace)) = nest? depth es := by
  induction es generalizing depth with
  | nil => rfl
  | cons x es ih =>
    obtain ⟨i, e⟩ := x
    cases e with
    | opens => exact ih (depth + 1)
    | closes =>
      cases depth with
      | zero => rfl
      | succ depth => exact ih depth
    | declares d => exact ih depth
    | refers r => exact ih depth

theorem nest?_append (depth : Nat) (es es' : List (Nat × Event)) :
    nest? depth (es ++ es') = (nest? depth es).bind (nest? · es') := by
  induction es generalizing depth with
  | nil => rfl
  | cons x es ih =>
    obtain ⟨i, e⟩ := x
    cases e with
    | opens => exact ih (depth + 1)
    | closes =>
      cases depth with
      | zero => rfl
      | succ depth => exact ih depth
    | declares d => exact ih depth
    | refers r => exact ih depth

/-- Blocks that are open in front of events and are not closed by them do not matter. -/
theorem nest?_add {depth depth' : Nat} {es : List (Nat × Event)} (h : nest? depth es = some depth')
    (k : Nat) : nest? (depth + k) es = some (depth' + k) := by
  induction es generalizing depth with
  | nil =>
    cases h
    rfl
  | cons x es ih =>
    obtain ⟨i, e⟩ := x
    cases e with
    | opens =>
      rw [nest?, Nat.add_right_comm]
      exact ih h
    | closes =>
      cases depth with
      | zero => cases h
      | succ depth =>
        rw [Nat.add_right_comm]
        exact ih h
    | declares d => exact ih h
    | refers r => exact ih h

end Qualify

namespace ScopeStack

variable {s : ScopeStack} {depth depth' : Nat} {n : Text} {es : List (Nat × Event)}

/-- A name is held while no more than `depth` blocks are closed. -/
theorem Holds.readFrom (h : s.Holds depth n) (hnest : nest? depth es = some depth') :
    (readFrom s es).Holds depth' n := by
  induction es generalizing s depth with
  | nil =>
    cases hnest
    exact h
  | cons x es ih =>
    obtain ⟨i, e⟩ := x
    cases e with
    | opens => exact ih h.push hnest
    | closes =>
      cases depth with
      | zero => cases hnest
      | succ depth => exact ih h.pop hnest
    | declares d => exact ih (h.apply d) hnest
    | refers r => exact ih h hnest

/-- Behind a block as many frames are left as were in front of it. -/
theorem length_inner_readFrom {k : Nat} (hnest : nest? depth es = some depth')
    (hlength : s.inner.length = k + depth) : (readFrom s es).inner.length = k + depth' := by
  induction es generalizing s depth with
  | nil =>
    cases hnest
    exact hlength
  | cons x es ih =>
    obtain ⟨i, e⟩ := x
    cases e with
    | opens =>
      obtain ⟨f, hinner, -⟩ := s.inner_push
      exact ih (s := s.push) hnest (by rw [hinner, List.length_cons, hlength, Nat.add_assoc])
    | closes =>
      cases depth with
      | zero => cases hnest
      | succ depth => exact ih (s := s.pop) hnest (by rw [pop, List.length_tail, hlength]; rfl)
    | declares d =>
      have := congrArg List.length (s.map_function_apply d)
      rw [List.length_map, List.length_map] at this
      exact ih hnest (this.trans hlength)
    | refers r => exact ih hnest hlength

theorem Inside.readFrom {outer : List Frame} (h : s.Inside depth outer)
    (hnest : nest? depth es = some depth') :
    (readFrom s es).Inside depth' outer ∧ (readFrom s es).root = s.root := by
  induction es generalizing s depth with
  | nil =>
    cases hnest
    exact ⟨h, rfl⟩
  | cons x es ih =>
    obtain ⟨i, e⟩ := x
    cases e with
    | opens =>
      obtain ⟨hinside, hroot⟩ := ih h.push.1 hnest
      exact ⟨hinside, hroot.trans h.push.2⟩
    | closes =>
      cases depth with
      | zero => cases hnest
      | succ depth => exact ih h.pop hnest
    | declares d =>
      obtain ⟨hinside, hroot⟩ := ih (h.apply d).1 hnest
      exact ⟨hinside, hroot.trans (h.apply d).2⟩
    | refers r => exact ih h hnest

theorem Only.readFrom {P : Text → Prop} (h : s.Only P)
    (hnames : ∀ i d, (i, .declares d) ∈ es → ∀ n ∈ d.names, P n) : (readFrom s es).Only P := by
  induction es generalizing s with
  | nil => exact h
  | cons x es ih =>
    obtain ⟨i, e⟩ := x
    have hnames' := fun j d hd => hnames j d (.tail _ hd)
    cases e with
    | opens => exact ih h.push hnames'
    | closes => exact ih h.pop hnames'
    | declares d => exact ih (h.apply (hnames i d (.head _))) hnames'
    | refers r => exact ih h hnames'

end ScopeStack

namespace MaskedText

variable {s : MaskedText}

/-! ## The braces of a block -/

theorem braces_of_lbrace {i n : Nat} (h : s.liveByte? i = some Byte.lbrace) :
    s.braces i (n + 1) = (i, .opens) :: s.braces (i + 1) n := by
  rw [braces, h]
  rfl

theorem braces_of_rbrace {i n : Nat} (h : s.liveByte? i = some Byte.rbrace) :
    s.braces i (n + 1) = (i, .closes) :: s.braces (i + 1) n := by
  rw [braces, h]
  rfl

theorem braces_of_ne {i n : Nat} (hl : s.liveByte? i ≠ some Byte.lbrace)
    (hr : s.liveByte? i ≠ some Byte.rbrace) : s.braces i (n + 1) = s.braces (i + 1) n := by
  rw [braces]
  split
  · exact absurd ‹_› hl
  · exact absurd ‹_› hr
  · rfl

theorem braces_add (s : MaskedText) (i m n : Nat) :
    s.braces i (m + n) = s.braces i m ++ s.braces (i + m) n := by
  induction m generalizing i with
  | zero => simp [braces]
  | succ m ih =>
    rw [Nat.succ_add_eq_add_succ, Nat.add_succ]
    rw [braces, braces, ih, show i + 1 + m = i + (m + 1) by omega]
    split <;> rfl

/-- The offset of the brace that closes the block around what stands behind an offset. If there is
none, the block is the whole body. -/
def blockEnd (s : MaskedText) (i : Nat) : Nat := (s.closingBrace? i).getD s.size

/-- Braces in front of the brace that closes `depth + 1` blocks close `depth` blocks at most. -/
theorem exists_nest?_braces {depth i m n : Nat} (hle : i + m ≤ (s.closing? (· == Byte.lbrace)
    (· == Byte.rbrace) (depth + 1) i n).getD (i + n)) :
    ∃ depth', nest? depth (s.braces i m) = some depth' := by
  induction m generalizing depth i n with
  | zero => exact ⟨depth, rfl⟩
  | succ m ih =>
    cases n with
    | zero =>
      simp only [closing?, Option.getD_none] at hle
      omega
    | succ n =>
      have hsucc (k : Nat) : (s.closing? (· == Byte.lbrace) (· == Byte.rbrace) k (i + 1) n).getD
          (i + (n + 1)) = (s.closing? (· == Byte.lbrace) (· == Byte.rbrace) k (i + 1) n).getD
          (i + 1 + n) := by rw [show i + (n + 1) = i + 1 + n by omega]
      rw [closing?] at hle
      cases hlive : s.liveByte? i with
      | none =>
        simp only [hlive, hsucc] at hle
        rw [braces_of_ne (by simp [hlive]) (by simp [hlive])]
        exact ih (n := n) (by omega)
      | some b =>
        simp only [hlive, beq_iff_eq] at hle
        split at hle
        · next hb =>
          subst hb
          rw [hsucc] at hle
          rw [braces_of_lbrace hlive]
          exact @ih (depth + 1) _ n (by omega)
        · next hl =>
          split at hle
          · next hr =>
            subst hr
            rw [braces_of_rbrace hlive]
            split at hle
            · simp only [Option.getD_some] at hle
              omega
            · next hdepth =>
              obtain ⟨depth, rfl⟩ : ∃ k, depth = k + 1 := ⟨depth - 1, by omega⟩
              rw [hsucc, Nat.add_sub_cancel] at hle
              exact @ih depth _ n (by omega)
          · next hr =>
            rw [hsucc] at hle
            rw [braces_of_ne (by simpa [hlive] using hl) (by simpa [hlive] using hr)]
            exact ih (n := n) (by omega)

/-- Up to the brace that closes `depth + 1` blocks, the others are closed. -/
theorem nest?_of_closing? {depth i j n : Nat} (h : s.closing? (· == Byte.lbrace)
    (· == Byte.rbrace) (depth + 1) i n = some j) :
    i ≤ j ∧ s.liveByte? j = some Byte.rbrace ∧ nest? depth (s.braces i (j - i)) = some 0 := by
  induction n generalizing depth i with
  | zero => cases h
  | succ n ih =>
    -- the events at the first offset, and then those behind it
    have hstep (e : List (Nat × Event)) {depth depth' : Nat}
        (h : s.closing? (· == Byte.lbrace) (· == Byte.rbrace) (depth + 1) (i + 1) n = some j)
        (he : ∀ m, s.braces i (m + 1) = e ++ s.braces (i + 1) m) (hnest : nest? depth' e = some depth) :
        i ≤ j ∧ s.liveByte? j = some Byte.rbrace ∧ nest? depth' (s.braces i (j - i)) = some 0 := by
      obtain ⟨hle, hj, hnest'⟩ := ih h
      refine ⟨by omega, hj, ?_⟩
      rw [show j - i = j - (i + 1) + 1 by omega, he, nest?_append, hnest]
      exact hnest'
    rw [closing?] at h
    cases hlive : s.liveByte? i with
    | none =>
      rw [hlive] at h
      exact hstep [] h (fun m => braces_of_ne (by simp [hlive]) (by simp [hlive])) rfl
    | some b =>
      simp only [hlive, beq_iff_eq] at h
      split at h
      · next hl =>
        subst hl
        exact hstep [(i, .opens)] h (fun m => braces_of_lbrace hlive) rfl
      · next hl =>
        split at h
        · next hr =>
          subst hr
          split at h
          · obtain rfl := Option.some.inj h
            obtain rfl : depth = 0 := by omega
            exact ⟨Nat.le_refl _, hlive, by rw [Nat.sub_self]; rfl⟩
          · obtain ⟨depth, rfl⟩ : ∃ k, depth = k + 1 := ⟨depth - 1, by omega⟩
            exact hstep [(i, .closes)] h (fun m => braces_of_rbrace hlive) rfl
        · next hr =>
          exact hstep [] h
            (fun m => braces_of_ne (by simpa [hlive] using hl) (by simpa [hlive] using hr)) rfl

/-- The events up to the brace that closes a block close no block that they do not open. -/
theorem nest?_closingBrace? {o c : Nat} (h : s.closingBrace? o = some c) : o < c ∧
    s.liveByte? c = some Byte.rbrace ∧ nest? 0 (s.braces (o + 1) (c - (o + 1))) = some 0 :=
  nest?_of_closing? h

/-- Braces that close no block but those they open stand in front of the end of the block. -/
theorem le_blockEnd {k m depth : Nat} (h : nest? 0 (s.braces (k + 1) m) = some depth)
    (hsize : k + 1 + m ≤ s.size) : k + 1 + m ≤ s.blockEnd k := by
  unfold blockEnd
  cases hclose : s.closingBrace? k with
  | none => exact hsize
  | some e =>
    obtain ⟨hlt, hlive, hnest⟩ := nest?_closingBrace? hclose
    refine Nat.le_of_not_lt fun hend => ?_
    simp only [Option.getD_some] at hend
    rw [show m = (e - (k + 1)) + (m - (e - (k + 1)) - 1 + 1) by omega, braces_add, nest?_append, hnest,
      Option.bind_some, show k + 1 + (e - (k + 1)) = e by omega, braces_of_rbrace hlive] at h
    cases h

/-! ## The events around one of them -/

theorem isBrace_of_mem_braces {i m : Nat} {x : Nat × Event} (hx : x ∈ s.braces i m) :
    x.2.isBrace = true := by
  obtain ⟨-, -, ⟨-, he⟩ | ⟨-, he⟩⟩ := mem_braces.1 hx <;> rw [he] <;> rfl

theorem mem_scopeEvents {x : Nat × Event} : x ∈ s.scopeEvents ↔
    x ∈ s.braces 0 s.size ∨ ∃ d ∈ s.declarations, (d.offset, .declares d) = x := by
  rw [scopeEvents, sortedBy, (List.mergeSort_perm _ _).mem_iff, scopeMarks, List.mem_append,
    List.mem_map]

theorem mem_declarations_lt {d : LocalDeclaration} (hd : d ∈ s.declarations) : d.offset < s.size := by
  obtain ⟨range, -, hd⟩ := List.mem_flatMap.1 hd
  rw [MaskedText.locals, (List.mergeSort_perm _ _).mem_iff, List.mem_filter] at hd
  have hlive := (Bool.and_eq_true_iff.1 hd.2).1
  exact of_decide_eq_true (Bool.and_eq_true_iff.1 hlive).1

/-- At one offset the brace comes first. -/
theorem pairwise_scopeEvents (s : MaskedText) : s.scopeEvents.Pairwise (fun x y =>
    x.1 ≤ y.1 ∧ (x.1 = y.1 → (!x.2.isBrace) = true → (!y.2.isBrace) = true)) := by
  refine pairwise_sortedBy_append Prod.fst (p := fun x : Nat × Event => !x.2.isBrace)
    (fun x hx => ?_) fun x hx => ?_
  · simp [isBrace_of_mem_braces hx]
  · obtain ⟨d, -, rfl⟩ := List.mem_map.1 hx
    rfl

/-- The braces among the events. -/
theorem filter_scopeEvents (s : MaskedText) :
    s.scopeEvents.filter (fun x => x.2.isBrace) = s.braces 0 s.size := by
  have hfilter := filter_sortedBy_append (l := s.braces 0 s.size)
    (m := s.declarations.map (fun d => (d.offset, Event.declares d))) Prod.fst
    (p := fun x : Nat × Event => !x.2.isBrace)
    (fun x hx => by simp [isBrace_of_mem_braces hx]) fun x hx => by
      obtain ⟨d, -, rfl⟩ := List.mem_map.1 hx
      rfl
  simp only [Bool.not_not] at hfilter
  refine hfilter.trans ?_
  refine (List.mergeSort_perm _ _).eq_of_pairwise (fun x y hx hy hxy hyx => ?_)
    (pairwise_sortedBy Prod.fst _) ((s.pairwise_braces 0 s.size).imp Nat.le_of_lt)
  exact Script.eq_of_fst_eq (s.pairwise_braces 0 s.size) ((List.mergeSort_perm _ _).mem_iff.1 hx) hy
    (Nat.le_antisymm hxy hyx)

/-- Of the braces, those behind an offset. -/
theorem filter_braces {k : Nat} (hk : k < s.size) :
    (s.braces 0 s.size).filter (fun x => k < x.1) = s.braces (k + 1) (s.size - (k + 1)) := by
  have hsize : s.size = (k + 1) + (s.size - (k + 1)) := by omega
  conv_lhs => rw [hsize, braces_add, Nat.zero_add, List.filter_append]
  have hnone : (s.braces 0 (k + 1)).filter (fun x => k < x.1) = [] := by
    refine List.filter_eq_nil_iff.2 fun x hx => ?_
    have := (mem_braces.1 (show (x.1, x.2) ∈ _ from hx)).2.1
    simp only [decide_eq_true_eq]
    omega
  have hall : (s.braces (k + 1) (s.size - (k + 1))).filter (fun x => k < x.1) =
      s.braces (k + 1) (s.size - (k + 1)) := by
    refine List.filter_eq_self.2 fun x hx => ?_
    have := (mem_braces.1 (show (x.1, x.2) ∈ _ from hx)).1
    simp only [decide_eq_true_eq]
    omega
  rw [hnone, hall, List.nil_append]

/-- Of the braces behind an offset, those up to another one. -/
theorem filter_braces_le {k x : Nat} (hle : k ≤ x) (hx : x < s.size) :
    (s.braces (k + 1) (s.size - (k + 1))).filter (fun y => y.1 ≤ x) = s.braces (k + 1) (x - k) := by
  have hsize : s.size - (k + 1) = (x - k) + (s.size - (x + 1)) := by omega
  rw [hsize, braces_add, List.filter_append, show k + 1 + (x - k) = x + 1 by omega]
  have hall : (s.braces (k + 1) (x - k)).filter (fun y => y.1 ≤ x) = s.braces (k + 1) (x - k) := by
    refine List.filter_eq_self.2 fun y hy => ?_
    have := (mem_braces.1 (show (y.1, y.2) ∈ _ from hy)).2.1
    simp only [decide_eq_true_eq]
    omega
  have hnone : (s.braces (x + 1) (s.size - (x + 1))).filter (fun y => y.1 ≤ x) = [] := by
    refine List.filter_eq_nil_iff.2 fun y hy => ?_
    have := (mem_braces.1 (show (y.1, y.2) ∈ _ from hy)).1
    simp only [decide_eq_true_eq]
    omega
  rw [hall, hnone, List.append_nil]

/-- The events of a body in front of one of them and behind it. -/
structure Split (s : MaskedText) (x : Nat × Event) (pre post : List (Nat × Event)) : Prop where
  eq : s.scopeEvents = pre ++ x :: post
  pre_le : ∀ y ∈ pre, y.1 ≤ x.1
  le_post : ∀ y ∈ post, x.1 ≤ y.1
  /-- Nothing in front of a brace stands at its offset. -/
  pre_lt : x.2.isBrace = true → ∀ y ∈ pre, y.1 < x.1
  braces : post.filter (fun y => y.2.isBrace) = s.braces (x.1 + 1) (s.size - (x.1 + 1))

theorem split_of_eq {x : Nat × Event} {pre post : List (Nat × Event)}
    (heq : s.scopeEvents = pre ++ x :: post) (hlt : x.1 < s.size) : s.Split x pre post := by
  have hsorted := s.pairwise_scopeEvents
  rw [heq, List.pairwise_append, List.pairwise_cons] at hsorted
  obtain ⟨-, ⟨hpost, -⟩, hpre⟩ := hsorted
  have hbraces := s.filter_scopeEvents
  rw [heq, List.filter_append, List.filter_cons] at hbraces
  have hstrict := s.pairwise_braces 0 s.size
  rw [← hbraces, List.pairwise_append] at hstrict
  obtain ⟨-, hstrict, hacross⟩ := hstrict
  -- no brace behind the event stands at its offset
  have hgt : ∀ y ∈ post.filter (fun y => y.2.isBrace), x.1 < y.1 := by
    intro y hy
    obtain ⟨hmem, hbrace⟩ := List.mem_filter.1 hy
    by_cases hx : x.2.isBrace = true
    · rw [if_pos hx, List.pairwise_cons] at hstrict
      exact hstrict.1 y hy
    · refine Nat.lt_of_le_of_ne (hpost y hmem).1 fun hsame => ?_
      have := (hpost y hmem).2 hsame (by simpa using hx)
      simp [hbrace] at this
  refine ⟨heq, fun y hy => (hpre y hy _ (.head _)).1, fun y hy => (hpost y hy).1,
    fun hx y hy => ?_, ?_⟩
  · obtain ⟨hle, hkind⟩ := hpre y hy _ (.head _)
    by_cases hbrace : y.2.isBrace = true
    · rw [if_pos hx] at hacross
      exact hacross y (List.mem_filter.2 ⟨hy, hbrace⟩) x (.head _)
    · refine Nat.lt_of_le_of_ne hle fun hsame => ?_
      have := hkind hsame (by simpa using hbrace)
      simp [hx] at this
  · have hnone : (pre.filter (fun y => y.2.isBrace)).filter (fun y => x.1 < y.1) = [] := by
      refine List.filter_eq_nil_iff.2 fun y hy => ?_
      have := (hpre y (List.mem_filter.1 hy).1 _ (.head _)).1
      simp only [decide_eq_true_eq]
      omega
    have hself : (post.filter (fun y => y.2.isBrace)).filter (fun y => x.1 < y.1) =
        post.filter (fun y => y.2.isBrace) :=
      List.filter_eq_self.2 fun y hy => by simpa using hgt y hy
    rw [← filter_braces hlt, ← hbraces, List.filter_append, hnone, List.nil_append]
    split
    · rw [List.filter_cons_of_neg (by simp), hself]
    · rw [hself]

theorem exists_split {x : Nat × Event} (hx : x ∈ s.scopeEvents) (hlt : x.1 < s.size) :
    ∃ pre post, s.Split x pre post := by
  obtain ⟨pre, post, heq⟩ := List.append_of_mem hx
  exact ⟨pre, post, split_of_eq heq hlt⟩

namespace Split

variable {x : Nat × Event} {pre post : List (Nat × Event)} (h : s.Split x pre post)
include h

theorem lt_post {y : Nat × Event} (hy : y ∈ post) (hbrace : y.2.isBrace = true) : x.1 < y.1 := by
  have hmem : y ∈ post.filter (fun y => y.2.isBrace) := List.mem_filter.2 ⟨hy, hbrace⟩
  rw [h.braces] at hmem
  exact (mem_braces.1 (show (y.1, y.2) ∈ _ from hmem)).1

/-- The events in front of a brace are those at smaller offsets. -/
theorem filter_lt (hx : x.2.isBrace = true) : s.scopeEvents.filter (fun y => y.1 < x.1) = pre := by
  have hpre : pre.filter (fun y => y.1 < x.1) = pre :=
    List.filter_eq_self.2 fun y hy => by simpa using h.pre_lt hx y hy
  have hpost : (x :: post).filter (fun y => y.1 < x.1) = [] := by
    refine List.filter_eq_nil_iff.2 (List.forall_mem_cons.2 ⟨by simp, fun y hy => ?_⟩)
    simpa using h.le_post y hy
  rw [h.eq, List.filter_append, hpre, hpost, List.append_nil]

/-- The events from a brace on are those from its offset on. -/
theorem filter_le (hx : x.2.isBrace = true) :
    s.scopeEvents.filter (fun y => x.1 ≤ y.1) = x :: post := by
  have hpre : pre.filter (fun y => x.1 ≤ y.1) = [] :=
    List.filter_eq_nil_iff.2 fun y hy => by simpa using h.pre_lt hx y hy
  have hpost : (x :: post).filter (fun y => x.1 ≤ y.1) = x :: post :=
    List.filter_eq_self.2 (List.forall_mem_cons.2 ⟨by simp, fun y hy => by simpa using h.le_post y hy⟩)
  rw [h.eq, List.filter_append, hpre, hpost, List.nil_append]

/-- The scopes at an offset behind an event. -/
theorem scopesAt {i : Nat} (hi : x.1 ≤ i) : s.scopesAt i =
    readFrom (x.2.scopes (scopesOf pre)) (post.filter (fun y => y.1 ≤ i)) := by
  have hpre : pre.filter (fun y => y.1 ≤ i) = pre := List.filter_eq_self.2 fun y hy => by
    have := h.pre_le y hy
    simp only [decide_eq_true_eq]
    omega
  rw [MaskedText.scopesAt, h.eq, List.filter_append, hpre, List.filter_cons_of_pos (by simpa using hi)]
  exact readFrom_append .start pre _

/-- The braces between two events, and the second one if it is a brace. -/
theorem braces_between {mid rest : List (Nat × Event)} {y : Nat × Event} (hpost : post = mid ++ y :: rest)
    (hy : y.1 < s.size) :
    (mid ++ [y]).filter (fun z => z.2.isBrace) = s.braces (x.1 + 1) (y.1 - x.1) := by
  have hsplit : s.Split y (pre ++ x :: mid) rest :=
    split_of_eq (by rw [h.eq, hpost]; simp) hy
  have hle : x.1 ≤ y.1 := hsplit.pre_le x (by simp)
  have hbraces := h.braces
  rw [hpost, List.append_cons, List.filter_append, hsplit.braces,
    show s.size - (x.1 + 1) = (y.1 - x.1) + (s.size - (y.1 + 1)) by omega, braces_add,
    show x.1 + 1 + (y.1 - x.1) = y.1 + 1 by omega] at hbraces
  exact List.append_cancel_right hbraces

/-- In the block around an event no more blocks are closed than are opened behind it. -/
theorem exists_nest? {i : Nat} (hi : x.1 ≤ i) (hlt : i < s.blockEnd x.1) (hsize : i < s.size) :
    ∃ depth, nest? 0 (post.filter (fun y => y.1 ≤ i)) = some depth := by
  have hbraces : (post.filter (fun y => y.1 ≤ i)).filter (fun y => y.2.isBrace) =
      s.braces (x.1 + 1) (i - x.1) := by
    rw [← filter_braces_le hi hsize, ← h.braces, List.filter_filter, List.filter_filter]
    congr 1
    funext y
    rw [Bool.and_comm]
  rw [← nest?_filter, hbraces]
  refine exists_nest?_braces (n := s.size - (x.1 + 1)) ?_
  rw [show x.1 + 1 + (s.size - (x.1 + 1)) = s.size by omega]
  have hclose : s.blockEnd x.1 = (s.closing? (· == Byte.lbrace) (· == Byte.rbrace) (0 + 1)
      (x.1 + 1) (s.size - (x.1 + 1))).getD s.size := rfl
  omega

end Split

theorem opens_mem_scopeEvents {o : Nat} :
    (o, Event.opens) ∈ s.scopeEvents ↔ s.liveByte? o = some Byte.lbrace := by
  rw [mem_scopeEvents]
  constructor
  · rintro (hbrace | ⟨d, -, heq⟩)
    · obtain ⟨-, -, ⟨hlive, -⟩ | ⟨-, he⟩⟩ := mem_braces.1 hbrace
      · exact hlive
      · cases he
    · cases (Prod.mk.inj heq).2
  · intro hlive
    have hlt := byte?_eq_some_lt (liveByte?_eq_some hlive).2
    exact .inl (mem_braces.2 ⟨Nat.zero_le _, by omega, .inl ⟨hlive, rfl⟩⟩)

theorem declares_mem_scopeEvents {i : Nat} {d : LocalDeclaration} :
    (i, Event.declares d) ∈ s.scopeEvents ↔ d ∈ s.declarations ∧ i = d.offset := by
  rw [mem_scopeEvents]
  constructor
  · rintro (hbrace | ⟨d', hd', heq⟩)
    · cases isBrace_of_mem_braces hbrace
    · obtain ⟨rfl, he⟩ := Prod.mk.inj heq
      obtain rfl := Event.declares.inj he
      exact ⟨hd', rfl⟩
  · rintro ⟨hd, rfl⟩
    exact .inr ⟨d, hd, rfl⟩

/-- The events of a body in front of a block, in it and behind it. -/
theorem exists_block {o c : Nat} (ho : s.liveByte? o = some Byte.lbrace)
    (hclose : s.closingBrace? o = some c) : ∃ pre mid rest,
      s.Split (o, .opens) pre (mid ++ (c, .closes) :: rest) ∧
        s.Split (c, .closes) (pre ++ (o, .opens) :: mid) rest ∧ nest? 0 mid = some 0 := by
  obtain ⟨hlt, hc, hnest⟩ := nest?_closingBrace? hclose
  have hsize := byte?_eq_some_lt (liveByte?_eq_some hc).2
  obtain ⟨pre, post, hsplit⟩ := exists_split (opens_mem_scopeEvents.2 ho) (Nat.lt_trans hlt hsize)
  have hmem : (c, Event.closes) ∈ pre ++ (o, .opens) :: post := by
    rw [← hsplit.eq, mem_scopeEvents]
    exact .inl (mem_braces.2 ⟨Nat.zero_le _, by omega, .inr ⟨hc, rfl⟩⟩)
  rw [List.mem_append, List.mem_cons] at hmem
  rcases hmem with hmem | hmem | hmem
  · exact absurd (hsplit.pre_le _ hmem) (Nat.not_le_of_lt hlt)
  · cases (Prod.mk.inj hmem).2
  · obtain ⟨mid, rest, rfl⟩ := List.append_of_mem hmem
    refine ⟨pre, mid, rest, hsplit, split_of_eq (by simp [hsplit.eq]) hsize, ?_⟩
    have hbraces := hsplit.braces_between rfl hsize
    rw [List.filter_append, show c - o = (c - (o + 1)) + 1 by omega, braces_add,
      show o + 1 + (c - (o + 1)) = c by omega, braces_of_rbrace hc] at hbraces
    rw [← nest?_filter, List.append_inj_left' hbraces rfl]
    exact hnest

end MaskedText

/-! ## What declarations hide -/

namespace Qualify

open MaskedText

variable {s : MaskedText} {d : LocalDeclaration} {r : Reference}

theorem Reference.Stands.lt_size (h : r.Stands s) : r.offset < s.size := by
  have hle := h.le
  have hpos := h.pos
  omega

/-- A declaration in a block or in a function hides its names up to the end of the block. -/
theorem hides_of_block (hd : d ∈ s.declarations) (hscope : d.scope = .block ∨ d.scope = .function)
    (hr : r.Stands s) (hname : r.name ∈ d.names) (hle : d.offset ≤ r.offset)
    (hlt : r.offset < s.blockEnd d.offset) : s.hides r = true := by
  obtain ⟨pre, post, hsplit⟩ := exists_split
    (mem_scopeEvents.2 (.inr ⟨d, hd, rfl⟩)) (mem_declarations_lt hd)
  obtain ⟨depth, hnest⟩ := hsplit.exists_nest? hle hlt hr.lt_size
  have hholds := (ScopeStack.holds_apply hscope hname (scopesOf pre)).readFrom hnest
  rw [hides, hsplit.scopesAt hle]
  exact hholds.isDeclared r.offset

/-- A name that no declaration binds is not hidden. -/
theorem not_hides (h : ∀ d ∈ s.declarations, r.name ∉ d.names) : s.hides r = false := by
  have hnames : ∀ i d, (i, Event.declares d) ∈ s.scopeEvents.filter (fun x => x.1 ≤ r.offset) →
      ∀ n ∈ d.names, n ≠ r.name := by
    intro i d hd n hn heq
    rcases mem_scopeEvents.1 (List.mem_filter.1 hd).1 with hbraces | ⟨d', hd', heq'⟩
    · have := isBrace_of_mem_braces hbraces
      cases this
    · obtain rfl : d' = d := Event.declares.inj (Prod.mk.inj heq').2
      exact h d' hd' (heq ▸ hn)
  exact ((ScopeStack.only_start _).readFrom hnames).isDeclared (fun hne => hne rfl) r.offset

end Qualify

end PageLang
