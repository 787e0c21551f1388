import PageLang.Proofs.Qualify.Blocks

/-!
# Names that wait for a block

Parameters wait for the next block that opens. So the names that wait behind events are the parameters
with no block opened behind them (`mem_pending_scopesOf`), and a block is read as that of a function if
and only if a parameter of a function waits for it (`exists_opens_of_function`): a function without
parameters has a block like any other.

* `MaskedText.Waits`: a parameter that waits for the brace at an offset.
* `hides_of_waits`: parameters are hidden in the block that they wait for.
-/

namespace PageLang

open MaskedText

namespace Qualify

variable {es : List (Nat × Event)} {function : Bool} {n : Text}

/-- A parameter with no block opened behind it. -/
def WaitsBehind (es : List (Nat × Event)) (function : Bool) (n : Text) : Prop :=
  ∃ pre i d post, es = pre ++ (i, .declares d) :: post ∧ d.scope = .parameters function ∧
    n ∈ d.names ∧ ∀ x ∈ post, x.2 ≠ .opens

theorem not_waitsBehind_nil : ¬ WaitsBehind [] function n := by
  rintro ⟨pre, i, d, post, heq, -⟩
  simp at heq

/-- What one more event does to the parameters that wait. -/
theorem waitsBehind_concat {x : Nat × Event} : WaitsBehind (es ++ [x]) function n ↔
    x.2 ≠ .opens ∧ WaitsBehind es function n ∨
      ∃ d, x.2 = .declares d ∧ d.scope = .parameters function ∧ n ∈ d.names := by
  constructor
  · rintro ⟨pre, i, d, post, heq, hscope, hn, hopens⟩
    rcases List.eq_nil_or_concat post with rfl | ⟨post, y, rfl⟩
    · obtain ⟨-, hx⟩ := List.append_inj' heq rfl
      obtain rfl := (List.cons.inj hx).1
      exact .inr ⟨d, rfl, hscope, hn⟩
    · rw [List.concat_eq_append] at heq hopens
      have heq : es ++ [x] = (pre ++ (i, .declares d) :: post) ++ [y] := by simpa using heq
      obtain ⟨rfl, hx⟩ := List.append_inj' heq rfl
      obtain rfl := (List.cons.inj hx).1
      exact .inl ⟨hopens x (by simp), pre, i, d, post, rfl, hscope, hn, fun z hz => hopens z (by simp [hz])⟩
  · rintro (⟨hx, pre, i, d, post, rfl, hscope, hn, hopens⟩ | ⟨d, hx, hscope, hn⟩)
    · exact ⟨pre, i, d, post ++ [x], by simp, hscope, hn,
        List.forall_mem_append.2 ⟨hopens, by simpa using hx⟩⟩
    · exact ⟨es, x.1, d, [], by rw [← hx], hscope, hn, by simp⟩

/-- The names that wait behind events are the parameters with no block opened behind them. -/
theorem mem_pending_scopesOf :
    n ∈ (scopesOf es).pending ↔ ∃ function, WaitsBehind es function n := by
  induction es using List.reverseRecOn with
  | nil => simp [scopesOf, ScopeStack.start, not_waitsBehind_nil]
  | append_singleton es x ih =>
    obtain ⟨i, e⟩ := x
    rw [scopesOf_append]
    simp only [waitsBehind_concat]
    cases e with
    | opens =>
      have : (scopesOf es).push.pending = [] := by
        unfold ScopeStack.push
        split <;> simp_all
      simp [Event.scopes, this]
    | closes => simpa [Event.scopes, ScopeStack.pop] using ih
    | declares d =>
      simp only [Event.scopes, ScopeStack.mem_pending_apply_iff, ih]
      simp [exists_or, and_comm]
    | refers r => simpa [Event.scopes] using ih

/-- The next block is that of a function if a parameter of a function waits for it. -/
theorem pendingFunction_scopesOf :
    (scopesOf es).pendingFunction = true ↔ ∃ n, WaitsBehind es true n := by
  induction es using List.reverseRecOn with
  | nil => simp [scopesOf, ScopeStack.start, not_waitsBehind_nil]
  | append_singleton es x ih =>
    obtain ⟨i, e⟩ := x
    rw [scopesOf_append]
    simp only [waitsBehind_concat]
    cases e with
    | opens =>
      -- where no name waits, no parameter of a function does
      have hnone : (scopesOf es).pending = [] → (scopesOf es).pendingFunction = false := by
        intro hpending
        refine Bool.eq_false_iff.2 fun hfunction => ?_
        obtain ⟨n, hn⟩ := ih.1 hfunction
        have := mem_pending_scopesOf.2 ⟨true, hn⟩
        simp [hpending] at this
      have : (scopesOf es).push.pendingFunction = false := by
        unfold ScopeStack.push
        split
        · exact hnone (by simp_all)
        · rfl
      simp [Event.scopes, this]
    | closes => simpa [Event.scopes, ScopeStack.pop] using ih
    | declares d =>
      simp only [Event.scopes, ScopeStack.pendingFunction_apply_iff, ih]
      simp only [ne_eq, reduceCtorEq, not_false_eq_true, true_and, Event.declares.injEq,
        exists_eq_left', exists_or, exists_and_left, List.eq_nil_iff_forall_not_mem, not_forall,
        not_not]
      rw [and_comm]
    | refers r => simpa [Event.scopes] using ih

/-- The frame of a function was opened by a block that a parameter of a function waited for. -/
theorem exists_opens_of_function {j : Nat} {f : Frame} (h : (scopesOf es).inner[j]? = some f)
    (hf : f.function = true) : ∃ pre k post n, es = pre ++ (k, .opens) :: post ∧
      nest? 0 post = some j ∧ WaitsBehind pre true n := by
  induction es using List.reverseRecOn generalizing j f with
  | nil => cases h
  | append_singleton es x ih =>
    obtain ⟨i, e⟩ := x
    -- one event behind those that the frame has seen
    have hbehind {j j' : Nat} {f : Frame} (h : (scopesOf es).inner[j]? = some f)
        (hf : f.function = true) (hnest : nest? j [(i, e)] = some j') :
        ∃ pre k post n, es ++ [(i, e)] = pre ++ (k, .opens) :: post ∧
          nest? 0 post = some j' ∧ WaitsBehind pre true n := by
      obtain ⟨pre, k, post, n, rfl, hpost, hn⟩ := ih h hf
      refine ⟨pre, k, post ++ [(i, e)], n, by simp, ?_, hn⟩
      rw [nest?_append, hpost]
      exact hnest
    rw [scopesOf_append] at h
    cases e with
    | opens =>
      obtain ⟨g, hinner, -, -, -, hfunction⟩ := (scopesOf es).inner_push
      rw [Event.scopes, hinner] at h
      cases j with
      | zero =>
        obtain rfl := Option.some.inj h
        rw [hf] at hfunction
        obtain ⟨n, hn⟩ := pendingFunction_scopesOf.1 (Bool.and_eq_true_iff.1 hfunction.symm).2
        exact ⟨es, i, [], n, rfl, rfl, hn⟩
      | succ j => exact hbehind h hf rfl
    | closes =>
      rw [Event.scopes, ScopeStack.pop, List.getElem?_tail] at h
      exact hbehind h hf rfl
    | declares d =>
      have hsame := congrArg (·[j]?) ((scopesOf es).map_function_apply d)
      simp only [List.getElem?_map, Event.scopes] at hsame h
      rw [h, Option.map_some, eq_comm, Option.map_eq_some_iff] at hsame
      obtain ⟨g, hg, hsame⟩ := hsame
      exact hbehind hg (hsame.trans hf) rfl
    | refers r => exact hbehind h hf rfl

end Qualify

namespace MaskedText

open Qualify

variable {s : MaskedText}

/-- A parameter that waits for the block that opens at an offset: it is declared in front of the brace,
and no other brace opens a block in between. -/
def Waits (s : MaskedText) (o : Nat) (function : Bool) (n : Text) : Prop :=
  ∃ d ∈ s.declarations, d.scope = .parameters function ∧ n ∈ d.names ∧ d.offset < o ∧
    ∀ i, d.offset < i → i < o → s.liveByte? i ≠ some Byte.lbrace

/-- The parameters that wait in front of a brace. -/
theorem Split.waitsBehind_iff {x : Nat × Event} {pre post : List (Nat × Event)} {function : Bool}
    {n : Text} (h : s.Split x pre post) (hx : x.2.isBrace = true) :
    WaitsBehind pre function n ↔ s.Waits x.1 function n := by
  constructor
  · rintro ⟨a, i, d, b, rfl, hscope, hn, hopens⟩
    obtain ⟨hd, rfl⟩ := declares_mem_scopeEvents.1 (show (i, Event.declares d) ∈ s.scopeEvents by simp [h.eq])
    have hdx : d.offset < x.1 := h.pre_lt hx (d.offset, .declares d) (by simp)
    refine ⟨d, hd, hscope, hn, hdx, fun k hdk hkx hlive => ?_⟩
    have hsplit : s.Split (d.offset, .declares d) a (b ++ x :: post) :=
      split_of_eq (by simp [h.eq]) (mem_declarations_lt hd)
    have hmem := opens_mem_scopeEvents.2 hlive
    rw [hsplit.eq, List.mem_append, List.mem_cons, List.mem_append, List.mem_cons] at hmem
    rcases hmem with hmem | hmem | hmem | hmem | hmem
    · exact absurd (hsplit.pre_le _ hmem) (Nat.not_le_of_lt hdk)
    · cases (Prod.mk.inj hmem).2
    · exact hopens _ hmem rfl
    · rw [← hmem] at hkx
      exact absurd hkx (Nat.lt_irrefl _)
    · exact absurd (h.le_post _ hmem) (Nat.not_le_of_lt hkx)
  · rintro ⟨d, hd, hscope, hn, hdx, hfree⟩
    have hmem := declares_mem_scopeEvents.2 ⟨hd, rfl⟩
    rw [h.eq, List.mem_append, List.mem_cons] at hmem
    rcases hmem with hmem | hmem | hmem
    · obtain ⟨a, b, rfl⟩ := List.append_of_mem hmem
      refine ⟨a, d.offset, d, b, rfl, hscope, hn, fun y hy hopens => ?_⟩
      obtain ⟨k, e⟩ := y
      obtain rfl : e = .opens := hopens
      have hsplit : s.Split (d.offset, .declares d) a (b ++ x :: post) :=
        split_of_eq (by simp [h.eq]) (mem_declarations_lt hd)
      exact hfree k (hsplit.lt_post (List.mem_append_left _ hy) rfl) (h.pre_lt hx (k, .opens) (by simp [hy]))
        (opens_mem_scopeEvents.1 (by simp [h.eq, hy]))
    · rw [← hmem] at hx
      cases hx
    · exact absurd (h.le_post _ hmem) (Nat.not_le_of_lt hdx)

end MaskedText

/-! ## What parameters hide -/

namespace Qualify

variable {s : MaskedText} {r : Reference}

/-- Parameters are hidden up to the end of the block that they wait for. -/
theorem hides_of_waits {o : Nat} {function : Bool} (hwaits : s.Waits o function r.name)
    (ho : s.liveByte? o = some Byte.lbrace) (hr : r.Stands s) (hle : o ≤ r.offset)
    (hlt : r.offset < s.blockEnd o) : s.hides r = true := by
  have hsize : o < s.size := Nat.lt_of_le_of_lt hle hr.lt_size
  obtain ⟨pre, post, hsplit⟩ := exists_split (opens_mem_scopeEvents.2 ho) hsize
  have hpending : r.name ∈ (scopesOf pre).pending :=
    mem_pending_scopesOf.2 ⟨function, (hsplit.waitsBehind_iff rfl).2 hwaits⟩
  obtain ⟨depth, hnest⟩ := hsplit.exists_nest? hle hlt hr.lt_size
  have hholds := (ScopeStack.holds_push hpending).readFrom hnest
  rw [hides, hsplit.scopesAt hle]
  exact hholds.isDeclared r.offset

end Qualify

end PageLang
