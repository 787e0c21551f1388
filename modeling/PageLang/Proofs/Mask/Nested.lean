import Mathlib.Algebra.GroupWithZero.Nat
import PageLang.Proofs.Mask.Reading

/-!
# The body of a function

A body reads the same inside a declaration as it does alone. Alone, its first brace is a brace of
the outermost context; inside a declaration it opens a context of its own, so the machine is in
another state all the way through. The two states differ only at the bottom (`Sunk`): the context
of the body counts one brace less and stands on the contexts around the declaration.

* `Cell.depth?`: the braces open after a piece, if it does not close the last one.
* `regexAllowed_append_cons`: how far a slash looks back.
* `Sunk.read`: one step takes states that differ so to states that differ so, with the same bit.
* `reads_body`: a body that ends with the brace matching its first one.
-/

namespace PageLang

/-! ## Open braces -/

namespace Cell

/-- The number of open braces after a cell, unless it closes the last one. -/
def step? (depth : Nat) (c : Cell) : Option Nat :=
  if c.2 then some depth
  else if c.1 = Byte.lbrace then some (depth + 1)
  else if c.1 = Byte.rbrace then if depth ≤ 1 then none else some (depth - 1)
  else some depth

/-- The number of open braces after a piece, unless it closes the last one. -/
def depth? (depth : Nat) (w : List Cell) : Option Nat := w.foldlM step? depth

/-- A piece that closes what it opens, and no more. -/
def Balanced (w : List Cell) : Prop := ∀ depth, depth? (depth + 1) w = some (depth + 1)

@[simp] theorem depth?_nil (depth : Nat) : depth? depth [] = some depth := rfl

@[simp] theorem depth?_cons (depth : Nat) (c : Cell) (w : List Cell) :
    depth? depth (c :: w) = (step? depth c).bind (depth? · w) := rfl

@[simp] theorem depth?_append (depth : Nat) (w v : List Cell) :
    depth? depth (w ++ v) = (depth? depth w).bind (depth? · v) := by
  simp [depth?, List.foldlM_append]

theorem step?_add {depth n : Nat} {c : Cell} (h : step? depth c = some n) (more : Nat) :
    step? (depth + more) c = some (n + more) := by
  unfold step? at h ⊢
  split at h
  · simp_all
  split at h
  · simp_all
    omega
  split at h
  · split at h
    · simp at h
    · simp only [Option.some.injEq] at h
      rw [if_neg ‹_›, if_neg ‹_›, if_pos ‹_›, if_neg (by omega)]
      congr 1
      omega
  · simp_all

/-- Braces that are open around a piece stay open. -/
theorem depth?_add {depth n : Nat} {w : List Cell} (h : depth? depth w = some n) (more : Nat) :
    depth? (depth + more) w = some (n + more) := by
  induction w generalizing depth with
  | nil => simp_all
  | cons c w ih =>
    rw [depth?_cons, Option.bind_eq_some_iff] at h
    obtain ⟨k, hk, h⟩ := h
    rw [depth?_cons, step?_add hk]
    exact ih h

theorem balanced_of_depth? {w : List Cell} (h : depth? 1 w = some 1) : Balanced w := fun depth => by
  have := depth?_add h depth
  rwa [Nat.add_comm] at this

theorem Balanced.append {w v : List Cell} (hw : Balanced w) (hv : Balanced v) :
    Balanced (w ++ v) := fun depth => by simp [hw depth, hv depth]

theorem balanced_nil : Balanced [] := fun _ => rfl

/-- A piece without live braces. -/
theorem balanced_of_no_braces {w : List Cell}
    (h : ∀ c ∈ w, c.2 = false → c.1 ≠ Byte.lbrace ∧ c.1 ≠ Byte.rbrace) : Balanced w := by
  induction w with
  | nil => exact balanced_nil
  | cons c w ih =>
    intro depth
    have hc : step? (depth + 1) c = some (depth + 1) := by
      unfold step?
      split
      · rfl
      · have := h c (.head _) (by simpa using ‹¬ c.2 = true›)
        rw [if_neg this.1, if_neg this.2]
    rw [depth?_cons, hc]
    exact ih (fun d hd => h d (.tail _ hd)) depth

theorem balanced_live {t : Text} (h : ∀ b ∈ t, b ≠ Byte.lbrace ∧ b ≠ Byte.rbrace) :
    Balanced (live t) := by
  refine balanced_of_no_braces fun c hc _ => ?_
  obtain ⟨b, hb, rfl⟩ := List.mem_map.1 hc
  exact h b hb

theorem balanced_masked (t : Text) : Balanced (masked t) :=
  balanced_of_no_braces fun _ hc hlive => absurd hlive (ne_false_of_mem_masked hc)

theorem Balanced.braces {w : List Cell} (hw : Balanced w) :
    Balanced (live [Byte.lbrace] ++ w ++ live [Byte.rbrace]) := fun depth => by
  have := hw (depth + 1)
  simp_all +decide [step?]

end Cell

open Cell

namespace Mask

/-! ## The machine with more contexts around it -/

/-- The regions that the grammar of code knows. -/
def Region.isCode : Region → Bool
  | .live | .quoted .. | .template _ | .opening | .lineComment => true
  | .commentOpening | .blockComment _ | .regex .. => true
  | _ => false

/-- The open braces of all contexts. -/
def State.openBraces (s : State) : Nat := s.depth + (s.outer.map Frame.depth).sum

/-- The braces and contexts of a body read alone, beside those of the same body on the contexts
`base`: the outermost one of the body counts one brace less. -/
inductive SunkFrames (base : List Frame) : Nat → List Frame → Nat → List Frame → Prop
  | bottom (depth : Nat) : SunkFrames base (depth + 1) [] depth base
  | interpolation {depth depth' : Nat} {outer outer' : List Frame} (inner : Nat) :
    SunkFrames base depth outer depth' outer' →
    SunkFrames base inner (⟨.template, .code, depth⟩ :: outer)
      inner (⟨.template, .code, depth'⟩ :: outer')

/-- The state of a body read alone, beside the state of the same body on the contexts `base`. -/
inductive Sunk (base : List Frame) : State → State → Prop
  | mk {region : Region} {depth depth' : Nat} {outer outer' : List Frame} :
    region.isCode → SunkFrames base depth outer depth' outer' →
    Sunk base ⟨region, .code, depth, outer⟩ ⟨region, .code, depth', outer'⟩

namespace SunkFrames

variable {base outer outer' : List Frame} {depth depth' : Nat}

theorem succ (h : SunkFrames base depth outer depth' outer') :
    SunkFrames base (depth + 1) outer (depth' + 1) outer' := by
  cases h with
  | bottom => exact .bottom _
  | interpolation _ h => exact .interpolation _ h

theorem sum_pos (h : SunkFrames base depth outer depth' outer') :
    0 < depth + (outer.map Frame.depth).sum := by
  induction h with
  | bottom => simp
  | interpolation inner _ ih =>
    simp only [List.map_cons, List.sum_cons]
    omega

/-- A closing brace that does not close the body. -/
theorem closeBrace (h : SunkFrames base depth outer depth' outer') {s₁ : State} {m : Bool} {n : Nat}
    (hread : State.closeBrace ⟨.live, .code, depth, outer⟩ = (m, s₁))
    (hstep : step? (State.openBraces ⟨.live, .code, depth, outer⟩) (Byte.rbrace, m) = some n) :
    ∃ t₁, State.closeBrace ⟨.live, .code, depth', outer'⟩ = (m, t₁) ∧ Sunk base s₁ t₁ ∧
      s₁.openBraces = n := by
  cases h with
  | bottom =>
    obtain ⟨rfl, rfl⟩ := Prod.mk.inj hread
    cases depth' with
    | zero => simp +decide [step?] at hstep
    | succ depth =>
      refine ⟨_, rfl, ⟨rfl, .bottom depth⟩, ?_⟩
      simpa +decide [step?, State.openBraces] using hstep
  | interpolation inner h =>
    cases depth with
    | zero =>
      obtain ⟨rfl, rfl⟩ := Prod.mk.inj hread
      refine ⟨_, rfl, ⟨rfl, h⟩, ?_⟩
      simpa [step?, State.openBraces] using hstep
    | succ inner =>
      obtain ⟨rfl, rfl⟩ := Prod.mk.inj hread
      refine ⟨_, rfl, ⟨rfl, h.interpolation inner⟩, ?_⟩
      have := h.sum_pos
      simp +decide [step?, State.openBraces] at hstep ⊢
      omega

end SunkFrames

/-- A slash looks back to the start of a word at most, or to a byte that is no part of a word. -/
theorem regexAllowed_append_cons (near far : Text) {b : UInt8}
    (hb : Byte.isSpace b = false)
    (hfar : Byte.isWord b = true → ∀ c ∈ far.head?, Byte.isWord c = false) :
    regexAllowed (near ++ b :: far) = regexAllowed (near ++ [b]) := by
  have hdrop (t : Text) : (near ++ b :: t).dropWhile Byte.isSpace =
      near.dropWhile Byte.isSpace ++ b :: t := by
    induction near with
    | nil => simp [hb]
    | cons c near ih => by_cases hc : Byte.isSpace c = true <;> simp [hc, ih]
  have hword : (b :: far).takeWhile Byte.isWord = [b].takeWhile Byte.isWord := by
    by_cases hb : Byte.isWord b = true
    · cases far with
      | nil => rfl
      | cons c far => simp [hb, hfar hb c rfl]
    · simp [hb]
  have htake (word : Text) : (word ++ b :: far).takeWhile Byte.isWord =
      (word ++ [b]).takeWhile Byte.isWord := by
    induction word with
    | nil => exact hword
    | cons c word ih => by_cases hc : Byte.isWord c = true <;> simp [hc, ih]
  unfold regexAllowed
  simp only [hdrop, htake]
  cases near.dropWhile Byte.isSpace <;> rfl

namespace State

/-- In live text, a byte that is no brace changes the region alone, unless it is a colon that opens
a value. -/
theorem readLive_eq_into {b : UInt8} (hb : b ≠ Byte.lbrace ∧ b ≠ Byte.rbrace) (before rest : Text) :
    ∃ m region', Region.isCode region' ∧
      ∀ mode depth outer before' rest',
        (mode = .declarations → b = Byte.colon → startsStatement before' = true) →
        regexAllowed before' = regexAllowed before → rest'.head? = rest.head? →
        State.readLive ⟨.live, mode, depth, outer⟩ before' b rest' =
          (m, ⟨region', mode, depth, outer⟩) := by
  have hread : ∀ mode depth outer before' rest',
      (mode = .declarations → b = Byte.colon → startsStatement before' = true) →
      regexAllowed before' = regexAllowed before → rest'.head? = rest.head? →
      State.readLive ⟨.live, mode, depth, outer⟩ before' b rest' =
        ((State.readLive (start .code) before b rest).1,
          ⟨(State.readLive (start .code) before b rest).2.region, mode, depth, outer⟩) := by
    intro mode depth outer before' rest' hcolon hregex hhead
    have hvalue : ¬ (b = Byte.colon ∧ mode = .declarations ∧ ¬ startsStatement before') :=
      fun ⟨hb, hmode, hstart⟩ => hstart (hcolon hmode hb)
    simp only [readLive, into, start, hb, if_false, hregex, hhead, reduceCtorEq, false_and,
      and_false, hvalue]
    repeat' split
    all_goals rfl
  refine ⟨_, _, ?_, hread⟩
  simp only [readLive, into, start, hb, if_false, reduceCtorEq, false_and, and_false]
  repeat' split
  all_goals rfl

/-- Outside live text, and where no interpolation opens, a byte changes the region alone. -/
theorem read_eq_into {region : Region} (hcode : region.isCode) (hopening : region ≠ .opening)
    (hlive : region ≠ .live) (b : UInt8) (rest : Text) :
    ∃ m region', Region.isCode region' ∧ (m = true ∨ b = Byte.newline) ∧
      ∀ mode depth outer before rest', rest'.head? = rest.head? →
        State.read ⟨region, mode, depth, outer⟩ before b rest' =
          (m, ⟨region', mode, depth, outer⟩) := by
  have hread : ∀ mode depth outer before rest', rest'.head? = rest.head? →
      State.read ⟨region, mode, depth, outer⟩ before b rest' =
        ((State.read ⟨region, .code, 0, []⟩ [] b rest).1,
          ⟨(State.read ⟨region, .code, 0, []⟩ [] b rest).2.region, mode, depth, outer⟩) := by
    intro mode depth outer before rest' hhead
    cases region with
    | quoted q e =>
      cases e with
      | true => rfl
      | false =>
        simp only [read, readQuoted, into]
        repeat' split
        all_goals rfl
    | template e =>
      cases e with
      | true => rfl
      | false =>
        simp only [read, readTemplate, into, hhead]
        repeat' split
        all_goals rfl
    | regex c e =>
      cases e with
      | true => rfl
      | false =>
        simp only [read, readRegex, into]
        repeat' split
        all_goals rfl
    | lineComment => simp only [read, into]; split <;> rfl
    | commentOpening | blockComment star => rfl
    | live => exact absurd rfl hlive
    | opening => exact absurd rfl hopening
    | _ => cases hcode
  refine ⟨_, _, ?_, ?_, hread⟩
  · cases region with
    | quoted q e => cases e <;> simp only [read, readQuoted, into] <;> (repeat' split) <;> rfl
    | template e => cases e <;> simp only [read, readTemplate, into] <;> (repeat' split) <;> rfl
    | regex c e => cases e <;> simp only [read, readRegex, into] <;> (repeat' split) <;> rfl
    | lineComment => simp only [read, into]; split <;> rfl
    | blockComment star => simp only [read, into]; split <;> rfl
    | commentOpening => rfl
    | live => exact absurd rfl hlive
    | opening => exact absurd rfl hopening
    | _ => cases hcode
  · cases region with
    | quoted q e => cases e <;> simp only [read, readQuoted, into] <;> (repeat' split) <;> simp_all
    | template e => cases e <;> simp only [read, readTemplate, into] <;> (repeat' split) <;> simp_all
    | regex c e => cases e <;> simp only [read, readRegex, into] <;> (repeat' split) <;> simp_all
    | lineComment => simp only [read, into]; split <;> simp_all
    | commentOpening | blockComment star => exact .inl rfl
    | live => exact absurd rfl hlive
    | opening => exact absurd rfl hopening
    | _ => cases hcode

end State

namespace Sunk

variable {base : List Frame} {s t s₁ : State}

/-- The same step in both states: the same bit, and states that differ in the same way. -/
theorem read (h : Sunk base s t) {near rest : Text} (far ahead : Text) {b : UInt8} {m : Bool}
    {n : Nat}
    (hread : s.read (near ++ [Byte.lbrace]) b rest = (m, s₁)) (hrest : rest ≠ [])
    (hstep : step? s.openBraces (b, m) = some n) :
    ∃ t₁, t.read (near ++ Byte.lbrace :: far) b (rest ++ ahead) = (m, t₁) ∧ Sunk base s₁ t₁ ∧
      s₁.openBraces = n := by
  have hhead : (rest ++ ahead).head? = rest.head? := by
    cases rest with
    | nil => exact absurd rfl hrest
    | cons => rfl
  have hregex := regexAllowed_append_cons near far (b := Byte.lbrace) (by decide)
    fun hword => absurd hword (by decide)
  obtain @⟨region, depth, depth', outer, outer', hcode, hframes⟩ := h
  by_cases hopening : region = .opening
  · subst hopening
    obtain ⟨rfl, rfl⟩ := Prod.mk.inj hread
    refine ⟨_, rfl, ⟨rfl, hframes.interpolation 0⟩, ?_⟩
    simpa [step?, State.openBraces, State.enter] using hstep
  by_cases hlive : region = .live
  · subst hlive
    by_cases hl : b = Byte.lbrace
    · subst hl
      obtain ⟨rfl, rfl⟩ := Prod.mk.inj hread
      refine ⟨_, rfl, ⟨rfl, hframes.succ⟩, ?_⟩
      simp only [step?, State.openBraces] at hstep ⊢
      simp at hstep
      omega
    by_cases hr : b = Byte.rbrace
    · subst hr
      exact hframes.closeBrace hread hstep
    obtain ⟨m', region', hcode', hsame⟩ :=
      State.readLive_eq_into ⟨hl, hr⟩ (near ++ [Byte.lbrace]) rest
    obtain ⟨rfl, rfl⟩ := Prod.mk.inj
      ((hsame .code depth outer _ _ Mode.noConfusion rfl rfl).symm.trans hread)
    refine ⟨_, hsame .code depth' outer' _ _ Mode.noConfusion hregex hhead, ⟨hcode', hframes⟩, ?_⟩
    simpa [step?, State.openBraces, hl, hr] using hstep
  · obtain ⟨m', region', hcode', hquiet, hsame⟩ := State.read_eq_into hcode hopening hlive b rest
    obtain ⟨rfl, rfl⟩ := Prod.mk.inj ((hsame .code depth outer _ _ rfl).symm.trans hread)
    refine ⟨_, hsame .code depth' outer' _ _ hhead, ⟨hcode', hframes⟩, ?_⟩
    rcases hquiet with rfl | rfl
    · simpa [step?, State.openBraces] using hstep
    · simpa +decide [step?, State.openBraces] using hstep

/-- All the steps of a piece in both states. -/
theorem reads (near far more : Text) {before ahead : Text} {w : List Cell} {n : Nat}
    (h : State.Reads s before w ahead s₁) (hbefore : before = near ++ [Byte.lbrace])
    (hahead : ahead ≠ []) (hsunk : Sunk base s t) (hdepth : depth? s.openBraces w = some n) :
    ∃ t₁, State.Reads t (near ++ Byte.lbrace :: far) w (ahead ++ more) t₁ ∧ Sunk base s₁ t₁ ∧
      s₁.openBraces = n := by
  induction h generalizing near t with
  | nil => exact ⟨t, .nil .., hsunk, Option.some.inj hdepth⟩
  | @cons s s' s₁ before ahead b m w hread _ ih =>
    rw [depth?_cons, Option.bind_eq_some_iff] at hdepth
    obtain ⟨k, hstep, hdepth⟩ := hdepth
    subst hbefore
    obtain ⟨t', hread', hsunk', rfl⟩ := hsunk.read far more hread
      (by simp [hahead]) hstep
    obtain ⟨t₁, hreads, hrest⟩ := ih (b :: near) rfl hahead hsunk' hdepth
    refine ⟨t₁, .cons ?_ hreads, hrest⟩
    rw [← List.append_assoc]
    exact hread'

/-- At the last open brace of a body, a live closing brace closes the context of the body. -/
theorem eq_of_closes {before : Text} (h : Sunk base s t) (hopen : s.openBraces = 1)
    (hread : s.read before Byte.rbrace [] = (false, s₁)) : t = ⟨.live, .code, 0, base⟩ := by
  obtain @⟨region, depth, depth', outer, outer', hcode, hframes⟩ := h
  by_cases hopening : region = .opening
  · subst hopening
    exact absurd hread (by simp [State.read])
  by_cases hlive : region = .live
  · subst hlive
    cases hframes with
    | bottom =>
      simp [State.openBraces] at hopen
      rw [hopen]
    | interpolation _ h =>
      -- the context around an interpolation is open, so the brace closes the interpolation
      have := h.sum_pos
      simp [State.openBraces] at hopen
      obtain rfl : depth = 0 := by omega
      exact Bool.noConfusion (congrArg Prod.fst hread : true = false)
  · obtain ⟨m, region', _, hquiet, hsame⟩ :=
      State.read_eq_into hcode hopening hlive Byte.rbrace []
    rw [hsame .code depth outer _ _ rfl] at hread
    exact absurd hquiet (by simp_all +decide)

end Sunk

/-- The cells of a text are what it is read as. -/
theorem exists_reads (s : State) (before t : Text) :
    ∃ s₁, State.Reads s before (t.zip (s.bits before t)) [] s₁ := by
  induction t generalizing s before with
  | nil => exact ⟨s, .nil ..⟩
  | cons b t ih =>
    obtain ⟨s₁, h⟩ := ih (s.read before b t).2 (b :: before)
    refine ⟨s₁, .cons (w := t.zip _) ?_ h⟩
    rw [List.append_nil, bytes_zip (by simp)]

/-- The body of a function in a declaration is read like the body alone, if alone it ends with the
brace that matches its first one. -/
theorem reads_body {body : Text} {w : List Cell} {mode : Mode} {depth : Nat} {outer : List Frame}
    (hcells : body.zip (ofText .code body) = live [Byte.lbrace] ++ w ++ live [Byte.rbrace])
    (hdepth : depth? 1 w = some 1) (before ahead : Text) :
    State.Reads ⟨.afterParameters, mode, depth, outer⟩ before
      (live [Byte.lbrace] ++ w ++ live [Byte.rbrace]) ahead
      ⟨.live, mode, depth, outer⟩ := by
  obtain ⟨e, halone⟩ := exists_reads (.start .code) [] body
  rw [show (State.start .code).bits [] body = ofText .code body from rfl, hcells] at halone
  obtain ⟨s₁, halone, hlast⟩ := halone.split
  obtain ⟨s₀, hfirst, halone⟩ := halone.split
  cases hfirst with
  | cons hopen hnil =>
    cases hnil
    cases hlast with
    | cons hclose _ =>
      obtain rfl : ⟨.live, .code, 1, []⟩ = s₀ := congrArg Prod.snd hopen
      have hsunk : Sunk (⟨.block, mode, depth⟩ :: outer) ⟨.live, .code, 1, []⟩
          ⟨.live, .code, 0, ⟨.block, mode, depth⟩ :: outer⟩ := ⟨rfl, .bottom 0⟩
      obtain ⟨t₁, hreads, hsunk, hopen⟩ :=
        Sunk.reads [] before ahead halone rfl (by simp) hsunk hdepth
      obtain rfl := hsunk.eq_of_closes hopen hclose
      have hend : State.Reads ⟨.live, .code, 0, ⟨.block, mode, depth⟩ :: outer⟩
          ((bytes w).reverse ++ Byte.lbrace :: before) (live [Byte.rbrace]) ahead
          ⟨.live, mode, depth, outer⟩ := .cons rfl (.nil ..)
      have hbegin (ahead : Text) : State.Reads ⟨.afterParameters, mode, depth, outer⟩
          before (live [Byte.lbrace]) ahead
          ⟨.live, .code, 0, ⟨.block, mode, depth⟩ :: outer⟩ := .cons rfl (.nil ..)
      rw [List.append_assoc]
      exact (hbegin _).append (.append (by simpa using hreads) hend)

end Mask

end PageLang
