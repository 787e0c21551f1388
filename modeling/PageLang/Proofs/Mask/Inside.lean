import PageLang.Proofs.Mask.Nested
import PageLang.Proofs.Mask.Regions

/-!
# A block inside its text

The mask of a text and the mask of one of its blocks, taken as code, are written by two machines.
While no colon of the block opens a value, and no brace closes it, they stand in the same region
with the same contexts opened inside the block (`Inside`); the machine of the text stands on the
contexts around the block besides, and the outermost context of the block has the grammar and the
open braces of the text there.

* `Mask.Inside.read`: one step of both machines, with the same bit.
* `Mask.Inside.bits`: the bits up to the brace that closes the block.
-/

namespace PageLang.Mask

open Cell

/-- The grammar, the braces and the contexts of a machine that reads a block alone, as code, beside
those of a machine that reads it inside a text. There the outermost context of the block has the
grammar `mode`, `more` other braces are open in it, and it stands on the contexts `base`. -/
inductive InsideFrames (mode : Mode) (more : Nat) (base : List Frame) :
    Nat → List Frame → Mode → Nat → List Frame → Prop
  | bottom (depth : Nat) : InsideFrames mode more base (depth + 1) [] mode (more + depth) base
  | interpolation {depth depth' : Nat} {outer outer' : List Frame} {mode' : Mode} (inner : Nat) :
    InsideFrames mode more base depth outer mode' depth' outer' →
    InsideFrames mode more base inner (⟨.template, .code, depth⟩ :: outer)
      .code inner (⟨.template, mode', depth'⟩ :: outer')

/-- The brace in front of the block is live: it is counted, or it opened a context of its own. -/
def OpensBlock (more : Nat) (base : List Frame) : Prop :=
  0 < more ∨ ∃ mode depth outer, base = ⟨.block, mode, depth⟩ :: outer

/-- A machine that reads a block alone, as code, beside one that reads it inside a text. -/
inductive Inside (mode : Mode) (more : Nat) (base : List Frame) : State → State → Prop
  | mk {region : Region} {depth depth' : Nat} {outer outer' : List Frame} {mode' : Mode} :
    region.isCode → InsideFrames mode more base depth outer mode' depth' outer' →
    Inside mode more base ⟨region, .code, depth, outer⟩ ⟨region, mode', depth', outer'⟩

namespace InsideFrames

variable {mode mode' : Mode} {more depth depth' : Nat} {base outer outer' : List Frame}

theorem succ (h : InsideFrames mode more base depth outer mode' depth' outer') :
    InsideFrames mode more base (depth + 1) outer mode' (depth' + 1) outer' := by
  cases h with
  | bottom => exact .bottom _
  | interpolation _ h => exact .interpolation _ h

theorem sum_pos (h : InsideFrames mode more base depth outer mode' depth' outer') :
    0 < depth + (outer.map Frame.depth).sum := by
  induction h with
  | bottom => simp
  | interpolation inner _ ih =>
    simp only [List.map_cons, List.sum_cons]
    omega

theorem mode_eq (h : InsideFrames mode more base depth outer mode' depth' outer')
    (hmode : mode = .code) : mode' = .code := by
  cases h with
  | bottom => exact hmode
  | interpolation => rfl

/-- A closing brace that does not close the block. -/
theorem closeBrace (h : InsideFrames mode more base depth outer mode' depth' outer')
    (hbase : OpensBlock more base) {t₁ : State} {m : Bool} {n : Nat}
    (hread : State.closeBrace ⟨.live, mode', depth', outer'⟩ = (m, t₁))
    (hstep : step? (State.openBraces ⟨.live, .code, depth, outer⟩) (Byte.rbrace, m) = some n) :
    ∃ s₁, State.closeBrace ⟨.live, .code, depth, outer⟩ = (m, s₁) ∧
      Inside mode more base s₁ t₁ ∧ s₁.openBraces = n := by
  cases h with
  | bottom depth =>
    cases depth with
    | zero =>
      -- the brace would close the block
      have hm : m = false := by
        rcases hbase with hmore | ⟨mode, depth, outer, rfl⟩
        · obtain ⟨more, rfl⟩ := Nat.exists_eq_succ_of_ne_zero (Nat.pos_iff_ne_zero.1 hmore)
          exact (congrArg Prod.fst hread).symm
        · cases more <;> exact (congrArg Prod.fst hread).symm
      rw [hm] at hstep
      simp +decide [step?] at hstep
    | succ depth =>
      obtain ⟨rfl, rfl⟩ := Prod.mk.inj hread
      refine ⟨_, rfl, ⟨rfl, .bottom depth⟩, ?_⟩
      simpa +decide [step?, State.openBraces] using hstep
  | interpolation inner h =>
    cases depth with
    | zero =>
      obtain ⟨rfl, rfl⟩ := Prod.mk.inj hread
      refine ⟨_, rfl, ⟨rfl, h⟩, ?_⟩
      simpa [step?, State.openBraces] using hstep
    | succ inner =>
      obtain ⟨rfl, rfl⟩ := Prod.mk.inj hread
      refine ⟨_, rfl, ⟨rfl, h.interpolation inner⟩, ?_⟩
      have := h.sum_pos
      simp +decide [step?, State.openBraces] at hstep ⊢
      omega

end InsideFrames

/-- A live colon that starts no statement opens a value in declarations. -/
theorem State.readLive_colon (depth : Nat) (outer : List Frame) {before : Text} (rest : Text)
    (h : startsStatement before = false) :
    (State.readLive ⟨.live, .declarations, depth, outer⟩ before Byte.colon rest).2.region =
      .afterColon := by
  simp +decide [State.readLive, State.into, h]

namespace Inside

variable {mode : Mode} {more : Nat} {base : List Frame} {s t t₁ : State}

/-- The same step of both machines. -/
theorem read (h : Inside mode more base s t) (hbase : OpensBlock more base) {near rest : Text}
    (far ahead : Text) {b : UInt8} {m : Bool} {n : Nat}
    (hread : t.read (near ++ Byte.lbrace :: far) b (rest ++ ahead) = (m, t₁)) (hrest : rest ≠ [])
    (hcolon : mode = .code ∨ t₁.region ≠ .afterColon) (hstep : step? s.openBraces (b, m) = some n) :
    ∃ s₁, s.read (near ++ [Byte.lbrace]) b rest = (m, s₁) ∧ Inside mode more base s₁ t₁ ∧
      s₁.openBraces = n := by
  have hhead : (rest ++ ahead).head? = rest.head? := by
    cases rest with
    | nil => exact absurd rfl hrest
    | cons => rfl
  have hregex := regexAllowed_append_cons near far (b := Byte.lbrace) (by decide)
    fun hword => absurd hword (by decide)
  obtain @⟨region, depth, depth', outer, outer', mode', hcode, hframes⟩ := h
  by_cases hopening : region = .opening
  · subst hopening
    obtain ⟨rfl, rfl⟩ := Prod.mk.inj hread
    refine ⟨_, rfl, ⟨rfl, hframes.interpolation 0⟩, ?_⟩
    simpa [step?, State.openBraces, State.enter] using hstep
  by_cases hlive : region = .live
  · subst hlive
    by_cases hl : b = Byte.lbrace
    · subst hl
      obtain ⟨rfl, rfl⟩ := Prod.mk.inj hread
      refine ⟨_, rfl, ⟨rfl, hframes.succ⟩, ?_⟩
      simp only [step?, State.openBraces] at hstep ⊢
      simp at hstep
      omega
    by_cases hr : b = Byte.rbrace
    · subst hr
      exact hframes.closeBrace hbase hread hstep
    -- a colon opens no value here
    have hstart : mode' = .declarations → b = Byte.colon →
        startsStatement (near ++ Byte.lbrace :: far) = true := by
      rintro rfl rfl
      refine Bool.of_not_eq_false fun hno => ?_
      refine hcolon.resolve_left (fun hmode => Mode.noConfusion (hframes.mode_eq hmode)) ?_
      rw [← State.readLive_colon depth' outer' (rest ++ ahead) hno]
      exact congrArg (fun r : Bool × State => r.2.region) hread.symm
    obtain ⟨m', region', hcode', hsame⟩ :=
      State.readLive_eq_into ⟨hl, hr⟩ (near ++ [Byte.lbrace]) rest
    obtain ⟨rfl, rfl⟩ := Prod.mk.inj
      ((hsame mode' depth' outer' _ _ hstart hregex hhead).symm.trans hread)
    refine ⟨_, hsame .code depth outer _ _ Mode.noConfusion rfl rfl, ⟨hcode', hframes⟩, ?_⟩
    simpa [step?, State.openBraces, hl, hr] using hstep
  · obtain ⟨m', region', hcode', hquiet, hsame⟩ := State.read_eq_into hcode hopening hlive b rest
    obtain ⟨rfl, rfl⟩ := Prod.mk.inj ((hsame mode' depth' outer' _ _ hhead).symm.trans hread)
    refine ⟨_, hsame .code depth outer _ _ rfl, ⟨hcode', hframes⟩, ?_⟩
    rcases hquiet with rfl | rfl
    · simpa [step?, State.openBraces] using hstep
    · simpa +decide [step?, State.openBraces] using hstep

/-- At the last open brace of the block, a live closing brace is live for both machines. -/
theorem read_last (h : Inside mode more base s t) (hopen : s.openBraces = 1) {before : Text}
    (before' ahead : Text) (hread : (t.read before Byte.rbrace ahead).1 = false) :
    (s.read before' Byte.rbrace []).1 = false := by
  obtain @⟨region, depth, depth', outer, outer', mode', hcode, hframes⟩ := h
  by_cases hopening : region = .opening
  · subst hopening
    cases hread
  by_cases hlive : region = .live
  · subst hlive
    cases hframes with
    | bottom depth => rfl
    | interpolation inner h =>
      -- the context around an interpolation is open, so the brace closes the interpolation
      have := h.sum_pos
      simp [State.openBraces] at hopen
      obtain rfl : depth = 0 := by omega
      cases hread
  · obtain ⟨m, region', _, hquiet, hsame⟩ :=
      State.read_eq_into hcode hopening hlive Byte.rbrace ahead
    rw [hsame mode' depth' outer' _ _ rfl] at hread
    exact absurd hquiet (by simp_all +decide)

/-- Both machines write the same bits up to the brace that closes the block, if the block is read as
code inside its text too, or no colon of the block opens a value. -/
theorem bits (h : Inside mode more base s t) (hbase : OpensBlock more base) (near far ahead : Text)
    {v : List Cell} (hdepth : depth? s.openBraces v = some 1)
    (hbits : (t.bits (near ++ Byte.lbrace :: far) (bytes (v ++ live [Byte.rbrace]) ++ ahead)).take
      (v.length + 1) = Cell.bits (v ++ live [Byte.rbrace]))
    (hcolon : mode = .code ∨ ∀ k, k < v.length → (t.after (near ++ Byte.lbrace :: far) (k + 1)
      (bytes (v ++ live [Byte.rbrace]) ++ ahead)).region ≠ .afterColon) :
    s.bits (near ++ [Byte.lbrace]) (bytes (v ++ live [Byte.rbrace])) =
      Cell.bits (v ++ live [Byte.rbrace]) := by
  induction v generalizing s t near with
  | nil =>
    have hlast : (t.read (near ++ Byte.lbrace :: far) Byte.rbrace ahead).1 = false :=
      List.head_eq_of_cons_eq hbits
    exact congrArg (fun b => [b]) (h.read_last (Option.some.inj hdepth) _ _ hlast)
  | cons c v ih =>
    obtain ⟨b, m⟩ := c
    rw [depth?_cons, Option.bind_eq_some_iff] at hdepth
    obtain ⟨n, hstep, hdepth⟩ := hdepth
    have hbit : (t.read (near ++ Byte.lbrace :: far) b
        (bytes (v ++ live [Byte.rbrace]) ++ ahead)).1 = m := List.head_eq_of_cons_eq hbits
    have hnext : mode = .code ∨ (t.read (near ++ Byte.lbrace :: far) b
        (bytes (v ++ live [Byte.rbrace]) ++ ahead)).2.region ≠ .afterColon := by
      refine hcolon.imp_right fun hcolon => ?_
      have := hcolon 0 (Nat.succ_pos _)
      change ((t.read _ b _).2.after _ 0 _).region ≠ _ at this
      rwa [State.after_zero] at this
    obtain ⟨s₁, hread, hinside, rfl⟩ :=
      h.read hbase far ahead (Prod.ext hbit rfl) (by simp) hnext hstep
    have hrest := ih hinside (b :: near) hdepth (List.tail_eq_of_cons_eq hbits)
      (hcolon.imp_right fun hcolon k hk => hcolon (k + 1) (Nat.succ_lt_succ hk))
    have hcons : s.bits (near ++ [Byte.lbrace]) (bytes ((b, m) :: v ++ live [Byte.rbrace])) =
        (s.read (near ++ [Byte.lbrace]) b (bytes (v ++ live [Byte.rbrace]))).1 ::
          (s.read (near ++ [Byte.lbrace]) b (bytes (v ++ live [Byte.rbrace]))).2.bits
            (b :: near ++ [Byte.lbrace]) (bytes (v ++ live [Byte.rbrace])) := rfl
    rw [hcons, hread]
    exact congrArg (m :: ·) hrest

end Inside

/-- How a text reads a block like the block alone, taken as code: behind a parameter list, in code,
or if no colon of the block opens a value. The block ends `length` bytes behind its first brace. -/
inductive State.ReadsBlock (t : State) (before rest : Text) (length : Nat) : Prop
  | parameters : t.region = .afterParameters → ReadsBlock t before rest length
  | code : t.region = .live → t.mode = .code → ReadsBlock t before rest length
  | quiet : t.region = .live →
    (∀ k, k < length → (t.after before (k + 2) rest).region ≠ .afterColon) →
    ReadsBlock t before rest length

/-- A block that is read like the block alone is masked like it, up to the brace that matches its
first one. -/
theorem bits_block {t : State} {v : List Cell} (before ahead : Text) (hdepth : depth? 1 v = some 1)
    (hbits : (t.bits before (bytes (live [Byte.lbrace] ++ v ++ live [Byte.rbrace]) ++ ahead)).take
      (v.length + 2) = Cell.bits (live [Byte.lbrace] ++ v ++ live [Byte.rbrace]))
    (hreads : t.ReadsBlock before (bytes (live [Byte.lbrace] ++ v ++ live [Byte.rbrace]) ++ ahead)
      v.length) :
    ofText .code (bytes (live [Byte.lbrace] ++ v ++ live [Byte.rbrace])) =
      Cell.bits (live [Byte.lbrace] ++ v ++ live [Byte.rbrace]) := by
  -- behind its first brace the block is read by machines in lockstep
  obtain ⟨mode, more, base, hinside, hbase, hcolon⟩ : ∃ mode more base,
      Inside mode more base ⟨.live, .code, 1, []⟩ (t.read before Byte.lbrace
        (bytes (v ++ live [Byte.rbrace]) ++ ahead)).2 ∧ OpensBlock more base ∧
      (mode = .code ∨ ∀ k, k < v.length → (t.after before (k + 2)
        (bytes (live [Byte.lbrace] ++ v ++ live [Byte.rbrace]) ++ ahead)).region ≠
          .afterColon) := by
    obtain ⟨region, mode, depth, outer⟩ := t
    cases hreads with
    | parameters hregion =>
      cases hregion
      exact ⟨.code, 0, ⟨.block, mode, depth⟩ :: outer, ⟨rfl, .bottom 0⟩, .inr ⟨_, _, _, rfl⟩,
        .inl rfl⟩
    | code hregion hmode =>
      cases hregion
      exact ⟨mode, depth + 1, outer, ⟨rfl, .bottom 0⟩, .inl (Nat.succ_pos depth), .inl hmode⟩
    | quiet hregion hcolon =>
      cases hregion
      exact ⟨mode, depth + 1, outer, ⟨rfl, .bottom 0⟩, .inl (Nat.succ_pos depth), .inr hcolon⟩
  exact congrArg (false :: ·)
    (hinside.bits hbase [] before ahead hdepth (List.tail_eq_of_cons_eq hbits) hcolon)

end PageLang.Mask
