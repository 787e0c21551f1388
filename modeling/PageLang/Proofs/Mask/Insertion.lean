import PageLang.Proofs.Mask.Nested
import PageLang.Proofs.Mask.Regions
import PageLang.Proofs.Text.Trim
import PageLang.Proofs.Text.Weave

/-!
# The mask of a text with insertions

Words and dots that are put in front of a live word, or in front of a live bracket, change the mask
of nothing else: the machine reads the text with them as it reads the text alone, and they are live.
What stands before a slash is looked at up to the start of a word only, and the words that are
inserted end in front of one.

* `State.InCode`: the states of the grammar of code.
* `Insertable`: where insertions are made.
* `State.bits_weave`, `ofText_weave`: the mask of the text with insertions.
-/

namespace PageLang.Mask

/-! ## The machine in code -/

namespace State

/-- The grammar is that of code, in all contexts. -/
structure InCode (s : State) : Prop where
  region : s.region.isCode
  mode : s.mode = .code
  outer : ∀ f ∈ s.outer, f.enclosing = .template ∧ f.mode = .code

theorem inCode_start : InCode (.start .code) := ⟨rfl, rfl, by simp [start]⟩

theorem InCode.closeBrace {s : State} (h : s.InCode) : s.closeBrace.2.InCode := by
  obtain ⟨region, mode, depth, outer⟩ := s
  cases depth with
  | succ depth => exact ⟨rfl, h.mode, h.outer⟩
  | zero =>
    cases outer with
    | nil => exact ⟨rfl, h.mode, h.outer⟩
    | cons frame outer =>
      obtain ⟨enclosing, frameMode, frameDepth⟩ := frame
      obtain ⟨⟨rfl, rfl⟩, houter⟩ := List.forall_mem_cons.1 h.outer
      exact ⟨rfl, rfl, houter⟩

/-- In code the machine stays in code. -/
theorem InCode.read {s : State} (h : s.InCode) (before : Text) (b : UInt8) (rest : Text) :
    (s.read before b rest).2.InCode := by
  obtain ⟨region, mode, depth, outer⟩ := s
  obtain ⟨hregion, hmode, houter⟩ := h
  dsimp only at hregion hmode houter
  subst hmode
  by_cases hopening : region = .opening
  · subst hopening
    exact ⟨rfl, rfl, List.forall_mem_cons.2 ⟨⟨rfl, rfl⟩, houter⟩⟩
  by_cases hlive : region = .live
  · subst hlive
    by_cases hl : b = Byte.lbrace
    · subst hl
      exact ⟨rfl, rfl, houter⟩
    by_cases hr : b = Byte.rbrace
    · subst hr
      exact InCode.closeBrace ⟨rfl, rfl, houter⟩
    obtain ⟨m, region', hcode, hsame⟩ := readLive_eq_into ⟨hl, hr⟩ before rest
    change (State.readLive _ before b rest).2.InCode
    rw [hsame .code depth outer before rest Mode.noConfusion rfl rfl]
    exact ⟨hcode, rfl, houter⟩
  · obtain ⟨m, region', hcode, -, hsame⟩ := read_eq_into hregion hopening hlive b rest
    rw [hsame .code depth outer before rest rfl]
    exact ⟨hcode, rfl, houter⟩

/-- Reading code, the machine stays in code. -/
theorem InCode.after {s : State} (hs : s.InCode) (before : Text) (k : Nat) (t : Text) :
    (s.after before k t).InCode := by
  induction t generalizing s before k with
  | nil => cases k <;> exact hs
  | cons b t ih =>
    cases k with
    | zero => exact hs
    | succ k => exact ih (hs.read before b t) _ _

/-- A live byte of code is read in live text, unless it is a newline. -/
theorem InCode.region_of_live {s : State} (h : s.InCode) {before rest : Text} {b : UInt8}
    (hread : (s.read before b rest).1 = false) (hb : b ≠ Byte.newline) : s.region = .live := by
  obtain ⟨region, mode, depth, outer⟩ := s
  obtain ⟨hregion, hmode, -⟩ := h
  dsimp only at hregion hmode
  subst hmode
  by_contra hlive
  by_cases hopening : region = .opening
  · subst hopening
    cases hread
  · obtain ⟨m, region', -, hquiet, hsame⟩ := read_eq_into hregion hopening hlive b rest
    rw [hsame .code depth outer before rest rfl] at hread
    rcases hquiet with rfl | rfl
    · cases hread
    · exact hb rfl

/-- The bytes that the machine looks ahead for. -/
def Alike (rest rest' : Text) : Prop :=
  ∀ c ∈ [Byte.slash, Byte.star, Byte.lbrace], rest'.head? = some c ↔ rest.head? = some c

/-- In code, of what stands before and behind a byte only this is looked at. -/
theorem InCode.read_congr {s : State} (h : s.InCode) {before before' rest rest' : Text}
    (b : UInt8) (hbefore : regexAllowed before' = regexAllowed before) (hrest : Alike rest rest') :
    s.read before' b rest' = s.read before b rest := by
  obtain ⟨region, mode, depth, outer⟩ := s
  obtain ⟨hregion, hmode, -⟩ := h
  dsimp only at hregion hmode
  subst hmode
  have hslash := hrest Byte.slash (by decide)
  have hstar := hrest Byte.star (by decide)
  have hlbrace := hrest Byte.lbrace (by decide)
  cases region with
  | live =>
    simp only [State.read, readLive, hslash, hstar, hbefore, reduceCtorEq, false_and, and_false]
  | template escaped => cases escaped <;> simp only [State.read, readTemplate, hlbrace]
  | quoted quote escaped => cases escaped <;> rfl
  | regex inClass escaped => cases escaped <;> rfl
  | opening | lineComment | commentOpening | blockComment => rfl
  | _ => cases hregion

end State

/-! ## Insertions -/

/-- In front of which bytes of `t` insertions are made: in front of live ones that begin a word, or
of live brackets. What is inserted are words and dots, and it ends no word in front of another. -/
structure Insertable (ins : Nat → Text) (i : Nat) (bits : List Bool) (before t : Text) : Prop where
  tame : ∀ j, ∀ c ∈ ins j, Byte.isWord c = true ∨ c = Byte.dot
  bits : ∀ k b, t[k]? = some b → ins (i + k) ≠ [] → bits[k]? = some false
  byte : ∀ k b, t[k]? = some b → ins (i + k) ≠ [] → Byte.isWord b = true ∨ b = Byte.lbracket
  apart : ∀ k b, t[k]? = some b → ins (i + k) ≠ [] → Byte.isWord b = true →
    (∀ c ∈ (ins (i + k)).getLast?, Byte.isWord c = false) ∧
      ∀ c ∈ ((t.take k).reverse ++ before).head?, Byte.isWord c = false

theorem Insertable.tail {ins : Nat → Text} {i : Nat} {m : Bool} {bits : List Bool}
    {before t : Text} {b : UInt8} (h : Insertable ins i (m :: bits) before (b :: t)) :
    Insertable ins (i + 1) bits (b :: before) t where
  tame := h.tame
  bits k c hc hins := h.bits (k + 1) c hc (by rwa [Nat.add_right_comm] at hins)
  byte k c hc hins := h.byte (k + 1) c hc (by rwa [Nat.add_right_comm] at hins)
  apart k c hc hins hword := by
    have hreverse : ((b :: t).take (k + 1)).reverse ++ before =
        (t.take k).reverse ++ b :: before := by simp
    rw [Nat.add_right_comm] at hins ⊢
    rw [← hreverse]
    exact h.apart (k + 1) c hc hins hword

/-- A byte of words, dots and brackets: nothing reacts to it, in front of it or at it. -/
theorem tame_byte : ∀ b, (Byte.isWord b = true ∨ b = Byte.dot ∨ b = Byte.lbracket) →
    Byte.isPlain b = true ∧ Byte.isSpace b = false ∧
      b ∉ [Byte.slash, Byte.star, Byte.lbrace] :=
  Byte.forall_of_nibbles (by decide)

/-- What stands behind a byte begins alike with an insertion as without. -/
theorem Insertable.alike {ins : Nat → Text} {i : Nat} {bits : List Bool} {before t : Text}
    (h : Insertable ins i bits before t) : State.Alike t (weave ins i t) := by
  intro c hc
  cases t with
  | nil => exact Iff.rfl
  | cons b t =>
    rw [weave]
    cases hins : ins i with
    | nil => exact Iff.rfl
    | cons d q =>
      have hb := (tame_byte b (by
        rcases h.byte 0 b rfl (by simp [hins]) with hb | hb
        · exact .inl hb
        · exact .inr (.inr hb))).2.2
      have hd := (tame_byte d (by
        rcases h.tame i d (by simp [hins]) with hd | hd
        · exact .inl hd
        · exact .inr (.inl hd))).2.2
      simp only [List.cons_append, List.head?_cons, Option.some.injEq]
      constructor
      · rintro rfl
        exact absurd hc hd
      · rintro rfl
        exact absurd hc hb

namespace State

/-- The bits of words and dots in live text. -/
theorem bits_append_tame {s : State} (hs : s.region = .live) {q : Text}
    (hq : ∀ c ∈ q, Byte.isWord c = true ∨ c = Byte.dot) (before t : Text) :
    s.bits before (q ++ t) =
      List.replicate q.length false ++ s.bits (q.reverse ++ before) t := by
  induction q generalizing before with
  | nil => rfl
  | cons c q ih =>
    obtain ⟨hc, hq⟩ := List.forall_mem_cons.1 hq
    have hplain : Byte.isPlain c = true :=
      (tame_byte c (hc.imp_right .inl)).1
    have hinto : s.into .live = s := by rw [into, ← hs]
    rw [List.cons_append, bits, read_plain hs hplain, hinto, ih hq]
    simp [List.replicate_succ]

/-- A text with insertions is read like the text. -/
theorem bits_weave {ins : Nat → Text} {t : Text} : ∀ {i : Nat} {s : State} {before before' : Text},
    s.InCode → (∀ near, regexAllowed (near ++ before') = regexAllowed (near ++ before)) →
    Insertable ins i (s.bits before t) before t →
    s.bits before' (weave ins i t) =
      weave (fun j => List.replicate (ins j).length false) i (s.bits before t) := by
  induction t with
  | nil => intros; rfl
  | cons b t ih =>
    intro i s before before' hs hbefore h
    have halike := h.tail.alike
    have hstep (before₁ : Text) (hread : s.read before₁ b (weave ins (i + 1) t) = s.read before b t)
        (hbefore₁ : ∀ near, regexAllowed (near ++ b :: before₁) =
          regexAllowed (near ++ b :: before)) :
        s.bits before₁ (b :: weave ins (i + 1) t) = (s.read before b t).1 ::
          weave (fun j => List.replicate (ins j).length false) (i + 1)
            ((s.read before b t).2.bits (b :: before) t) := by
      rw [bits, hread, ih (hs.read before b t) hbefore₁ h.tail]
    by_cases hins : ins i = []
    · rw [weave, hins, List.nil_append, hstep before' (hs.read_congr b (hbefore []) halike)
        fun near => by simpa using hbefore (near ++ [b])]
      simp [bits, weave, hins]
    · -- the byte is live, so what is put in front of it is read in live text
      obtain ⟨hplain, hspace, -⟩ := tame_byte b ((h.byte 0 b rfl hins).imp_right .inr)
      have hlive : (s.read before b t).1 = false := by
        simpa [bits] using h.bits 0 b rfl hins
      have hregion : s.region = .live := hs.region_of_live hlive (by
        rintro rfl
        simp +decide at hspace)
      rw [weave, bits_append_tame hregion (h.tame i), hstep ((ins i).reverse ++ before')
        (by rw [read_plain hregion hplain, read_plain hregion hplain]) fun near => ?_]
      · simp [bits, weave]
      · rw [regexAllowed_append_cons near _ hspace fun hword => ?_,
          regexAllowed_append_cons near before hspace
            fun hword => (h.apart 0 b rfl hins hword).2]
        intro c hc
        obtain ⟨q, d, hq⟩ : ∃ q d, ins i = q ++ [d] := by
          rcases List.eq_nil_or_concat (ins i) with hnil | ⟨q, d, hq⟩
          · exact absurd hnil hins
          · exact ⟨q, d, by simpa using hq⟩
        rw [hq] at hc
        obtain rfl : d = c := by simpa using hc
        exact (h.apart 0 b rfl hins hword).1 d (by simp [hq])

end State

/-- The mask of a text with insertions is that of the text, with live bits inserted. -/
theorem ofText_weave {ins : Nat → Text} {t : Text} (h : Insertable ins 0 (ofText .code t) [] t) :
    ofText .code (weave ins 0 t) =
      weave (fun j => List.replicate (ins j).length false) 0 (ofText .code t) :=
  State.bits_weave State.inCode_start (fun _ => rfl) h

end PageLang.Mask
