import PageLang.Proofs.MaskedText.Trivia

/-!
# Searches in texts that agree in part

What a search finds depends on the bytes and bits between the offset that it starts from and the
offset that it answers with. So two masked texts that agree on a range give the same answers to
searches that stay in it, and two that agree up to their ends, at offsets of their own, give the
same answers up to the shift.

* `MaskedText.AgreeOn`: two texts that agree on a range.
* `MaskedText.Shifted`: two texts that have one end in common.
-/

namespace PageLang.MaskedText

/-- A pattern stands only where its first byte does. -/
theorem startsAt_eq_false {s : MaskedText} {pattern : Text} {b : UInt8} {i : Nat}
    (hpattern : pattern.head? = some b) (hb : s.byte? i ≠ some b) :
    s.startsAt pattern i = false := by
  refine Bool.eq_false_iff.2 fun hat => hb ?_
  cases pattern with
  | nil => cases hpattern
  | cons c rest =>
    cases hpattern
    exact byte?_add_of_startsAt hat (Nat.succ_pos _)

/-- A gap goes on only with blank space or a slash. -/
theorem gapNext?_blank_eq_none {s : MaskedText} {i : Nat} {b : UInt8} (hb : s.byte? i = some b)
    (hspace : Byte.isSpace b = false) (hslash : b ≠ Byte.slash) : s.gapNext? .blank i = none := by
  have hno : s.byte? i ≠ some Byte.slash := by
    rw [hb]
    exact fun heq => hslash (Option.some.inj heq)
  have hline : s.startsAt "//" i = false := startsAt_eq_false rfl hno
  have hblock : s.startsAt "/*" i = false := startsAt_eq_false rfl hno
  simp only [gapNext?, hb, Option.any_some, hspace, hline, hblock, Bool.false_eq_true, if_false]

/-- Two masked texts with the same bytes and bits from `lo` up to `hi`. -/
structure AgreeOn (s s' : MaskedText) (lo hi : Nat) : Prop where
  le : hi ≤ s.size
  le' : hi ≤ s'.size
  byte? : ∀ i, lo ≤ i → i < hi → s'.byte? i = s.byte? i
  isMasked : ∀ i, lo ≤ i → i < hi → s'.isMasked i = s.isMasked i

namespace AgreeOn

variable {s s' : MaskedText} {lo hi : Nat} (h : AgreeOn s s' lo hi)
include h

theorem symm : AgreeOn s' s lo hi :=
  ⟨h.le', h.le, fun i hlo hhi => (h.byte? i hlo hhi).symm,
    fun i hlo hhi => (h.isMasked i hlo hhi).symm⟩

theorem liveByte?_eq {i : Nat} (hlo : lo ≤ i) (hhi : i < hi) : s'.liveByte? i = s.liveByte? i := by
  unfold liveByte?
  rw [h.byte? i hlo hhi, h.isMasked i hlo hhi]

theorem findAny?_eq {set : Text} {i j : Nat} {b : UInt8} (hlo : lo ≤ i) (hhi : j < hi)
    (hfind : s.findAny? set i = some (j, b)) : s'.findAny? set i = some (j, b) := by
  obtain ⟨hle, -, hlive, hset⟩ := findAny?_eq_some hfind
  refine findAny?_of_least hle ?_ (List.contains_iff_mem.1 hset) fun k hk hkj c hc => ?_
  · rw [h.liveByte?_eq (by omega) hhi, hlive]
  · rw [h.liveByte?_eq (by omega) (by omega)] at hc
    exact not_mem_of_findAny? hfind hk hkj hc

theorem slice_eq {i j : Nat} (hlo : lo ≤ i) (hhi : j ≤ hi) : s'.slice i j = s.slice i j := by
  have := h.le
  have := h.le'
  refine List.ext_getElem? fun k => ?_
  by_cases hk : i + k < j
  · rw [getElem?_slice hk, getElem?_slice hk, h.byte? _ (by omega) (by omega)]
  · rw [List.getElem?_eq_none (by rw [length_slice]; omega),
      List.getElem?_eq_none (by rw [length_slice]; omega)]

/-- The first bytes of a range that may reach out of the texts' common part. -/
theorem take_slice_eq {i j n : Nat} (hlo : lo ≤ i) (hhi : i + n ≤ hi) :
    (s'.slice i j).take n = (s.slice i j).take n := by
  have := h.le
  have := h.le'
  refine List.ext_getElem? fun k => ?_
  rw [List.getElem?_take, List.getElem?_take]
  split
  · by_cases hk : i + k < j
    · rw [getElem?_slice hk, getElem?_slice hk, h.byte? _ (by omega) (by omega)]
    · rw [List.getElem?_eq_none (by rw [length_slice]; omega),
        List.getElem?_eq_none (by rw [length_slice]; omega)]
  · rfl

theorem startsAt_eq {pattern : Text} {i : Nat} (hlo : lo ≤ i) (hhi : i + pattern.length ≤ hi) :
    s'.startsAt pattern i = s.startsAt pattern i := by
  unfold startsAt
  rw [h.slice_eq hlo hhi]

theorem gapNext?_eq {gap : Gap} {i : Nat} (hlo : lo ≤ i) (hhi : i < hi)
    (hslash : s.byte? i = some Byte.slash → i + 1 < hi) : s'.gapNext? gap i = s.gapNext? gap i := by
  have hbyte := h.byte? i hlo hhi
  have hpair {pattern : Text} (hfirst : pattern.head? = some Byte.slash)
      (hlength : pattern.length = 2) : s'.startsAt pattern i = s.startsAt pattern i := by
    by_cases hb : s.byte? i = some Byte.slash
    · have := hslash hb
      exact h.startsAt_eq hlo (by omega)
    · rw [startsAt_eq_false hfirst hb, startsAt_eq_false hfirst (by rwa [hbyte])]
  have hline : s'.startsAt "//" i = s.startsAt "//" i := hpair rfl rfl
  have hblock : s'.startsAt "/*" i = s.startsAt "/*" i := hpair rfl rfl
  cases gap <;> simp only [gapNext?, hbyte, hline, hblock]

/-- A gap that ends in the range, and not with a slash whose comment may open behind the range. -/
theorem gapEnd_eq {gap : Gap} {i n n' : Nat} (hlo : lo ≤ i) (hn : hi ≤ i + n) (hn' : hi ≤ i + n')
    (hhi : s.gapEnd gap i n < hi)
    (hslash : s.byte? (s.gapEnd gap i n) = some Byte.slash → s.gapEnd gap i n + 1 < hi) :
    s'.gapEnd gap i n' = s.gapEnd gap i n := by
  have hle := (s.le_gapEnd gap i n).1
  induction n generalizing gap i n' with
  | zero => omega
  | succ n ih =>
    obtain ⟨n', rfl⟩ : ∃ k, n' = k + 1 := ⟨n' - 1, by omega⟩
    have hstep : s'.gapNext? gap i = s.gapNext? gap i := by
      refine h.gapNext?_eq hlo (by omega) fun hb => Decidable.byContradiction fun hlast => ?_
      have hend : s.gapEnd gap i (n + 1) = i := by omega
      rw [hend] at hslash
      exact hlast (hslash hb)
    rw [gapEnd_succ] at hhi hle hslash ⊢
    rw [gapEnd_succ, hstep]
    cases hnext : s.gapNext? gap i with
    | none => rfl
    | some next =>
      rw [hnext] at hhi hle hslash
      exact ih (by omega) (by omega) (by omega) hhi hslash (s.le_gapEnd next (i + 1) n).1

theorem skipTrivia_eq_of_slash {i : Nat} (hlo : lo ≤ i) (hhi : s.skipTrivia i < hi)
    (hslash : s.byte? (s.skipTrivia i) = some Byte.slash → s.skipTrivia i + 1 < hi) :
    s'.skipTrivia i = s.skipTrivia i := by
  have := h.le
  have := h.le'
  have hle := le_skipTrivia_of_lt (by omega : s.skipTrivia i < s.size)
  have hlt : i < hi := by omega
  unfold skipTrivia at hhi hslash ⊢
  rw [Nat.min_eq_left (by omega)] at hhi hslash ⊢
  rw [Nat.min_eq_left (by omega)]
  exact h.gapEnd_eq hlo (by omega) (by omega) hhi hslash

/-- A gap that ends in front of the last byte of the range. -/
theorem skipTrivia_eq {i : Nat} (hlo : lo ≤ i) (hhi : s.skipTrivia i + 1 < hi) :
    s'.skipTrivia i = s.skipTrivia i :=
  h.skipTrivia_eq_of_slash hlo (by omega) fun _ => hhi

end AgreeOn

/-- Two masked texts that are the same from `m` and from `m'` up to their ends. -/
structure Shifted (s s' : MaskedText) (m m' : Nat) : Prop where
  le : m ≤ s.size
  size_eq : s'.size + m = s.size + m'
  byte? : ∀ k, s'.byte? (m' + k) = s.byte? (m + k)
  isMasked : ∀ k, s'.isMasked (m' + k) = s.isMasked (m + k)

namespace Shifted

variable {s s' : MaskedText} {m m' : Nat} (h : Shifted s s' m m')
include h

theorem symm : Shifted s' s m' m :=
  ⟨by have := h.le; have := h.size_eq; omega, h.size_eq.symm, fun k => (h.byte? k).symm,
    fun k => (h.isMasked k).symm⟩

theorem liveByte?_eq (k : Nat) : s'.liveByte? (m' + k) = s.liveByte? (m + k) := by
  unfold liveByte?
  rw [h.byte? k, h.isMasked k]

theorem findAny?_of_some {set : Text} {j k : Nat} {b : UInt8}
    (hfind : s.findAny? set (m + j) = some (m + k, b)) :
    s'.findAny? set (m' + j) = some (m' + k, b) := by
  obtain ⟨hle, -, hlive, hset⟩ := findAny?_eq_some hfind
  refine findAny?_of_least (by omega) ?_ (List.contains_iff_mem.1 hset) fun i hi hik c hc => ?_
  · rw [h.liveByte?_eq, hlive]
  · obtain ⟨i, rfl⟩ := Nat.exists_eq_add_of_le (show m' ≤ i by omega)
    rw [h.liveByte?_eq] at hc
    exact not_mem_of_findAny? hfind (by omega) (by omega) hc

/-- Searches for live bytes find the same. -/
theorem findAny?_eq (set : Text) (j : Nat) :
    (∃ k b, j ≤ k ∧ s.findAny? set (m + j) = some (m + k, b) ∧
      s'.findAny? set (m' + j) = some (m' + k, b)) ∨
    s.findAny? set (m + j) = none ∧ s'.findAny? set (m' + j) = none := by
  cases hfind : s.findAny? set (m + j) with
  | some r =>
    obtain ⟨i, b⟩ := r
    have hle := (findAny?_eq_some hfind).1
    obtain ⟨k, rfl⟩ := Nat.exists_eq_add_of_le (show m ≤ i by omega)
    exact .inl ⟨k, b, by omega, rfl, h.findAny?_of_some hfind⟩
  | none =>
    refine .inr ⟨rfl, ?_⟩
    cases hfind' : s'.findAny? set (m' + j) with
    | none => rfl
    | some r =>
      obtain ⟨i, b⟩ := r
      have hle := (findAny?_eq_some hfind').1
      obtain ⟨k, rfl⟩ := Nat.exists_eq_add_of_le (show m' ≤ i by omega)
      rw [h.symm.findAny?_of_some hfind'] at hfind
      cases hfind

theorem slice_eq (j k : Nat) : s'.slice (m' + j) (m' + k) = s.slice (m + j) (m + k) := by
  have := h.size_eq
  refine List.ext_getElem? fun i => ?_
  by_cases hi : j + i < k
  · rw [getElem?_slice (by omega), getElem?_slice (by omega), Nat.add_assoc, Nat.add_assoc,
      h.byte?]
  · rw [List.getElem?_eq_none (by rw [length_slice]; omega),
      List.getElem?_eq_none (by rw [length_slice]; omega)]

theorem startsAt_eq (pattern : Text) (k : Nat) :
    s'.startsAt pattern (m' + k) = s.startsAt pattern (m + k) := by
  unfold startsAt
  rw [Nat.add_assoc, Nat.add_assoc, h.slice_eq]

theorem gapEnd_eq (gap : Gap) (k n : Nat) :
    s'.gapEnd gap (m' + k) n + m = s.gapEnd gap (m + k) n + m' := by
  induction n generalizing gap k with
  | zero =>
    cases gap <;>
    · simp only [gapEnd]
      omega
  | succ n ih =>
    have hnext : s'.gapNext? gap (m' + k) = s.gapNext? gap (m + k) := by
      cases gap <;> simp only [gapNext?, h.byte?, h.startsAt_eq]
    rw [gapEnd_succ, gapEnd_succ, hnext]
    split
    · exact ih _ (k + 1)
    · show m' + k + m = m + k + m'
      omega

theorem skipTrivia_eq (k : Nat) : s'.skipTrivia (m' + k) + m = s.skipTrivia (m + k) + m' := by
  have := h.le
  have := h.size_eq
  unfold skipTrivia
  rw [show min (m' + k) s'.size = m' + min k (s.size - m) by omega,
    show min (m + k) s.size = m + min k (s.size - m) by omega,
    show s'.size - (m' + k) = s.size - (m + k) by omega]
  exact h.gapEnd_eq _ _ _

end Shifted

/-! ## Texts with a common front and a common back -/

theorem isMasked_eq_getD (mode : Mode) (t : Text) (k : Nat) :
    (ofText mode t).isMasked k = (Mask.ofText mode t)[k]?.getD false := by
  unfold isMasked ofText
  rw [Array.getD_eq_getD_getElem?, List.getElem?_toArray]

section
variable {mode : Mode} {pre x x' post : Text} {p y y' q : List Bool}

/-- Two texts agree in front of the pieces in which they and their masks differ. -/
theorem agreeOn_append (hmask : Mask.ofText mode (pre ++ x ++ post) = p ++ y ++ q)
    (hmask' : Mask.ofText mode (pre ++ x' ++ post) = p ++ y' ++ q) (hp : p.length = pre.length) :
    AgreeOn (ofText mode (pre ++ x ++ post)) (ofText mode (pre ++ x' ++ post)) 0 pre.length where
  le := by
    simp only [size_ofText, List.length_append]
    omega
  le' := by
    simp only [size_ofText, List.length_append]
    omega
  byte? i _ hi := by
    rw [byte?_ofText, byte?_ofText, List.append_assoc, List.append_assoc,
      List.getElem?_append_left hi, List.getElem?_append_left hi]
  isMasked i _ hi := by
    rw [isMasked_eq_getD, isMasked_eq_getD, hmask, hmask', List.append_assoc, List.append_assoc,
      List.getElem?_append_left (by omega), List.getElem?_append_left (by omega)]

/-- Two texts have in common what stands behind such pieces. -/
theorem shifted_append (hmask : Mask.ofText mode (pre ++ x ++ post) = p ++ y ++ q)
    (hmask' : Mask.ofText mode (pre ++ x' ++ post) = p ++ y' ++ q) (hp : p.length = pre.length)
    (hy : y.length = x.length) (hy' : y'.length = x'.length) :
    Shifted (ofText mode (pre ++ x ++ post)) (ofText mode (pre ++ x' ++ post))
      (pre.length + x.length) (pre.length + x'.length) where
  le := by
    simp only [size_ofText, List.length_append]
    omega
  size_eq := by
    simp only [size_ofText, List.length_append]
    omega
  byte? k := by
    rw [byte?_ofText, byte?_ofText, List.getElem?_append_right (by simp),
      List.getElem?_append_right (by simp)]
    simp
  isMasked k := by
    rw [isMasked_eq_getD, isMasked_eq_getD, hmask, hmask',
      List.getElem?_append_right (by simp; omega), List.getElem?_append_right (by simp; omega)]
    simp [hp, hy, hy']

end

end PageLang.MaskedText
