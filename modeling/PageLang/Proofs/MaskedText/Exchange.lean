import PageLang.Hierarchy.DataImport
import PageLang.Include.Directive
import PageLang.Proofs.MaskedText.Agree
import PageLang.Proofs.MaskedText.Occurrences

/-!
# Searching for keywords around an exchanged piece

A search for a keyword goes from one live occurrence to the next. Where a piece without occurrences
is exchanged for another one, the searches in both texts find the same in front of the pieces and
behind them.

* `MaskedText.indexOf?_eq_some_iff`: what a search for a keyword finds.
* `MaskedText.Scans`: the readings at the occurrences of a keyword, one after the other.
* `MaskedText.Exchanged.scans`: the readings in a text and in the text with the exchanged piece.
-/

namespace PageLang.MaskedText

/-! ## Keywords -/

/-- What a directive begins with: the first byte does not come again, and no byte is a brace. -/
structure IsKeyword (pattern : Text) : Prop where
  head : ∃ b rest, pattern = b :: rest ∧ b ∉ rest ∧ Byte.isContinuation b = false
  lbrace : Byte.lbrace ∉ pattern
  rbrace : Byte.rbrace ∉ pattern

theorem isKeyword_include : IsKeyword "*include" :=
  ⟨⟨Byte.star, "include", rfl, by decide, by decide⟩, by decide, by decide⟩

theorem isKeyword_json : IsKeyword "*json" :=
  ⟨⟨Byte.star, "json", rfl, by decide, by decide⟩, by decide, by decide⟩

/-- A pattern stands at an offset, and its first byte is live. -/
def Occurs (s : MaskedText) (pattern : Text) (k : Nat) : Prop :=
  s.startsAt pattern k = true ∧ s.isMasked k = false

section
variable {s : MaskedText} {pattern : Text}

/-- Occurrences of a keyword do not overlap. -/
theorem IsKeyword.apart (hkey : IsKeyword pattern) {j k : Nat} (hjk : j < k)
    (hj : s.startsAt pattern j = true) (hk : s.startsAt pattern k = true) :
    j + pattern.length ≤ k := by
  obtain ⟨b, rest, rfl, hb, -⟩ := hkey.head
  refine Nat.le_of_not_lt fun hlt => hb ?_
  obtain ⟨i, rfl⟩ := Nat.exists_eq_add_of_lt hjk
  have hfirst := byte?_add_of_startsAt hk (Nat.succ_pos _)
  have hinside := byte?_add_of_startsAt hj (show i + 1 < (b :: rest).length by omega)
  rw [Nat.add_zero, show j + i + 1 = j + (i + 1) by omega, hinside] at hfirst
  exact List.mem_of_getElem? hfirst

theorem IsKeyword.indexOf?_le (hkey : IsKeyword pattern) {start k : Nat} (hk : start ≤ k)
    (h : s.Occurs pattern k) : ∃ j ≤ k, s.indexOf? pattern start = some j := by
  obtain ⟨b, rest, hpattern, -, hb⟩ := hkey.head
  have hfirst := byte?_add_of_startsAt h.1 (show 0 < pattern.length by simp [hpattern])
  rw [Nat.add_zero, hpattern] at hfirst
  have hbound : s.isBoundary k = true := by
    unfold isBoundary
    rw [hfirst]
    simp [hb]
  exact MaskedText.indexOf?_le hk ⟨hbound, h.1⟩ h.2 fun j hj hat => hkey.apart hj hat h.1

theorem IsKeyword.ne_nil (hkey : IsKeyword pattern) : pattern ≠ [] := by
  obtain ⟨b, rest, rfl, -⟩ := hkey.head
  exact List.cons_ne_nil _ _

/-- A search for a keyword finds the first live occurrence. -/
theorem indexOf?_eq_some_iff (hkey : IsKeyword pattern) {start i : Nat} :
    s.indexOf? pattern start = some i ↔
      start ≤ i ∧ s.Occurs pattern i ∧ ∀ k, start ≤ k → k < i → ¬ s.Occurs pattern k := by
  constructor
  · intro hfind
    obtain ⟨-, -, hat, hlive⟩ := searchFrom?_eq_some hfind
    refine ⟨(indexOf?_eq_some hfind hkey.ne_nil).1, ⟨hat, hlive⟩, fun k hk hki hoccurs => ?_⟩
    obtain ⟨j, hj, hfind'⟩ := hkey.indexOf?_le hk hoccurs
    rw [hfind] at hfind'
    cases hfind'
    omega
  · rintro ⟨hle, hoccurs, hleast⟩
    obtain ⟨j, hj, hfind⟩ := hkey.indexOf?_le hle hoccurs
    obtain ⟨-, -, hat, hlive⟩ := searchFrom?_eq_some hfind
    have hstart := (indexOf?_eq_some hfind hkey.ne_nil).1
    rcases Nat.eq_or_lt_of_le hj with rfl | hlt
    · exact hfind
    · exact absurd ⟨hat, hlive⟩ (hleast j hstart hlt)

theorem indexOf?_eq_none_iff (hkey : IsKeyword pattern) {start : Nat} :
    s.indexOf? pattern start = none ↔ ∀ k, start ≤ k → ¬ s.Occurs pattern k := by
  constructor
  · intro hnone k hk hoccurs
    obtain ⟨j, -, hfind⟩ := hkey.indexOf?_le hk hoccurs
    rw [hnone] at hfind
    cases hfind
  · intro h
    cases hfind : s.indexOf? pattern start with
    | none => rfl
    | some i =>
      obtain ⟨hle, hoccurs, -⟩ := (indexOf?_eq_some_iff hkey).1 hfind
      exact absurd hoccurs (h i hle)

/-- Two texts with the same occurrences of a keyword. -/
theorem indexOf?_congr {s' : MaskedText} (hkey : IsKeyword pattern)
    (h : ∀ k, s'.Occurs pattern k ↔ s.Occurs pattern k) (start : Nat) :
    s'.indexOf? pattern start = s.indexOf? pattern start := by
  cases hfind : s.indexOf? pattern start with
  | none => simpa only [indexOf?_eq_none_iff hkey, h] using hfind
  | some i => simpa only [indexOf?_eq_some_iff hkey, h] using hfind

end

/-! ## Readings -/

/-- The readings at the live occurrences of a keyword from `pos` on, where reading goes on behind an
occurrence at `next`. -/
inductive Scans {α : Type} (s : MaskedText) (pattern : Text) (item : Nat → α) (next : Nat → Nat) :
    (pos : Nat) → List α → Prop
  | ended {pos : Nat} : s.indexOf? pattern pos = none → Scans s pattern item next pos []
  | found {pos i : Nat} {rest : List α} : s.indexOf? pattern pos = some i →
    Scans s pattern item next (next i) rest → Scans s pattern item next pos (item i :: rest)

namespace Scans

variable {α : Type} {s : MaskedText} {pattern : Text} {item : Nat → α} {next : Nat → Nat}
  {pos : Nat} {items : List α}

/-- What is read is read at an occurrence. -/
theorem exists_occurs (hkey : IsKeyword pattern) (h : s.Scans pattern item next pos items) {r : α}
    (hr : r ∈ items) : ∃ i, item i = r ∧ s.Occurs pattern i := by
  induction h with
  | ended => cases hr
  | @found pos i rest hfind _ ih =>
    rcases List.mem_cons.1 hr with rfl | hr
    · exact ⟨i, rfl, ((indexOf?_eq_some_iff hkey).1 hfind).2.1⟩
    · exact ih hr

/-- Where no reading in front of `n` goes on behind it, the first occurrence behind `n` is read. -/
theorem exists_mem (hkey : IsKeyword pattern) (h : s.Scans pattern item next pos items) {n k : Nat}
    (hnext : ∀ i < n, item i ∈ items → next i ≤ n) (hpos : pos ≤ n) (hk : n ≤ k)
    (hoccurs : s.Occurs pattern k) : ∃ i, n ≤ i ∧ i ≤ k ∧ item i ∈ items := by
  induction h with
  | ended hnone => exact absurd hoccurs ((indexOf?_eq_none_iff hkey).1 hnone k (by omega))
  | @found pos i rest hfind _ ih =>
    obtain ⟨-, -, hleast⟩ := (indexOf?_eq_some_iff hkey).1 hfind
    rcases Nat.lt_or_ge i n with hlt | hge
    · obtain ⟨j, hj, hjk, hmem⟩ := ih (fun j hj hmem => hnext j hj (.tail _ hmem))
        (hnext i hlt (.head _))
      exact ⟨j, hj, hjk, .tail _ hmem⟩
    · exact ⟨i, hge, Nat.le_of_not_lt fun hki => hleast k (by omega) hki hoccurs, .head _⟩

end Scans

theorem scans_directives (s : MaskedText) (directory : Path) (pos : Nat) :
    s.Scans "*include" (fun i => (s.directiveAt directory i).result)
      (fun i => (s.directiveAt directory i).next) pos (s.directivesFrom directory pos) := by
  fun_induction s.directivesFrom directory pos with
  | case1 pos hnone => exact .ended hnone
  | case2 pos start hfind ih => exact .found hfind ih

theorem scans_dataImports (s : MaskedText) (pos : Nat) :
    s.Scans "*json" (fun i => s.dataImport i (s.statementEnd i))
      (fun i => max (s.statementEnd i) (i + 1)) pos (s.dataImportsFrom pos) := by
  fun_induction s.dataImportsFrom pos with
  | case1 pos hnone => exact .ended hnone
  | case2 pos start hfind ih => exact .found hfind ih

theorem dataImportsFrom_end {s : MaskedText} {pos : Nat} (h : s.indexOf? "*json" pos = none) :
    s.dataImportsFrom pos = [] := by
  rw [dataImportsFrom]
  split
  · rfl
  · next hfind =>
    rw [h] at hfind
    cases hfind

theorem dataImportsFrom_found {s : MaskedText} {pos i : Nat}
    (h : s.indexOf? "*json" pos = some i) :
    s.dataImportsFrom pos = s.dataImport i (s.statementEnd i) ::
      s.dataImportsFrom (max (s.statementEnd i) (i + 1)) := by
  rw [dataImportsFrom]
  split
  · next hnone =>
    rw [h] at hnone
    cases hnone
  · next hfind =>
    rw [h] at hfind
    cases hfind
    rfl

/-- A data import that ends in a range where two texts agree. -/
theorem AgreeOn.dataImport_eq {s s' : MaskedText} {lo hi i j : Nat} {b : UInt8}
    (h : AgreeOn s s' lo hi) (hlo : lo ≤ i)
    (hfind : s.findAny? [Byte.semicolon, Byte.lbrace, Byte.rbrace] i = some (j, b)) (hj : j < hi) :
    s'.statementEnd i = s.statementEnd i ∧
      s'.dataImport i (s.statementEnd i) = s.dataImport i (s.statementEnd i) := by
  have hle := (findAny?_eq_some hfind).1
  have hend : s.statementEnd i = j + 1 := by
    unfold statementEnd
    rw [hfind]
  have hend' : s'.statementEnd i = j + 1 := by
    unfold statementEnd
    rw [h.findAny?_eq hlo hj hfind]
  refine ⟨by rw [hend, hend'], ?_⟩
  unfold dataImport
  rw [hend, h.slice_eq (by omega) hj, Nat.add_sub_cancel, h.byte? j (by omega) hj]

/-! ## An exchanged piece -/

/-- `s'` is the text `s` with another piece in the place of the one from `n` up to `m`. The pieces
stand between two braces, of which the first one is live. -/
structure Exchanged (s s' : MaskedText) (n m m' : Nat) : Prop where
  front : AgreeOn s s' 0 n
  back : Shifted s s' m m'
  le : n ≤ m
  le' : n ≤ m'
  pos : 0 < n
  lbrace : s.liveByte? (n - 1) = some Byte.lbrace
  rbrace : s.byte? m = some Byte.rbrace

/-- An offset that is the same in front of the pieces, and as far behind them. -/
inductive Apiece (n m m' : Nat) : Nat → Nat → Prop
  | front {i : Nat} : i < n → Apiece n m m' i i
  | back {k : Nat} : 0 < k → Apiece n m m' (m + k) (m' + k)

/-- The same for an offset to go on at. -/
inductive Onward (n m m' : Nat) : Nat → Nat → Prop
  | front {i : Nat} : i ≤ n → Onward n m m' i i
  | back (k : Nat) : Onward n m m' (m + k) (m' + k)

namespace Exchanged

variable {s s' : MaskedText} {n m m' : Nat} {pattern : Text} (h : Exchanged s s' n m m')
include h

theorem symm : Exchanged s' s n m' m where
  front := h.front.symm
  back := h.back.symm
  le := h.le'
  le' := h.le
  pos := h.pos
  lbrace := by rw [h.front.liveByte?_eq (Nat.zero_le _) (by have := h.pos; omega), h.lbrace]
  rbrace := by rw [← h.rbrace]; exact h.back.byte? 0

/-- An occurrence in front of a piece ends there too. -/
theorem occurs_front (hkey : IsKeyword pattern) {i : Nat} (hi : i < n) (hoccurs : s.Occurs pattern i) :
    s'.Occurs pattern i := by
  have hle : i + pattern.length ≤ n := by
    refine Nat.le_of_not_lt fun hlt => hkey.lbrace ?_
    have hat := byte?_add_of_startsAt hoccurs.1 (show n - 1 - i < pattern.length by omega)
    rw [show i + (n - 1 - i) = n - 1 by omega, (liveByte?_eq_some h.lbrace).2] at hat
    exact List.mem_of_getElem? hat.symm
  refine ⟨?_, ?_⟩
  · rw [h.front.startsAt_eq (Nat.zero_le _) hle]
    exact hoccurs.1
  · rw [h.front.isMasked i (Nat.zero_le _) hi]
    exact hoccurs.2

theorem occurs_back {k : Nat} (hoccurs : s.Occurs pattern (m + k)) : s'.Occurs pattern (m' + k) := by
  refine ⟨?_, ?_⟩
  · rw [h.back.startsAt_eq]
    exact hoccurs.1
  · rw [h.back.isMasked]
    exact hoccurs.2

/-- An occurrence outside a piece without occurrences is one of the other text too. -/
theorem occurs (hkey : IsKeyword pattern)
    (hsilent : ∀ k, n ≤ k → k < m → ¬ s.Occurs pattern k) {pos pos' i : Nat}
    (hpos : Onward n m m' pos pos') (hi : pos ≤ i) (hoccurs : s.Occurs pattern i) :
    ∃ j, pos' ≤ j ∧ s'.Occurs pattern j ∧ Apiece n m m' i j := by
  have hle := h.le
  have hle' := h.le'
  rcases Nat.lt_or_ge i n with hlt | hge
  · refine ⟨i, ?_, h.occurs_front hkey hlt hoccurs, .front hlt⟩
    cases hpos with
    | front => exact hi
    | back k => omega
  rcases Nat.lt_or_ge i m with hlt | hge'
  · exact absurd hoccurs (hsilent i hge hlt)
  obtain ⟨k, rfl⟩ := Nat.exists_eq_add_of_le hge'
  refine ⟨m' + k, ?_, h.occurs_back hoccurs, .back (Nat.pos_of_ne_zero fun hk => ?_)⟩
  · cases hpos with
    | front => omega
    | back => omega
  · -- the piece is followed by a brace
    subst hk
    have hat := byte?_add_of_startsAt hoccurs.1 (List.length_pos_iff.2 hkey.ne_nil)
    change s.byte? m = _ at hat
    rw [h.rbrace] at hat
    exact hkey.rbrace (List.mem_of_getElem? hat.symm)

/-- A search that finds nothing in the piece finds the same in both texts. -/
theorem indexOf?_eq (hkey : IsKeyword pattern) (hsilent : ∀ k, n ≤ k → k < m → ¬ s.Occurs pattern k)
    (hsilent' : ∀ k, n ≤ k → k < m' → ¬ s'.Occurs pattern k) {pos pos' : Nat}
    (hpos : Onward n m m' pos pos') :
    s.indexOf? pattern pos = none ∧ s'.indexOf? pattern pos' = none ∨
      ∃ i j, s.indexOf? pattern pos = some i ∧ s'.indexOf? pattern pos' = some j ∧
        Apiece n m m' i j := by
  have hpos' : Onward n m' m pos' pos := by
    cases hpos with
    | front hi => exact .front hi
    | back k => exact .back k
  have hle := h.le
  have hle' := h.le'
  cases hfind : s.indexOf? pattern pos with
  | none =>
    refine .inl ⟨rfl, (indexOf?_eq_none_iff hkey).2 fun j hj hoccurs => ?_⟩
    obtain ⟨i, hi, hoccurs', -⟩ := h.symm.occurs hkey hsilent' hpos' hj hoccurs
    exact (indexOf?_eq_none_iff hkey).1 hfind i hi hoccurs'
  | some i =>
    obtain ⟨hi, hoccurs, hleast⟩ := (indexOf?_eq_some_iff hkey).1 hfind
    obtain ⟨j, hj, hoccurs', hij⟩ := h.occurs hkey hsilent hpos hi hoccurs
    refine .inr ⟨i, j, rfl, (indexOf?_eq_some_iff hkey).2 ⟨hj, hoccurs', fun k hk hkj hk' => ?_⟩, hij⟩
    obtain ⟨l, hl, hl', hkl⟩ := h.symm.occurs hkey hsilent' hpos' hk hk'
    refine hleast l hl ?_ hl'
    cases hij <;> cases hkl <;> omega

/-- The readings in both texts, if what is read at the occurrences is the same up to `move`. -/
theorem scans {α : Type} {item item' : Nat → α} {next next' : Nat → Nat} {move : α → α}
    (hkey : IsKeyword pattern) (hsilent : ∀ k, n ≤ k → k < m → ¬ s.Occurs pattern k)
    (hsilent' : ∀ k, n ≤ k → k < m' → ¬ s'.Occurs pattern k) {all all' items items' : List α}
    (hread : ∀ i j, Apiece n m m' i j → item i ∈ all → item' j ∈ all' →
      item' j = move (item i) ∧ Onward n m m' (next i) (next' j))
    {pos pos' : Nat} (hscan : s.Scans pattern item next pos items)
    (hscan' : s'.Scans pattern item' next' pos' items') (hpos : Onward n m m' pos pos')
    (hall : items ⊆ all) (hall' : items' ⊆ all') : items' = items.map move := by
  induction hscan generalizing pos' items' with
  | @ended pos hnone =>
    cases hscan' with
    | ended => rfl
    | @found _ j _ hfind' =>
      rcases h.indexOf?_eq hkey hsilent hsilent' hpos with ⟨-, hnone'⟩ | ⟨i, -, hfind, -⟩
      · rw [hfind'] at hnone'
        cases hnone'
      · rw [hnone] at hfind
        cases hfind
  | @found pos i rest hfind _ ih =>
    obtain ⟨hnone, -⟩ | ⟨i', j, hfind', hj, hij⟩ := h.indexOf?_eq hkey hsilent hsilent' hpos
    · rw [hfind] at hnone
      cases hnone
    · rw [hfind] at hfind'
      cases hfind'
      cases hscan' with
      | ended hnone' =>
        rw [hj] at hnone'
        cases hnone'
      | found hj' hrest =>
        rw [hj] at hj'
        cases hj'
        obtain ⟨hitem, honward⟩ := hread i j hij (hall (.head _)) (hall' (.head _))
        rw [List.map_cons, hitem, ih hrest honward (fun r hr => hall (.tail _ hr))
          fun r hr => hall' (.tail _ hr)]

end Exchanged

end PageLang.MaskedText
