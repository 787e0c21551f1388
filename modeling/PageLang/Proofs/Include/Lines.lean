import PageLang.Proofs.Include.Origin

/-!
# Lines of a flattened text

Every line of a flattened text is attributed to the file and the line of its first byte. The
invariant `Expansion.Traced e os` says that the expansion `e` has the bytes of the origins `os`,
that its regions increase, and that its position map answers for each first byte of a line with
the origin of that byte. Every step of the expansion keeps it.

* `PositionMap.regionAt_addRegion`: a region added at the end takes over all lines from its own on.
* `Expansion.Traced.pushSlice`: a piece of a source.
* `Sources.expandFrom_traced`: a whole file with its includes.
* `Sources.expandSource_lines`: what the position map of a root file answers.
-/

namespace PageLang

namespace Text

/-- Whether a line starts at an offset. -/
def startsLine (t : Text) (offset : Nat) : Prop := offset = 0 ∨ t[offset - 1]? = some Byte.newline

theorem newlines_append (a b : Text) : newlines (a ++ b) = newlines a + newlines b :=
  List.count_append

theorem newlines_take_succ {t : Text} {k : Nat} {b : UInt8} (h : t[k]? = some b) :
    newlines (t.take (k + 1)) = newlines (t.take k) + if b = Byte.newline then 1 else 0 := by
  rw [List.take_add_one, h]
  simp [newlines, List.count_append, List.count_singleton]

theorem newlines_take_le (t : Text) (k : Nat) : newlines (t.take k) ≤ newlines t :=
  (List.take_sublist k t).count_le _

theorem newlines_take_mono (t : Text) {j k : Nat} (h : j ≤ k) :
    newlines (t.take j) ≤ newlines (t.take k) := by
  have := newlines_take_le (t.take k) j
  rwa [List.take_take, Nat.min_eq_left h] at this

theorem newlines_take_add {t : Text} {start stop p : Nat} (h : p < (t.slice start stop).length) :
    newlines (t.take (start + p)) =
      newlines (t.take start) + newlines ((t.slice start stop).take p) := by
  have hp : p ≤ stop - start := by
    simp only [slice, List.length_take] at h
    omega
  rw [List.take_add, newlines_append, slice, List.take_take, Nat.min_eq_left hp]

/-- The line of a place is found by counting newlines. -/
theorem foldl_after_line (t : Text) (p : Place) :
    (t.foldl Place.after p).line = p.line + newlines t := by
  induction t generalizing p with
  | nil => simp [newlines]
  | cons b t ih =>
    rw [List.foldl_cons, ih]
    by_cases hb : b = Byte.newline
    · simp [Place.after, newlines, hb]; omega
    · by_cases hc : Byte.isContinuation b <;> simp [Place.after, newlines, hb, hc]

theorem place_line (t : Text) (offset : Nat) :
    (t.place offset).line = newlines (t.take (t.floorBoundary offset)) + 1 := by
  rw [place, foldl_after_line, Nat.add_comm]

/-! ## Offsets inside a character -/

/-- The line of a place counts all newlines before the offset. It does wherever no newline is cut
from a stray continuation byte. -/
def CountsLines (t : Text) (offset : Nat) : Prop :=
  newlines (t.take (t.floorBoundary offset)) = newlines (t.take offset)

theorem countsLines_zero (t : Text) : t.CountsLines 0 := by
  unfold CountsLines floorBoundary
  split
  · next h => rw [List.length_eq_zero_iff.1 (Nat.le_zero.1 h)]; rfl
  · simp

theorem reverse_take_succ {t : Text} {k : Nat} {b : UInt8} (h : t[k]? = some b) :
    (t.take (k + 1)).reverse = b :: (t.take k).reverse := by
  rw [List.take_add_one, h]
  simp

theorem countsLines_of_boundary {t : Text} {k : Nat} {b : UInt8} (h : t[k]? = some b)
    (hb : Byte.isContinuation b = false) : t.CountsLines k := by
  have hk : ¬ t.length ≤ k := by have := (List.getElem?_eq_some_iff.1 h).1; omega
  unfold CountsLines floorBoundary
  rw [if_neg hk, reverse_take_succ h]
  simp [hb]

theorem countsLines_succ {t : Text} {k : Nat} {b : UInt8} (h : t[k]? = some b)
    (hb : Byte.isContinuation b = false) (hn : b ≠ Byte.newline) : t.CountsLines (k + 1) := by
  have hk := (List.getElem?_eq_some_iff.1 h).1
  cases hc : t[k + 1]? with
  | none =>
    have hl : t.length = k + 1 := by have := List.getElem?_eq_none_iff.1 hc; omega
    simp [CountsLines, floorBoundary, hl]
  | some c =>
    cases hcc : Byte.isContinuation c with
    | false => exact countsLines_of_boundary hc hcc
    | true =>
      have hl : ¬ t.length ≤ k + 1 := by have := (List.getElem?_eq_some_iff.1 hc).1; omega
      unfold CountsLines floorBoundary
      rw [if_neg hl, reverse_take_succ hc, reverse_take_succ h]
      simp [hcc, hb, newlines_take_succ h, hn]

end Text

/-! ## Regions -/

namespace PositionMap

/-- The last region that starts at or before a flattened line, counted from 0. -/
def regionAt? (m : PositionMap) (flat : Nat) : Option Region :=
  (m.regions.takeWhile (fun r => r.flatLine ≤ flat)).getLast?

/-- The regions start on lines that increase strictly. -/
def Increasing (m : PositionMap) : Prop :=
  m.regions.Pairwise (fun a b => a.flatLine < b.flatLine)

theorem sourceLine?_succ (m : PositionMap) (flat : Nat) :
    m.sourceLine? (flat + 1) = (m.regionAt? flat).bind (fun r =>
      (m.files[r.file]?).map (fun file => (file, r.line + (flat - r.flatLine) + 1))) := by
  simp only [sourceLine?, regionAt?, Option.bind_eq_bind, Option.pure_def, Option.map_eq_bind,
    Function.comp_def]

theorem mem_of_regionAt? {m : PositionMap} {flat : Nat} {r : Region}
    (h : m.regionAt? flat = some r) : r ∈ m.regions ∧ r.flatLine ≤ flat := by
  have hr := List.mem_of_getLast? h
  have hle := List.all_eq_true.1 (List.all_takeWhile (l := m.regions)) r hr
  exact ⟨(List.takeWhile_sublist _).mem hr, by simpa using hle⟩

theorem files_addRegion (m : PositionMap) (r : Region) : (m.addRegion r).files = m.files := by
  unfold addRegion
  split
  · split <;> rfl
  · rfl

/-- What adding a region does: it stands behind regions that start before it, and what it pushes
out is at most one region of its own line. -/
theorem addRegion_cases {m : PositionMap} {r : Region} (hm : m.Increasing)
    (hr : ∀ x ∈ m.regions, x.flatLine ≤ r.flatLine) :
    ∃ before, (m.addRegion r).regions = before ++ [r] ∧ (∀ x ∈ before, x.flatLine < r.flatLine) ∧
      (m.regions = before ∨ ∃ last, m.regions = before ++ [last] ∧ last.flatLine = r.flatLine) := by
  unfold addRegion
  rcases List.eq_nil_or_concat m.regions with hnil | ⟨before, last, hlast⟩
  · simp [hnil]
  · rw [List.concat_eq_append] at hlast
    have hbefore : ∀ x ∈ before, x.flatLine < last.flatLine := by
      intro x hx
      unfold Increasing at hm
      rw [hlast, List.pairwise_append] at hm
      exact hm.2.2 x hx last (by simp)
    simp only [hlast, List.getLast?_concat, List.dropLast_concat]
    split
    · next he => exact ⟨before, rfl, by simpa only [← he] using hbefore, .inr ⟨last, rfl, he⟩⟩
    · next hne =>
      have hlt : last.flatLine < r.flatLine := by
        have := hr last (by simp [hlast])
        omega
      refine ⟨before ++ [last], rfl, fun x hx => ?_, .inl rfl⟩
      rcases List.mem_append.1 hx with hx | hx
      · exact Nat.lt_trans (hbefore x hx) hlt
      · rw [List.mem_singleton.1 hx]; exact hlt

theorem increasing_addRegion {m : PositionMap} {r : Region} (hm : m.Increasing)
    (hr : ∀ x ∈ m.regions, x.flatLine ≤ r.flatLine) : (m.addRegion r).Increasing := by
  obtain ⟨before, hadd, hlt, hold⟩ := addRegion_cases hm hr
  have hbefore : before.Pairwise (fun a b => a.flatLine < b.flatLine) := by
    unfold Increasing at hm
    rcases hold with hold | ⟨last, hold, _⟩
    · rwa [hold] at hm
    · rw [hold] at hm
      exact (List.pairwise_append.1 hm).1
  unfold Increasing
  rw [hadd, List.pairwise_append]
  exact ⟨hbefore, by simp, fun x hx y hy => by rw [List.mem_singleton.1 hy]; exact hlt x hx⟩

theorem takeWhile_concat_of_neg {α : Type} {p : α → Bool} {l : List α} {x : α} (h : p x = false) :
    (l ++ [x]).takeWhile p = l.takeWhile p := by
  rw [List.takeWhile_append]
  split
  · next he =>
    have : l.takeWhile p = l := (List.takeWhile_sublist p).eq_of_length he
    simp [h, this]
  · rfl

/-- A region added at the end takes over all lines from its own on, and no other. -/
theorem regionAt?_addRegion {m : PositionMap} {r : Region} (hm : m.Increasing)
    (hr : ∀ x ∈ m.regions, x.flatLine ≤ r.flatLine) (flat : Nat) :
    (m.addRegion r).regionAt? flat = if r.flatLine ≤ flat then some r else m.regionAt? flat := by
  obtain ⟨before, hadd, hlt, hold⟩ := addRegion_cases hm hr
  unfold regionAt?
  rw [hadd]
  split
  · next hle =>
    have hall : ∀ x ∈ before, decide (x.flatLine ≤ flat) = true := by
      intro x hx
      have := hlt x hx
      simp only [decide_eq_true_eq]; omega
    rw [List.takeWhile_append_of_pos hall, List.takeWhile_cons_of_pos (by simpa using hle)]
    simp
  · next hgt =>
    rw [takeWhile_concat_of_neg (by simpa using hgt)]
    rcases hold with hold | ⟨last, hold, he⟩
    · rw [hold]
    · rw [hold, takeWhile_concat_of_neg (by simpa [he] using hgt)]

end PositionMap

/-! ## Slices and their origins -/

theorem length_ofRange (file source : Text) (start stop : Nat) :
    (Origin.ofRange file source start stop).length = (source.slice start stop).length := by
  simp only [Origin.ofRange, Text.slice, List.length_map, List.length_range', List.length_take,
    List.length_drop]
  omega

theorem getElem?_ofRange {file source : Text} {start stop i : Nat} {o : Origin}
    (h : (Origin.ofRange file source start stop)[i]? = some o) : o = ⟨file, source, start + i⟩ := by
  simp only [Origin.ofRange, List.getElem?_map, Option.map_eq_some_iff] at h
  obtain ⟨j, hj, rfl⟩ := h
  obtain ⟨hlt, rfl⟩ := List.getElem?_eq_some_iff.1 hj
  simp

theorem map_byte?_ofRange (file source : Text) (start stop : Nat) :
    (Origin.ofRange file source start stop).map Origin.byte? =
      (source.slice start stop).map some := by
  apply List.ext_getElem
  · simp [length_ofRange]
  · intro i h1 h2
    simp only [List.length_map] at h1 h2
    have ho := getElem?_ofRange (List.getElem?_eq_getElem h1)
    simp [ho, Origin.byte?, Text.slice]

/-! ## The invariant -/

namespace Expansion

/-- The expansion is made of the bytes of the origins, and its position map answers for the first
byte of every line with the origin of that byte. -/
structure Traced (e : Expansion) (os : List Origin) : Prop where
  bytes : os.map Origin.byte? = e.text.map some
  increasing : e.positionMap.Increasing
  bounded : ∀ r ∈ e.positionMap.regions, r.flatLine ≤ e.lines
  named : ∀ r ∈ e.positionMap.regions, r.file < e.positionMap.files.length
  covered : e.text ≠ [] → ∀ flat, ∃ r, e.positionMap.regionAt? flat = some r
  starts : ∀ k o, os[k]? = some o → e.text.startsLine k →
    e.positionMap.sourceLine? (Text.newlines (e.text.take k) + 1) = some (o.file, o.line)

theorem Traced.length {e : Expansion} {os : List Origin} (h : Traced e os) :
    os.length = e.text.length := by
  simpa using congrArg List.length h.bytes

theorem traced_empty : Traced empty [] where
  bytes := rfl
  increasing := List.Pairwise.nil
  bounded := by simp [empty]
  named := by simp [empty]
  covered := fun h => absurd rfl h
  starts := by simp

/-- Growing the list of files, and whatever is not the text or the regions, changes no answer. -/
theorem Traced.of_files {e e' : Expansion} {os : List Origin} (h : Traced e os)
    (ht : e'.text = e.text) (hr : e'.positionMap.regions = e.positionMap.regions)
    (hf : e.positionMap.files <+: e'.positionMap.files) : Traced e' os := by
  have hat : ∀ flat, e'.positionMap.regionAt? flat = e.positionMap.regionAt? flat := by
    simp [PositionMap.regionAt?, hr]
  obtain ⟨more, hmore⟩ := hf
  refine ⟨by rw [ht, h.bytes], by unfold PositionMap.Increasing; rw [hr]; exact h.increasing,
    by unfold lines; rw [hr, ht]; exact h.bounded, fun r hmem => ?_,
    by simpa only [ht, hat] using h.covered, fun k o hk hs => ?_⟩
  · have := h.named r (hr ▸ hmem)
    rw [← hmore, List.length_append]
    omega
  · rw [ht] at hs ⊢
    rw [← h.starts k o hk hs, PositionMap.sourceLine?_succ, PositionMap.sourceLine?_succ, hat]
    cases hreg : e.positionMap.regionAt? (Text.newlines (e.text.take k)) with
    | none => rfl
    | some r =>
      have := h.named r (PositionMap.mem_of_regionAt? hreg).1
      simp only [Option.bind_some, ← hmore, List.getElem?_append_left this]

/-! ## Pieces of a source -/

theorem startsLine_append_left {t u : Text} {k : Nat} (hk : k < t.length) :
    (t ++ u).startsLine k ↔ t.startsLine k := by
  unfold Text.startsLine
  rw [List.getElem?_append_left (by omega)]

/-- Where the next byte starts a line, every line that has a byte is behind. -/
theorem newlines_take_lt_of_atLineStart {e : Expansion} (h : e.atLineStart = true) {k : Nat}
    (hk : k < e.text.length) : Text.newlines (e.text.take k) < e.lines := by
  have hlast : e.text[e.text.length - 1]? = some Byte.newline := by
    unfold atLineStart at h
    rw [List.getLast?_eq_getElem?] at h
    rw [List.getElem?_eq_getElem (by omega)] at h ⊢
    simpa using h
  have hsucc := Text.newlines_take_succ hlast
  have hmono := Text.newlines_take_mono e.text (show k ≤ e.text.length - 1 by omega)
  rw [Nat.sub_add_cancel (by omega), List.take_length] at hsucc
  unfold lines
  simp only [↓reduceIte] at hsucc
  omega

/-- In the middle of a line, the next line starts behind a newline of the piece. -/
theorem newlines_take_pos_of_startsLine {e : Expansion} (h : e.atLineStart = false) {piece : Text}
    {p : Nat} (hs : (e.text ++ piece).startsLine (e.text.length + p)) :
    0 < Text.newlines (piece.take p) := by
  unfold atLineStart at h
  rcases hs with hs | hs
  · have ht : e.text = [] := List.length_eq_zero_iff.1 (by omega)
    simp [ht] at h
  · cases p with
    | zero =>
      cases ht : e.text.getLast? with
      | none => simp [List.getLast?_eq_none_iff.1 ht] at h
      | some b =>
        rw [List.getLast?_eq_getElem?] at ht
        have hlt := (List.getElem?_eq_some_iff.1 ht).1
        rw [List.getElem?_append_left (by omega), Nat.add_zero, ht] at hs
        rw [List.getLast?_eq_getElem?, ht] at h
        simp_all
    | succ p =>
      rw [← Nat.add_assoc, Nat.add_sub_cancel, List.getElem?_append_right (by omega),
        Nat.add_sub_cancel_left] at hs
      rw [Text.newlines_take_succ hs]
      simp

/-- A piece with a new region. The region starts behind every line that has begun, and answers for
the lines that begin in the piece. -/
theorem Traced.addRegion {e : Expansion} {os added : List Origin} (h : Traced e os) {piece : Text}
    {r : Region} (hbytes : added.map Origin.byte? = piece.map some)
    (hfile : r.file < e.positionMap.files.length)
    (hlow : e.lines ≤ r.flatLine) (hhigh : r.flatLine ≤ e.lines + Text.newlines piece)
    (hempty : e.text = [] → r.flatLine = 0)
    (hold : ∀ k, k < e.text.length → Text.newlines (e.text.take k) < r.flatLine)
    (hnew : ∀ p o, added[p]? = some o → (e.text ++ piece).startsLine (e.text.length + p) →
      r.flatLine ≤ e.lines + Text.newlines (piece.take p) ∧
      e.positionMap.files[r.file]? = some o.file ∧
      r.line + (e.lines + Text.newlines (piece.take p) - r.flatLine) + 1 = o.line) :
    Traced { e with text := e.text ++ piece, positionMap := e.positionMap.addRegion r }
      (os ++ added) := by
  have hle : ∀ x ∈ e.positionMap.regions, x.flatLine ≤ r.flatLine :=
    fun x hx => Nat.le_trans (h.bounded x hx) hlow
  obtain ⟨before, hadd, hbefore, hsame⟩ := PositionMap.addRegion_cases h.increasing hle
  have hfiles := PositionMap.files_addRegion e.positionMap r
  have hat := PositionMap.regionAt?_addRegion h.increasing hle
  have hmem : ∀ x ∈ before, x ∈ e.positionMap.regions := by
    rcases hsame with hsame | ⟨last, hsame, _⟩ <;> simp +contextual [hsame]
  refine ⟨by simp [h.bytes, hbytes], PositionMap.increasing_addRegion h.increasing hle,
    fun x hx => ?_, fun x hx => ?_, fun _ flat => ?_, fun k o hk hs => ?_⟩
  · rw [hadd] at hx
    simp only [lines, Text.newlines_append] at hhigh ⊢
    rcases List.mem_append.1 hx with hx | hx
    · have := hbefore x hx; omega
    · rw [List.mem_singleton.1 hx]; omega
  · rw [hadd] at hx
    rw [hfiles]
    rcases List.mem_append.1 hx with hx | hx
    · exact h.named x (hmem x hx)
    · rw [List.mem_singleton.1 hx]; exact hfile
  · rw [hat]
    split
    · exact ⟨r, rfl⟩
    · next hgt =>
      refine h.covered (fun ht => ?_) flat
      rw [hempty ht] at hgt
      omega
  · rw [PositionMap.sourceLine?_succ, hat]
    rcases Nat.lt_or_ge k e.text.length with hlt | hge
    · -- a byte from before: the new region starts behind its line
      rw [List.getElem?_append_left (by rw [h.length]; exact hlt)] at hk
      have hlt' := hold k hlt
      have := h.starts k o hk ((startsLine_append_left hlt).1 hs)
      rw [PositionMap.sourceLine?_succ] at this
      rw [List.take_append_of_le_length (Nat.le_of_lt hlt), if_neg (by omega), hfiles, this]
    · obtain ⟨p, rfl⟩ := Nat.exists_eq_add_of_le hge
      rw [← h.length, List.getElem?_append_right (by omega), Nat.add_sub_cancel_left] at hk
      obtain ⟨h1, h2, h3⟩ := hnew p o hk hs
      rw [List.take_length_add_append, Text.newlines_append]
      unfold lines at h1 h3
      rw [if_pos h1, hfiles, Option.bind_some, h2]
      simp [← h3]

/-- A piece in the middle of a line that ends no line needs no region. -/
theorem Traced.extend {e : Expansion} {os added : List Origin} (h : Traced e os) {piece : Text}
    (hbytes : added.map Origin.byte? = piece.map some) (hstart : e.atLineStart = false)
    (hpiece : Byte.newline ∉ piece) : Traced { e with text := e.text ++ piece } (os ++ added) := by
  have hlines : Text.newlines (e.text ++ piece) = e.lines := by
    have : Text.newlines piece = 0 := List.count_eq_zero.2 hpiece
    simp [Text.newlines_append, lines, this]
  have hne : e.text ≠ [] := fun ht => by simp [atLineStart, ht] at hstart
  refine ⟨by simp [h.bytes, hbytes], h.increasing, fun x hx => ?_, h.named,
    fun _ => h.covered hne, fun k o hk hs => ?_⟩
  · unfold lines
    rw [hlines]
    exact h.bounded x hx
  · rcases Nat.lt_or_ge k e.text.length with hlt | hge
    · rw [List.getElem?_append_left (by rw [h.length]; exact hlt)] at hk
      rw [List.take_append_of_le_length (Nat.le_of_lt hlt)]
      exact h.starts k o hk ((startsLine_append_left hlt).1 hs)
    · obtain ⟨p, rfl⟩ := Nat.exists_eq_add_of_le hge
      have hpos := newlines_take_pos_of_startsLine hstart hs
      have hle := Text.newlines_take_le piece p
      rw [Text.newlines_append] at hlines
      unfold lines at hlines
      omega

/-- A piece of an open file. -/
theorem Traced.pushSlice {e : Expansion} {os : List Origin} (h : Traced e os) {f : OpenFile}
    {start : Nat} (stop : Nat) (hf : e.positionMap.files[f.index]? = some f.name)
    (hstart : f.source.CountsLines start) :
    Traced (e.pushSlice f start stop) (os ++ Origin.ofRange f.name f.source start stop) := by
  have hfile : f.index < e.positionMap.files.length := (List.getElem?_eq_some_iff.1 hf).1
  have hline : f.lineIndex start = Text.newlines (f.source.take start) := by
    rw [OpenFile.lineIndex, Text.place_line, hstart, Nat.add_sub_cancel]
  have hbytes := map_byte?_ofRange f.name f.source start stop
  -- the line of an origin in the piece, from the line of its start
  have horigin : ∀ p o, (Origin.ofRange f.name f.source start stop)[p]? = some o →
      o.file = f.name ∧
        o.line = f.lineIndex start + Text.newlines ((f.source.slice start stop).take p) + 1 := by
    intro p o hp
    have hlt := (List.getElem?_eq_some_iff.1 hp).1
    rw [length_ofRange] at hlt
    rw [getElem?_ofRange hp, hline, Origin.line]
    refine ⟨rfl, ?_⟩
    dsimp only
    rw [Text.newlines_take_add hlt]
  generalize hpiece : f.source.slice start stop = piece at hbytes horigin
  unfold Expansion.pushSlice pushPiece
  rw [hpiece]
  by_cases hnil : piece = []
  · rw [hnil] at hbytes
    have : Origin.ofRange f.name f.source start stop = [] := by simpa using hbytes
    simpa [hnil, this] using h
  rw [if_neg (by simpa using hnil)]
  by_cases hat : e.atLineStart = true
  · rw [if_pos hat]
    refine h.addRegion hbytes hfile (Nat.le_refl _) (Nat.le_add_right _ _)
      (fun ht => by simp [lines, ht, Text.newlines])
      (fun k hk => newlines_take_lt_of_atLineStart hat hk)
      (fun p o hp _ => ⟨Nat.le_add_right _ _, ?_, ?_⟩)
    · rw [hf, (horigin p o hp).1]
    · rw [(horigin p o hp).2]
      dsimp only
      omega
  · rw [if_neg hat]
    have hat : e.atLineStart = false := by simpa using hat
    by_cases hmem : Byte.newline ∈ piece
    · rw [if_pos (by simpa using hmem)]
      refine h.addRegion hbytes hfile (Nat.le_succ _) ?_ (fun ht => ?_)
        (fun k hk => Nat.lt_succ_of_le (Text.newlines_take_le _ _)) (fun p o hp hs => ?_)
      · have := List.count_pos_iff.2 hmem
        simp only [lines, Text.newlines]
        omega
      · simp [atLineStart, ht] at hat
      · have hpos := newlines_take_pos_of_startsLine hat hs
        refine ⟨by dsimp only; omega, by rw [hf, (horigin p o hp).1], ?_⟩
        rw [(horigin p o hp).2]
        dsimp only
        omega
    · rw [if_neg (by simpa using hmem)]
      exact h.extend hbytes hat hmem

/-! ## Directives -/

theorem Traced.reject {e : Expansion} {os : List Origin} (h : Traced e os) {f : OpenFile}
    {d : Directive} (problem : Problem) (hf : e.positionMap.files[f.index]? = some f.name)
    (hd : f.source.CountsLines d.span.start) :
    Traced (e.reject f d problem)
      (os ++ Origin.ofRange f.name f.source d.span.start d.span.stop) := by
  have hreport : Traced { e with diagnostics := e.diagnostics ++
      [Fault.diagnostic ⟨problem, d.span⟩ f.name f.source] } os :=
    h.of_files rfl rfl (List.prefix_refl _)
  exact hreport.pushSlice _ hf hd

theorem Traced.openFile {e : Expansion} {os : List Origin} (h : Traced e os) (name source : Text)
    (depth : Nat) : Traced (e.openFile name source depth).2.2 os :=
  h.of_files rfl rfl (List.prefix_append _ _)

theorem Traced.record {e : Expansion} {os : List Origin} (h : Traced e os) (f : OpenFile)
    (d : Directive) (flatStart : Nat) : Traced (e.record f d flatStart) os :=
  h.of_files rfl rfl (List.prefix_refl _)

theorem files_pushSlice (e : Expansion) (f : OpenFile) (start stop : Nat) :
    (e.pushSlice f start stop).positionMap.files = e.positionMap.files := by
  unfold Expansion.pushSlice pushPiece
  split
  · rfl
  · dsimp only
    split
    · exact PositionMap.files_addRegion _ _
    · split
      · exact PositionMap.files_addRegion _ _
      · rfl

theorem files_reject (e : Expansion) (f : OpenFile) (d : Directive) (problem : Problem) :
    (e.reject f d problem).positionMap.files = e.positionMap.files :=
  files_pushSlice _ _ _ _

end Expansion

namespace MaskedText

theorem byte?_of_startsAt {s : MaskedText} {b : UInt8} {pattern : Text} {i : Nat}
    (h : s.startsAt (b :: pattern) i = true) : s.byte? i = some b :=
  byte?_add_of_startsAt h (Nat.succ_pos _)

theorem of_directiveAt {s : MaskedText} {directory : Path} {start : Nat} {d : Directive}
    (h : (s.directiveAt directory start).result = .ok d) :
    d.span.start = start ∧ ∃ k, d.span.stop = k + 1 ∧ s.byte? k = some Byte.semicolon := by
  unfold directiveAt at h
  dsimp only at h
  split at h
  · next stop b hcolon hfind =>
    obtain ⟨_, _, hlive, hmem⟩ := findAny?_eq_some hfind
    have hb : b = Byte.semicolon := by simpa using hmem
    split at h
    · cases h
    · cases h
      exact ⟨rfl, stop, rfl, by rw [(liveByte?_eq_some hlive).2, hb]⟩
  · cases h

theorem directivesFrom_none {s : MaskedText} {directory : Path} {pos : Nat}
    (h : s.indexOf? "*include" pos = none) : s.directivesFrom directory pos = [] := by
  rw [directivesFrom]
  split
  · rfl
  · next start hstart =>
    rw [h] at hstart
    cases hstart

theorem directivesFrom_some {s : MaskedText} {directory : Path} {pos start : Nat}
    (h : s.indexOf? "*include" pos = some start) :
    s.directivesFrom directory pos =
      (s.directiveAt directory start).result ::
        s.directivesFrom directory (s.directiveAt directory start).next := by
  rw [directivesFrom]
  split
  · next hnone =>
    rw [h] at hnone
    cases hnone
  · next other hother =>
    rw [h] at hother
    cases hother
    rfl

/-- A directive starts with a star and ends behind a semicolon. -/
theorem of_mem_directivesFrom {s : MaskedText} {directory : Path} {pos : Nat} {d : Directive}
    (h : .ok d ∈ s.directivesFrom directory pos) :
    s.byte? d.span.start = some Byte.star ∧
      ∃ k, d.span.stop = k + 1 ∧ s.byte? k = some Byte.semicolon := by
  induction pos using directivesFrom.induct s directory with
  | case1 pos hfind =>
    rw [directivesFrom_none hfind] at h
    cases h
  | case2 pos start hfind ih =>
    rw [directivesFrom_some hfind] at h
    rcases List.mem_cons.1 h with hd | h
    · obtain ⟨hspan, hstop⟩ := of_directiveAt hd.symm
      have hstar := (searchFrom?_eq_some hfind).2.2.1
      exact ⟨by rw [hspan]; exact byte?_of_startsAt hstar, hstop⟩
    · exact ih h

end MaskedText

namespace Sources

open Expansion

/-- A directive of a file starts with a star and ends behind a semicolon. -/
theorem bytes_of_mem_directivesOf {name source : Text} {d : Directive}
    (h : d ∈ directivesOf name source) :
    source[d.span.start]? = some Byte.star ∧
      ∃ k, d.span.stop = k + 1 ∧ source[k]? = some Byte.semicolon := by
  simp only [directivesOf, MaskedText.directives, List.mem_filterMap] at h
  obtain ⟨r, hr, hd⟩ := h
  have hr : r = .ok d := by
    cases r with
    | error e => cases hd
    | ok d' => cases hd; rfl
  subst hr
  obtain ⟨hstar, k, hk, hsemi⟩ := MaskedText.of_mem_directivesFrom hr
  rw [MaskedText.byte?_ofText] at hstar hsemi
  exact ⟨hstar, k, hk, hsemi⟩

/-- The end of a directive lies in its file. -/
theorem stop_le_of_mem_directivesOf {name source : Text} {d : Directive}
    (h : d ∈ directivesOf name source) : d.span.stop ≤ source.length := by
  obtain ⟨-, k, hk, hsemi⟩ := bytes_of_mem_directivesOf h
  have := (List.getElem?_eq_some_iff.1 hsemi).1
  omega

/-- Both ends of a directive lie where lines are counted. -/
theorem countsLines_of_mem_directivesOf {name source : Text} {d : Directive}
    (h : d ∈ directivesOf name source) :
    source.CountsLines d.span.start ∧ source.CountsLines d.span.stop := by
  obtain ⟨hstar, k, hk, hsemi⟩ := bytes_of_mem_directivesOf h
  rw [hk]
  exact ⟨Text.countsLines_of_boundary hstar (by decide),
    Text.countsLines_succ hsemi (by decide) (by decide)⟩

/-! ## Whole files -/

section
variable {s : Sources} {stack : List Text} {f : OpenFile} {cursor : Nat} {d : Directive}
  {rest : List Directive} {e : Expansion}

theorem expandFrom_nil :
    s.expandFrom stack f cursor [] e = e.pushSlice f cursor f.source.length := by
  rw [expandFrom]

theorem expandFrom_kept (f : OpenFile) (cursor : Nat) (rest : List Directive) (e : Expansion)
    (h : d.target ∈ stack ∨ s.get? d.target = none) :
    ∃ problem, s.expandFrom stack f cursor (d :: rest) e =
      s.expandFrom stack f d.span.stop rest
        ((e.pushSlice f cursor d.span.start).reject f d problem) := by
  rw [expandFrom]
  by_cases hs : d.target ∈ stack
  · rw [dif_pos hs]
    exact ⟨_, rfl⟩
  · rw [dif_neg hs]
    have hr := h.resolve_left hs
    split
    · exact ⟨_, rfl⟩
    · next inner hread => rw [hr] at hread; cases hread

theorem expandFrom_included {inner : Text} (hs : d.target ∉ stack)
    (hr : s.get? d.target = some inner) :
    s.expandFrom stack f cursor (d :: rest) e =
      let e := e.pushSlice f cursor d.span.start
      let opened := e.openFile d.target inner (f.depth + 1)
      s.expandFrom stack f d.span.stop rest
        ((s.expandFrom (d.target :: stack) opened.1 0 opened.2.1 opened.2.2).record f d
          (e.lines + 1)) := by
  rw [expandFrom, dif_neg hs]
  split
  · next hread => rw [hr] at hread; cases hread
  · next other hread => rw [hr] at hread; cases hread; rfl

end

theorem getElem?_extend {α : Type} {l l' : List α} {i : Nat} {x : α} (h : l <+: l')
    (hx : l[i]? = some x) : l'[i]? = some x := by
  obtain ⟨more, rfl⟩ := h
  rw [List.getElem?_append_left (List.getElem?_eq_some_iff.1 hx).1, hx]

/-- Flattening the rest of an open file keeps the invariant, and registers files only at the end
of the list. -/
theorem expandFrom_traced {s : Sources} (stack : List Text) (name source : Text) (cursor : Nat)
    (directives : List Directive) : ∀ {index depth : Nat} {e : Expansion} {os : List Origin},
    source.CountsLines cursor →
    (∀ d ∈ directives, source.CountsLines d.span.start ∧ source.CountsLines d.span.stop) →
    Traced e os → e.positionMap.files[index]? = some name →
    Traced (s.expandFrom stack ⟨name, source, index, depth⟩ cursor directives e)
        (os ++ s.originsFrom stack name source cursor directives) ∧
      e.positionMap.files <+:
        (s.expandFrom stack ⟨name, source, index, depth⟩ cursor directives e).positionMap.files := by
  induction stack, name, source, cursor, directives using includeInduct (s := s) with
  | nil stack name source cursor =>
    intro index depth e os hcursor _ h hindex
    rw [expandFrom_nil, originsFrom_nil, files_pushSlice]
    exact ⟨h.pushSlice _ hindex hcursor, List.prefix_refl _⟩
  | kept stack name source cursor d rest hkept ih =>
    intro index depth e os hcursor hds h hindex
    obtain ⟨problem, hexpand⟩ := expandFrom_kept (.mk name source index depth) cursor rest e hkept
    obtain ⟨hstart, hstop⟩ := hds d (by simp)
    have h1 := h.pushSlice d.span.start (f := .mk name source index depth) hindex hcursor
    have h2 := h1.reject problem (f := .mk name source index depth)
      (by rw [files_pushSlice]; exact hindex) hstart
    obtain ⟨h3, hfiles⟩ := @ih _ depth _ _ hstop (fun d' hd' => hds d' (by simp [hd'])) h2
      (by rw [files_reject, files_pushSlice]; exact hindex)
    rw [files_reject, files_pushSlice] at hfiles
    rw [hexpand, originsFrom_kept hkept, ← List.append_assoc, ← List.append_assoc]
    exact ⟨h3, hfiles⟩
  | included stack name source cursor d rest inner hs hr ihInner ih =>
    intro index depth e os hcursor hds h hindex
    obtain ⟨hstart, hstop⟩ := hds d (by simp)
    have h1 := h.pushSlice d.span.start (f := .mk name source index depth) hindex hcursor
    have h2 := h1.openFile d.target inner (depth + 1)
    -- the new file is the last one registered
    obtain ⟨h3, hfiles3⟩ := @ihInner _ (depth + 1) _ _ (Text.countsLines_zero inner)
      (fun d' => countsLines_of_mem_directivesOf) h2
      (show _ = _ from List.getElem?_concat_length)
    rw [show ((e.pushSlice (.mk name source index depth) cursor d.span.start).openFile d.target
      inner (depth + 1)).2.2.positionMap.files = e.positionMap.files ++ [d.target] from
        congrArg (· ++ [d.target]) (files_pushSlice e _ _ _)] at hfiles3
    have hprefix := (List.prefix_append _ [d.target]).trans hfiles3
    obtain ⟨h4, hfiles4⟩ := @ih _ depth _ _ hstop (fun d' hd' => hds d' (by simp [hd']))
      (h3.record (.mk name source index depth) d _) (getElem?_extend hprefix hindex)
    rw [expandFrom_included hs hr, originsFrom_included hs hr, ← List.append_assoc,
      ← List.append_assoc]
    exact ⟨h4, hprefix.trans hfiles4⟩

/-- Every line of the flattened text of a root file is attributed to the file and the line of its
first byte: the regions of the position map increase, and each line of a text that is not empty,
also the last one where no byte follows, has a file and a line, which are those of the origin of
its first byte. The origins have the bytes of the text, in files that the reader knows. -/
theorem expandSource_lines (s : Sources) (root source : Text) :
    let e := s.expandSource root source
    let os := s.origins root source
    (os.map Origin.byte? = e.text.map some ∧ ∀ o ∈ os,
      o.file = root ∧ o.source = source ∨ s.get? o.file = some o.source) ∧
    e.positionMap.regions.Pairwise (fun a b => a.flatLine < b.flatLine) ∧
    (e.text ≠ [] → ∀ n, 1 ≤ n → n ≤ e.text.newlines + 1 →
      ∃ file line, e.positionMap.sourceLine? n = some (file, line) ∧
        ∀ k o, os[k]? = some o → e.text.startsLine k → Text.newlines (e.text.take k) + 1 = n →
          o.file = file ∧ o.line = line) := by
  intro e os
  have h : Traced e os := (expandFrom_traced _ root source 0 (directivesOf root source)
    (Text.countsLines_zero _) (fun d => countsLines_of_mem_directivesOf)
    (traced_empty.openFile root source 0) rfl).1
  refine ⟨⟨h.bytes, origins_known s root source⟩, h.increasing, fun hne n hn _ => ?_⟩
  obtain ⟨flat, rfl⟩ : ∃ flat, n = flat + 1 := ⟨n - 1, by omega⟩
  obtain ⟨r, hr⟩ := h.covered hne flat
  have hfile := h.named r (PositionMap.mem_of_regionAt? hr).1
  have hline : e.positionMap.sourceLine? (flat + 1) =
      some (e.positionMap.files[r.file], r.line + (flat - r.flatLine) + 1) := by
    rw [PositionMap.sourceLine?_succ, hr, Option.bind_some, List.getElem?_eq_getElem hfile]
    rfl
  refine ⟨_, _, hline, fun k o hk hs hkn => ?_⟩
  have hstarts := h.starts k o hk hs
  rw [hkn, hline] at hstarts
  injection hstarts with hstarts
  injection hstarts with h1 h2
  exact ⟨h1.symm, h2.symm⟩

end Sources

end PageLang
