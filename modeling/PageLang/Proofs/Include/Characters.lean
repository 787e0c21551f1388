import PageLang.Proofs.Include.Lines

/-!
# Characters and lines

The place of an offset is looked up at the start of the character around it. In a text whose
characters are whole this finds the line of the offset itself, and the line of its first byte.

* `Text.Whole`: no byte continues a character that does not begin in front of it.
* `Text.whole_ofString`: the bytes of a string are whole.
* `Text.Whole.countsLines`: the line of a place counts all newlines before the offset.
* `Text.lineStart`: the first byte of the line around an offset.
* `Sources.whole_expandSource`: a flattened text is whole if its sources are.
-/

namespace PageLang

namespace Text

/-- A byte that continues a character stands behind a byte of that character. -/
def Whole (t : Text) : Prop :=
  ∀ k b, t[k]? = some b → Byte.isContinuation b = true →
    ∃ j c, k = j + 1 ∧ t[j]? = some c ∧ 0x80 ≤ c

theorem whole_nil : Whole [] := by
  intro k b hk
  cases hk

theorem Whole.append {a b : Text} (ha : Whole a) (hb : Whole b) : Whole (a ++ b) := by
  intro k x hk hx
  rcases Nat.lt_or_ge k a.length with hlt | hge
  · rw [List.getElem?_append_left hlt] at hk
    obtain ⟨j, c, rfl, hj, hc⟩ := ha k x hk hx
    exact ⟨j, c, rfl, by rw [List.getElem?_append_left (by omega), hj], hc⟩
  · rw [List.getElem?_append_right hge] at hk
    obtain ⟨j, c, hj', hj, hc⟩ := hb _ x hk hx
    refine ⟨a.length + j, c, by omega, ?_, hc⟩
    rw [List.getElem?_append_right (by omega), Nat.add_sub_cancel_left, hj]

/-- A piece is whole if it does not begin inside a character. -/
theorem Whole.slice {t : Text} (h : Whole t) {start : Nat} (stop : Nat)
    (hstart : ∀ b, t[start]? = some b → Byte.isContinuation b = false) :
    Whole (t.slice start stop) := by
  intro k b hk hb
  have hlt : k < stop - start := by
    have hk' := (List.getElem?_eq_some_iff.1 hk).1
    rw [Text.slice, List.length_take] at hk'
    omega
  have hbyte : t[start + k]? = some b := by
    rw [← hk, Text.slice, List.getElem?_take_of_lt hlt, List.getElem?_drop]
  obtain ⟨j, c, hj, hc, hle⟩ := h _ b hbyte hb
  cases k with
  | zero =>
    rw [hstart b hbyte] at hb
    cases hb
  | succ k =>
    refine ⟨k, c, rfl, ?_, hle⟩
    rw [Text.slice, List.getElem?_take_of_lt (by omega), List.getElem?_drop, ← hc]
    congr 1
    omega

/-- No character goes on behind an ASCII byte. -/
theorem Whole.not_continuation {t : Text} (h : Whole t) {k : Nat} {b c : UInt8}
    (hb : t[k]? = some b) (hascii : b < 0x80) (hc : t[k + 1]? = some c) :
    Byte.isContinuation c = false := by
  apply Bool.eq_false_iff.2
  intro hcont
  obtain ⟨j, d, hj, hd, hle⟩ := h (k + 1) c hc hcont
  obtain rfl : k = j := by omega
  rw [hb] at hd
  cases hd
  exact absurd hascii (UInt8.not_lt.2 hle)

/-! ## Strings -/

theorem isContinuation_eq_false_of_lt {b : UInt8} (h : b.toNat < 0x80 ∨ 0xc0 ≤ b.toNat) :
    Byte.isContinuation b = false := by
  unfold Byte.isContinuation
  rw [Bool.and_eq_false_iff, decide_eq_false_iff_not, decide_eq_false_iff_not,
    UInt8.le_iff_toNat_le, UInt8.le_iff_toNat_le]
  simp only [UInt8.reduceToNat]
  omega

/-- A character is whole if its first byte says that it begins here, and the other bytes are not
ASCII. -/
theorem whole_of_lead {lead : UInt8} {more : Text} (hlead : Byte.isContinuation lead = false)
    (h : more = [] ∨ 0x80 ≤ lead) (hmore : ∀ b ∈ more, 0x80 ≤ b) : Whole (lead :: more) := by
  intro k b hk hb
  cases k with
  | zero =>
    cases hk
    rw [hlead] at hb
    cases hb
  | succ k =>
    rw [List.getElem?_cons_succ] at hk
    rcases h with rfl | h
    · cases hk
    · cases k with
      | zero => exact ⟨0, lead, rfl, rfl, h⟩
      | succ k =>
        have hlt := (List.getElem?_eq_some_iff.1 hk).1
        refine ⟨k + 1, more[k], rfl, ?_, hmore _ (List.getElem_mem _)⟩
        rw [List.getElem?_cons_succ, List.getElem?_eq_getElem]

theorem toNat_ofNat_of_lt {n : Nat} (h : n < 256) : (UInt8.ofNat n).toNat = n := by
  rw [UInt8.toNat_ofNat', Nat.mod_eq_of_lt h]

theorem le_ofNat {n : Nat} (h : 0x80 ≤ n) (hn : n < 256) : 0x80 ≤ UInt8.ofNat n := by
  rw [UInt8.le_iff_toNat_le, toNat_ofNat_of_lt hn]
  exact h

theorem isContinuation_ofNat {n : Nat} (h : n < 0x80 ∨ 0xc0 ≤ n) (hn : n < 256) :
    Byte.isContinuation (UInt8.ofNat n) = false :=
  isContinuation_eq_false_of_lt (by rwa [toNat_ofNat_of_lt hn])

/-- A character of several bytes: the first is too large to continue another, and each of the
others holds six bits. -/
theorem whole_of_large_lead {n : Nat} (h : 0xc0 ≤ n) (hn : n < 256) (more : List Nat) :
    Whole (UInt8.ofNat n :: more.map (fun m => UInt8.ofNat (m % 64 + 128))) := by
  refine whole_of_lead (isContinuation_ofNat (.inr h) hn) (.inr (le_ofNat (by omega) hn)) ?_
  intro b hb
  obtain ⟨m, _, rfl⟩ := List.mem_map.1 hb
  exact le_ofNat (by omega) (by omega)

theorem whole_utf8EncodeChar (c : Char) : Whole (String.utf8EncodeChar c) := by
  unfold String.utf8EncodeChar
  dsimp only
  generalize c.val.toNat = v
  split
  · exact whole_of_lead (isContinuation_ofNat (by omega) (by omega)) (.inl rfl) (by simp)
  · split
    · exact whole_of_large_lead (by omega) (by omega) [v]
    · split
      · exact whole_of_large_lead (by omega) (by omega) [v / 64, v]
      · exact whole_of_large_lead (by omega) (by omega) [v / 4096, v / 64, v]

theorem ofString_eq_flatMap (s : String) :
    ofString s = s.toList.flatMap String.utf8EncodeChar := by
  unfold ofString
  conv => lhs; rw [← String.ofList_toList (s := s), String.toByteArray_ofList]
  exact List.toList_data_toByteArray

/-- The bytes of a string are whole characters. -/
theorem whole_ofString (s : String) : Whole (ofString s) := by
  rw [ofString_eq_flatMap]
  generalize s.toList = cs
  induction cs with
  | nil => exact whole_nil
  | cons c cs ih =>
    rw [List.flatMap_cons]
    exact (whole_utf8EncodeChar c).append ih

/-! ## Lines -/

/-- A byte that continues a character stands for the same place as the byte before it. -/
theorem floorBoundary_succ {t : Text} {k : Nat} {b : UInt8} (hb : t[k + 1]? = some b)
    (hcont : Byte.isContinuation b = true) : t.floorBoundary (k + 1) = t.floorBoundary k := by
  have hlt := (List.getElem?_eq_some_iff.1 hb).1
  unfold floorBoundary
  rw [if_neg (by omega), if_neg (by omega), reverse_take_succ hb, List.takeWhile_cons, if_pos hcont,
    List.length_cons]
  omega

/-- The line of a place counts all newlines before the offset. -/
theorem Whole.countsLines {t : Text} (h : Whole t) (k : Nat) : t.CountsLines k := by
  induction k with
  | zero => exact countsLines_zero t
  | succ k ih =>
    cases hb : t[k + 1]? with
    | none =>
      have hle := List.getElem?_eq_none_iff.1 hb
      unfold CountsLines floorBoundary
      rw [if_pos hle, List.take_length, List.take_of_length_le hle]
    | some b =>
      cases hcont : Byte.isContinuation b with
      | false => exact countsLines_of_boundary hb hcont
      | true =>
        obtain ⟨j, c, hj, hc, hle⟩ := h (k + 1) b hb hcont
        obtain rfl : k = j := by omega
        have hne : c ≠ Byte.newline := by
          rintro rfl
          exact absurd hle (by decide)
        unfold CountsLines at ih ⊢
        rw [floorBoundary_succ hb hcont, ih, newlines_take_succ hc, if_neg hne, Nat.add_zero]

/-- The first byte of the line around an offset. -/
def lineStart (t : Text) (offset : Nat) : Nat :=
  offset - ((t.take offset).reverse.takeWhile (· != Byte.newline)).length

theorem lineStart_le (t : Text) (k : Nat) : t.lineStart k ≤ k := Nat.sub_le _ _

/-- A byte behind a newline starts its line, and any other byte stands on the line of the byte
before it. -/
theorem lineStart_succ {t : Text} {k : Nat} {b : UInt8} (hb : t[k]? = some b) :
    t.lineStart (k + 1) = if b = Byte.newline then k + 1 else t.lineStart k := by
  unfold lineStart
  rw [reverse_take_succ hb]
  by_cases hn : b = Byte.newline
  · rw [if_pos hn, List.takeWhile_cons_of_neg (by simp [hn])]
    rfl
  · rw [if_neg hn, List.takeWhile_cons_of_pos (by simpa using hn), List.length_cons]
    omega

theorem startsLine_lineStart {t : Text} {k : Nat} (hk : k ≤ t.length) :
    t.startsLine (t.lineStart k) := by
  induction k with
  | zero => exact .inl (Nat.le_zero.1 (lineStart_le t 0))
  | succ k ih =>
    have hb := List.getElem?_eq_getElem (show k < t.length by omega)
    rw [lineStart_succ hb]
    split
    · next hn => exact .inr (by rw [Nat.add_sub_cancel, hb, hn])
    · exact ih (by omega)

theorem newlines_take_lineStart {t : Text} {k : Nat} (hk : k ≤ t.length) :
    newlines (t.take (t.lineStart k)) = newlines (t.take k) := by
  induction k with
  | zero => rw [Nat.le_zero.1 (lineStart_le t 0)]
  | succ k ih =>
    have hb := List.getElem?_eq_getElem (show k < t.length by omega)
    rw [lineStart_succ hb]
    split
    · rfl
    · next hn => rw [ih (by omega), newlines_take_succ hb, if_neg hn, Nat.add_zero]

end Text

/-! ## Flattened texts -/

namespace Expansion

theorem text_pushSlice (e : Expansion) (f : OpenFile) (start stop : Nat) :
    (e.pushSlice f start stop).text = e.text ++ f.source.slice start stop := by
  unfold Expansion.pushSlice pushPiece
  split
  · next h => rw [List.isEmpty_iff.1 h, List.append_nil]
  · rfl

theorem text_reject (e : Expansion) (f : OpenFile) (d : Directive) (problem : Problem) :
    (e.reject f d problem).text = e.text ++ f.source.slice d.span.start d.span.stop :=
  text_pushSlice _ _ _ _

end Expansion

namespace Sources

open Expansion

/-- No character goes on at an offset. -/
def Cuts (source : Text) (offset : Nat) : Prop :=
  ∀ b, source[offset]? = some b → Byte.isContinuation b = false

theorem cuts_zero {source : Text} (h : source.Whole) : Cuts source 0 := by
  intro b hb
  apply Bool.eq_false_iff.2
  intro hcont
  obtain ⟨j, _, hj, _⟩ := h 0 b hb hcont
  omega

/-- A directive cuts no character at its ends. -/
theorem cuts_of_mem_directivesOf {name source : Text} (h : source.Whole) {d : Directive}
    (hd : d ∈ directivesOf name source) :
    Cuts source d.span.start ∧ Cuts source d.span.stop := by
  obtain ⟨hstar, k, hk, hsemi⟩ := bytes_of_mem_directivesOf hd
  refine ⟨fun b hb => ?_, fun b hb => ?_⟩
  · rw [hstar] at hb
    cases hb
    decide
  · rw [hk] at hb
    exact h.not_continuation hsemi (by decide) hb

theorem whole_expandFrom {s : Sources} (hs : ∀ t ∈ s.values, t.Whole) (stack : List Text)
    (name source : Text) (cursor : Nat) (directives : List Directive) :
    ∀ {index depth : Nat} {e : Expansion}, source.Whole → Cuts source cursor →
    (∀ d ∈ directives, Cuts source d.span.start ∧ Cuts source d.span.stop) → e.text.Whole →
    (s.expandFrom stack ⟨name, source, index, depth⟩ cursor directives e).text.Whole := by
  induction stack, name, source, cursor, directives using includeInduct (s := s) with
  | nil stack name source cursor =>
    intro index depth e hsource hcursor _ he
    rw [expandFrom_nil, text_pushSlice]
    exact he.append (hsource.slice _ hcursor)
  | kept stack name source cursor d rest hkept ih =>
    intro index depth e hsource hcursor hds he
    obtain ⟨problem, hexpand⟩ := expandFrom_kept (.mk name source index depth) cursor rest e hkept
    obtain ⟨hstart, hstop⟩ := hds d List.mem_cons_self
    rw [hexpand]
    refine ih hsource hstop (fun d' hd' => hds d' (List.mem_cons_of_mem _ hd')) ?_
    rw [text_reject, text_pushSlice]
    exact (he.append (hsource.slice _ hcursor)).append (hsource.slice _ hstart)
  | included stack name source cursor d rest inner hs' hr ihInner ih =>
    intro index depth e hsource hcursor hds he
    obtain ⟨hstart, hstop⟩ := hds d List.mem_cons_self
    have hinner : inner.Whole := hs inner (OrderedMap.mem_values_of_get? hr)
    rw [expandFrom_included hs' hr]
    refine ih hsource hstop (fun d' hd' => hds d' (List.mem_cons_of_mem _ hd')) ?_
    refine ihInner hinner (cuts_zero hinner) (fun d' => cuts_of_mem_directivesOf hinner) ?_
    have hpush := he.append (hsource.slice d.span.start hcursor)
    rwa [← text_pushSlice e ⟨name, source, index, depth⟩] at hpush

/-- Flattening cuts no character. -/
theorem whole_expandSource {s : Sources} (hs : ∀ t ∈ s.values, t.Whole) {root source : Text}
    (hsource : source.Whole) : (s.expandSource root source).text.Whole :=
  whole_expandFrom hs _ root source 0 (directivesOf root source) hsource (cuts_zero hsource)
    (fun _ => cuts_of_mem_directivesOf hsource) Text.whole_nil

end Sources

end PageLang
