import PageLang.Proofs.Include.Characters
import PageLang.Proofs.Mask.Awaited

/-!
# Characters are masked as a whole

The bytes that end what the mask machine reads are ASCII. So a byte beyond ASCII leaves it in a
region of the same kind, where the next such byte gets the same bit. An escape passes over one byte
whatever it is, and the bytes behind it are read as they would be without it. Where the bits of two
neighbouring bytes differ, one of the two is ASCII, and the second one starts a character.

* `Region.AwaitsAscii`: what the machine waits for.
* `State.read_of_foreign`: a byte beyond ASCII.
* `isMasked_succ_of_foreign`: two of them side by side.
* `isValid_of_isMasked_ne`: where the bits of a text change.
-/

namespace PageLang

/-! ## Bytes beyond ASCII -/

namespace Byte

variable {b c : UInt8}

theorem ne_of_foreign (hb : 0x80 ≤ b) (hc : c < 0x80) : b ≠ c := by
  rintro rfl
  exact absurd hc (UInt8.not_lt.2 hb)

theorem isPlain_of_foreign (hb : 0x80 ≤ b) : isPlain b = true := by
  simp (disch := decide) [isPlain, isQuote, ne_of_foreign hb]

theorem isSpace_of_foreign (hb : 0x80 ≤ b) : isSpace b = false := by
  simp (disch := decide) [isSpace, ne_of_foreign hb]

theorem le_of_isContinuation (h : isContinuation b = true) : 0x80 ≤ b := by
  simp only [isContinuation, Bool.and_eq_true, decide_eq_true_eq] at h
  exact h.1

end Byte

/-! ## Characters of a string -/

namespace Text

variable {s : String} {b : UInt8} {k : Nat}

/-- Behind its first byte a character holds six bits a byte. -/
theorem isContinuation_of_mem_tail {c : Char} (h : b ∈ (String.utf8EncodeChar c).tail) :
    Byte.isContinuation b = true := by
  have hmore (m : Nat) : Byte.isContinuation (UInt8.ofNat (m % 64 + 128)) = true := by
    have hlt : m % 64 < 64 := Nat.mod_lt _ (by decide)
    simp only [Byte.isContinuation, Bool.and_eq_true, decide_eq_true_eq, UInt8.le_iff_toNat_le]
    rw [toNat_ofNat_of_lt (by omega)]
    simp only [UInt8.reduceToNat]
    omega
  unfold String.utf8EncodeChar at h
  dsimp only at h
  generalize c.val.toNat = v at h
  repeat' split at h
  all_goals simp only [List.tail_cons, List.mem_cons, List.not_mem_nil, or_false] at h
  · subst h
    exact hmore _
  · rcases h with rfl | rfl <;> exact hmore _
  · rcases h with rfl | rfl | rfl <;> exact hmore _

theorem isUTF8FirstByte_of_mem (hb : b ∈ ofString s) (hcont : Byte.isContinuation b = false) :
    b.IsUTF8FirstByte := by
  rw [ofString_eq_flatMap, List.mem_flatMap] at hb
  obtain ⟨c, -, hc⟩ := hb
  obtain ⟨j, hj, rfl⟩ := List.mem_iff_getElem.1 hc
  refine UInt8.isUTF8FirstByte_getElem_utf8EncodeChar.2 ?_
  cases j with
  | zero => rfl
  | succ j =>
    have hlt : j < (String.utf8EncodeChar c).tail.length := by
      rw [List.length_tail]
      omega
    have htail : (String.utf8EncodeChar c)[j + 1] ∈ (String.utf8EncodeChar c).tail := by
      rw [← List.getElem_tail hlt]
      exact List.getElem_mem hlt
    rw [isContinuation_of_mem_tail htail] at hcont
    cases hcont

/-- The boundaries of the bytes of a string are positions of the string. -/
theorem isValid_of_isBoundary (h : (ofString s).isBoundary k = true) :
    String.Pos.Raw.IsValid s ⟨k⟩ := by
  rw [String.Pos.Raw.isValid_iff_isUTF8FirstByte]
  unfold isBoundary at h
  split at h
  · next b hb =>
    obtain ⟨hlt, rfl⟩ := List.getElem?_eq_some_iff.1 hb
    have hfirst := isUTF8FirstByte_of_mem (List.getElem_mem hlt) (by simpa using h)
    exact .inr ⟨hlt, hfirst⟩
  · obtain rfl := beq_iff_eq.1 h
    exact .inl rfl

end Text

namespace Mask

namespace Region

/-- Whether bytes beyond ASCII are masked. Behind a colon they begin a value. -/
def masksForeign : Region → Bool
  | .live | .parameters _ | .afterParameters => false
  | _ => true

/-- What a region waits for is ASCII: the quote that ends it, or the brace that follows. -/
def AwaitsAscii (ahead : Text) : Region → Prop
  | .quoted quote _ | .valueQuoted quote _ => quote < 0x80
  | .opening => ahead.head? = some Byte.lbrace
  | _ => True

/-- The three quotes are ASCII. -/
theorem Awaits.ascii {ahead : Text} {r : Region} (h : r.Awaits ahead) : r.AwaitsAscii ahead := by
  have hquote (q : UInt8) (hq : Byte.isQuote q = true) : q < 0x80 := by
    simp only [Byte.isQuote, Bool.or_eq_true, beq_iff_eq, or_assoc] at hq
    rcases hq with rfl | rfl | rfl <;> decide
  cases r with
  | quoted quote _ | valueQuoted quote _ => exact hquote quote h
  | opening => exact h
  | _ => trivial

end Region

namespace State

variable {s : State} {before rest : Text} {b : UInt8}

/-! ## A byte beyond ASCII -/

theorem readLive_of_foreign (hb : 0x80 ≤ b) (s : State) (before rest : Text) :
    s.readLive before b rest = (false, s.into .live) :=
  read_plain (s := s.into .live) rfl (Byte.isPlain_of_foreign hb)

theorem readValue_of_foreign (hb : 0x80 ≤ b) (s : State) (depth : Nat) (before rest : Text) :
    s.readValue depth before b rest = (true, s.into (.value depth false)) := by
  simp (disch := decide) [readValue, Byte.ne_of_foreign hb]

/-- A byte beyond ASCII ends nothing: it gets the bit that its region gives to such bytes, and
leads to a region that gives them the same one. -/
theorem read_of_foreign (hb : 0x80 ≤ b) (h : s.region.AwaitsAscii (b :: rest)) :
    (s.read before b rest).1 = s.region.masksForeign ∧
      (s.read before b rest).2.region.masksForeign = s.region.masksForeign := by
  have hne {c : UInt8} (hc : c < 0x80) : b ≠ c := Byte.ne_of_foreign hb hc
  have hspace := Byte.isSpace_of_foreign hb
  obtain ⟨region, mode, depth, outer⟩ := s
  cases region with
  | live =>
    dsimp only [State.read]
    rw [readLive_of_foreign hb]
    exact ⟨rfl, rfl⟩
  | quoted quote escaped =>
    cases escaped with
    | true => exact ⟨rfl, rfl⟩
    | false =>
      have hquote : b ≠ quote := hne h
      simp (disch := decide) [State.read, readQuoted, hne, hquote, Region.masksForeign]
  | template escaped =>
    cases escaped with
    | true => exact ⟨rfl, rfl⟩
    | false => simp (disch := decide) [State.read, readTemplate, hne, Region.masksForeign]
  | opening => exact absurd (Option.some.inj h) (hne (by decide))
  | regex inClass escaped =>
    cases escaped with
    | true => exact ⟨rfl, rfl⟩
    | false => simp (disch := decide) [State.read, readRegex, hne, Region.masksForeign]
  | lineComment => simp (disch := decide) [State.read, hne, Region.masksForeign]
  | commentOpening => exact ⟨rfl, rfl⟩
  | blockComment star => simp (disch := decide) [State.read, into, hne, Region.masksForeign]
  | afterColon =>
    have hquote : Byte.isQuote b = false := by simp (disch := decide) [Byte.isQuote, hne]
    simp (disch := decide) [State.read, readAfterColon, readValue_of_foreign hb, hspace, hquote,
      hne, into, Region.masksForeign]
  | parameters depth => simp (disch := decide) [State.read, readParameters, hne, Region.masksForeign]
  | afterParameters =>
    simp (disch := decide) [State.read, readAfterParameters, readLive_of_foreign hb, hspace, hne,
      into, Region.masksForeign]
  | valueQuoted quote escaped =>
    cases escaped with
    | true => exact ⟨rfl, rfl⟩
    | false =>
      have hquote : b ≠ quote := hne h
      simp (disch := decide) [State.read, hne, hquote, Region.masksForeign]
  | value depth escaped =>
    cases escaped with
    | true => exact ⟨rfl, rfl⟩
    | false =>
      dsimp only [State.read]
      rw [readValue_of_foreign hb]
      exact ⟨rfl, rfl⟩

end State

/-! ## Neighbours -/

section

open State

variable {mode : Mode} {t : Text} {i : Nat} {b c : UInt8}

theorem awaitsAscii_start (hb : t[i]? = some b) :
    ((start mode).after [] i t).region.AwaitsAscii (b :: t.drop (i + 1)) :=
  (awaits_start hb).ascii

theorem isMasked_of_foreign (hb : t[i]? = some b) (hforeign : 0x80 ≤ b) :
    isMasked (ofText mode t) i = ((start mode).after [] i t).region.masksForeign := by
  rw [isMasked, ofText, List.getD_eq_getElem?_getD, getElem?_bits hb, Option.getD_some]
  exact (read_of_foreign hforeign (awaitsAscii_start hb)).1

/-- Two neighbouring bytes beyond ASCII have one bit. -/
theorem isMasked_succ_of_foreign (hb : t[i]? = some b) (hc : t[i + 1]? = some c)
    (hforeign : 0x80 ≤ b) (hforeign' : 0x80 ≤ c) :
    isMasked (ofText mode t) (i + 1) = isMasked (ofText mode t) i := by
  rw [isMasked_of_foreign hb hforeign, isMasked_of_foreign hc hforeign', after_succ hb]
  exact (read_of_foreign hforeign (awaitsAscii_start hb)).2

end

/-- A mask has one bit for each byte of a text, and where the bits of two neighbouring bytes differ,
the second one starts a character. -/
theorem isValid_of_isMasked_ne (mode : Mode) (s : String) :
    let t := Text.ofString s
    (ofText mode t).length = t.length ∧
      ∀ i, i + 1 < t.length → isMasked (ofText mode t) i ≠ isMasked (ofText mode t) (i + 1) →
        String.Pos.Raw.IsValid s ⟨i + 1⟩ := by
  intro t
  refine ⟨length_ofText mode t, fun i hi hne => Text.isValid_of_isBoundary ?_⟩
  have hc : t[i + 1]? = some t[i + 1] := List.getElem?_eq_getElem hi
  rw [Text.isBoundary, hc]
  cases hcont : Byte.isContinuation t[i + 1] with
  | false => simp [hcont]
  | true =>
    -- the byte in front belongs to the same character, so neither of the two is ASCII
    obtain ⟨j, b, hj, hb, hforeign⟩ := Text.whole_ofString s (i + 1) _ hc hcont
    obtain rfl : i = j := Nat.succ.inj hj
    have hforeign' := Byte.le_of_isContinuation hcont
    exact absurd (isMasked_succ_of_foreign hb hc hforeign hforeign').symm hne

/-- A string with an escape in front of a character of two bytes, and one more behind it. -/
def sampleEscape : String := "'\\é'ß"

theorem isValid_of_isMasked_ne_sampleEscape :
    isMasked (ofText .code (Text.ofString sampleEscape)) 4 ≠
        isMasked (ofText .code (Text.ofString sampleEscape)) 5 ∧
      String.Pos.Raw.IsValid sampleEscape ⟨5⟩ := by
  have hne : isMasked (ofText .code (Text.ofString sampleEscape)) 4 ≠
      isMasked (ofText .code (Text.ofString sampleEscape)) 5 := by decide
  exact ⟨hne, (isValid_of_isMasked_ne .code sampleEscape).2 4 (by decide) hne⟩

/-- The escape passes over the first byte of a character, and the second one is masked as well. -/
example : ofText .code (Text.ofString sampleEscape) =
    [true, true, true, true, true, false, false] := by decide

end Mask

end PageLang
