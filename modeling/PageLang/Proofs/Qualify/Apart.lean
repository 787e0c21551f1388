import PageLang.Proofs.Qualify.Lexical

/-!
# References lie apart

Where all names are identifiers, two references never overlap: a bare one is a whole word, and
inside a quoted one everything is masked but the last bracket. At one offset stands one reference at
most. So the references of a body are its live spellings (`mem_references_iff`), and no search for
one name passes over a reference that it should find.

* `Reference.Stands.inside`: the bytes of a reference behind its first one.
* `Reference.Stands.le_of_lt`, `Reference.Stands.eq_of_offset`: two references.
* `mem_references_iff`: all live spellings are found.
-/

namespace PageLang

open Mask

namespace Mask.State

/-- Behind a quote in live text everything is masked that stays on the line. -/
theorem masked_of_isQuote {s : State} {before before' rest rest' : Text} {q b : UInt8}
    (hs : s.region = .live) (hq : Byte.isQuote q = true) (hb : b ≠ Byte.newline) :
    ((s.read before q rest).2.read before' b rest').1 = true := by
  have hquotes : q = Byte.singleQuote ∨ q = Byte.doubleQuote ∨ q = Byte.backquote := by
    simpa [Byte.isQuote, or_assoc] using hq
  have hquoted (q : UInt8) (s : State) : (s.readQuoted q b).1 = true := by
    unfold readQuoted
    rw [if_neg hb]
    split
    · rfl
    · split <;> rfl
  have htemplate (s : State) : (s.readTemplate b rest').1 = true := by
    unfold readTemplate
    repeat' split
    all_goals rfl
  have hread : s.read before q rest = s.readLive before q rest := by rw [read, hs]
  rw [hread]
  rcases hquotes with rfl | rfl | rfl
  · exact hquoted _ _
  · exact hquoted _ _
  · exact htemplate _

end Mask.State

namespace MaskedText

theorem isMasked_of_isLive {s : MaskedText} {i : Nat} (h : s.isLive i = true) :
    s.isMasked i = false := by
  simp only [isLive, Bool.and_eq_true, Bool.not_eq_true'] at h
  exact h.2

/-- Behind a live bracket and a quote everything is masked that stays on the line. -/
theorem isMasked_quoted {t : Text} {k : Nat} {q b : UInt8}
    (hlive : (ofText .code t).liveByte? k = some Byte.lbracket) (hq : t[k + 1]? = some q)
    (hquote : Byte.isQuote q = true) (hb : t[k + 2]? = some b) (hnewline : b ≠ Byte.newline) :
    (ofText .code t).isMasked (k + 2) = true := by
  obtain ⟨hmask, hbyte⟩ := liveByte?_eq_some hlive
  rw [byte?_ofText] at hbyte
  rw [State.isMasked_ofText hbyte] at hmask
  have hregion := (State.inCode_start.after [] k t).region_of_live hmask (by decide)
  have hbracket := State.after_succ hbyte (State.start .code) []
  rw [List.append_nil, State.read_plain hregion (by decide)] at hbracket
  have hstring := State.after_succ hq (State.start .code) []
  rw [List.append_nil, hbracket] at hstring
  rw [State.isMasked_ofText hb, hstring]
  exact State.masked_of_isQuote rfl hquote hnewline

end MaskedText

theorem not_word_of_isQuote :
    ∀ q, Byte.isQuote q = true → Byte.isWord q = false ∧ q ≠ Byte.lbracket :=
  Byte.forall_of_nibbles (by decide)

theorem takeWhile_eq_of_getElem? {p : UInt8 → Bool} {w t : Text} (hw : ∀ c ∈ w, p c = true)
    (hbytes : ∀ k < w.length, t[k]? = w[k]?) (hend : ∀ c ∈ t[w.length]?, p c = false) :
    t.takeWhile p = w := by
  induction w generalizing t with
  | nil =>
    cases t with
    | nil => rfl
    | cons c t => simp [hend c rfl]
  | cons b w ih =>
    obtain ⟨hb, hword⟩ := List.forall_mem_cons.1 hw
    cases t with
    | nil => simpa using hbytes 0 (by simp)
    | cons c t =>
      obtain rfl : c = b := by simpa using hbytes 0 (by simp)
      rw [List.takeWhile_cons_of_pos hb, ih hword (fun k hk => ?_) hend]
      simpa using hbytes (k + 1) (by simpa using hk)

namespace Qualify

open MaskedText

section
variable {s : MaskedText} {r r' : Reference}

/-- The bytes of a reference. -/
theorem Reference.Stands.byte? (h : r.Stands s) : ∃ occurrence : Text,
    (occurrence, r.form) ∈ spellings r.name ∧ occurrence.length = r.width ∧
      s.slice r.offset (r.offset + r.width) = occurrence ∧
      ∀ k < r.width, s.byte? (r.offset + k) = occurrence[k]? := by
  refine ⟨_, h.spelled, ?_, rfl, fun k hk => (getElem?_slice (by omega)).symm⟩
  have := h.le
  rw [length_slice]
  omega

/-- An occurrence in front of a reference ends in front of it: one that overlaps it would hold the
byte in front of a word, or hold a bracket twice. -/
theorem Reference.Stands.le_of_startsAt (h : r.Stands s) (hname : r.name.isIdentifier = true)
    {occurrence : Text} (hspelled : (occurrence, r.form) ∈ spellings r.name) {j : Nat}
    (hj : j < r.offset) (hstarts : s.startsAt occurrence j = true) :
    j + occurrence.length ≤ r.offset := by
  by_contra hlt
  obtain ⟨k, hk⟩ : ∃ k, r.offset = j + (k + 1) := ⟨r.offset - j - 1, by omega⟩
  rcases mem_spellings.1 hspelled with ⟨-, heq⟩ | ⟨hform, q, hq, heq⟩
  · have hprevious := byte?_add_of_startsAt (k := k) hstarts (by omega)
    have hbefore := h.before
    rw [List.getElem?_eq_getElem (by omega)] at hprevious
    rw [hk, ← Nat.add_assoc] at hbefore
    have hword := not_word_of_joinsBefore hbefore _ hprevious
    rw [word_of_isIdentifier (heq ▸ hname) _ (List.getElem_mem _)] at hword
    cases hword
  · have hthis := byte?_add_of_startsAt (k := k + 1) hstarts (by omega)
    obtain ⟨b, hb, ⟨hbare, -⟩ | ⟨-, rfl⟩⟩ := h.first hname
    · rw [hform] at hbare
      cases hbare
    rw [← hk, hb, heq, List.getElem?_cons_succ] at hthis
    have hmem : Byte.lbracket ∈ q :: (r.name ++ [q, Byte.rbracket]) :=
      List.mem_of_getElem? hthis.symm
    simp only [List.mem_cons, List.mem_append, List.not_mem_nil, or_false] at hmem
    rcases hmem with hmem | hmem | hmem | hmem
    · exact (not_word_of_isQuote q hq).2 hmem.symm
    · have := word_of_isIdentifier hname _ hmem
      simp +decide at this
    · exact (not_word_of_isQuote q hq).2 hmem.symm
    · simp +decide at hmem

end

/-- A search for a name finds all its references. -/
theorem mem_references_iff {s : MaskedText} {name : Text} (hname : name.isIdentifier = true)
    {r : Reference} : r ∈ s.references name ↔ r.Stands s ∧ r.name = name := by
  refine ⟨stands_of_mem_references, ?_⟩
  rintro ⟨h, rfl⟩
  obtain ⟨occurrence, hspelled, hwidth, hslice, -⟩ := h.byte?
  have hne : occurrence ≠ [] := List.ne_nil_of_length_pos (by have := h.pos; omega)
  obtain ⟨b, hb, hfirst⟩ := h.first hname
  have hboundary : Byte.isContinuation b = false := by
    rcases hfirst with ⟨-, hb⟩ | ⟨-, rfl⟩
    · exact Script.not_continuation_of_isWord b (by simp [Byte.isWord, hb])
    · decide
  refine List.mem_flatMap.2 ⟨(occurrence, r.form), hspelled, List.mem_map.2 ⟨r.offset, ?_, ?_⟩⟩
  · refine List.mem_filter.2 ⟨mem_occurrences_of_free hne (Nat.zero_le _) ⟨?_, ?_⟩
      (isMasked_of_isLive h.live) (fun _ => h.le_of_startsAt hname hspelled), ?_⟩
    · simp [isBoundary, hb, hboundary]
    · simp [startsAt, hwidth, hslice]
    · simp [hwidth, h.before, h.after]
  · rw [hwidth]

section
variable {t : Text} {r r' : Reference}

/-- The first byte of a quoted name is masked. -/
theorem Reference.Stands.isMasked_name (h : r.Stands (.ofText .code t))
    (hname : r.name.isIdentifier = true) (hform : r.form = .subscript) :
    (MaskedText.ofText .code t).isMasked (r.offset + 2) = true := by
  obtain ⟨occurrence, hspelled, hwidth, -, hbytes⟩ := h.byte?
  simp only [byte?_ofText] at hbytes
  obtain ⟨hbare, -⟩ | ⟨-, q, hq, rfl⟩ := mem_spellings.1 hspelled
  · rw [hform] at hbare
    cases hbare
  obtain ⟨c, name, hcons, -, -⟩ := Text.exists_of_isIdentifier hname
  rw [hcons] at hwidth hbytes
  simp only [List.cons_append, List.length_cons] at hwidth
  have hlbracket : (MaskedText.ofText .code t).liveByte? r.offset = some Byte.lbracket := by
    unfold liveByte?
    rw [isMasked_of_isLive h.live, byte?_ofText]
    exact hbytes 0 (by omega)
  refine isMasked_quoted hlbracket (hbytes 1 (by omega)) hq (hbytes 2 (by omega)) ?_
  rintro rfl
  have := word_of_isIdentifier hname Byte.newline (by simp [hcons])
  simp +decide at this

/-- Inside a reference a live byte belongs to the name, behind its first byte, or it is the last
bracket. -/
theorem Reference.Stands.inside (h : r.Stands (.ofText .code t))
    (hname : r.name.isIdentifier = true) {x : Nat} (hlt : r.offset < x)
    (hx : x < r.offset + r.width) (hlive : (MaskedText.ofText .code t).isMasked x = false) :
    (∃ c, t[x - 1]? = some c ∧ Byte.isWord c = true) ∨
      ∃ c, t[x]? = some c ∧ Byte.isWord c = false ∧ c ≠ Byte.lbracket := by
  obtain ⟨occurrence, hspelled, hwidth, -, hbytes⟩ := h.byte?
  simp only [byte?_ofText] at hbytes
  have hword : ∀ c ∈ r.name, Byte.isWord c = true := word_of_isIdentifier hname
  obtain ⟨j, rfl⟩ : ∃ j, x = r.offset + (j + 1) := ⟨x - r.offset - 1, by omega⟩
  have hprevious : t[r.offset + (j + 1) - 1]? = occurrence[j]? := hbytes j (by omega)
  have hthis := hbytes (j + 1) (by omega)
  rcases mem_spellings.1 hspelled with ⟨-, heq⟩ | ⟨hform, q, hq, heq⟩
  · have hlt : j < r.name.length := by
      rw [← heq]
      omega
    rw [heq, List.getElem?_eq_getElem hlt] at hprevious
    exact .inl ⟨_, hprevious, hword _ (List.getElem_mem hlt)⟩
  · have hquote := not_word_of_isQuote q hq
    rw [heq] at hprevious hthis
    have hlength : r.width = r.name.length + 4 := by
      rw [← hwidth, heq]
      simp
    rcases j with _ | j
    · exact .inr ⟨q, by simpa using hthis, hquote⟩
    rw [List.getElem?_cons_succ, List.getElem?_cons_succ] at hthis
    rcases Nat.lt_trichotomy j r.name.length with hj | hj | hj
    · rcases j with _ | j
      · have hmasked := h.isMasked_name hname hform
        rw [show r.offset + (0 + 1 + 1) = r.offset + 2 from rfl, hmasked] at hlive
        cases hlive
      · refine .inl ⟨r.name[j], ?_, hword _ (List.getElem_mem _)⟩
        rw [hprevious]
        simp [List.getElem?_append_left (show j < r.name.length by omega)]
    · subst hj
      exact .inr ⟨q, by simpa using hthis, hquote⟩
    · obtain rfl : j = r.name.length + 1 := by omega
      exact .inr ⟨Byte.rbracket, by simpa using hthis, by decide, by decide⟩

/-- Two references do not overlap. -/
theorem Reference.Stands.le_of_lt (h : r.Stands (.ofText .code t))
    (hname : r.name.isIdentifier = true) (h' : r'.Stands (.ofText .code t))
    (hname' : r'.name.isIdentifier = true) (hlt : r.offset < r'.offset) :
    r.offset + r.width ≤ r'.offset := by
  by_contra hle
  rcases h.inside hname hlt (by omega) (isMasked_of_isLive h'.live) with
    ⟨c, hc, hword⟩ | ⟨c, hc, hword, hne⟩
  · have hbefore := h'.before
    obtain ⟨k, hk⟩ : ∃ k, r'.offset = k + 1 := ⟨r'.offset - 1, by omega⟩
    rw [hk] at hbefore hc
    have := not_word_of_joinsBefore hbefore c (by rw [byte?_ofText]; exact hc)
    rw [hword] at this
    cases this
  · obtain ⟨b, hb, hfirst⟩ := h'.first hname'
    rw [byte?_ofText, hc] at hb
    cases hb
    rcases hfirst with ⟨-, hstart⟩ | ⟨-, rfl⟩
    · simp [Byte.isWord, hstart] at hword
    · exact hne rfl

/-- Where the name of a reference begins. -/
def Reference.nameStart (r : Reference) : Nat :=
  match r.form with
  | .bare => r.offset
  | .subscript => r.offset + 2

/-- The name of a reference is the whole word that stands there. -/
theorem Reference.Stands.takeWhile (h : r.Stands (.ofText .code t))
    (hname : r.name.isIdentifier = true) :
    (t.drop r.nameStart).takeWhile Byte.isWord = r.name ∧
      r.width = r.name.length + 2 * (r.nameStart - r.offset) := by
  obtain ⟨occurrence, hspelled, hwidth, -, hbytes⟩ := h.byte?
  simp only [byte?_ofText] at hbytes
  rcases mem_spellings.1 hspelled with ⟨hform, heq⟩ | ⟨hform, q, hq, heq⟩
  · have hstart : r.nameStart = r.offset := by rw [Reference.nameStart, hform]
    rw [heq] at hwidth hbytes
    rw [hstart]
    refine ⟨takeWhile_eq_of_getElem? (word_of_isIdentifier hname) (fun k hk => ?_) fun c hc => ?_,
      by omega⟩
    · rw [List.getElem?_drop, hbytes k (by omega)]
    · rw [List.getElem?_drop, hwidth, ← byte?_ofText .code] at hc
      exact Script.not_word_of_joinsAfter h.after c hc
  · have hstart : r.nameStart = r.offset + 2 := by rw [Reference.nameStart, hform]
    rw [heq] at hwidth hbytes
    simp only [List.length_cons, List.length_append, List.length_nil] at hwidth
    have hbehind (k : Nat) (hk : k < r.name.length + 1) :
        (t.drop r.nameStart)[k]? = (r.name ++ [q, Byte.rbracket])[k]? := by
      rw [List.getElem?_drop, hstart, Nat.add_assoc, Nat.add_comm 2, hbytes (k + 2) (by omega)]
      rfl
    refine ⟨takeWhile_eq_of_getElem? (word_of_isIdentifier hname) (fun k hk => ?_) fun c hc => ?_,
      by omega⟩
    · rw [hbehind k (by omega), List.getElem?_append_left hk]
    · rw [hbehind _ (Nat.lt_succ_self _)] at hc
      obtain rfl : q = c := by simpa using hc
      exact (not_word_of_isQuote q hq).1

/-- At one offset stands one reference. -/
theorem Reference.Stands.eq_of_offset (h : r.Stands (.ofText .code t))
    (hname : r.name.isIdentifier = true) (h' : r'.Stands (.ofText .code t))
    (hname' : r'.name.isIdentifier = true) (hoffset : r.offset = r'.offset) : r = r' := by
  have hform : r.form = r'.form := by
    obtain ⟨b, hb, hfirst⟩ := h.first hname
    obtain ⟨b', hb', hfirst'⟩ := h'.first hname'
    rw [hoffset, hb'] at hb
    cases hb
    rcases hfirst with ⟨hform, hstart⟩ | ⟨hform, rfl⟩
    · rcases hfirst' with ⟨hform', -⟩ | ⟨-, rfl⟩
      · rw [hform, hform']
      · simp +decide at hstart
    · rcases hfirst' with ⟨-, hstart⟩ | ⟨hform', -⟩
      · simp +decide at hstart
      · rw [hform, hform']
  have hstart : r.nameStart = r'.nameStart := by
    unfold Reference.nameStart
    rw [hform, hoffset]
  have hnames : r.name = r'.name := by
    rw [← (h.takeWhile hname).1, hstart, (h'.takeWhile hname').1]
  have hwidth : r.width = r'.width := by
    rw [(h.takeWhile hname).2, (h'.takeWhile hname').2, hnames, hstart, hoffset]
  obtain ⟨offset, width, name, form⟩ := r
  cases r'
  simp_all

end

end Qualify

end PageLang
