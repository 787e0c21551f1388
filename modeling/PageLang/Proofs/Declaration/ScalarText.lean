import PageLang.Proofs.Mask.Regions
import PageLang.Proofs.RoundTrip.Declaration
import PageLang.Proofs.Script.Recogniser
import PageLang.Proofs.Text.Nests

/-!
# Scalar values that hold strings

A scalar value may be put together from plain text and strings. The mask knows a string in it only
where the value begins with it. The bytes of all others are read as if they stood alone, so that a
semicolon in them ends the value, and so does a closing brace without its opening one.

* `Mask.State.reads_value`: where a scalar value ends.
* `ScalarText.declaration?_eq_iff`: the values that end at the semicolon behind them.
-/

namespace PageLang

open Cell

/-- A string as it is written: a quote on both sides of a text that holds neither the quote nor a
backslash. -/
structure Literal where
  quote : UInt8
  inside : Text
  isQuote : Byte.isQuote quote = true
  fits : ∀ b ∈ inside, b ≠ quote ∧ b ≠ Byte.backslash

namespace Literal

/-- A string with its quotes. -/
def text (l : Literal) : Text := l.quote :: (l.inside ++ [l.quote])

theorem quote_cases (l : Literal) :
    l.quote = Byte.singleQuote ∨ l.quote = Byte.doubleQuote ∨ l.quote = Byte.backquote := by
  have h := l.isQuote
  simpa [Byte.isQuote, or_assoc] using h

end Literal

namespace Mask

/-! ## The end of a scalar value -/

/-- A piece of a scalar value that leaves the value open, where `depth` braces are open in front of
it: no semicolon stands in it, and no brace closes that is not open. -/
def StaysOpen (depth : Nat) (t : Text) : Prop :=
  Byte.semicolon ∉ t ∧ Text.Nests Byte.lbrace Byte.rbrace depth t

namespace StaysOpen

variable {depth : Nat} {b : UInt8} {t u v : Text}

theorem nil (depth : Nat) : StaysOpen depth [] := ⟨List.not_mem_nil, Text.nests_nil _ _ depth⟩

theorem not_semicolon (depth : Nat) (t : Text) : ¬ StaysOpen depth (Byte.semicolon :: t) :=
  fun h => h.1 (.head _)

theorem not_rbrace (t : Text) : ¬ StaysOpen 0 (Byte.rbrace :: t) :=
  fun h => Text.not_nests_closing_cons (by decide) h.2

theorem lbrace_cons : StaysOpen depth (Byte.lbrace :: t) ↔ StaysOpen (depth + 1) t := by
  rw [StaysOpen, StaysOpen, Text.nests_opening_cons (by decide)]
  simp +decide

theorem rbrace_cons : StaysOpen (depth + 1) (Byte.rbrace :: t) ↔ StaysOpen depth t := by
  rw [StaysOpen, StaysOpen, Text.nests_closing_cons (by decide)]
  simp +decide

theorem plain_cons (hb : b ≠ Byte.semicolon ∧ b ≠ Byte.lbrace ∧ b ≠ Byte.rbrace) :
    StaysOpen depth (b :: t) ↔ StaysOpen depth t := by
  rw [StaysOpen, StaysOpen, Text.nests_plain_cons hb.2.1 hb.2.2, List.mem_cons, not_or]
  simp [hb.1.symm]

/-- Text without semicolons and braces changes nothing. -/
theorem plain_append (ht : ∀ b ∈ t, b ≠ Byte.semicolon ∧ b ≠ Byte.lbrace ∧ b ≠ Byte.rbrace) :
    StaysOpen depth (t ++ u) ↔ StaysOpen depth u := by
  induction t with
  | nil => rfl
  | cons b t ih =>
    rw [List.cons_append, plain_cons (ht b (.head _))]
    exact ih fun c hc => ht c (.tail _ hc)

/-- Behind the same text, texts that leave the same values open can stand for each other. -/
theorem append_congr (h : ∀ depth, StaysOpen depth u ↔ StaysOpen depth v) :
    StaysOpen depth (t ++ u) ↔ StaysOpen depth (t ++ v) := by
  induction t generalizing depth with
  | nil => exact h depth
  | cons b t ih =>
    rw [List.cons_append, List.cons_append]
    by_cases hsemicolon : b = Byte.semicolon
    · subst hsemicolon
      exact iff_of_false (not_semicolon _ _) (not_semicolon _ _)
    by_cases hl : b = Byte.lbrace
    · subst hl
      rw [lbrace_cons, lbrace_cons, ih]
    by_cases hr : b = Byte.rbrace
    · subst hr
      cases depth with
      | zero => exact iff_of_false (not_rbrace _) (not_rbrace _)
      | succ depth => rw [rbrace_cons, rbrace_cons, ih]
    · rw [plain_cons ⟨hsemicolon, hl, hr⟩, plain_cons ⟨hsemicolon, hl, hr⟩, ih]

end StaysOpen

namespace State

/-- A scalar value with a semicolon behind it is masked up to the first byte that ends it: the
semicolon behind it if the value stays open, and a byte of the value otherwise. -/
theorem reads_value {t : Text} (ht : ∀ b ∈ t, b ≠ Byte.backslash) (n : Nat)
    (before ahead : Text) : ∃ w b u s, t ++ [Byte.semicolon] = w ++ b :: u ∧
      (b = Byte.semicolon ∨ b = Byte.rbrace) ∧ (u = [] ↔ StaysOpen n t) ∧
      Reads ⟨.value n false, .declarations, 0, []⟩ before (masked w ++ live [b]) (u ++ ahead) s := by
  induction t generalizing n before with
  | nil =>
    exact ⟨[], Byte.semicolon, [], _, rfl, .inl rfl, iff_of_true rfl (.nil n),
      .cons rfl (.nil ..)⟩
  | cons b t ih =>
    obtain ⟨hbackslash, ht⟩ := List.forall_mem_cons.1 ht
    -- the byte ends the value
    have stop (hb : b = Byte.semicolon ∨ b = Byte.rbrace) (hopen : ¬ StaysOpen n (b :: t))
        {r : State} (hread : (⟨.value n false, .declarations, 0, []⟩ : State).read before b
          (t ++ [Byte.semicolon] ++ ahead) = (false, r)) :
        ∃ w b' u s, b :: t ++ [Byte.semicolon] = w ++ b' :: u ∧
          (b' = Byte.semicolon ∨ b' = Byte.rbrace) ∧ (u = [] ↔ StaysOpen n (b :: t)) ∧
          Reads ⟨.value n false, .declarations, 0, []⟩ before (masked w ++ live [b'])
            (u ++ ahead) s :=
      ⟨[], b, t ++ [Byte.semicolon], r, rfl, hb, iff_of_false (by simp) hopen,
        .cons hread (.nil ..)⟩
    -- the byte is masked, and the value ends in what follows
    have pass {m : Nat} (hopen : StaysOpen n (b :: t) ↔ StaysOpen m t)
        (hread : ∀ rest, (⟨.value n false, .declarations, 0, []⟩ : State).read before b rest =
          (true, ⟨.value m false, .declarations, 0, []⟩)) :
        ∃ w b' u s, b :: t ++ [Byte.semicolon] = w ++ b' :: u ∧
          (b' = Byte.semicolon ∨ b' = Byte.rbrace) ∧ (u = [] ↔ StaysOpen n (b :: t)) ∧
          Reads ⟨.value n false, .declarations, 0, []⟩ before (masked w ++ live [b'])
            (u ++ ahead) s := by
      obtain ⟨w, b', u, s, heq, hb', hu, h⟩ := ih ht m (b :: before)
      exact ⟨b :: w, b', u, s, congrArg (b :: ·) heq, hb', hu.trans hopen.symm,
        .cons (hread _) h⟩
    by_cases hsemicolon : b = Byte.semicolon
    · subst hsemicolon
      exact stop (.inl rfl) (StaysOpen.not_semicolon n t) rfl
    by_cases hl : b = Byte.lbrace
    · subst hl
      exact pass StaysOpen.lbrace_cons fun _ => rfl
    by_cases hr : b = Byte.rbrace
    · subst hr
      cases n with
      | zero => exact stop (.inr rfl) (StaysOpen.not_rbrace t) rfl
      | succ n => exact pass StaysOpen.rbrace_cons fun _ => rfl
    · refine pass (StaysOpen.plain_cons ⟨hsemicolon, hl, hr⟩) fun rest => ?_
      simp [State.read, readValue, hbackslash, hsemicolon, hl, hr, into]

/-- A colon that starts no statement opens a value. -/
theorem read_colon {before : Text} (h : startsStatement before = false) (rest : Text) :
    (⟨.live, .declarations, 0, []⟩ : State).read before Byte.colon rest =
      (false, ⟨.afterColon, .declarations, 0, []⟩) := by
  simp +decide [State.read, readLive, h, into]

/-- Behind a colon and blanks, a scalar value without leading quotes is read as such at once. -/
theorem read_afterColon {b : UInt8} (hspace : Byte.isSpace b = false) (hparen : b ≠ Byte.lparen)
    (hbrace : b ≠ Byte.lbrace) (hquote : Byte.isQuote b = false) (before rest : Text) :
    (⟨.afterColon, .declarations, 0, []⟩ : State).read before b rest =
      (⟨.value 0 false, .declarations, 0, []⟩ : State).read before b rest := by
  simp only [State.read, readAfterColon, hspace, hparen, hbrace, hquote, Bool.false_eq_true, if_false]
  rfl

/-- The blanks in front of a value are live. -/
theorem reads_gap {gap : Text} (hgap : ∀ b ∈ gap, Byte.isSpace b = true) (before ahead : Text) :
    Reads ⟨.afterColon, .declarations, 0, []⟩ before (live gap) ahead
      ⟨.afterColon, .declarations, 0, []⟩ := by
  induction gap generalizing before with
  | nil => exact .nil ..
  | cons b gap ih =>
    refine .cons ?_ (ih (fun c hc => hgap c (.tail _ hc)) _)
    simp [State.read, readAfterColon, hgap b (.head _)]

/-- The string that a value begins with is masked as a whole. -/
theorem reads_front (l : Literal) (before ahead : Text) :
    Reads ⟨.afterColon, .declarations, 0, []⟩ before (masked l.text) ahead
      ⟨.value 0 false, .declarations, 0, []⟩ := by
  have hquote : l.quote ≠ Byte.backslash := by
    rcases l.quote_cases with h | h | h <;> rw [h] <;> decide
  have hrest (t : Text) (ht : ∀ b ∈ t, b ≠ l.quote ∧ b ≠ Byte.backslash) (before : Text) :
      Reads ⟨.valueQuoted l.quote false, .declarations, 0, []⟩ before (masked (t ++ [l.quote]))
        ahead ⟨.value 0 false, .declarations, 0, []⟩ := by
    induction t generalizing before with
    | nil =>
      refine .cons ?_ (.nil ..)
      simp [State.read, hquote, into]
    | cons b t ih =>
      refine .cons ?_ (ih (fun c hc => ht c (.tail _ hc)) _)
      simp [State.read, ht b (.head _)]
  refine .cons ?_ (hrest l.inside l.fits _)
  rcases l.quote_cases with h | h | h <;> rw [h] <;> rfl

end State

end Mask

/-! ## Values of plain text and strings -/

/-- The bytes that do not stand in plain text. -/
def ScalarPart.marks : Text := [Byte.singleQuote, Byte.doubleQuote, Byte.backquote, Byte.backslash,
  Byte.semicolon, Byte.lbrace, Byte.rbrace, Byte.newline]

/-- A part of a scalar value: plain text, or a string. -/
inductive ScalarPart where
  | plain (t : Text) (fits : ∀ b ∈ t, b ∉ ScalarPart.marks)
  | string (l : Literal)

namespace ScalarPart

/-- The parts as they are written. -/
def text : List ScalarPart → Text
  | [] => []
  | plain t _ :: parts => t ++ text parts
  | string l :: parts => l.text ++ text parts

/-- What stands between the quotes of the strings. -/
def insides : List ScalarPart → Text
  | [] => []
  | plain .. :: parts => insides parts
  | string l :: parts => l.inside ++ insides parts

/-- What stands between the quotes of the strings that the value does not begin with. Blanks may
stand in front of the string that it begins with. -/
def laterInsides : List ScalarPart → Text
  | [] => []
  | plain t _ :: parts => if t.all Byte.isSpace then laterInsides parts else insides parts
  | string _ :: parts => insides parts

/-- A byte of plain text. -/
theorem plain_byte {t : Text} (ht : ∀ b ∈ t, b ∉ marks) :
    ∀ b ∈ t, Byte.isQuote b = false ∧ b ≠ Byte.backslash ∧ b ≠ Byte.semicolon ∧
      b ≠ Byte.lbrace ∧ b ≠ Byte.rbrace := by
  intro b hb
  have := ht b hb
  simp only [marks, List.mem_cons, not_or] at this
  simp [Byte.isQuote, this]

theorem backslash_notMem_text (parts : List ScalarPart) : ∀ b ∈ text parts, b ≠ Byte.backslash := by
  induction parts with
  | nil => simp [text]
  | cons part parts ih =>
    intro b hb
    cases part with
    | plain t ht =>
      exact (List.mem_append.1 hb).elim (fun hb => (plain_byte ht b hb).2.1) (ih b)
    | string l =>
      refine (List.mem_append.1 hb).elim (fun hb => ?_) (ih b)
      have hquote : l.quote ≠ Byte.backslash := by
        rcases l.quote_cases with h | h | h <;> rw [h] <;> decide
      simp only [Literal.text, List.mem_cons, List.mem_append, List.not_mem_nil, or_false] at hb
      rcases hb with rfl | hb | rfl
      · exact hquote
      · exact (l.fits b hb).2
      · exact hquote

/-- Of a text only the insides of its strings can end a value. -/
theorem staysOpen_text (parts : List ScalarPart) (depth : Nat) :
    Mask.StaysOpen depth (text parts) ↔ Mask.StaysOpen depth (insides parts) := by
  induction parts generalizing depth with
  | nil => rfl
  | cons part parts ih =>
    cases part with
    | plain t ht =>
      have hplain := fun b hb => (plain_byte ht b hb).2.2
      rw [text, insides, Mask.StaysOpen.plain_append hplain, ih]
    | string l =>
      have hquote : l.quote ≠ Byte.semicolon ∧ l.quote ≠ Byte.lbrace ∧ l.quote ≠ Byte.rbrace := by
        rcases l.quote_cases with h | h | h <;> rw [h] <;> decide
      have htext : text (string l :: parts) = l.quote :: (l.inside ++ (l.quote :: text parts)) := by
        simp [text, Literal.text]
      rw [htext, insides, Mask.StaysOpen.plain_cons hquote]
      exact Mask.StaysOpen.append_congr fun depth =>
        (Mask.StaysOpen.plain_cons hquote).trans (ih depth)

/-- A value is cut into the blanks it begins with, the string behind them if there is one, and what
follows. -/
theorem exists_front (parts : List ScalarPart)
    (hopens : (text parts).find? (!Byte.isSpace ·) ≠ some Byte.lparen) :
    ∃ gap front tail, text parts = gap ++ (front ++ tail) ∧ (∀ b ∈ gap, Byte.isSpace b = true) ∧
      (∀ b ∈ tail, b ≠ Byte.backslash) ∧
      (∀ depth, Mask.StaysOpen depth tail ↔ Mask.StaysOpen depth (laterInsides parts)) ∧
      ((∃ l : Literal, front = l.text) ∨ front = [] ∧ ∀ b ∈ (tail ++ [Byte.semicolon]).head?,
        Byte.isSpace b = false ∧ b ≠ Byte.lparen ∧ b ≠ Byte.lbrace ∧ Byte.isQuote b = false) := by
  induction parts with
  | nil =>
    exact ⟨[], [], [], rfl, by simp, by simp, fun _ => Iff.rfl, .inr ⟨rfl, by decide +kernel⟩⟩
  | cons part parts ih =>
    cases part with
    | string l =>
      exact ⟨[], l.text, text parts, rfl, by simp, backslash_notMem_text parts,
        staysOpen_text parts, .inl ⟨l, rfl⟩⟩
    | plain t ht =>
      by_cases hblank : t.all Byte.isSpace = true
      · have hspace : ∀ b ∈ t, Byte.isSpace b = true := by simpa using hblank
        have hfind : (text (plain t ht :: parts)).find? (!Byte.isSpace ·) =
            (text parts).find? (!Byte.isSpace ·) := by
          rw [text, List.find?_append, List.find?_eq_none.2 (by simpa using hspace), Option.none_or]
        obtain ⟨gap, front, tail, heq, hgap, hrest⟩ := ih (hfind ▸ hopens)
        refine ⟨t ++ gap, front, tail, ?_, ?_, ?_⟩
        · rw [text, heq, List.append_assoc]
        · exact fun b hb => (List.mem_append.1 hb).elim (hspace b) (hgap b)
        · rwa [laterInsides, if_pos hblank]
      · -- the first byte that is no blank stands in this part
        have hall := List.all_takeWhile (p := Byte.isSpace) (l := t)
        obtain ⟨c, t', hdrop⟩ := List.exists_cons_of_ne_nil (l := t.dropWhile Byte.isSpace)
          fun hnil => hblank (by
            rwa [← List.append_nil (t.takeWhile _), ← hnil, List.takeWhile_append_dropWhile] at hall)
        have hc : Byte.isSpace c = false := by
          have := List.head?_dropWhile_not Byte.isSpace t
          simpa [hdrop] using this
        have hmem : ∀ b ∈ c :: t', b ∈ t := fun b hb =>
          (List.dropWhile_suffix Byte.isSpace).subset (hdrop ▸ hb)
        have hsplit : t = t.takeWhile Byte.isSpace ++ c :: t' := by
          rw [← hdrop, List.takeWhile_append_dropWhile]
        have hgap : ∀ b ∈ t.takeWhile Byte.isSpace, Byte.isSpace b = true := fun b hb =>
          List.all_eq_true.1 hall b hb
        have hparen : c ≠ Byte.lparen := by
          rintro rfl
          refine hopens ?_
          rw [text, hsplit, List.append_assoc, List.find?_append,
            List.find?_eq_none.2 (by simpa using hgap)]
          rfl
        have hplain := fun b hb => plain_byte ht b (hmem b hb)
        refine ⟨t.takeWhile Byte.isSpace, [], c :: t' ++ text parts, ?_, hgap, ?_, fun depth => ?_,
          .inr ⟨rfl, ?_⟩⟩
        · rw [text, List.nil_append, ← List.append_assoc, ← hsplit]
        · exact fun b hb => (List.mem_append.1 hb).elim (fun hb => (hplain b hb).2.1)
            (backslash_notMem_text parts b)
        · rw [Mask.StaysOpen.plain_append fun b hb => (hplain b hb).2.2, staysOpen_text,
            laterInsides, if_neg hblank]
        · rintro b hb
          obtain rfl : c = b := by simpa using hb
          have := hplain c (.head _)
          exact ⟨hc, hparen, this.2.2.2.1, this.1⟩

end ScalarPart

/-- A scalar value of plain text and strings. Its first byte that is no blank opens no parameter
list. -/
structure ScalarText where
  parts : List ScalarPart
  opens : (ScalarPart.text parts).find? (!Byte.isSpace ·) ≠ some Byte.lparen

namespace ScalarText

/-- A value as it is written. -/
def text (v : ScalarText) : Text := ScalarPart.text v.parts

/-- What stands between the quotes of the strings that the value does not begin with. -/
def laterInsides (v : ScalarText) : Text := ScalarPart.laterInsides v.parts

/-- The value is masked up to its end, from the colon in front of it. -/
theorem exists_reads (v : ScalarText) (before ahead : Text) : ∃ gap w b u s,
    v.text ++ [Byte.semicolon] = gap ++ (w ++ b :: u) ∧ (∀ c ∈ gap, Byte.isSpace c = true) ∧
      (∀ c ∈ (w ++ [b]).head?, Byte.isSpace c = false ∧ c ≠ Byte.lparen ∧ c ≠ Byte.lbrace) ∧
      (b = Byte.semicolon ∨ b = Byte.rbrace) ∧ (u = [] ↔ Mask.StaysOpen 0 v.laterInsides) ∧
      Mask.State.Reads ⟨.afterColon, .declarations, 0, []⟩ before
        (live gap ++ (masked w ++ live [b])) (u ++ ahead) s := by
  obtain ⟨gap, front, tail, heq, hgap, hbackslash, hopen, hfront⟩ :=
    ScalarPart.exists_front v.parts v.opens
  have htext : v.text ++ [Byte.semicolon] = gap ++ (front ++ (tail ++ [Byte.semicolon])) := by
    rw [text, heq]
    simp
  rcases hfront with ⟨l, rfl⟩ | ⟨rfl, hhead⟩
  · obtain ⟨w, b, u, s, hw, hb, hu, h⟩ :=
      Mask.State.reads_value hbackslash 0 ((gap ++ l.text).reverse ++ before) ahead
    refine ⟨gap, l.text ++ w, b, u, s, ?_, hgap, ?_, hb, hu.trans (hopen 0), ?_⟩
    · rw [htext, hw]
      simp
    · intro c hc
      obtain rfl : l.quote = c := by simpa [Literal.text] using hc
      rcases l.quote_cases with h | h | h <;> rw [h] <;> decide
    · rw [masked_append, List.append_assoc]
      refine .append (Mask.State.reads_gap hgap _ _) (.append (Mask.State.reads_front l _ _) ?_)
      simpa using h
  · obtain ⟨w, b, u, s, hw, hb, hu, h⟩ :=
      Mask.State.reads_value hbackslash 0 (gap.reverse ++ before) ahead
    have hsame : (w ++ [b]).head? = (tail ++ [Byte.semicolon]).head? := by
      rw [hw]
      cases w <;> rfl
    refine ⟨gap, w, b, u, s, by rw [htext, hw, List.nil_append], hgap, ?_, hb, hu.trans (hopen 0), ?_⟩
    · rw [hsame]
      exact fun c hc => ⟨(hhead c hc).1, (hhead c hc).2.1, (hhead c hc).2.2.1⟩
    · refine .append (Mask.State.reads_gap hgap _ _) ?_
      rw [bytes_live]
      -- the first byte is read as one of the value
      cases hcells : masked w ++ live [b] with
      | nil => simp at hcells
      | cons c cells =>
        rw [hcells] at h
        have hc : c.1 ∈ (tail ++ [Byte.semicolon]).head? := by
          rw [← hsame]
          cases w with
          | nil =>
            obtain ⟨rfl, -⟩ := List.cons.inj hcells
            rfl
          | cons d w =>
            obtain ⟨rfl, -⟩ := List.cons.inj hcells
            rfl
        obtain ⟨hspace, hparen, hbrace, hquote⟩ := hhead c.1 hc
        cases h with
        | cons hread h =>
          exact .cons ((Mask.State.read_afterColon hspace hparen hbrace hquote _ _).trans hread) h

open Written

/-- A declaration of a value, up to the semicolon behind it. -/
def source (v : ScalarText) (slot : StringSlot) (name : Text) : Text :=
  slot.sigil.toList ++ name ++ [Byte.colon, Byte.space] ++ v.text ++ [Byte.semicolon]

variable {slot : StringSlot} {name : Text}

/-- The cells of a declaration: its value is masked up to its end, behind blanks. -/
theorem exists_rest (hname : NameFits slot.sigil (slot == .style) name) (v : ScalarText)
    (ahead : Text) : ∃ gap w b u cells,
      v.text ++ [Byte.semicolon] = gap ++ (w ++ b :: u) ∧ (∀ c ∈ gap, Byte.isSpace c = true) ∧
      (∀ c ∈ (w ++ [b]).head?, Byte.isSpace c = false ∧ c ≠ Byte.lparen ∧ c ≠ Byte.lbrace) ∧
      (b = Byte.semicolon ∨ b = Byte.rbrace) ∧ (u = [] ↔ Mask.StaysOpen 0 v.laterInsides) ∧
      (MaskedText.ofText .declarations (v.source slot name ++ ahead)).Rest 0
        (live (slot.sigil.toList ++ name) ++ (Byte.colon, false) ::
          (live (Byte.space :: gap) ++ (masked w ++ (b, false) :: cells))) := by
  let written := slot.sigil.toList ++ name
  obtain ⟨gap, w, b, u, e, heq, hgap, hfirst, hb, hopen, hreads⟩ :=
    v.exists_reads (Byte.space :: Byte.colon :: ((bytes (live written)).reverse ++ [])) ahead
  -- the text behind the end of the value is read somehow
  obtain ⟨cells, hbytes, hrest⟩ := e.exists_reads_after
    ((bytes (live gap ++ (masked w ++ live [b]))).reverse ++
      (Byte.space :: Byte.colon :: ((bytes (live written)).reverse ++ []))) (u ++ ahead) []
  obtain ⟨e', hall⟩ : ∃ e', Mask.State.Reads (.start .declarations) [] (live written ++
      ((Byte.colon, false) :: (live [Byte.space] ++ ((live gap ++ (masked w ++ live [b])) ++ cells))))
      [] e' := by
    refine ⟨_, .append (Mask.State.reads_plain (fun c hc => ?_) _ _) (.cons
      (r := ⟨.afterColon, .declarations, 0, []⟩) ?_ (.append (.cons rfl (.nil ..)) (.append ?_ hrest)))⟩
    · exact (hname.forall_mem_written slot.isSigil c hc).2.1
    · rw [bytes_live]
      exact Mask.State.read_colon (hname.startsStatement_eq slot.isSigil []) _
    · rw [hbytes, List.append_nil (u ++ ahead)]
      exact hreads
  have hsource : v.source slot name ++ ahead = bytes (live written ++ ((Byte.colon, false) ::
      (live [Byte.space] ++ ((live gap ++ (masked w ++ live [b])) ++ cells)))) := by
    have : v.source slot name = written ++ (Byte.colon :: Byte.space ::
        (gap ++ (w ++ b :: u))) := by
      rw [← heq]
      simp [source, written]
    rw [this]
    simp [hbytes]
  refine ⟨gap, w, b, u, cells, heq, hgap, hfirst, hb, hopen, ?_⟩
  rw [hsource]
  simpa [written] using MaskedText.rest_ofText hall

/-- A declaration of a scalar value is read up to the first byte that ends the value. That is the
semicolon behind it if the value stays open, and a byte in front of that otherwise. -/
theorem exists_declaration? (hname : NameFits slot.sigil (slot == .style) name) (v : ScalarText)
    (ahead : Text) : ∃ value stop,
      (MaskedText.ofText .declarations (v.source slot name ++ ahead)).declaration? 0 =
          .ok (some (⟨name, slot.content value, ⟨0, stop⟩⟩, stop)) ∧
      (Mask.StaysOpen 0 v.laterInsides → value = Scalar.ofText v.text.trim) ∧
      (stop = (v.source slot name).length ↔ Mask.StaysOpen 0 v.laterInsides) := by
  obtain ⟨gap, w, b, u, cells, heq, hgap, hfirst, hb, hopen, hdeclared⟩ :=
    v.exists_rest hname ahead
  generalize MaskedText.ofText .declarations (v.source slot name ++ ahead) = s at hdeclared ⊢
  have hrest := hdeclared.skip.tail.skip
  rw [length_live, length_live, List.length_cons] at hrest
  generalize hi : 0 + (slot.sigil.toList ++ name).length + 1 + (gap.length + 1) = i at hrest
  have hbyte : s.byte? i = (w ++ [b]).head? := by
    rw [hrest.byte?_zero]
    cases w <;> rfl
  have hfind : s.findAny? [Byte.semicolon, Byte.rbrace] i = some (i + (masked w).length, b) :=
    hrest.findAny? _ (fun d hd hlive => absurd hlive (ne_false_of_mem_masked hd)) (by simpa using hb)
  have hslice : s.slice i (i + w.length) = w := by
    have := hrest.slice
    rwa [length_masked, bytes_masked] at this
  have hvalue : s.value 0 i (slot.sigil.toList ++ name) = .ok (.scalar (Scalar.ofText (Text.trim w)),
      if b = Byte.semicolon then i + w.length + 1 else i + w.length) := by
    rw [MaskedText.value, hbyte]
    split
    · next hparen => exact absurd rfl (hfirst _ hparen).2.1
    · next hbrace => exact absurd rfl (hfirst _ hbrace).2.2
    · rw [hfind]
      simp only [length_masked, hslice]
  have hgap' : ∀ c ∈ Byte.space :: gap, Byte.isSpace c = true := List.forall_mem_cons.2 ⟨rfl, hgap⟩
  have hread := declaration?_of_value hname slot.isSigil hgap' hdeclared (fun c hc => ?_)
    (by rw [List.length_cons, hi]; exact hvalue) (slot.ofValue _ _ hname)
  · refine ⟨_, _, hread, fun h => ?_, ?_⟩
    · obtain rfl := hopen.2 h
      have htext : v.text = gap ++ w := by
        have hsplit : v.text ++ [Byte.semicolon] = (gap ++ w) ++ [b] := by
          rw [heq, List.append_assoc]
        exact (List.append_inj' hsplit rfl).1
      rw [htext, Text.trim, Text.trim, Text.trimStart_append hgap]
    · rw [← hopen, ← List.length_eq_zero_iff]
      have hlength := congrArg List.length heq
      simp only [List.length_append, List.length_cons, List.length_nil] at hlength hi
      have hsource : (v.source slot name).length = i + (w.length + u.length + 1) := by
        simp only [source, List.length_append, List.length_cons, List.length_nil]
        omega
      rw [hsource]
      constructor
      · split <;> intro h <;> omega
      · intro hu
        obtain rfl := List.length_eq_zero_iff.1 hu
        have hlast := congrArg List.getLast? heq
        obtain rfl : Byte.semicolon = b := by simpa [← List.append_assoc] using hlast
        rw [if_pos rfl, List.length_nil]
        omega
  · refine (hfirst c.1 ?_).1
    cases w with
    | nil =>
      obtain rfl : (b, false) = c := by simpa using hc
      rfl
    | cons d w =>
      obtain rfl : (d, true) = c := by simpa using hc
      rfl

/-- A value of plain text and strings is read as a whole, up to the semicolon behind it, exactly if
the strings that it does not begin with hold no semicolon and no closing brace without its opening
one. -/
theorem declaration?_eq_iff (hname : NameFits slot.sigil (slot == .style) name) (v : ScalarText)
    (ahead : Text) :
    (MaskedText.ofText .declarations (v.source slot name ++ ahead)).declaration? 0 = .ok (some
        (⟨name, slot.content (Scalar.ofText v.text.trim), ⟨0, (v.source slot name).length⟩⟩,
          (v.source slot name).length)) ↔
      Byte.semicolon ∉ v.laterInsides ∧ ∀ p, p <+: v.laterInsides →
        p.count Byte.rbrace ≤ p.count Byte.lbrace := by
  obtain ⟨value, stop, hread, hvalue, hstop⟩ := v.exists_declaration? hname ahead
  have hopen : Mask.StaysOpen 0 v.laterInsides ↔ Byte.semicolon ∉ v.laterInsides ∧
      ∀ p, p <+: v.laterInsides → p.count Byte.rbrace ≤ p.count Byte.lbrace := by
    simp [Mask.StaysOpen, Text.Nests]
  rw [← hopen, hread]
  constructor
  · intro heq
    have hpair := Option.some.inj (Except.ok.inj heq)
    exact hstop.1 (Prod.mk.inj hpair).2
  · intro h
    rw [hvalue h, hstop.2 h]

/-- The value `a '}' b`, whose string closes a brace that is not open. -/
def sampleInner : ScalarText where
  parts := [.plain "a " (by decide), .string ⟨Byte.singleQuote, [Byte.rbrace], rfl, by decide⟩,
    .plain " b" (by decide)]
  opens := by decide

theorem nameFits_sampleInner :
    NameFits (StringSlot.var .pub).sigil (StringSlot.var .pub == .style) "name" :=
  ⟨by decide, fun _ => ⟨by decide, by decide⟩⟩

theorem declaration?_eq_iff_sampleInner :
    NameFits (StringSlot.var .pub).sigil (StringSlot.var .pub == .style) "name" ∧
    (MaskedText.ofText .declarations (sampleInner.source (.var .pub) "name" ++ [])).declaration? 0 ≠
      .ok (some (⟨"name", (StringSlot.var .pub).content (Scalar.ofText sampleInner.text.trim),
        ⟨0, (sampleInner.source (.var .pub) "name").length⟩⟩,
          (sampleInner.source (.var .pub) "name").length)) := by
  refine ⟨nameFits_sampleInner, fun h => ?_⟩
  have hbraces := ((declaration?_eq_iff nameFits_sampleInner sampleInner []).1 h).2 _
    (List.prefix_refl _)
  exact absurd hbraces (by decide)

end ScalarText

end PageLang
