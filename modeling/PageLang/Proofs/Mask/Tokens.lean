import PageLang.Proofs.Mask.Reading

/-!
# The mask of nested code

Code is plain bytes, strings, comments and templates. The text of a template holds interpolations,
each with code again, to any depth. The mask machine tells them apart: all of a string or a comment
is masked, of a template the text and the marks around the interpolations, and every plain byte is
live however deep it stands.

* `Mask.Code`, `Mask.Template`: code as a tree, with its bytes and their bits.
* `Mask.Code.Fits`: what the tokens may hold, so that no token ends before its last byte.
* `Mask.Code.reads`, `Mask.Template.reads`: the machine reads a tree as its cells.
* `Mask.ofText_code`: the mask of a text.
-/

namespace PageLang.Mask

open Cell

/-! ## Trees of code -/

/-- A part of a string: a pair of a backslash and any byte, or a byte by itself. A pair with a
character of several bytes is a pair with its first byte, and the others by themselves. -/
inductive QuotedPart where
  | escape (b : UInt8)
  | byte (b : UInt8)

/-- The bytes of a part of a string. -/
def QuotedPart.text : QuotedPart → Text
  | escape b => [Byte.backslash, b]
  | byte b => [b]

mutual

/-- A sequence of tokens. -/
inductive Code where
  | nil
  /-- A byte that belongs to no other token. -/
  | plain (b : UInt8) (rest : Code)
  | quoted (quote : UInt8) (parts : List QuotedPart) (rest : Code)
  /-- A comment up to the end of its line, with what stands behind its two slashes. -/
  | lineComment (t : Text) (rest : Code)
  /-- A comment, with what stands between its marks. -/
  | blockComment (t : Text) (rest : Code)
  | template (content : Template) (rest : Code)

/-- What stands in a template behind its first backquote. -/
inductive Template where
  /-- The last backquote. -/
  | nil
  | escape (b : UInt8) (rest : Template)
  | byte (b : UInt8) (rest : Template)
  /-- Code between `${` and `}`. -/
  | interpolation (code : Code) (rest : Template)

end

mutual

/-- The bytes of code, each with its bit. -/
def Code.cells : Code → List Cell
  | .nil => []
  | .plain b rest => live [b] ++ rest.cells
  | .quoted quote parts rest =>
    masked ([quote] ++ parts.flatMap QuotedPart.text ++ [quote]) ++ rest.cells
  | .lineComment t rest => masked ([Byte.slash, Byte.slash] ++ t) ++ rest.cells
  | .blockComment t rest =>
    masked ([Byte.slash, Byte.star] ++ t ++ [Byte.star, Byte.slash]) ++ rest.cells
  | .template content rest => masked [Byte.backquote] ++ content.cells ++ rest.cells

/-- The bytes of the rest of a template, each with its bit. -/
def Template.cells : Template → List Cell
  | .nil => masked [Byte.backquote]
  | .escape b rest => masked [Byte.backslash, b] ++ rest.cells
  | .byte b rest => masked [b] ++ rest.cells
  | .interpolation code rest =>
    masked [Byte.dollar, Byte.lbrace] ++ code.cells ++ masked [Byte.rbrace] ++ rest.cells

end

/-- The text of code. -/
def Code.text (c : Code) : Text := bytes c.cells

/-- The text of the rest of a template. -/
def Template.text (t : Template) : Text := bytes t.cells

/-- The braces open behind code, plain ones only, unless it closes one that it does not open. -/
def Code.depth? (depth : Nat) : Code → Option Nat
  | .nil => some depth
  | .plain b rest =>
    if b = Byte.lbrace then rest.depth? (depth + 1)
    else if b = Byte.rbrace then
      match depth with
      | 0 => none
      | depth + 1 => rest.depth? depth
    else rest.depth? depth
  | .quoted _ _ rest | .lineComment _ rest | .blockComment _ rest | .template _ rest =>
    rest.depth? depth

/-- The plain braces of code are balanced. -/
def Code.Balanced (c : Code) : Prop := c.depth? 0 = some 0

/-- A part of a string in these quotes. -/
def QuotedPart.Fits (quote : UInt8) : QuotedPart → Prop
  | escape _ => True
  | byte b => b ≠ quote ∧ b ≠ Byte.backslash ∧ b ≠ Byte.newline

mutual

/-- What the tokens may hold if `ahead` follows them. -/
def Code.Fits (ahead : Text) : Code → Prop
  | .nil => True
  | .plain b rest => Byte.isQuote b = false ∧ b ≠ Byte.slash ∧ rest.Fits ahead
  | .quoted quote parts rest =>
    (quote = Byte.singleQuote ∨ quote = Byte.doubleQuote) ∧ (∀ p ∈ parts, p.Fits quote) ∧
      rest.Fits ahead
  -- a newline or the end of the whole text ends the comment
  | .lineComment t rest =>
    Byte.newline ∉ t ∧ (∀ b ∈ (rest.text ++ ahead).head?, b = Byte.newline) ∧ rest.Fits ahead
  | .blockComment t rest => Text.hasInfix t "*/" = false ∧ rest.Fits ahead
  | .template content rest => content.Fits ∧ rest.Fits ahead

/-- What a template may hold. -/
def Template.Fits : Template → Prop
  | .nil => True
  | .escape _ rest => rest.Fits
  | .byte b rest =>
    b ≠ Byte.backquote ∧ b ≠ Byte.backslash ∧
      (b = Byte.dollar → rest.text.head? ≠ some Byte.lbrace) ∧ rest.Fits
  | .interpolation code rest => code.Fits [Byte.rbrace] ∧ code.Balanced ∧ rest.Fits

end

/-! ## Reading a tree -/

namespace State

section
variable {mode : Mode} {depth : Nat} {outer : List Frame}

theorem reads_quotedParts {quote : UInt8}
    (hquote : quote = Byte.singleQuote ∨ quote = Byte.doubleQuote)
    {parts : List QuotedPart} (h : ∀ p ∈ parts, p.Fits quote) (before ahead : Text) :
    Reads ⟨.quoted quote false, mode, depth, outer⟩ before
      (masked (parts.flatMap QuotedPart.text ++ [quote])) ahead ⟨.live, mode, depth, outer⟩ := by
  induction parts generalizing before with
  | nil =>
    refine .cons ?_ (.nil ..)
    rcases hquote with rfl | rfl <;> rfl
  | cons p parts ih =>
    obtain ⟨hp, hparts⟩ := List.forall_mem_cons.1 h
    cases p with
    | escape b =>
      exact .cons (r := ⟨.quoted quote true, mode, depth, outer⟩) rfl (.cons rfl (ih hparts _))
    | byte b =>
      obtain ⟨hb, hbackslash, hnewline⟩ := hp
      refine .cons ?_ (ih hparts _)
      simp [State.read, readQuoted, hb, hbackslash, hnewline]

/-- A string. -/
theorem reads_quoted {quote : UInt8} (hquote : quote = Byte.singleQuote ∨ quote = Byte.doubleQuote)
    {parts : List QuotedPart} (h : ∀ p ∈ parts, p.Fits quote) (before ahead : Text) :
    Reads ⟨.live, mode, depth, outer⟩ before
      (masked ([quote] ++ parts.flatMap QuotedPart.text ++ [quote])) ahead
      ⟨.live, mode, depth, outer⟩ := by
  refine .cons (r := ⟨.quoted quote false, mode, depth, outer⟩) ?_ (reads_quotedParts hquote h _ _)
  simp [State.read, readLive, hquote, into]

/-- A comment up to the end of its line, without the newline. -/
theorem reads_commentLine {t : Text} (ht : Byte.newline ∉ t) (before ahead : Text) :
    Reads ⟨.live, mode, depth, outer⟩ before (masked ([Byte.slash, Byte.slash] ++ t)) ahead
      ⟨.lineComment, mode, depth, outer⟩ := by
  have htail (before : Text) : Reads ⟨.lineComment, mode, depth, outer⟩ before (masked t) ahead
      ⟨.lineComment, mode, depth, outer⟩ := by
    induction t generalizing before with
    | nil => exact .nil ..
    | cons b t ih =>
      rw [List.mem_cons, not_or] at ht
      refine .cons ?_ (ih ht.2 _)
      simp [State.read, Ne.symm ht.1]
  exact .cons rfl (.cons rfl (htail _))

end

/-- Between two tokens: in live text, or at the end of the line of a comment. -/
structure Rests (s : State) (rest : Text) : Prop where
  mode : s.mode = .code
  region : s.region = .live ∨
    s.region = .lineComment ∧ ∀ b ∈ rest.head?, b = Byte.newline

theorem Rests.live {s : State} {b : UInt8} {rest : Text} (h : s.Rests (b :: rest))
    (hb : b ≠ Byte.newline) : s.region = .live :=
  h.region.resolve_right fun hcomment => hb (hcomment.2 b rfl)

/-- A plain byte is live. It opens or closes a brace, or changes nothing. -/
theorem Rests.read_plain {s : State} {b : UInt8} {rest : Text} (h : s.Rests (b :: rest))
    (hquote : Byte.isQuote b = false) (hslash : b ≠ Byte.slash)
    (houter : s.outer = [] ∨ (b = Byte.rbrace → 0 < s.depth)) (before : Text) :
    s.read before b rest = (false, ⟨.live, .code,
      if b = Byte.lbrace then s.depth + 1 else if b = Byte.rbrace then s.depth - 1 else s.depth,
      s.outer⟩) := by
  obtain ⟨region, mode, depth, outer⟩ := s
  obtain rfl : mode = .code := h.mode
  by_cases hnewline : b = Byte.newline
  · subst hnewline
    rcases h.region with rfl | ⟨rfl, -⟩ <;> rfl
  obtain rfl : region = .live := h.live hnewline
  simp only [Byte.isQuote, Bool.or_eq_false_iff, beq_eq_false_iff_ne] at hquote
  obtain ⟨⟨hsingle, hdouble⟩, hback⟩ := hquote
  by_cases hl : b = Byte.lbrace
  · subst hl
    rfl
  by_cases hr : b = Byte.rbrace
  · subst hr
    cases depth with
    | succ depth => rfl
    | zero =>
      rcases houter with houter | hdepth
      · cases outer with
        | nil => rfl
        | cons => cases houter
      · exact absurd (hdepth rfl) (Nat.lt_irrefl 0)
  · simp [State.read, readLive, hsingle, hdouble, hback, hslash, hl, hr, into]

end State

open State

/-- Code is read between two tokens, with braces open that it does not close, or outside of all
contexts. -/
structure Code.ReadsTo (c : Code) (s : State) (before ahead : Text) (s' : State) : Prop where
  reads : Reads s before c.cells ahead s'
  rests : s'.Rests ahead
  outer : s'.outer = s.outer
  depth : ∀ depth, c.depth? s.depth = some depth → s'.depth = depth

/-- The first token of code is read, and then the rest. -/
theorem Code.readsTo_token {c rest : Code} {w : List Cell} {s s₁ : State} {before ahead : Text}
    (hcells : c.cells = w ++ rest.cells)
    (hdepth : ∀ depth, c.depth? s.depth = some depth → rest.depth? s₁.depth = some depth)
    (houter : s.outer = [] ∨ (c.depth? s.depth).isSome) (houter₁ : s₁.outer = s.outer)
    (hread : Reads s before w (rest.text ++ ahead) s₁)
    (hrest : s₁.outer = [] ∨ (rest.depth? s₁.depth).isSome →
      ∃ s', rest.ReadsTo s₁ ((bytes w).reverse ++ before) ahead s') :
    ∃ s', c.ReadsTo s before ahead s' := by
  have houter' : s₁.outer = [] ∨ (rest.depth? s₁.depth).isSome := by
    rw [houter₁]
    refine houter.imp_right fun hsome => ?_
    obtain ⟨depth, hc⟩ := Option.isSome_iff_exists.1 hsome
    rw [hdepth depth hc]
    rfl
  obtain ⟨s', h⟩ := hrest houter'
  refine ⟨s', ?_, h.rests, h.outer.trans houter₁, fun depth hc => h.depth depth (hdepth depth hc)⟩
  rw [hcells]
  exact hread.append h.reads

/-- Behind a token the machine is in live text again, with the same braces open. -/
theorem State.rests_live (depth : Nat) (outer : List Frame) (rest : Text) :
    Rests ⟨.live, .code, depth, outer⟩ rest := ⟨rfl, .inl rfl⟩

theorem Template.text_ne_nil (t : Template) : t.text ≠ [] := by
  cases t <;> rw [Template.text, Template.cells] <;> simp

mutual

/-- The machine reads code as its cells. -/
theorem Code.reads (c : Code) {ahead ahead' : Text} (h : c.Fits ahead)
    (hahead : ahead'.head? = ahead.head?) {s : State} (hs : s.Rests (c.text ++ ahead'))
    (houter : s.outer = [] ∨ (c.depth? s.depth).isSome) (before : Text) :
    ∃ s', c.ReadsTo s before ahead' s' := by
  -- in front of any token but a plain byte the text is live
  have hlive {b : UInt8} {rest : Text} (hc : c.text ++ ahead' = b :: rest)
      (hb : b ≠ Byte.newline) : s = ⟨.live, .code, s.depth, s.outer⟩ := by
    rw [hc] at hs
    obtain ⟨region, mode, depth, outer⟩ := s
    obtain rfl : mode = .code := hs.mode
    obtain rfl : region = .live := hs.live hb
    rfl
  cases c with
  | nil =>
    refine ⟨s, .nil .., hs, rfl, fun depth hc => ?_⟩
    rw [Code.depth?] at hc
    exact Option.some.inj hc
  | plain b rest =>
    rw [Code.Fits] at h
    obtain ⟨hquote, hslash, hrest⟩ := h
    have htext : (Code.plain b rest).text ++ ahead' = b :: (rest.text ++ ahead') := by
      rw [Code.text, Code.cells]
      rfl
    rw [htext] at hs
    have hopen : s.outer = [] ∨ (b = Byte.rbrace → 0 < s.depth) := by
      refine houter.imp_right fun hsome hb => Nat.pos_of_ne_zero fun hzero => ?_
      rw [hb, hzero] at hsome
      cases hsome
    have hread : Reads s before (live [b]) (rest.text ++ ahead') ⟨.live, .code,
        if b = Byte.lbrace then s.depth + 1 else if b = Byte.rbrace then s.depth - 1 else s.depth,
        s.outer⟩ := .cons (hs.read_plain hquote hslash hopen before) (.nil ..)
    refine Code.readsTo_token (by rw [Code.cells]) (fun depth hc => ?_) houter (by rfl) hread
      fun houter => rest.reads hrest hahead (rests_live _ _ _) houter _
    unfold Code.depth? at hc
    dsimp only at hc ⊢
    split at hc
    · next hl => rwa [if_pos hl]
    · next hl =>
      rw [if_neg hl]
      split at hc
      · next hr =>
        rw [if_pos hr]
        split at hc
        · cases hc
        · next n hn => rwa [hn, Nat.succ_sub_one]
      · next hr => rwa [if_neg hr]
  | quoted quote parts rest =>
    rw [Code.Fits] at h
    obtain ⟨hquote, hparts, hrest⟩ := h
    have hstate : s = ⟨.live, .code, s.depth, s.outer⟩ :=
      hlive (by rw [Code.text, Code.cells]; rfl) (by rcases hquote with rfl | rfl <;> decide)
    rw [hstate] at houter ⊢
    exact Code.readsTo_token (by rw [Code.cells]) (fun depth hc => by rwa [Code.depth?] at hc)
      houter rfl (reads_quoted hquote hparts before _) fun houter =>
        rest.reads hrest hahead (rests_live _ _ _) houter _
  | lineComment t rest =>
    rw [Code.Fits] at h
    obtain ⟨ht, hend, hrest⟩ := h
    have hstate : s = ⟨.live, .code, s.depth, s.outer⟩ :=
      hlive (by rw [Code.text, Code.cells]; rfl) (by decide)
    rw [hstate] at houter ⊢
    have hnewline : ∀ b ∈ (rest.text ++ ahead').head?, b = Byte.newline := by
      rwa [List.head?_append, hahead, ← List.head?_append]
    have hrests : Rests ⟨.lineComment, .code, s.depth, s.outer⟩ (rest.text ++ ahead') :=
      ⟨rfl, .inr ⟨rfl, hnewline⟩⟩
    exact Code.readsTo_token (by rw [Code.cells]) (fun depth hc => by rwa [Code.depth?] at hc)
      houter (by rfl) (reads_commentLine ht before _) fun houter =>
        rest.reads hrest hahead hrests houter _
  | blockComment t rest =>
    rw [Code.Fits] at h
    obtain ⟨ht, hrest⟩ := h
    have hstate : s = ⟨.live, .code, s.depth, s.outer⟩ :=
      hlive (by rw [Code.text, Code.cells]; rfl) (by decide)
    rw [hstate] at houter ⊢
    exact Code.readsTo_token (by rw [Code.cells]) (fun depth hc => by rwa [Code.depth?] at hc)
      houter rfl (reads_blockComment ht before _) fun houter =>
        rest.reads hrest hahead (rests_live _ _ _) houter _
  | template content rest =>
    rw [Code.Fits] at h
    obtain ⟨hcontent, hrest⟩ := h
    have hstate : s = ⟨.live, .code, s.depth, s.outer⟩ :=
      hlive (by rw [Code.text, Code.cells]; rfl) (by decide)
    rw [hstate] at houter ⊢
    have hopen (ahead : Text) : Reads ⟨.live, .code, s.depth, s.outer⟩ before
        (masked [Byte.backquote]) ahead ⟨.template false, .code, s.depth, s.outer⟩ :=
      .cons rfl (.nil ..)
    exact Code.readsTo_token (by rw [Code.cells]) (fun depth hc => by rwa [Code.depth?] at hc)
      houter rfl ((hopen _).append (content.reads hcontent _ _ _ _)) fun houter =>
        rest.reads hrest hahead (rests_live _ _ _) houter _

/-- The machine reads the rest of a template as its cells. -/
theorem Template.reads (t : Template) (h : t.Fits) (depth : Nat) (outer : List Frame)
    (before ahead : Text) :
    Reads ⟨.template false, .code, depth, outer⟩ before t.cells ahead
      ⟨.live, .code, depth, outer⟩ := by
  cases t with
  | nil => exact .cons rfl (.nil ..)
  | escape b rest =>
    rw [Template.Fits] at h
    rw [Template.cells]
    exact .cons (r := ⟨.template true, .code, depth, outer⟩) rfl
      (.cons rfl (rest.reads h depth outer _ ahead))
  | byte b rest =>
    rw [Template.Fits] at h
    obtain ⟨hback, hbackslash, hdollar, hrest⟩ := h
    rw [Template.cells]
    refine .cons ?_ (rest.reads hrest depth outer _ ahead)
    have hopens : ¬ (b = Byte.dollar ∧ (rest.text ++ ahead).head? = some Byte.lbrace) := by
      rintro ⟨hb, hhead⟩
      refine hdollar hb ?_
      obtain ⟨c, more, htext⟩ := List.exists_cons_of_ne_nil rest.text_ne_nil
      rw [htext] at hhead ⊢
      exact hhead
    simp only [State.read, readTemplate, if_neg hback, if_neg hbackslash]
    exact if_neg hopens
  | interpolation code rest =>
    rw [Template.Fits] at h
    obtain ⟨hcode, hbalanced, hrest⟩ := h
    rw [Template.cells]
    have hopen (ahead : Text) : Reads ⟨.template false, .code, depth, outer⟩ before
        (masked [Byte.dollar, Byte.lbrace]) ahead
        ⟨.live, .code, 0, ⟨.template, .code, depth⟩ :: outer⟩ :=
      .cons (r := ⟨.opening, .code, depth, outer⟩) rfl (.cons rfl (.nil ..))
    have hsome : (code.depth? 0).isSome := by
      rw [hbalanced]
      rfl
    have hhead : (Byte.rbrace :: (rest.text ++ ahead)).head? = [Byte.rbrace].head? := rfl
    obtain ⟨s', hreads⟩ :=
      code.reads hcode hhead (rests_live 0 (⟨.template, .code, depth⟩ :: outer) _)
      (.inr hsome) ([Byte.lbrace, Byte.dollar] ++ before)
    -- the code ends in live text, with the braces closed that it opens
    obtain rfl : s' = ⟨.live, .code, 0, ⟨.template, .code, depth⟩ :: outer⟩ := by
      obtain ⟨region, mode, depth', outer'⟩ := s'
      obtain rfl : mode = .code := hreads.rests.mode
      obtain rfl : region = .live := hreads.rests.live (by decide)
      obtain rfl : outer' = ⟨.template, .code, depth⟩ :: outer := hreads.outer
      obtain rfl : depth' = 0 := hreads.depth 0 hbalanced
      rfl
    have hclose (before ahead : Text) : Reads
        ⟨.live, .code, 0, ⟨.template, .code, depth⟩ :: outer⟩ before (masked [Byte.rbrace]) ahead
        ⟨.template false, .code, depth, outer⟩ := .cons rfl (.nil ..)
    refine .append (.append (.append (hopen _) ?_) (hclose _ _)) (rest.reads hrest depth outer _ _)
    exact hreads.reads

end

/-- The mask of code: strings, comments, the text of templates and the marks around interpolations
are masked, and every plain byte is live, at whatever depth. -/
theorem ofText_code (c : Code) (h : c.Fits []) : ofText .code c.text = Cell.bits c.cells := by
  obtain ⟨s', hreads⟩ := c.reads h rfl (s := .start .code) ⟨rfl, .inl rfl⟩ (.inl rfl) []
  exact ofText_of_reads hreads.reads

/-- A block with a template, a string with a brace in its interpolation, and a comment behind. -/
theorem ofText_code_sampleBlock :
    ofText .code "\x7b`$$\x7bb+'\x7d'\x7d`\x7d//\x7d" =
      [false, true, true, true, true, false, false, true, true, true, true, true, false,
        true, true, true] :=
  ofText_code
    (.plain Byte.lbrace
      (.template
        (.byte Byte.dollar (.interpolation
          (.plain 98 (.plain 43 (.quoted Byte.singleQuote [.byte Byte.rbrace] .nil))) .nil))
        (.plain Byte.rbrace (.lineComment [Byte.rbrace] .nil))))
    (by simp [Code.Fits, Template.Fits, QuotedPart.Fits, Code.Balanced, Code.depth?,
      Template.text, Template.cells, Code.text, Code.cells, Byte.isQuote]; decide)

end PageLang.Mask
