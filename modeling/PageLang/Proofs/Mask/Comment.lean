import PageLang.Proofs.Mask.Insertion
import PageLang.Proofs.Mask.Regions
import PageLang.Proofs.Mask.Tokens
import PageLang.Proofs.Script.Recogniser

/-!
# A comment beside blank space

The mask machine passes over a comment in live text and stands in live text again, as if blank space
stood there. What stands around the comment is read alike in both texts, unless the machine looks
over it: behind the comment a colon looks back for the end of a statement and a slash for what a
regular expression may follow, and in front of it a parenthesis looks ahead for the one that closes
it. These look-backs see the comment itself.

* `Mask.IsComment`, `Mask.blanked`: a comment, and the blank space in its place.
* `Mask.Unseen`: nothing looks over the comment.
* `Mask.IsComment.looksBack_colon_iff`: which comments the colon of a state does not see.
* `Mask.Unseen.ofText`: the two masks.
-/

namespace PageLang.Mask

open Cell

/-- A comment as it is written, if `ahead` stands behind it. -/
inductive IsComment : (c ahead : Text) → Prop
  | line {t ahead : Text} : Byte.newline ∉ t → (∀ b ∈ ahead.head?, b = Byte.newline) →
    IsComment ([Byte.slash, Byte.slash] ++ t) ahead
  | block {t ahead : Text} : Text.hasInfix t "*/" = false →
    IsComment ([Byte.slash, Byte.star] ++ t ++ [Byte.star, Byte.slash]) ahead

/-- Blank space in the place of a comment, with its newlines. -/
def blanked (c : Text) : Text :=
  c.map (fun b => if b = Byte.newline then Byte.newline else Byte.space)

theorem length_blanked (c : Text) : (blanked c).length = c.length := List.length_map _

theorem isSpace_of_mem_blanked {c : Text} {b : UInt8} (h : b ∈ blanked c) :
    Byte.isSpace b = true := by
  obtain ⟨d, -, rfl⟩ := List.mem_map.1 h
  split <;> rfl

theorem mem_of_head?_append {t u : Text} {b : UInt8} (ht : t ≠ []) (hb : b ∈ (t ++ u).head?) :
    b ∈ t := by
  cases t with
  | nil => exact absurd rfl ht
  | cons c t =>
    cases hb
    exact List.mem_cons_self ..

theorem blanked_ne_nil {c : Text} (hc : c ≠ []) : blanked c ≠ [] :=
  fun hnil => hc (List.map_eq_nil_iff.1 hnil)

/-! ## In front of the comment -/

namespace State

/-- What stands behind a byte matters only for what may open there, and behind a parenthesis for
the one that closes it. -/
theorem read_congr {s : State} {before rest rest' : Text} {b : UInt8} (hrest : Alike rest rest')
    (hlist : s.region = .afterColon → b = Byte.lparen →
      closesParens 1 rest' = closesParens 1 rest) :
    s.read before b rest' = s.read before b rest := by
  obtain ⟨region, mode, depth, outer⟩ := s
  have hslash := hrest Byte.slash (by decide)
  have hstar := hrest Byte.star (by decide)
  have hlbrace := hrest Byte.lbrace (by decide)
  cases region with
  | live => simp only [State.read, readLive, hslash, hstar]
  | template escaped => cases escaped <;> simp only [State.read, readTemplate, hlbrace]
  | quoted quote escaped => cases escaped <;> rfl
  | regex inClass escaped => cases escaped <;> rfl
  | valueQuoted quote escaped => cases escaped <;> rfl
  | value depth escaped =>
    cases escaped <;> simp only [State.read, readValue, readLive, hslash, hstar]
  | afterParameters => simp only [State.read, readAfterParameters, readLive, hslash, hstar]
  | afterColon =>
    by_cases hb : b = Byte.lparen
    · subst hb
      simp only [State.read, readAfterColon, hlist rfl rfl]
      rfl
    · simp only [State.read, readAfterColon, readValue, readLive, hslash, hstar, if_neg hb]
  | opening | lineComment | commentOpening | blockComment | parameters => rfl

/-- A byte behind which the text is live does not begin a comment with the slash or the star that
follows, so it is read alike in front of a blank. -/
theorem read_congr_of_live {s : State} {before rest rest' : Text} {b : UInt8}
    (hrest : rest.head? = some Byte.slash ∨ rest.head? = some Byte.star)
    (hrest' : ∀ c ∈ rest'.head?, Byte.isSpace c = true)
    (hlist : s.region = .afterColon → b = Byte.lparen → closesParens 1 rest' = closesParens 1 rest)
    (hlive : (s.read before b rest).2.region = .live) :
    s.read before b rest' = s.read before b rest := by
  have hlbrace : rest'.head? ≠ some Byte.lbrace := fun h => absurd (hrest' _ h) (by decide)
  have hlbrace' : rest.head? ≠ some Byte.lbrace := by
    rcases hrest with hrest | hrest <;>
    · rw [hrest]
      decide
  by_cases hb : b = Byte.slash
  · subst hb
    obtain ⟨region, mode, depth, outer⟩ := s
    -- a slash in live text would open a comment with the next byte
    have hcomment (s : State) : (s.readLive before Byte.slash rest).2.region ≠ .live := by
      unfold readLive
      rw [if_neg (by decide), if_neg (by decide)]
      rcases hrest with hrest | hrest
      · rw [if_pos ⟨rfl, hrest⟩]
        exact Region.noConfusion
      · rw [if_neg (by rw [hrest]; decide), if_pos ⟨rfl, hrest⟩]
        exact Region.noConfusion
    cases region with
    | live => exact absurd hlive (hcomment _)
    | afterParameters => exact absurd hlive (hcomment _)
    | afterColon => cases hlive
    | value depth escaped => cases escaped <;> cases hlive
    | template escaped => cases escaped <;> rfl
    | quoted quote escaped => cases escaped <;> rfl
    | regex inClass escaped => cases escaped <;> rfl
    | valueQuoted quote escaped => cases escaped <;> rfl
    | opening | lineComment | commentOpening | blockComment | parameters => rfl
  · obtain ⟨region, mode, depth, outer⟩ := s
    cases region with
    | live => simp only [State.read, readLive, hb, false_and, if_false]
    | template escaped =>
      cases escaped <;> simp only [State.read, readTemplate, hlbrace, hlbrace', and_false, if_false]
    | quoted quote escaped => cases escaped <;> rfl
    | regex inClass escaped => cases escaped <;> rfl
    | valueQuoted quote escaped => cases escaped <;> rfl
    | value depth escaped =>
      cases escaped <;> simp only [State.read, readValue, readLive, hb, false_and, if_false]
    | afterParameters =>
      simp only [State.read, readAfterParameters, readLive, hb, false_and, if_false]
    | afterColon =>
      by_cases hlparen : b = Byte.lparen
      · subst hlparen
        simp only [State.read, readAfterColon, hlist rfl rfl]
        rfl
      · simp only [State.read, readAfterColon, readValue, readLive, hb, hlparen, false_and,
          if_false]
    | opening | lineComment | commentOpening | blockComment | parameters => rfl

end State

/-- Every parenthesis of `t` that stands behind a colon is closed alike in front of `ahead` and of
`ahead'`. The text is read from `s`, with `before` behind it (in reverse). -/
def ListsAlike (s : State) (before t ahead ahead' : Text) : Prop :=
  ∀ k, (s.after before k (t ++ ahead)).region = .afterColon → t[k]? = some Byte.lparen →
    closesParens 1 (t.drop (k + 1) ++ ahead') = closesParens 1 (t.drop (k + 1) ++ ahead)

theorem closesParens_blanked {c : Text} (hl : Byte.lparen ∉ c) (hr : Byte.rparen ∉ c)
    (depth : Nat) (t post : Text) :
    closesParens depth (t ++ (blanked c ++ post)) = closesParens depth (t ++ (c ++ post)) := by
  have hskip (b : UInt8) (hb : b ≠ Byte.lparen) (hb' : b ≠ Byte.rparen) (depth : Nat) (u : Text) :
      closesParens depth (b :: u) = closesParens depth u := by
    rw [closesParens, if_neg hb, if_neg hb']
  induction t generalizing depth with
  | nil =>
    induction c with
    | nil => rfl
    | cons b c ih =>
      rw [List.mem_cons, not_or] at hl hr
      have hblank := isSpace_of_mem_blanked (c := b :: c) (List.mem_cons_self ..)
      have hne {d : UInt8} (hd : Byte.isSpace d = false) :
          (if b = Byte.newline then Byte.newline else Byte.space) ≠ d := by
        rintro rfl
        rw [hblank] at hd
        cases hd
      exact (hskip _ (hne rfl) (hne rfl) ..).trans ((ih hl.2 hr.2).trans
        (hskip b (Ne.symm hl.1) (Ne.symm hr.1) ..).symm)
  | cons b t ih =>
    rw [List.cons_append, List.cons_append, closesParens, closesParens, ih, ih, ih]

/-- A comment without parentheses closes none. -/
theorem ListsAlike.of_notMem {s : State} {before t c post : Text} (hl : Byte.lparen ∉ c)
    (hr : Byte.rparen ∉ c) : ListsAlike s before t (c ++ post) (blanked c ++ post) :=
  fun _ _ _ => closesParens_blanked hl hr 1 _ post

/-- In front of a slash or a star in live text, everything is read as in front of blank space. -/
theorem State.Reads.front {s s₁ : State} {before ahead ahead' : Text} {w : List Cell}
    (h : Reads s before w ahead s₁)
    (hahead : ahead.head? = some Byte.slash ∨ ahead.head? = some Byte.star)
    (hahead' : ∀ c ∈ ahead'.head?, Byte.isSpace c = true) (hlive : s₁.region = .live)
    (hlists : ListsAlike s before (bytes w) ahead ahead') : Reads s before w ahead' s₁ := by
  induction h with
  | nil => exact .nil ..
  | @cons s r s₁ before ahead b m w hread hrest ih =>
    have hlist : s.region = .afterColon → b = Byte.lparen →
        closesParens 1 (bytes w ++ ahead') = closesParens 1 (bytes w ++ ahead) := by
      rintro hregion rfl
      exact hlists 0 (by rw [State.after_zero]; exact hregion) rfl
    refine .cons ?_ (ih hahead hlive fun k hregion => hlists (k + 1) ?_)
    · rw [← hread]
      cases w with
      | nil =>
        cases hrest
        refine State.read_congr_of_live hahead hahead' hlist ?_
        rw [hread]
        exact hlive
      | cons c w => exact State.read_congr (fun _ _ => Iff.rfl) hlist
    · show ((s.read before b (bytes w ++ ahead)).2.after _ k _).region = _
      rw [hread]
      exact hregion

/-! ## Behind the comment -/

theorem startsStatement_space {b : UInt8} (hb : Byte.isSpace b = true) (before : Text) :
    startsStatement (b :: before) = startsStatement before := by
  simp [startsStatement, hb]

theorem regexAllowed_space {b : UInt8} (hb : Byte.isSpace b = true) (before : Text) :
    regexAllowed (b :: before) = regexAllowed before := by
  simp [regexAllowed, hb]

theorem startsStatement_blanks {blanks : Text} (h : ∀ b ∈ blanks, Byte.isSpace b = true)
    (before : Text) : startsStatement (blanks ++ before) = startsStatement before := by
  rw [startsStatement, List.dropWhile_append_of_pos h, startsStatement]

theorem regexAllowed_blanks {blanks : Text} (h : ∀ b ∈ blanks, Byte.isSpace b = true)
    (before : Text) : regexAllowed (blanks ++ before) = regexAllowed before := by
  rw [regexAllowed, List.dropWhile_append_of_pos h, regexAllowed]

theorem startsStatement_append_cons (near far : Text) {b : UInt8} (hb : Byte.isSpace b = false) :
    startsStatement (near ++ b :: far) = startsStatement (near ++ [b]) := by
  unfold startsStatement
  induction near with
  | nil => simp [hb]
  | cons c near ih =>
    cases hc : Byte.isSpace c with
    | true => simpa [hc] using ih
    | false => simp [hc]

/-- The first byte behind blank space finds the same behind it, if it looks there: a colon whether
a statement starts, and a slash that opens no comment whether a regular expression may follow. -/
def LooksBack (before before' rest : Text) : Prop :=
  ∀ b more, rest.dropWhile Byte.isSpace = b :: more →
    (b = Byte.colon → startsStatement before' = startsStatement before) ∧
    (b = Byte.slash → more.head? ≠ some Byte.slash → more.head? ≠ some Byte.star →
      regexAllowed before' = regexAllowed before)

/-- Only a colon and a slash look back. -/
theorem LooksBack.of_head? {before before' rest : Text}
    (h : ∀ b ∈ (rest.dropWhile Byte.isSpace).head?, b ≠ Byte.colon ∧ b ≠ Byte.slash) :
    LooksBack before before' rest := by
  intro b more hink
  obtain ⟨hcolon, hslash⟩ := h b (by rw [hink]; rfl)
  exact ⟨fun hb => absurd hb hcolon, fun hb => absurd hb hslash⟩

namespace State

theorem read_congr_before {s : State} {before before' rest : Text} {b : UInt8}
    (hregex : regexAllowed before' = regexAllowed before)
    (hstart : startsStatement before' = startsStatement before) :
    s.read before' b rest = s.read before b rest := by
  obtain ⟨region, mode, depth, outer⟩ := s
  cases region <;>
    simp only [State.read, readLive, readValue, readAfterColon, readAfterParameters, hregex, hstart]

theorem readLive_congr_before {s : State} {before before' rest : Text} {b : UInt8}
    (hstart : b = Byte.colon → startsStatement before' = startsStatement before)
    (hregex : b = Byte.slash → rest.head? ≠ some Byte.slash → rest.head? ≠ some Byte.star →
      regexAllowed before' = regexAllowed before) :
    s.readLive before' b rest = s.readLive before b rest := by
  by_cases hcolon : b = Byte.colon
  · subst hcolon
    simp +decide only [readLive, hstart rfl, false_and, true_and, if_false]
  by_cases hslash : b = Byte.slash
  · subst hslash
    unfold readLive
    by_cases hline : rest.head? = some Byte.slash
    · simp only [hline, and_self, if_true]
    by_cases hblock : rest.head? = some Byte.star
    · simp only [hblock, and_self, if_true]
    · rw [hregex rfl hline hblock]
      simp +decide only [false_and]
  · simp only [readLive, hcolon, hslash, false_and, if_false]

namespace Reads

variable {s s₁ : State} {before before' ahead : Text} {w : List Cell}

/-- Nothing looks back farther than to a byte that is no blank. -/
theorem far {near far : Text} {b : UInt8} (far' : Text)
    (h : Reads s (near ++ b :: far) w ahead s₁) (hb : Byte.isSpace b = false)
    (hfar : Byte.isWord b = true → ∀ c ∈ far.head?, Byte.isWord c = false)
    (hfar' : Byte.isWord b = true → ∀ c ∈ far'.head?, Byte.isWord c = false) :
    Reads s (near ++ b :: far') w ahead s₁ := by
  generalize hbefore : near ++ b :: far = before at h
  induction h generalizing near with
  | nil => exact .nil ..
  | @cons s r s₁ before ahead x m w hread _ ih =>
    subst hbefore
    refine .cons ?_ (@ih (x :: near) rfl)
    rw [← hread]
    refine read_congr_before ?_ ?_
    · rw [regexAllowed_append_cons near far hb hfar, regexAllowed_append_cons near far' hb hfar']
    · rw [startsStatement_append_cons near far hb, startsStatement_append_cons near far' hb]

/-- Live text is read alike behind two texts that look alike to its first byte. -/
theorem behind (h : Reads s before w ahead s₁) (hlive : s.region = .live)
    (hlook : LooksBack before before' (bytes w ++ ahead))
    (hword : ∀ c ∈ before.head?, Byte.isWord c = false)
    (hword' : ∀ c ∈ before'.head?, Byte.isWord c = false) : Reads s before' w ahead s₁ := by
  induction h generalizing before' with
  | nil => exact .nil ..
  | @cons s r s₁ before ahead b m w hread hrest ih =>
    cases hb : Byte.isSpace b with
    | true =>
      have hspace := hread
      rw [read_space hlive hb] at hspace
      obtain ⟨rfl, rfl⟩ := Prod.mk.inj hspace
      have hblank : Byte.isWord b = false := Text.not_word_of_isSpace b hb
      refine .cons (read_space hlive hb) (ih rfl ?_ (by simpa) (by simpa))
      intro c more hink
      rw [startsStatement_space hb, startsStatement_space hb, regexAllowed_space hb,
        regexAllowed_space hb]
      refine hlook c more ?_
      rw [← hink]
      simp [hb]
    | false =>
      obtain ⟨hcolon, hslash⟩ := hlook b (bytes w ++ ahead) (by simp [hb])
      refine .cons ?_ (@far _ _ _ _ [] before _ before' hrest hb (fun _ => hword) (fun _ => hword'))
      rw [← hread]
      unfold State.read
      rw [hlive]
      exact readLive_congr_before hcolon hslash

end Reads

end State

/-! ## The two masks -/

/-- A comment that nothing looks over: it stands in live text, every parenthesis behind a colon in
front of it is closed as if blank space stood there, and what follows it looks back alike at the
comment and over it. -/
structure Unseen (mode : Mode) (pre c post : Text) : Prop where
  comment : IsComment c post
  live : ((State.start mode).after [] pre.length (pre ++ c ++ post)).region = .live
  lists : ListsAlike (.start mode) [] pre (c ++ post) (blanked c ++ post)
  look : LooksBack (c.reverse ++ pre.reverse) pre.reverse post

theorem IsComment.head? {c post : Text} (h : IsComment c post) (ahead : Text) :
    (c ++ ahead).head? = some Byte.slash := by
  cases h <;> rfl

theorem IsComment.length_pos {c ahead : Text} (h : IsComment c ahead) : 0 < c.length := by
  cases h <;> exact Nat.succ_pos _

/-- The last byte of a comment is a slash, unless a newline or nothing follows. -/
theorem IsComment.getLast? {c ahead : Text} (h : IsComment c ahead) :
    (∀ b ∈ ahead.head?, b = Byte.newline) ∨ List.getLast? c = some Byte.slash := by
  cases h with
  | line _ hahead => exact .inl hahead
  | block _ =>
    right
    rw [List.getLast?_append]
    rfl

/-- A comment hides what stands in front of it from the colon behind it. -/
theorem IsComment.startsStatement {c post : Text} (h : IsComment c post) (before : Text) :
    Mask.startsStatement (c.reverse ++ before) = Mask.startsStatement c.reverse := by
  obtain ⟨t, rfl⟩ : ∃ t, c = Byte.slash :: t := by cases h <;> exact ⟨_, rfl⟩
  rw [List.reverse_cons, List.append_assoc, List.singleton_append]
  exact startsStatement_append_cons _ _ (by decide)

/-- The colon of a state is read alike behind a comment and behind blank space only if the comment
itself ends as a statement does. -/
theorem IsComment.looksBack_colon_iff {c before post more : Text} (h : IsComment c post)
    (hink : post.dropWhile Byte.isSpace = Byte.colon :: more) :
    LooksBack (c.reverse ++ before) before post ↔
      Mask.startsStatement before = Mask.startsStatement c.reverse := by
  rw [← h.startsStatement before]
  refine ⟨fun hlook => (hlook _ _ hink).1 rfl, fun heq b more' hink' => ?_⟩
  rw [hink] at hink'
  obtain ⟨rfl, rfl⟩ := List.cons.inj hink'
  exact ⟨fun _ => heq, fun hslash => absurd hslash (by decide)⟩

theorem head?_blanked {c post : Text} (h : IsComment c post) :
    ∀ b ∈ (blanked c ++ post).head?, Byte.isSpace b = true := by
  cases h <;> · rintro b ⟨⟩; rfl

/-- Live text behind blank space in the place of a comment. -/
theorem State.reads_blanked {s : State} (hlive : s.region = .live) (c before ahead : Text) :
    Reads s before (Cell.live (blanked c)) ahead s := by
  obtain ⟨region, mode, depth, outer⟩ := s
  obtain rfl : region = .live := hlive
  refine reads_plain (fun b hb => ?_) before ahead
  obtain ⟨d, -, rfl⟩ := List.mem_map.1 hb
  split <;> rfl

/-- Where a text is read alike behind two texts, its bits are the same. -/
theorem State.bits_eq_of_reads {s : State} {before before' t : Text}
    (h : ∀ {w s₁}, bytes w = t → Reads s before w [] s₁ → Reads s before' w [] s₁) :
    s.bits before' t = s.bits before t := by
  obtain ⟨s₁, hreads⟩ := exists_reads s before t
  have hbytes : bytes (t.zip (s.bits before t)) = t := bytes_zip (length_bits ..)
  have hbits := (h hbytes hreads).bits_eq
  rw [hbytes, List.append_nil] at hbits
  rw [hbits, State.bits, List.append_nil]
  exact List.map_snd_zip (Nat.le_of_eq (length_bits ..))

/-- Nothing looks back over a byte that is no blank, but for the word it ends. -/
theorem State.bits_far {s : State} {b : UInt8} {far far' : Text} (t : Text)
    (hb : Byte.isSpace b = false)
    (hfar : Byte.isWord b = true → ∀ c ∈ far.head?, Byte.isWord c = false)
    (hfar' : Byte.isWord b = true → ∀ c ∈ far'.head?, Byte.isWord c = false) :
    s.bits (b :: far') t = s.bits (b :: far) t :=
  State.bits_eq_of_reads fun _ h => @State.Reads.far _ _ _ _ [] far _ far' h hb hfar hfar'

/-- What follows live text is masked alike behind two texts that look alike to its first byte. -/
theorem State.bits_congr_before {s : State} {before before' t : Text} (hlive : s.region = .live)
    (hlook : LooksBack before before' t) (hword : ∀ c ∈ before.head?, Byte.isWord c = false)
    (hword' : ∀ c ∈ before'.head?, Byte.isWord c = false) :
    s.bits before' t = s.bits before t := by
  refine bits_eq_of_reads fun hbytes h => h.behind hlive ?_ hword hword'
  rwa [hbytes, List.append_nil]

theorem LooksBack.blanks {before before' rest blanks : Text} (h : LooksBack before before' rest)
    (hblanks : ∀ b ∈ blanks, Byte.isSpace b = true) :
    LooksBack before (blanks ++ before') rest := by
  intro c more hink
  rw [startsStatement_blanks hblanks, regexAllowed_blanks hblanks]
  exact h c more hink

theorem LooksBack.cons {before before' rest : Text} {b : UInt8} (hb : Byte.isSpace b = true)
    (h : LooksBack before before' (b :: rest)) : LooksBack (b :: before) (b :: before') rest := by
  intro c more hink
  rw [startsStatement_space hb, startsStatement_space hb, regexAllowed_space hb,
    regexAllowed_space hb]
  exact h c more (by rw [← hink, List.dropWhile_cons_of_pos hb])

/-- A comment is masked, and what follows it is read as live text. -/
theorem IsComment.bits_eq {c post : Text} (h : IsComment c post) {s : State}
    (hlive : s.region = .live) (before : Text) :
    s.bits before (c ++ post) =
      Cell.bits (masked c) ++ s.bits (c.reverse ++ before) post := by
  obtain ⟨region, mode, depth, outer⟩ := s
  obtain rfl : region = .live := hlive
  cases h with
  | @block t ahead ht =>
    have hreads : (State.mk .live mode depth outer).bits before _ = _ :=
      (State.reads_blockComment ht before post).bits_eq
    rwa [bytes_masked] at hreads
  | @line t ahead ht hahead =>
    have hreads : (State.mk .live mode depth outer).bits before _ = _ :=
      (State.reads_commentLine ht before post).bits_eq
    rw [bytes_masked] at hreads
    refine hreads.trans (congrArg _ ?_)
    cases post with
    | nil => rfl
    | cons b rest =>
      -- the newline behind the comment is live and leads back to live text
      obtain rfl : b = Byte.newline := hahead b rfl
      rfl

/-- Behind a comment the machine writes the bits that it writes behind blank space. -/
theorem State.bits_behind {s : State} {c before post : Text} (h : IsComment c post)
    (hlive : s.region = .live) (hlook : LooksBack (c.reverse ++ before) before post) :
    ∃ w, s.bits before (c ++ post) = Cell.bits (masked c) ++ w ∧
      s.bits before (blanked c ++ post) = Cell.bits (Cell.live (blanked c)) ++ w := by
  have hblanks : ∀ b ∈ (blanked c).reverse, Byte.isSpace b = true := fun b hb =>
    isSpace_of_mem_blanked (List.mem_reverse.1 hb)
  have hlook' := hlook.blanks hblanks
  have hne : (blanked c).reverse ≠ [] :=
    List.reverse_ne_nil_iff.2 (blanked_ne_nil (List.ne_nil_of_length_pos h.length_pos))
  have hword : ∀ b ∈ ((blanked c).reverse ++ before).head?, Byte.isWord b = false := fun b hb =>
    Text.not_word_of_isSpace b (hblanks b (mem_of_head?_append hne hb))
  refine ⟨_, h.bits_eq hlive before, ?_⟩
  have hspace := (reads_blanked hlive c before post).bits_eq
  rw [bytes_live] at hspace
  refine hspace.trans (congrArg _ ?_)
  rcases h.getLast? with hline | hblock
  · cases post with
    | nil => rfl
    | cons b rest =>
      -- the newline behind the comment is live in both texts
      obtain rfl : b = Byte.newline := hline b rfl
      rw [State.bits, State.bits, read_space hlive rfl, read_space hlive rfl]
      exact congrArg (false :: ·) (bits_congr_before rfl (hlook'.cons rfl)
        (fun c hc => by cases hc; rfl) (fun c hc => by cases hc; rfl))
  · refine bits_congr_before hlive hlook' (fun b hb => ?_) hword
    rw [List.head?_append, List.head?_reverse, hblock] at hb
    cases hb
    rfl

/-- A comment that nothing looks over is masked. Blank space in its place is live, and all that
stands around it has the same bits. -/
theorem Unseen.ofText {mode : Mode} {pre c post : Text} (h : Unseen mode pre c post) :
    ∃ w w', w.length = pre.length ∧
      ofText mode (pre ++ c ++ post) = w ++ Cell.bits (masked c) ++ w' ∧
      ofText mode (pre ++ blanked c ++ post) = w ++ Cell.bits (Cell.live (blanked c)) ++ w' := by
  obtain ⟨hcomment, hlive, hlists, hlook⟩ := h
  rw [List.append_assoc] at hlive
  obtain ⟨w, rfl, hfront⟩ := State.exists_reads_after (.start mode) [] pre (c ++ post)
  have hfront' := hfront.front (.inl (hcomment.head? post)) (head?_blanked hcomment) hlive hlists
  have hlook : LooksBack (c.reverse ++ (bytes w).reverse) (bytes w).reverse post := hlook
  obtain ⟨w', hbits, hbits'⟩ := State.bits_behind hcomment hlive hlook
  refine ⟨Cell.bits w, w', by simp [Cell.bits], ?_, ?_⟩
  · rw [List.append_assoc, List.append_assoc, ← hbits]
    have := hfront.bits_eq
    rwa [List.append_nil] at this
  · rw [List.append_assoc, List.append_assoc, ← hbits']
    have := hfront'.bits_eq
    rwa [List.append_nil] at this

end PageLang.Mask
