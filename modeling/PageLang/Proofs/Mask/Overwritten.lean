import PageLang.Proofs.Mask.Comment

/-!
# Comments of code overwritten by blank space

The machine of code passes over a comment and stands in live code again, but what a slash behind the
comment looks back for are bytes, whatever they belong to. So the bytes of the comment decide in the
place of the code in front of it: behind a block comment every slash divides, and behind a comment
up to the end of the line its last word or mark decides. Nothing else in code looks over a comment.

* `Mask.CodeComment`, `Mask.exists_codeComment_iff`: the comments that the machine recognises.
* `Mask.State.InCode.bits_eq_iff`: when live code is masked alike behind two texts.
* `Mask.CodeComment.ofText_blanked`: when a comment can be overwritten and no bit around it changes.
-/

namespace PageLang

/-- A text with an occurrence of a pattern, cut at the first one. -/
theorem Text.exists_of_hasInfix {t pattern : Text} (hpattern : pattern ≠ [])
    (h : t.hasInfix pattern = true) :
    ∃ u v, t = u ++ pattern ++ v ∧ u.hasInfix pattern = false := by
  have hnil : Text.hasInfix [] pattern = false := by
    cases pattern with
    | nil => exact absurd rfl hpattern
    | cons b pattern => rfl
  induction t with
  | nil => exact absurd h (Bool.eq_false_iff.1 hnil)
  | cons b t ih =>
    cases hfirst : pattern.isPrefixOf (b :: t) with
    | true =>
      obtain ⟨v, hv⟩ := List.isPrefixOf_iff_prefix.1 hfirst
      exact ⟨[], v, hv.symm, hnil⟩
    | false =>
      rw [hasInfix, hfirst, Bool.false_or] at h
      obtain ⟨u, v, rfl, hu⟩ := ih h
      refine ⟨b :: u, v, rfl, ?_⟩
      rw [hasInfix, hu, Bool.or_false, Bool.eq_false_iff]
      intro hmark
      have hshort := List.isPrefixOf_iff_prefix.1 hmark
      have hlong := hshort.trans (List.prefix_append (b :: u) (pattern ++ v))
      rw [List.cons_append, ← List.append_assoc, ← List.isPrefixOf_iff_prefix, hfirst] at hlong
      cases hlong

namespace Mask

open Cell

/-! ## Comments -/

/-- A comment as it is written in code, if `ahead` stands behind it. A block comment may be left
open up to the end. -/
inductive Commented : (c ahead : Text) → Prop
  | ended {c ahead : Text} : IsComment c ahead → Commented c ahead
  | unended {t : Text} : Text.hasInfix t "*/" = false → Commented ([Byte.slash, Byte.star] ++ t) []

theorem Commented.exists_cons {c ahead : Text} (h : Commented c ahead) :
    ∃ b t, (b = Byte.slash ∨ b = Byte.star) ∧ c = Byte.slash :: b :: t := by
  cases h with
  | ended h =>
    cases h with
    | line _ _ => exact ⟨_, _, .inl rfl, rfl⟩
    | block _ => exact ⟨_, _, .inr rfl, rfl⟩
  | unended _ => exact ⟨_, _, .inr rfl, rfl⟩

/-- In code, the machine takes `c` between `pre` and `post` for a comment. -/
structure CodeComment (pre c post : Text) : Prop where
  comment : Commented c post
  live : ((State.start .code).after [] pre.length (pre ++ c ++ post)).region = .live

/-- Two slashes, or a slash and a star, open a comment. -/
theorem exists_commented {b : UInt8} (hb : b = Byte.slash ∨ b = Byte.star) (t : Text) :
    ∃ c post, Byte.slash :: b :: t = c ++ post ∧ Commented c post := by
  rcases hb with rfl | rfl
  · -- up to the end of the line
    have hinside : Byte.newline ∉ t.takeWhile (· != Byte.newline) := by
      intro hmem
      simpa using List.all_eq_true.1 List.all_takeWhile _ hmem
    have hbehind : ∀ d ∈ (t.dropWhile (· != Byte.newline)).head?, d = Byte.newline := by
      intro d hd
      have hstop := List.head?_dropWhile_not (· != Byte.newline) t
      rw [hd] at hstop
      simpa using hstop
    refine ⟨_, _, ?_, .ended (.line hinside hbehind)⟩
    simp [List.takeWhile_append_dropWhile]
  · cases hend : t.hasInfix "*/" with
    | false => exact ⟨[Byte.slash, Byte.star] ++ t, [], by simp, .unended hend⟩
    | true =>
      obtain ⟨u, v, rfl, hu⟩ := Text.exists_of_hasInfix (by decide) hend
      have hmark : Text.ofString "*/" = [Byte.star, Byte.slash] := by decide
      exact ⟨[Byte.slash, Byte.star] ++ u ++ [Byte.star, Byte.slash], v, by simp [hmark],
        .ended (.block hu)⟩

namespace State

theorem after_of_length_le {s : State} {before t : Text} {k : Nat} (h : t.length ≤ k) :
    s.after before (k + 1) t = s.after before k t := by
  rw [← after_add, List.drop_eq_nil_of_le h]
  rfl

/-- What in live text opens a comment. -/
theorem readLive_comment {s : State} {before rest : Text} {b : UInt8}
    (h : (s.readLive before b rest).2.region = .lineComment ∨
      (s.readLive before b rest).2.region = .commentOpening) :
    b = Byte.slash ∧ (rest.head? = some Byte.slash ∨ rest.head? = some Byte.star) := by
  by_cases hline : b = Byte.slash ∧ rest.head? = some Byte.slash
  · exact ⟨hline.1, .inl hline.2⟩
  by_cases hblock : b = Byte.slash ∧ rest.head? = some Byte.star
  · exact ⟨hblock.1, .inr hblock.2⟩
  unfold readLive at h
  rw [if_neg hline, if_neg hblock] at h
  repeat' split at h
  all_goals first
    | (rcases s.closeBrace_region with hclose | hclose <;> simp [hclose] at h; done)
    | simp [into] at h

end State

/-- The comments of a text of code are where the machine turns from live text to a comment. -/
theorem exists_codeComment_iff {t : Text} {i : Nat} :
    (∃ pre c post, t = pre ++ c ++ post ∧ pre.length = i ∧ CodeComment pre c post) ↔
      ((State.start .code).after [] i t).region = .live ∧
        (((State.start .code).after [] (i + 1) t).region = .lineComment ∨
          ((State.start .code).after [] (i + 1) t).region = .commentOpening) := by
  constructor
  · intro ⟨pre, c, post, ht, hi, hcomment, hlive⟩
    subst ht hi
    obtain ⟨b, u, hb, rfl⟩ := hcomment.exists_cons
    have hbyte : (pre ++ Byte.slash :: b :: u ++ post)[pre.length]? = some Byte.slash := by simp
    have hnext : ((pre ++ Byte.slash :: b :: u ++ post).drop (pre.length + 1)).head? = some b := by
      simp
    rw [State.after_succ hbyte]
    refine ⟨hlive, ?_⟩
    rcases hb with rfl | rfl
    · rw [State.read_slash_slash hlive hnext]
      exact .inl rfl
    · rw [State.read_slash_star hlive hnext]
      exact .inr rfl
  · intro ⟨hlive, hcomment⟩
    have hlt : i < t.length := by
      apply Nat.lt_of_not_le
      intro hle
      rw [State.after_of_length_le hle, hlive] at hcomment
      simp at hcomment
    have hbyte := List.getElem?_eq_getElem hlt
    rw [State.after_succ hbyte, State.read, hlive] at hcomment
    obtain ⟨hslash, hnext⟩ := State.readLive_comment hcomment
    obtain ⟨b, u, hu, hb⟩ : ∃ b u, t.drop (i + 1) = b :: u ∧ (b = Byte.slash ∨ b = Byte.star) := by
      rcases hnext with hnext | hnext <;>
      · obtain ⟨u, hu⟩ := List.head?_eq_some_iff.1 hnext
        exact ⟨_, u, hu, by simp⟩
    obtain ⟨c, post, hcut, hwritten⟩ := exists_commented hb u
    have hlength : (t.take i).length = i := List.length_take_of_le (Nat.le_of_lt hlt)
    have hwhole : t = t.take i ++ c ++ post := by
      rw [List.append_assoc, ← hcut, ← hu, ← hslash, List.getElem_cons_drop,
        List.take_append_drop]
    refine ⟨t.take i, c, post, hwhole, hlength, hwritten, ?_⟩
    rw [← hwhole, hlength]
    exact hlive

/-! ## Around a comment -/

/-- A comment of code is masked, and what follows it is read as live text. -/
theorem Commented.bits_eq {c post : Text} (h : Commented c post) {s : State}
    (hlive : s.region = .live) (before : Text) :
    s.bits before (c ++ post) = Cell.bits (masked c) ++ s.bits (c.reverse ++ before) post := by
  cases h with
  | ended h => exact h.bits_eq hlive before
  | @unended t ht =>
    obtain ⟨region, mode, depth, outer⟩ := s
    obtain rfl : region = .live := hlive
    have hslash : false = true → t.head? ≠ some Byte.slash := nofun
    obtain ⟨star, hopen⟩ := State.reads_unended hslash ht (Byte.star :: Byte.slash :: before) []
    have hreads : State.Reads ⟨.live, mode, depth, outer⟩ before
        (masked ([Byte.slash, Byte.star] ++ t)) [] ⟨.blockComment star, mode, depth, outer⟩ :=
      .cons rfl (.cons rfl hopen)
    have hbits := hreads.bits_eq
    rwa [bytes_masked] at hbits

/-- If the next byte that is no blank is a slash that opens no comment, it stands where a regular
expression may follow behind both texts, or behind none of them. -/
def SlashAlike (before before' rest : Text) : Prop :=
  ∀ more, rest.dropWhile Byte.isSpace = Byte.slash :: more → more.head? ≠ some Byte.slash →
    more.head? ≠ some Byte.star → regexAllowed before' = regexAllowed before

namespace State

variable {s : State} {before before' t : Text}

/-- A byte of live code is read alike behind all texts, unless it is a slash that opens no
comment. -/
theorem InCode.read_congr_of_live (h : s.InCode) (hlive : s.region = .live) {b : UInt8}
    (hslash : b = Byte.slash → t.head? = some Byte.slash ∨ t.head? = some Byte.star) :
    s.read before' b t = s.read before b t := by
  by_cases hb : b = Byte.slash
  · subst hb
    rcases hslash rfl with hline | hblock
    · rw [read_slash_slash hlive hline, read_slash_slash hlive hline]
    · rw [read_slash_star hlive hblock, read_slash_star hlive hblock]
  · have hmode : s.mode ≠ .declarations := by
      rw [h.mode]
      exact Mode.noConfusion
    unfold State.read
    rw [hlive]
    simp only [readLive, hb, hmode, false_and, and_false, if_false]

/-- The slash of live code is masked where it opens a regular expression, and live where it
divides. -/
theorem read_slash_fst (hlive : s.region = .live) (hline : t.head? ≠ some Byte.slash)
    (hblock : t.head? ≠ some Byte.star) :
    (s.read before Byte.slash t).1 = regexAllowed before := by
  unfold State.read
  rw [hlive]
  simp only [readLive, hline, hblock, and_false, true_and, if_false]
  cases regexAllowed before <;> rfl

/-- Live code is masked alike behind two texts exactly if its first slash is. A word that it starts
with must not go on in front. -/
theorem InCode.bits_eq_iff (h : s.InCode) (hlive : s.region = .live)
    (hword : ∀ b ∈ t.head?, Byte.isWord b = true →
      (∀ c ∈ before.head?, Byte.isWord c = false) ∧ ∀ c ∈ before'.head?, Byte.isWord c = false) :
    s.bits before' t = s.bits before t ↔ SlashAlike before before' t := by
  induction t generalizing before before' with
  | nil => exact ⟨fun _ => nofun, fun _ => rfl⟩
  | cons b t ih =>
    cases hb : Byte.isSpace b with
    | true =>
      -- blank space is read and looked over
      have hblank : Byte.isWord b = false := Text.not_word_of_isSpace b hb
      have htail := @ih (b :: before) (b :: before') fun _ _ _ =>
        ⟨by simpa using hblank, by simpa using hblank⟩
      rw [State.bits, State.bits, read_space hlive hb, read_space hlive hb,
        show s.into .live = s by rw [into, ← hlive], List.cons.injEq, eq_self, true_and, htail]
      simp only [SlashAlike, regexAllowed_space hb, List.dropWhile_cons_of_pos hb]
    | false =>
      have hfar (r : State) : r.bits (b :: before') t = r.bits (b :: before) t :=
        bits_far t hb (fun hw => (hword b rfl hw).1) fun hw => (hword b rfl hw).2
      have hink : (b :: t).dropWhile Byte.isSpace = b :: t := by simp [hb]
      rw [State.bits, State.bits, SlashAlike, hink]
      constructor
      · intro heq more hslash hline hblock
        obtain ⟨rfl, rfl⟩ := List.cons.inj hslash
        rw [← read_slash_fst hlive hline hblock, ← read_slash_fst hlive hline hblock]
        exact (List.cons.inj heq).1
      · intro hslash
        have hread : s.read before' b t = s.read before b t := by
          by_cases hopens : b = Byte.slash → t.head? = some Byte.slash ∨ t.head? = some Byte.star
          · exact h.read_congr_of_live hlive hopens
          · rw [Classical.not_imp, not_or] at hopens
            obtain ⟨rfl, hline, hblock⟩ := hopens
            exact h.read_congr Byte.slash (hslash t rfl hline hblock) fun _ _ => Iff.rfl
        rw [hread, hfar]

end State

/-- What stands in front of a comment is not looked back for. -/
theorem Commented.regexAllowed_append {c post : Text} (h : Commented c post) (before : Text) :
    regexAllowed (c.reverse ++ before) = regexAllowed c.reverse := by
  obtain ⟨b, t, -, rfl⟩ := h.exists_cons
  rw [List.reverse_cons, List.append_assoc, List.singleton_append]
  exact regexAllowed_append_cons _ _ (by decide) fun hword => absurd hword (by decide)

/-- Where what follows a comment starts with a word, the comment does not end in one. -/
theorem Commented.head?_reverse {c post : Text} (h : Commented c post) {b : UInt8}
    (hb : b ∈ post.head?) (hword : Byte.isWord b = true) (before : Text) :
    ∀ d ∈ (c.reverse ++ before).head?, Byte.isWord d = false := by
  intro d hd
  cases h with
  | ended h =>
    rcases h.getLast? with hline | hblock
    · rw [hline b hb] at hword
      cases hword
    · rw [List.head?_append, List.head?_reverse, hblock] at hd
      cases hd
      rfl
  | unended _ => cases hb

/-- What follows a comment in live code is masked as behind blank space exactly if the comment and
the code in front of it agree on what a slash that comes next stands for. -/
theorem Commented.bits_blanked_iff {c before post : Text} (h : Commented c post) {s : State}
    (hcode : s.InCode) (hlive : s.region = .live) :
    s.bits ((blanked c).reverse ++ before) post = s.bits (c.reverse ++ before) post ↔
      SlashAlike c.reverse before post := by
  have hblanks : ∀ b ∈ (blanked c).reverse, Byte.isSpace b = true := fun b hb =>
    isSpace_of_mem_blanked (List.mem_reverse.1 hb)
  have hword : ∀ b ∈ post.head?, Byte.isWord b = true →
      (∀ d ∈ (c.reverse ++ before).head?, Byte.isWord d = false) ∧
        ∀ d ∈ ((blanked c).reverse ++ before).head?, Byte.isWord d = false := by
    refine fun b hb hw => ⟨h.head?_reverse hb hw before, fun d hd => ?_⟩
    obtain ⟨x, t, -, rfl⟩ := h.exists_cons
    have hmem := mem_of_head?_append (List.reverse_ne_nil_iff.2 (List.cons_ne_nil _ _)) hd
    exact Text.not_word_of_isSpace d (hblanks d hmem)
  rw [hcode.bits_eq_iff hlive hword]
  simp only [SlashAlike, h.regexAllowed_append, regexAllowed_blanks hblanks]

/-- A comment of code is masked. Blank space in its place is live, all that stands in front has the
same bits, and all that follows has the same bits exactly if the comment and the code in front of it
agree on what a slash that comes next stands for. -/
theorem CodeComment.ofText_blanked {pre c post : Text} (h : CodeComment pre c post) :
    ∃ w w₁ w₂, w.length = pre.length ∧
      ofText .code (pre ++ c ++ post) = w ++ Cell.bits (masked c) ++ w₁ ∧
      ofText .code (pre ++ blanked c ++ post) = w ++ Cell.bits (Cell.live (blanked c)) ++ w₂ ∧
      (w₂ = w₁ ↔ SlashAlike c.reverse pre.reverse post) := by
  obtain ⟨hcomment, hlive⟩ := h
  rw [List.append_assoc] at hlive
  have hfirst : (c ++ post).head? = some Byte.slash ∧
      ∀ d ∈ (blanked c ++ post).head?, Byte.isSpace d = true := by
    obtain ⟨b, t, -, rfl⟩ := hcomment.exists_cons
    exact ⟨rfl, by rintro d ⟨⟩; rfl⟩
  obtain ⟨w, rfl, hfront⟩ := State.exists_reads_after (.start .code) [] pre (c ++ post)
  -- in front of the comment no parenthesis looks ahead in code
  have hlists : ListsAlike (.start .code) [] (bytes w) (c ++ post) (blanked c ++ post) := by
    intro k hregion
    have hcode := (State.inCode_start.after [] k (bytes w ++ (c ++ post))).region
    rw [hregion] at hcode
    cases hcode
  have hcode := State.inCode_start.after [] (bytes w).length (bytes w ++ (c ++ post))
  have hfront' := hfront.front (.inl hfirst.1) hfirst.2 hlive hlists
  generalize (State.start .code).after [] (bytes w).length (bytes w ++ (c ++ post)) = s
    at hlive hfront hfront' hcode
  have hread := hfront.bits_eq
  have hread' := hfront'.bits_eq
  have hspace := (State.reads_blanked hlive c (bytes w).reverse post).bits_eq
  rw [hcomment.bits_eq hlive, List.append_nil] at hread
  rw [List.append_nil] at hread'
  rw [bytes_live] at hspace
  rw [hspace] at hread'
  refine ⟨Cell.bits w, _, _, by simp [Cell.bits], ?_, ?_, hcomment.bits_blanked_iff hcode hlive⟩
  · rw [List.append_assoc, List.append_assoc]
    exact hread
  · rw [List.append_assoc, List.append_assoc]
    exact hread'

/-- A comment between an operator and a regular expression, which is taken for a division. -/
def sampleComment : Text := "/* c */"

theorem codeComment_sampleComment : CodeComment "x = " sampleComment " /'/;" where
  comment := .ended (.block (t := " c ") (by decide))
  live := by decide

theorem ofText_blanked_sampleComment : CodeComment "x = " sampleComment " /'/;" ∧
    ∃ w w₁ w₂, ofText .code "x = /* c */ /'/;" = w ++ Cell.bits (masked sampleComment) ++ w₁ ∧
      ofText .code "x =         /'/;" = w ++ Cell.bits (Cell.live (blanked sampleComment)) ++ w₂ ∧
      w₂ ≠ w₁ := by
  obtain ⟨w, w₁, w₂, -, hmask, hblanked, hiff⟩ := codeComment_sampleComment.ofText_blanked
  refine ⟨codeComment_sampleComment, w, w₁, w₂, hmask, hblanked, fun heq => ?_⟩
  have halike := hiff.1 heq "'/;" (by decide) (by decide) (by decide)
  exact absurd halike (by decide)

end Mask

end PageLang
