import PageLang.Proofs.Text.Trim
import PageLang.Script.Pattern

/-!
# Patterns that are names

* `Pattern.names_of_isIdentifier`: an identifier binds itself and nothing else.
-/

namespace PageLang

/-- The bytes of words are no brackets and no separators. -/
theorem Byte.not_bracket_of_isWord : ∀ b, isWord b = true → isOpening b = false ∧
    isClosing b = false ∧ b ≠ comma ∧ b ≠ colon ∧ b ≠ equals ∧ b ≠ dot ∧ isInk b = true :=
  forall_of_nibbles (by decide)

theorem Text.splitTopLevel_of_isWord {separator : UInt8} {t : Text}
    (ht : ∀ b ∈ t, Byte.isWord b = true)
    (hseparator : separator ∈ [Byte.comma, Byte.colon, Byte.equals]) :
    t.splitTopLevel separator 0 = [t] := by
  induction t with
  | nil => rfl
  | cons b t ih =>
    obtain ⟨hopening, hclosing, hcomma, hcolon, hequals, -⟩ :=
      Byte.not_bracket_of_isWord b (ht b (.head _))
    have hne : b ≠ separator := by
      simp only [List.mem_cons, List.not_mem_nil, or_false] at hseparator
      rcases hseparator with rfl | rfl | rfl
      · exact hcomma
      · exact hcolon
      · exact hequals
    rw [splitTopLevel, ih fun c hc => ht c (.tail _ hc)]
    simp [hopening, hclosing, hequals, hne, consPiece]

/-- No dots are taken off a text that does not begin with one. -/
theorem Text.stripDots_of_ne {t : Text} (h : t.head? ≠ some Byte.dot) :
    t.stripMarks ["..."] 0 = t := by
  cases t with
  | nil => rfl
  | cons b t =>
    have hfind : List.find? (fun m => m.isPrefixOf (b :: t)) [Text.ofString "..."] = none := by
      rw [List.find?_eq_none]
      intro m hm hpre
      obtain rfl : m = Text.ofString "..." := by simpa using hm
      have hcons : Text.ofString "..." = [Byte.dot, Byte.dot, Byte.dot] := by decide
      rw [hcons] at hpre
      simp at hpre
      exact h (by simp [hpre.1])
    rw [stripMarks, hfind]

namespace Pattern

theorem target_of_isWord {t : Text} (hne : t ≠ []) (ht : ∀ b ∈ t, Byte.isWord b = true) :
    target t = t := by
  have htrim : t.trim = t :=
    Text.trim_of_ink (Text.isInk_of_all hne fun b hb =>
      (Byte.not_bracket_of_isWord b (ht b hb)).2.2.2.2.2.2)
  have hdots : t.stripMarks ["..."] 0 = t :=
    Text.stripDots_of_ne fun hhead =>
      (Byte.not_bracket_of_isWord _ (ht _ (List.mem_of_mem_head? hhead))).2.2.2.2.2.1 rfl
  have hrenamed : renamed t = t := by
    rw [renamed, Text.splitTopLevel_of_isWord ht (by simp)]
  rw [target, htrim, hdots, hrenamed, Text.splitTopLevel_of_isWord ht (by simp), List.headD_cons,
    htrim]

theorem names_eq (patterns : Text) : names patterns =
    (patterns.splitTopLevel Byte.comma 0).flatMap fun piece =>
      match inner? (target piece) with
      | some inside => names inside
      | none => if (target piece).isIdentifier then [target piece] else [] := by
  rw [names, List.flatMap_subtype, List.unattach_attach]
  intro piece _
  dsimp only
  split <;> simp [*]

/-- An identifier binds itself. -/
theorem names_of_isIdentifier {t : Text} (h : t.isIdentifier = true) : names t = [t] := by
  cases t with
  | nil => simp [Text.isIdentifier] at h
  | cons b rest =>
    have hwords : ∀ c ∈ b :: rest, Byte.isWord c = true := by
      simp only [Text.isIdentifier, Bool.and_eq_true, List.all_eq_true] at h
      exact List.forall_mem_cons.2 ⟨by simp [Byte.isWord, h.1], h.2⟩
    have hbracket : b ≠ Byte.lbrace ∧ b ≠ Byte.lbracket := by
      have := (Byte.not_bracket_of_isWord b (hwords b (.head _))).1
      constructor <;> rintro rfl <;> simp +decide at this
    have hinner : inner? (b :: rest) = none := by
      simp [inner?, hbracket]
    have htarget := target_of_isWord (by simp) hwords
    rw [names_eq, Text.splitTopLevel_of_isWord hwords (by simp), List.flatMap_singleton, htarget,
      hinner, if_pos h]

end Pattern

end PageLang
