import PageLang.Text.Unicode

/-!
# Binding patterns

Parameter lists and declarations bind names through patterns: identifiers, rest elements, defaults,
renamed keys, and object and array patterns nested in each other. A list is cut at the separators
that stand outside all brackets, by the spelling alone.

* `Pattern.names`: the names that a list of patterns binds, in order.
-/

namespace PageLang

namespace Text

/-- Puts a byte in front of the first piece. -/
def consPiece (b : UInt8) : List Text → List Text
  | [] => [[b]]
  | piece :: pieces => (b :: piece) :: pieces

/-- The pieces of a text between the separators outside all brackets, where `depth` brackets are
open. An equals sign in front of `>` or `=` separates nothing. -/
def splitTopLevel (separator : UInt8) : (depth : Int) → Text → List Text
  | _, [] => [[]]
  | depth, b :: rest =>
    if Byte.isOpening b then consPiece b (splitTopLevel separator (depth + 1) rest)
    else if Byte.isClosing b then consPiece b (splitTopLevel separator (depth - 1) rest)
    else if separator = Byte.equals ∧ b = Byte.equals ∧
        (rest.head? = some Byte.greater ∨ rest.head? = some Byte.equals) then
      consPiece b (splitTopLevel separator depth rest)
    else if b = separator ∧ depth = 0 then [] :: splitTopLevel separator depth rest
    else consPiece b (splitTopLevel separator depth rest)

theorem length_le_of_mem_consPiece {b : UInt8} {pieces : List Text} {n : Nat}
    (h : ∀ p ∈ pieces, p.length ≤ n) : ∀ p ∈ consPiece b pieces, p.length ≤ n + 1 := by
  intro p hp
  cases pieces with
  | nil => simp_all [consPiece]
  | cons q qs =>
    simp only [consPiece, List.mem_cons] at hp
    rcases hp with rfl | hp
    · simpa using h q (by simp)
    · exact Nat.le_succ_of_le (h p (by simp [hp]))

theorem length_le_of_mem_splitTopLevel {separator : UInt8} (t : Text) :
    ∀ (depth : Int), ∀ p ∈ splitTopLevel separator depth t, p.length ≤ t.length := by
  induction t with
  | nil => simp [splitTopLevel]
  | cons b rest ih =>
    intro depth p hp
    unfold splitTopLevel at hp
    split at hp
    · exact length_le_of_mem_consPiece (ih _) p hp
    · split at hp
      · exact length_le_of_mem_consPiece (ih _) p hp
      · split at hp
        · exact length_le_of_mem_consPiece (ih _) p hp
        · split at hp
          · rcases List.mem_cons.1 hp with rfl | hp
            · simp
            · exact Nat.le_succ_of_le (ih _ p hp)
          · exact length_le_of_mem_consPiece (ih _) p hp

end Text

namespace Pattern

/-- The value behind a renamed key, or else the whole piece. Only a piece with exactly one colon
outside brackets renames. -/
def renamed (piece : Text) : Text :=
  match piece.splitTopLevel Byte.colon 0 with
  | [_, value] => value.trim
  | _ => piece

/-- What a piece binds: without dots, key and default. -/
def target (piece : Text) : Text :=
  ((renamed (piece.trim.stripMarks ["..."] 0)).splitTopLevel Byte.equals 0).headD [] |>.trim

/-- The inside of an object or array pattern. -/
def inner? (target : Text) : Option Text :=
  if (target.head? = some Byte.lbrace ∧ target.getLast? = some Byte.rbrace) ∨
      (target.head? = some Byte.lbracket ∧ target.getLast? = some Byte.rbracket) then
    some target.tail.dropLast
  else none

theorem length_renamed_le (piece : Text) : (renamed piece).length ≤ piece.length := by
  unfold renamed
  split
  · next key value h =>
    have hm : value ∈ piece.splitTopLevel Byte.colon 0 := by simp [h]
    exact Nat.le_trans (Text.length_trim_le value)
      (Text.length_le_of_mem_splitTopLevel piece 0 value hm)
  · exact Nat.le_refl _

theorem length_headD_splitTopLevel_le (separator : UInt8) (t : Text) :
    ((t.splitTopLevel separator 0).headD []).length ≤ t.length := by
  cases h : t.splitTopLevel separator 0 with
  | nil => simp
  | cons p ps =>
    have hm : p ∈ t.splitTopLevel separator 0 := by simp [h]
    exact Text.length_le_of_mem_splitTopLevel t 0 p hm

theorem length_target_le (piece : Text) : (target piece).length ≤ piece.length := by
  have h1 := Text.length_trim_le piece
  have h2 := Text.length_stripMarks_le ["..."] 0 piece.trim
  have h3 := length_renamed_le (piece.trim.stripMarks ["..."] 0)
  have h4 := length_headD_splitTopLevel_le Byte.equals (renamed (piece.trim.stripMarks ["..."] 0))
  have h5 := Text.length_trim_le
    (((renamed (piece.trim.stripMarks ["..."] 0)).splitTopLevel Byte.equals 0).headD [])
  unfold target
  omega

theorem length_inner_lt {t inside : Text} (h : inner? t = some inside) :
    inside.length < t.length := by
  unfold inner? at h
  split at h
  · next hb =>
    cases t with
    | nil => simp at hb
    | cons b rest =>
      injection h with h
      subst h
      simp only [List.tail_cons, List.length_dropLast, List.length_cons]
      omega
  · simp at h

/-- The names that a list of patterns binds, in order. -/
def names (patterns : Text) : List Text :=
  (patterns.splitTopLevel Byte.comma 0).attach.flatMap fun ⟨piece, _⟩ =>
    match _h : inner? (target piece) with
    | some inside => names inside
    | none => if (target piece).isIdentifier then [target piece] else []
termination_by patterns.length
decreasing_by
  have h1 := length_inner_lt (by assumption)
  have h2 := length_target_le piece
  have h3 := Text.length_le_of_mem_splitTopLevel patterns 0 piece (by assumption)
  omega

end Pattern

end PageLang
