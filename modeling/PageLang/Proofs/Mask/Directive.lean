import PageLang.Proofs.Mask.Comment

/-!
# A directive beside blank space

Behind an include directive that stays in the text the mask machine is where it was in front of it,
as behind blank space. What stands around the directive is masked alike in both texts, unless the
machine looks over it, as it may look over a comment.

* `Mask.Detour`: a piece behind which the machine is where it was.
* `Mask.Detour.ofText`: the two masks.
-/

namespace PageLang.Mask

open Cell

/-- A piece from a star to a semicolon that stands in live text and changes nothing: behind it the
machine is where it was, every parenthesis behind a colon in front of it is closed as if blank space
stood there, and what follows it looks back alike at the piece and over it. -/
structure Detour (mode : Mode) (pre d post : Text) : Prop where
  star : d.head? = some Byte.star
  semicolon : d.getLast? = some Byte.semicolon
  live : ((State.start mode).after [] pre.length (pre ++ d ++ post)).region = .live
  back : (State.start mode).after [] (pre.length + d.length) (pre ++ d ++ post) =
    (State.start mode).after [] pre.length (pre ++ d ++ post)
  lists : ListsAlike (.start mode) [] pre (d ++ post) (blanked d ++ post)
  look : LooksBack (d.reverse ++ pre.reverse) pre.reverse post

namespace Detour

variable {mode : Mode} {pre d post : Text} (h : Detour mode pre d post)
include h

theorem ne_nil : d ≠ [] := by
  rintro rfl
  cases h.star

/-- What follows the piece is masked as behind blank space. -/
theorem bits_behind {s : State} (hlive : s.region = .live) :
    s.bits ((blanked d).reverse ++ pre.reverse) post = s.bits (d.reverse ++ pre.reverse) post := by
  have hspace {b : UInt8} (hb : b ∈ (blanked d).reverse) : Byte.isSpace b = true :=
    isSpace_of_mem_blanked (List.mem_reverse.1 hb)
  refine State.bits_congr_before hlive (h.look.blanks fun b => hspace) (fun b hb => ?_)
    fun b hb => ?_
  · rw [List.head?_append, List.head?_reverse, h.semicolon] at hb
    cases hb
    rfl
  · refine Text.not_word_of_isSpace b (hspace (mem_of_head?_append ?_ hb))
    exact fun hnil => blanked_ne_nil h.ne_nil (List.reverse_eq_nil_iff.1 hnil)

/-- What stands around the piece has the same bits around blank space in its place, which is
live. -/
theorem ofText : ∃ w m w', w.length = pre.length ∧ m.length = d.length ∧
    ofText mode (pre ++ d ++ post) = w ++ m ++ w' ∧
    ofText mode (pre ++ blanked d ++ post) = w ++ Cell.bits (Cell.live (blanked d)) ++ w' := by
  have hlive := h.live
  have hback := h.back
  rw [← State.after_add, List.append_assoc, List.take_left, List.drop_left, List.append_nil]
    at hback
  rw [List.append_assoc] at hlive
  obtain ⟨w, hw, hfront⟩ := State.exists_reads_after (.start mode) [] pre (d ++ post)
  generalize (State.start mode).after [] pre.length (pre ++ (d ++ post)) = s
    at hlive hback hfront
  obtain ⟨v, hv, hpiece⟩ := State.exists_reads_after s pre.reverse d post
  rw [hback] at hpiece
  have hblank : ∀ b ∈ (blanked d ++ post).head?, Byte.isSpace b = true := by
    intro b hb
    exact isSpace_of_mem_blanked (mem_of_head?_append (blanked_ne_nil h.ne_nil) hb)
  have hfront' := hfront.front (.inr (by rw [List.head?_append, h.star]; rfl)) hblank hlive
    (by rw [hw]; exact h.lists)
  have hspace := (State.reads_blanked hlive d pre.reverse post).bits_eq
  rw [bytes_live, h.bits_behind hlive] at hspace
  refine ⟨Cell.bits w, Cell.bits v, s.bits (d.reverse ++ pre.reverse) post, ?_, ?_, ?_, ?_⟩
  · rw [← hw, Cell.bits, Cell.bytes, List.length_map, List.length_map]
  · rw [← hv, Cell.bits, Cell.bytes, List.length_map, List.length_map]
  · have hread := hfront.bits_eq
    have hbits := hpiece.bits_eq
    rw [hw, List.append_nil] at hread
    rw [hv] at hbits
    rw [List.append_assoc, List.append_assoc, ← hbits]
    exact hread
  · have hread := hfront'.bits_eq
    rw [hw, List.append_nil] at hread
    rw [List.append_assoc, List.append_assoc, ← hspace]
    exact hread

end Detour

end PageLang.Mask
