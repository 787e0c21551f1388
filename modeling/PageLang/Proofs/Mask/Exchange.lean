import PageLang.Proofs.MaskedText.Bodies
import PageLang.Proofs.Mask.Comment

/-!
# The mask of a text with another body

Where the mask reads a function body behind its parameter list, it reads the body as code, and goes
on behind it as if another body stood there: what stands in front is read alike unless a parenthesis
of a colon looks for the one that closes it into the body, and then the list would not have ended in
front of the body; nothing behind looks back over the closing brace.

* `Mask.BodyIn`: a body behind a parameter list, and what stands around it.
* `Mask.State.Reads.exchange`: what stands in front of a body.
* `Mask.BodyIn.ofText_exchange`: the masks of a text with one body and with another.
-/

namespace PageLang.Mask

open Cell MaskedText

/-- The text `body` between `front` and `back` is a block whose first brace is matched by its last
byte when the block is masked alone, as code, and the mask of the whole text comes to the block
behind a parameter list. -/
structure BodyIn (front body back : Text) : Prop where
  brace : body.head? = some Byte.lbrace
  closing : (MaskedText.ofText .code body).closingBrace? 0 = some (body.length - 1)
  parameters : (stateAt (front ++ body ++ back) front.length).region = .afterParameters

/-! ## In front of a body -/

namespace State

theorem Reads.after_eq {s s₁ : State} {before ahead : Text} {w : List Cell}
    (h : Reads s before w ahead s₁) : s.after before w.length (bytes w ++ ahead) = s₁ := by
  induction h with
  | nil s before ahead => exact after_zero s before _
  | @cons s r s₁ before ahead b m w hread _ ih =>
    have hstep : s.after before (w.length + 1) (b :: (bytes w ++ ahead)) =
        (s.read before b (bytes w ++ ahead)).2.after (b :: before) w.length
          (bytes w ++ ahead) := rfl
    rw [hread, ih] at hstep
    exact hstep

/-- A parameter list that is closed nowhere in a text is still open behind its bytes. -/
theorem parameters_of_open {s : State} {n : Nat} {t far : Text} (before ahead : Text)
    (hregion : s.region = .parameters n) (hopen : closesParens n (t ++ far) = false) :
    ∃ m, (s.after before t.length (t ++ ahead)).region = .parameters m := by
  induction t generalizing s before n with
  | nil =>
    rw [List.length_nil, after_zero]
    exact ⟨n, hregion⟩
  | cons b t ih =>
    have hread : s.read before b (t ++ ahead) = s.readParameters n b := by
      unfold State.read
      rw [hregion]
    rw [List.cons_append, closesParens] at hopen
    show ∃ m, ((s.read before b (t ++ ahead)).2.after _ t.length _).region = _
    rw [hread]
    unfold readParameters
    by_cases hl : b = Byte.lparen
    · rw [if_pos hl] at hopen ⊢
      exact ih _ rfl hopen
    by_cases hr : b = Byte.rparen
    · rw [if_neg hl, if_pos hr, Bool.or_eq_false_iff, decide_eq_false_iff_not] at hopen
      rw [if_neg hl, if_pos hr, if_neg hopen.1]
      exact ih _ rfl hopen.2
    · rw [if_neg hl, if_neg hr] at hopen ⊢
      exact ih _ hregion hopen

/-- In front of a body everything is read as in front of another one, if in both texts the mask
comes to the body behind a parameter list. -/
theorem Reads.exchange {s s₁ : State} {before ahead ahead' : Text} {w : List Cell}
    (h : Reads s before w ahead s₁) (hhead : ahead'.head? = ahead.head?)
    (hend : s₁.region = .afterParameters)
    (hend' : (s.after before w.length (bytes w ++ ahead')).region = .afterParameters) :
    Reads s before w ahead' s₁ := by
  induction h with
  | nil => exact .nil ..
  | @cons s r s₁ before ahead b m w hread hrest ih =>
    -- a list that is closed in one of the texts only is open at the body of the other
    have hlist : s.region = .afterColon → b = Byte.lparen →
        closesParens 1 (bytes w ++ ahead') = closesParens 1 (bytes w ++ ahead) := by
      rintro hregion rfl
      have hopens {u : Text} (hu : closesParens 1 u = true) :
          (s.read before Byte.lparen u).2.region = .parameters 1 := by
        unfold State.read
        rw [hregion]
        simp +decide [readAfterColon, hu, into]
      cases hclose : closesParens 1 (bytes w ++ ahead) with
      | true =>
        refine Bool.of_not_eq_false fun hopen => ?_
        have hr : r.region = .parameters 1 := by
          rw [← hopens hclose, hread]
        obtain ⟨n, hn⟩ := parameters_of_open (Byte.lparen :: before) ahead hr hopen
        rw [length_bytes, hrest.after_eq, hend] at hn
        cases hn
      | false =>
        refine Bool.of_not_eq_true fun hclose' => ?_
        obtain ⟨n, hn⟩ := parameters_of_open (Byte.lparen :: before) ahead' (hopens hclose') hclose
        rw [length_bytes] at hn
        exact Region.noConfusion (hn.symm.trans hend')
    have halike : Alike (bytes w ++ ahead) (bytes w ++ ahead') := by
      cases w with
      | nil => simp [Alike, hhead]
      | cons c w => exact fun _ _ => Iff.rfl
    have hread' : s.read before b (bytes w ++ ahead') = (m, r) :=
      (read_congr halike hlist).trans hread
    refine .cons hread' (ih hhead hend ?_)
    have := hend'
    change ((s.read before b (bytes w ++ ahead')).2.after _ _ _).region = _ at this
    rwa [hread'] at this

end State

/-! ## The two masks -/

namespace BodyIn

variable {front body back body' : Text}

/-- The cells of a body masked alone. -/
theorem zip_eq (h : BodyIn front body back) :
    ∃ w, body.zip (ofText .code body) = live [Byte.lbrace] ++ w ++ live [Byte.rbrace] ∧
      depth? 1 w = some 1 := by
  obtain ⟨inner, hbody⟩ := List.head?_eq_some_iff.1 h.brace
  have hcells : (MaskedText.ofText .code body).cells =
      (Byte.lbrace, false) :: (MaskedText.ofText .code body).cells.drop 1 := by
    rw [cells_ofText, hbody]
    rfl
  have hrest := rest_zero (MaskedText.ofText .code body)
  rw [hcells] at hrest
  have hclose := h.closing
  have hlength : ((MaskedText.ofText .code body).cells.drop 1).length =
      (MaskedText.ofText .code body).size - (0 + 1) := by
    rw [List.length_drop, length_cells]
  rw [closingBrace?, ← hlength] at hclose
  obtain ⟨v, u, hsplit, hstop, hdepth⟩ := hrest.tail.split_of_closing? Nat.one_pos hclose
  -- the brace that matches is the last byte
  have hnil : u = [] := by
    rw [hsplit, size_ofText, List.length_append, List.length_cons] at hlength
    exact List.length_eq_zero_iff.1 (by omega)
  refine ⟨v, ?_, hdepth⟩
  rw [← cells_ofText, hcells, hsplit, hnil]
  simp [live]

/-- A body read behind its parameter list, and what follows it. -/
theorem ofText_eq {w : List Cell} {mode : Mode} {depth : Nat} {outer : List Frame}
    (h : BodyIn front body back)
    (hfront : State.Reads (.start .declarations) [] w (body ++ back)
      ⟨.afterParameters, mode, depth, outer⟩) :
    ∃ far, ofText .declarations (Cell.bytes w ++ body ++ back) = Cell.bits w ++ ofText .code body ++
      State.bits ⟨.live, mode, depth, outer⟩ (Byte.rbrace :: far) back := by
  obtain ⟨v, hcells, hdepth⟩ := h.zip_eq
  have hlength : (ofText .code body).length = body.length := length_ofText ..
  have hbytes : Cell.bytes (live [Byte.lbrace] ++ v ++ live [Byte.rbrace]) = body := by
    rw [← hcells, bytes_zip hlength]
  have hbits : Cell.bits (live [Byte.lbrace] ++ v ++ live [Byte.rbrace]) = ofText .code body := by
    rw [← hcells, Cell.bits, List.map_snd_zip (Nat.le_of_eq hlength)]
  rw [← hbytes] at hfront
  have hreads := (hfront.append (reads_body hcells hdepth _ back)).bits_eq
  rw [bytes_append, hbytes, bits_append, hbits] at hreads
  refine ⟨(Cell.bytes v).reverse ++ Byte.lbrace :: (Cell.bytes w).reverse, ?_⟩
  have hreverse : (Cell.bytes w ++ body).reverse ++ [] =
      Byte.rbrace :: ((Cell.bytes v).reverse ++ Byte.lbrace :: (Cell.bytes w).reverse) := by
    rw [← hbytes]
    simp
  rw [← hreverse]
  exact hreads

/-- Nothing behind a closing brace looks back over it. -/
theorem bits_behind (s : State) (far far' t : Text) :
    s.bits (Byte.rbrace :: far) t = s.bits (Byte.rbrace :: far') t :=
  State.bits_far t (by decide) (fun hword => absurd hword (by decide))
    fun hword => absurd hword (by decide)

/-- Around a body that the mask comes to behind a parameter list, the mask is the same for each
body that stands there so, and the body is masked like the body alone, as code. -/
theorem ofText_exchange (h : BodyIn front body back) (h' : BodyIn front body' back) :
    ∃ w w', w.length = front.length ∧
      ofText .declarations (front ++ body ++ back) = w ++ ofText .code body ++ w' ∧
      ofText .declarations (front ++ body' ++ back) = w ++ ofText .code body' ++ w' := by
  obtain ⟨w, rfl, hfront⟩ :=
    State.exists_reads_after (.start .declarations) [] front (body ++ back)
  have hend := h.parameters
  have hend' := h'.parameters
  rw [stateAt, List.append_assoc] at hend hend'
  have hhead : (body' ++ back).head? = (body ++ back).head? := by
    rw [List.head?_append, List.head?_append, h.brace, h'.brace]
  have hfront' := hfront.exchange hhead hend (by rwa [length_bytes] at hend')
  generalize (State.start .declarations).after [] (bytes w).length (bytes w ++ (body ++ back)) = s
    at hfront hfront' hend
  obtain ⟨region, mode, depth, outer⟩ := s
  obtain rfl : region = .afterParameters := hend
  obtain ⟨far, hbits⟩ := h.ofText_eq hfront
  obtain ⟨far', hbits'⟩ := h'.ofText_eq hfront'
  refine ⟨_, _, by simp [Cell.bits], hbits, ?_⟩
  rw [hbits', bits_behind _ far' far]

end BodyIn

end PageLang.Mask
