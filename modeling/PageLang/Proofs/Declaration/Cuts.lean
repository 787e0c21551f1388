import PageLang.Proofs.RoundTrip.Member
import PageLang.Proofs.Script.Cuts

/-!
# Cutting a list of parameters

A list of parameters is cut at its commas outside brackets, and its pieces are trimmed. A comma in a
string is a comma, and a bracket in a string is a bracket, so the pieces are the parameters only
where the commas and the brackets of the strings do no harm.

* `Text.Uncut`: a text with no separator outside brackets.
* `Text.cutList_eq_iff`: when the pieces of a front of a list are its parameters.
-/

namespace PageLang

namespace Text

/-- No separator of a text stands outside brackets, where `depth` brackets are open around it. -/
def Uncut (separator : UInt8) (depth : Int) (t : Text) : Prop :=
  ∀ q, q ++ [separator] <+: t → depth + balance q ≠ 0

/-- The parameters between commas, without the blanks around them. -/
def cutList (t : Text) : List Text :=
  ((t.splitTopLevel Byte.comma 0).map trim).filter (fun p => !p.isEmpty)

variable {separator b : UInt8} {depth : Int} {t u : Text}

theorem uncut_nil (separator : UInt8) (depth : Int) : Uncut separator depth [] := by
  simp [Uncut]

theorem uncut_cons : Uncut separator depth (b :: t) ↔
    ¬ (b = separator ∧ depth = 0) ∧ Uncut separator (depth + balance [b]) t := by
  constructor
  · intro h
    refine ⟨?_, fun q hq => ?_⟩
    · rintro ⟨rfl, rfl⟩
      exact h [] ⟨t, rfl⟩ rfl
    · have := h (b :: q) (List.cons_prefix_cons.2 ⟨rfl, hq⟩)
      rw [← List.singleton_append, balance_append] at this
      omega
  · rintro ⟨hb, h⟩ q hq
    cases q with
    | nil =>
      obtain rfl : separator = b := (List.cons_prefix_cons.1 hq).1
      rw [balance_nil]
      exact fun hzero => hb ⟨rfl, by omega⟩
    | cons c q =>
      obtain ⟨rfl, hprefix⟩ := List.cons_prefix_cons.1 hq
      have := h q hprefix
      rw [← List.singleton_append, balance_append]
      omega

/-- A text without separators outside brackets stays in one piece. -/
theorem uncut_iff (hseparator : Binding.Separates separator) (hequals : separator ≠ Byte.equals) :
    Uncut separator depth t ↔ splitTopLevel separator depth t = [t] := by
  induction t generalizing depth with
  | nil => exact iff_of_true (uncut_nil _ _) rfl
  | cons b t ih =>
    rw [uncut_cons, split_cons_iff hseparator, ih]
    simp [CutsAt, hequals]

/-- A text that does not stay in one piece is cut at a first separator. -/
theorem exists_of_not_uncut (h : ¬ Uncut separator depth t) :
    ∃ q r, t = q ++ separator :: r ∧ Uncut separator depth q ∧ depth + q.balance = 0 := by
  induction t generalizing depth with
  | nil => exact absurd (uncut_nil separator depth) h
  | cons b t ih =>
    by_cases hb : b = separator ∧ depth = 0
    · obtain ⟨rfl, rfl⟩ := hb
      exact ⟨[], t, rfl, uncut_nil _ _, rfl⟩
    · obtain ⟨q, r, rfl, hq, hzero⟩ := ih fun ht => h (uncut_cons.2 ⟨hb, ht⟩)
      refine ⟨b :: q, r, rfl, uncut_cons.2 ⟨hb, hq⟩, ?_⟩
      rw [← List.singleton_append, balance_append]
      omega

/-! ## Lists of parameters -/

theorem cutList_nil : cutList [] = [] := rfl

theorem separates_comma : Binding.Separates Byte.comma := .inl rfl

theorem cutList_space (t : Text) : cutList (Byte.space :: t) = cutList t := by
  have hsplit : splitTopLevel Byte.comma 0 (Byte.space :: t) =
      consPiece Byte.space (splitTopLevel Byte.comma 0 t) :=
    splitTopLevel_cons fun hcut => absurd hcut.1 (by decide)
  obtain ⟨piece, pieces, heq⟩ :=
    List.exists_cons_of_ne_nil (splitTopLevel_ne_nil Byte.comma 0 t)
  rw [cutList, cutList, hsplit, heq, consPiece, List.map_cons, List.map_cons, trim_cons_space]

theorem cutList_of_uncut (h : Uncut Byte.comma 0 t) :
    cutList t = [trim t].filter (fun p => !p.isEmpty) := by
  rw [cutList, (uncut_iff separates_comma (by decide)).1 h, List.map_singleton]

theorem cutList_append_comma (h : Uncut Byte.comma 0 t) (hzero : t.balance = 0) (u : Text) :
    cutList (t ++ Byte.comma :: u) = [trim t].filter (fun p => !p.isEmpty) ++ cutList u := by
  rw [cutList, split_append_separator separates_comma (by decide) (by rw [hzero]; rfl),
    (uncut_iff separates_comma (by decide)).1 h, List.map_append, List.filter_append]
  rfl

/-- What a parameter begins and ends with: it is trimmed, and no comma comes first. -/
structure IsParameter (p : Text) : Prop where
  ink : IsInk p
  comma : p.head? ≠ some Byte.comma

/-- The parameters of a list are its pieces: their commas stand inside brackets, and all but the last
close the brackets that they open. -/
def Separate (ps : List Text) : Prop :=
  (∀ p ∈ ps, Uncut Byte.comma 0 p) ∧ ∀ p ∈ ps.dropLast, balance p = 0

theorem separate_cons_cons {p q : Text} {ps : List Text} : Separate (p :: q :: ps) ↔
    Uncut Byte.comma 0 p ∧ p.balance = 0 ∧ Separate (q :: ps) := by
  simp only [Separate, List.dropLast_cons_cons, List.forall_mem_cons]
  exact ⟨fun ⟨⟨hp, hrest⟩, hzero, hlast⟩ => ⟨hp, hzero, hrest, hlast⟩,
    fun ⟨hp, hzero, hrest, hlast⟩ => ⟨⟨hp, hrest⟩, hzero, hlast⟩⟩

theorem parameterList_cons_cons (p q : Text) (ps : List Text) :
    Written.parameterList (p :: q :: ps) =
      p ++ Byte.comma :: Byte.space :: Written.parameterList (q :: ps) := by
  simp [Written.parameterList]

section
variable {p : Text} (hp : IsParameter p)
include hp

theorem IsParameter.filter_trim : [trim p].filter (fun q => !q.isEmpty) = [p] := by
  obtain ⟨b, rest, rfl, -⟩ := hp.ink.first
  rw [trim_of_ink hp.ink]
  rfl

/-- A first piece that is a parameter without the blanks around it is the parameter itself, if it
goes on with a comma at most. -/
theorem IsParameter.eq_of_trim {q rest : Text} (hq : q <+: p ++ rest) (hne : q ≠ [])
    (hrest : ∀ b ∈ rest.head?, b = Byte.comma) {ps : List Text} {pieces : List Text}
    (h : [trim q].filter (fun p => !p.isEmpty) ++ pieces = p :: ps) : q = p ∧ pieces = ps := by
  obtain ⟨b, p', hfirst, hb⟩ := hp.ink.first
  obtain ⟨q', rfl⟩ : ∃ q', q = b :: q' := by
    cases q with
    | nil => exact absurd rfl hne
    | cons c q' =>
      rw [hfirst, List.cons_append] at hq
      exact ⟨q', by rw [(List.cons_prefix_cons.1 hq).1]⟩
  have htrim : trim (b :: q') = trimEnd (b :: q') := by rw [trim, trimStart_of_ink hb]
  obtain ⟨gap, hgap, hink⟩ := exists_of_trimEnd (b :: q')
  have hnonempty : trimEnd (b :: q') ≠ [] := fun hnil => by
    rw [hnil, List.nil_append] at hgap
    rw [hink b (by rw [← hgap]; exact .head _)] at hb
    cases hb
  rw [htrim, List.filter_cons_of_pos (by simpa using hnonempty), List.filter_nil,
    List.singleton_append] at h
  obtain ⟨heq, rfl⟩ := List.cons.inj h
  rw [heq] at hgap
  -- a blank behind the parameter would be a part of the rest
  have hnil : gap = [] := by
    rw [hgap, List.prefix_append_right_inj] at hq
    cases gap with
    | nil => rfl
    | cons c gap =>
      obtain ⟨rest', rfl⟩ := hq
      have hc : c = Byte.comma := hrest c rfl
      have := hink c (.head _)
      rw [hc] at this
      cases this
  rw [hnil, List.append_nil] at hgap
  exact ⟨hgap, rfl⟩

end

/-- The pieces of a front of a list are its parameters exactly if it is the whole list, and its
parameters are separate. -/
theorem cutList_eq_iff {ps : List Text} (hps : ∀ p ∈ ps, IsParameter p) {t : Text}
    (ht : t <+: Written.parameterList ps) :
    cutList t = ps ↔ t = Written.parameterList ps ∧ Separate ps := by
  induction ps generalizing t with
  | nil =>
    obtain rfl : t = [] := List.prefix_nil.1 ht
    simp [cutList_nil, Written.parameterList, Separate]
  | cons p ps ih =>
    obtain ⟨hp, hothers⟩ := List.forall_mem_cons.1 hps
    obtain ⟨rest, hlist, hrest⟩ : ∃ rest, Written.parameterList (p :: ps) = p ++ rest ∧
        ∀ b ∈ rest.head?, b = Byte.comma := by
      refine ⟨_, rfl, ?_⟩
      cases ps <;> simp
    constructor
    · intro hcut
      have hne : t ≠ [] := by
        rintro rfl
        simp [cutList_nil] at hcut
      by_cases huncut : Uncut Byte.comma 0 t
      · rw [cutList_of_uncut huncut, ← List.append_nil (List.filter _ _)] at hcut
        obtain ⟨rfl, rfl⟩ := hp.eq_of_trim (hlist ▸ ht) hne hrest hcut
        simpa [Written.parameterList, Separate] using huncut
      · obtain ⟨q, r, rfl, hq, hzero⟩ := exists_of_not_uncut huncut
        rw [Int.zero_add] at hzero
        rw [cutList_append_comma hq hzero] at hcut
        have hprefix : q <+: p ++ rest := (List.prefix_append q _).trans (hlist ▸ ht)
        have hqne : q ≠ [] := by
          rintro rfl
          obtain ⟨b, p', hfirst, -⟩ := hp.ink.first
          rw [hlist, hfirst, List.nil_append, List.cons_append] at ht
          exact hp.comma (by rw [hfirst, (List.cons_prefix_cons.1 ht).1]; rfl)
        obtain ⟨rfl, hr⟩ := hp.eq_of_trim hprefix hqne hrest hcut
        cases ps with
        | nil =>
          have hlength := ht.length_le
          rw [Written.parameterList, List.flatMap_nil, List.append_nil, List.length_append,
            List.length_cons] at hlength
          omega
        | cons p' ps =>
          rw [parameterList_cons_cons, List.prefix_append_right_inj] at ht
          have hbehind := (List.cons_prefix_cons.1 ht).2
          cases r with
          | nil => simp [cutList_nil] at hr
          | cons c r =>
            obtain ⟨rfl, hfront⟩ := List.cons_prefix_cons.1 hbehind
            rw [cutList_space] at hr
            obtain ⟨rfl, hseparate⟩ := (ih hothers hfront).1 hr
            exact ⟨(parameterList_cons_cons ..).symm, separate_cons_cons.2 ⟨hq, hzero, hseparate⟩⟩
    · rintro ⟨rfl, hseparate⟩
      cases ps with
      | nil =>
        have huncut : Uncut Byte.comma 0 p := hseparate.1 p (.head _)
        have hsingle : Written.parameterList [p] = p := by simp [Written.parameterList]
        rw [hsingle, cutList_of_uncut huncut, hp.filter_trim]
      | cons p' ps =>
        obtain ⟨huncut, hzero, hseparate⟩ := separate_cons_cons.1 hseparate
        rw [parameterList_cons_cons, cutList_append_comma huncut hzero, hp.filter_trim,
          cutList_space, (ih hothers (List.prefix_refl _)).2 ⟨rfl, hseparate⟩]
        rfl

end Text

end PageLang
