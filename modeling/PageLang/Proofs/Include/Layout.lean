import Mathlib.Data.List.Chain
import Mathlib.Data.List.Range
import PageLang.Proofs.Include.Characters

/-!
# Flattened lines of one source line

A flattened line can hold bytes of several files: a directive may stand behind other text, and an
included text may lack its last newline. Where every directive starts a line of its file and every
included text ends its last line, each flattened line comes from one line of one file.

* `Sources.LinesApart`: the condition on the sources.
* `Origin.Continues`: a byte on the line of the byte before it.
* `Sources.continues_originsFrom`: a whole file with its includes.
* `Sources.lineStart_origins`: the byte at an offset and the first byte of its flattened line.
-/

namespace PageLang

/-! ## Directives in order -/

namespace MaskedText

theorem span_of_directiveAt {s : MaskedText} {directory : Path} {start : Nat} {d : Directive}
    (h : (s.directiveAt directory start).result = .ok d) :
    d.span.start = start ∧ d.span.stop = (s.directiveAt directory start).next := by
  unfold directiveAt at h ⊢
  dsimp only at h ⊢
  split at h
  · next stop b hcolon hfind =>
    split at h
    · cases h
    · next hpath =>
      cases h
      rw [if_neg hpath]
      exact ⟨rfl, rfl⟩
  · cases h

end MaskedText

/-- Directives of a text from an offset on, in order, each at the start of a line and up to its
semicolon. -/
inductive StartLines (source : Text) : (cursor : Nat) → List Directive → Prop
  | nil (cursor : Nat) : StartLines source cursor []
  | cons {cursor k : Nat} {d : Directive} {rest : List Directive} :
      cursor ≤ d.span.start → source.startsLine d.span.start → d.span.start ≤ k →
      d.span.stop = k + 1 → source[k]? = some Byte.semicolon →
      StartLines source d.span.stop rest → StartLines source cursor (d :: rest)

theorem startLines_directivesFrom {source : Text} {directory : Path} (pos : Nat) :
    ∀ cursor, cursor ≤ pos →
    (∀ d, .ok d ∈ (MaskedText.ofText .declarations source).directivesFrom directory pos →
      source.startsLine d.span.start) →
    StartLines source cursor
      (((MaskedText.ofText .declarations source).directivesFrom directory pos).filterMap
        (fun r => r.toOption)) := by
  induction pos using MaskedText.directivesFrom.induct (MaskedText.ofText .declarations source)
    directory with
  | case1 pos hfind =>
    intro cursor _ _
    rw [MaskedText.directivesFrom_none hfind]
    exact .nil cursor
  | case2 pos start hfind ih =>
    intro cursor hcursor hstarts
    rw [MaskedText.directivesFrom_some hfind] at hstarts ⊢
    have hpos := (MaskedText.indexOf?_eq_some hfind (by decide)).1
    have hnext := MaskedText.lt_next_directiveAt (.ofText .declarations source) directory start
    have htail := fun d hd => hstarts d (List.mem_cons_of_mem _ hd)
    cases hread : ((MaskedText.ofText .declarations source).directiveAt directory start).result with
    | error fault =>
      rw [List.filterMap_cons_none rfl]
      exact ih cursor (by omega) htail
    | ok d =>
      change StartLines source cursor (d :: _)
      obtain ⟨hstart, hstop⟩ := MaskedText.span_of_directiveAt hread
      obtain ⟨_, k, hk, hsemi⟩ := MaskedText.of_directiveAt hread
      rw [MaskedText.byte?_ofText] at hsemi
      refine .cons (by omega) (hstarts d (by rw [hread]; exact List.mem_cons_self)) (by omega) hk
        hsemi ?_
      exact ih _ (by omega) htail

/-! ## Bytes of one line -/

namespace Origin

/-- The origin `b` stands on the line of the origin `a`, unless a newline ends that line. -/
def Continues (a b : Origin) : Prop :=
  a.byte? = some Byte.newline ∨ a.file = b.file ∧ a.line = b.line

theorem continues_succ (file source : Text) (i : Nat) :
    Continues ⟨file, source, i⟩ ⟨file, source, i + 1⟩ := by
  by_cases hn : source[i]? = some Byte.newline
  · exact .inl hn
  · refine .inr ⟨rfl, ?_⟩
    cases hb : source[i]? with
    | none =>
      have hle := List.getElem?_eq_none_iff.1 hb
      unfold line
      rw [List.take_of_length_le hle, List.take_of_length_le (Nat.le_succ_of_le hle)]
    | some b =>
      have hne : b ≠ Byte.newline := fun e => hn (by rw [hb, e])
      unfold line
      rw [Text.newlines_take_succ hb, if_neg hne]

theorem isChain_ofRange (file source : Text) (start stop : Nat) :
    (ofRange file source start stop).IsChain Continues := by
  unfold ofRange
  rw [List.isChain_map]
  refine (List.isChain_range' _ _ 1).imp ?_
  rintro i j rfl
  exact continues_succ file source i

theorem head?_ofRange (file source : Text) (start stop : Nat) :
    (ofRange file source start stop).head? =
      if start < min stop source.length then some ⟨file, source, start⟩ else none := by
  unfold ofRange
  rw [List.head?_map, List.head?_range']
  by_cases h : start < min stop source.length
  · rw [if_neg (by omega), if_pos h]
    rfl
  · rw [if_pos (by omega), if_neg h]
    rfl

theorem getLast?_ofRange (file source : Text) (start stop : Nat) :
    (ofRange file source start stop).getLast? =
      if start < min stop source.length then some ⟨file, source, min stop source.length - 1⟩
      else none := by
  unfold ofRange
  rw [List.getLast?_map, List.getLast?_range']
  by_cases h : start < min stop source.length
  · rw [if_neg (by omega), if_pos h, Option.map_some]
    congr 2
    omega
  · rw [if_pos (by omega), if_neg h]
    rfl

/-- The last of the origins, if there is one, is a newline. -/
def Ended (os : List Origin) : Prop := ∀ o ∈ os.getLast?, o.byte? = some Byte.newline

theorem isChain_append_of_ended {a b : List Origin} (ha : a.IsChain Continues)
    (hb : b.IsChain Continues) (h : Ended a) : (a ++ b).IsChain Continues :=
  List.isChain_append.2 ⟨ha, hb, fun x hx _ _ => .inl (h x hx)⟩

theorem Ended.append {a b : List Origin} (ha : Ended a) (hb : Ended b) : Ended (a ++ b) := by
  intro o ho
  rw [List.getLast?_append] at ho
  cases hlast : b.getLast? with
  | none => exact ha o (by simpa [hlast] using ho)
  | some x => exact hb o (by simpa [hlast] using ho)

/-- What stands in front of a line ends with a newline. -/
theorem ended_ofRange {file source : Text} {start stop : Nat} (h : source.startsLine stop) :
    Ended (ofRange file source start stop) := by
  intro o ho
  rw [getLast?_ofRange] at ho
  split at ho
  · next hlt =>
    rcases h with rfl | h
    · simp at hlt
    · cases ho
      have hlen := (List.getElem?_eq_some_iff.1 h).1
      unfold byte?
      rw [show min stop source.length - 1 = stop - 1 by omega]
      exact h
  · cases ho

end Origin

namespace Sources

/-- Every directive of a file starts a line. -/
def DirectivesStartLines (name source : Text) : Prop :=
  ∀ d ∈ directivesOf name source, source.startsLine d.span.start

/-- Every directive starts a line, and every file that can be included ends its last line. -/
structure LinesApart (s : Sources) (root source : Text) : Prop where
  root : DirectivesStartLines root source
  included : ∀ name inner, s.get? name = some inner → DirectivesStartLines name inner
  ended : ∀ name inner, s.get? name = some inner → ∀ b ∈ inner.getLast?, b = Byte.newline

theorem startLines_directivesOf {name source : Text} (h : DirectivesStartLines name source) :
    StartLines source 0 (directivesOf name source) := by
  refine startLines_directivesFrom 0 0 (Nat.le_refl 0) (fun d hd => h d ?_)
  exact List.mem_filterMap.2 ⟨_, hd, rfl⟩

section
variable (s : Sources) (stack : List Text) (name : Text) {source : Text} {cursor : Nat}
  {directives : List Directive}

open Origin

/-- In front of a directive and behind it a file is itself. -/
theorem originsFrom_cons (source : Text) (cursor : Nat) (d : Directive)
    (rest : List Directive) :
    ∃ middle, s.originsFrom stack name source cursor (d :: rest) =
      ofRange name source cursor d.span.start ++
        (middle ++ s.originsFrom stack name source d.span.stop rest) := by
  by_cases hs : d.target ∈ stack
  · rw [originsFrom_kept (.inl hs), List.append_assoc]
    exact ⟨_, rfl⟩
  · cases hr : s.get? d.target with
    | none =>
      rw [originsFrom_kept (.inr hr), List.append_assoc]
      exact ⟨_, rfl⟩
    | some inner =>
      rw [originsFrom_included hs hr, List.append_assoc]
      exact ⟨_, rfl⟩

/-- Behind a directive the file goes on where the directive ends. -/
theorem head?_originsFrom (h : StartLines source cursor directives) {k : Nat}
    (hk : cursor = k + 1) (hsemi : source[k]? = some Byte.semicolon) :
    ∀ o ∈ (s.originsFrom stack name source cursor directives).head?,
      o = ⟨name, source, cursor⟩ := by
  intro o ho
  cases h with
  | nil =>
    rw [originsFrom_nil, head?_ofRange] at ho
    split at ho
    · cases ho
      rfl
    · cases ho
  | @cons _ _ d rest hcursor hline _ _ _ _ =>
    -- a line starts at the directive, but not at the cursor
    have hlt : cursor < min d.span.start source.length := by
      rcases hline with hline | hline
      · omega
      · have hlen := (List.getElem?_eq_some_iff.1 hline).1
        have hne : cursor ≠ d.span.start := by
          intro e
          rw [← e, hk, Nat.add_sub_cancel, hsemi] at hline
          cases hline
        omega
    have hhead : (ofRange name source cursor d.span.start).head? =
        some ⟨name, source, cursor⟩ := by
      rw [head?_ofRange, if_pos hlt]
    obtain ⟨middle, hmiddle⟩ := originsFrom_cons s stack name source cursor d rest
    rw [hmiddle, List.head?_append, hhead] at ho
    cases ho
    rfl

/-- Where a file ends its last line, so does what it is flattened to. -/
theorem getLast?_originsFrom (h : StartLines source cursor directives)
    (hcursor : cursor < source.length)
    (hlast : source[source.length - 1]? = some Byte.newline) :
    ∃ o, (s.originsFrom stack name source cursor directives).getLast? = some o ∧
      o.byte? = some Byte.newline := by
  induction h with
  | nil cursor =>
    rw [originsFrom_nil, getLast?_ofRange, Nat.min_self, if_pos hcursor]
    exact ⟨_, rfl, hlast⟩
  | @cons cursor k d rest _ _ _ hk hsemi _ ih =>
    -- a directive ends with a semicolon, so it is not the end of the file
    have hlt := (List.getElem?_eq_some_iff.1 hsemi).1
    have hne : k ≠ source.length - 1 := by
      intro e
      rw [e, hlast] at hsemi
      cases hsemi
    obtain ⟨o, ho, hbyte⟩ := ih (by omega)
    obtain ⟨middle, hmiddle⟩ := originsFrom_cons s stack name source cursor d rest
    refine ⟨o, ?_, hbyte⟩
    rw [hmiddle, ← List.append_assoc, List.getLast?_append, ho]
    rfl

theorem ended_originsFrom (h : StartLines source 0 directives)
    (hlast : ∀ b ∈ source.getLast?, b = Byte.newline) :
    Ended (s.originsFrom stack name source 0 directives) := by
  cases hsource : source with
  | nil =>
    have hnil : directives = [] := by
      cases h with
      | nil => rfl
      | cons _ _ _ _ hsemi _ =>
        rw [hsource] at hsemi
        cases hsemi
    rw [hnil, originsFrom_nil]
    exact ended_ofRange (.inl rfl)
  | cons b t =>
    rw [← hsource]
    have hpos : 0 < source.length := by rw [hsource]; exact Nat.succ_pos _
    have hend : source[source.length - 1]? = some Byte.newline := by
      rw [← List.getLast?_eq_getElem?]
      cases hget : source.getLast? with
      | none =>
        rw [List.getLast?_eq_none_iff.1 hget] at hpos
        cases hpos
      | some c => rw [hlast c hget]
    intro o ho
    obtain ⟨x, hx, hbyte⟩ := getLast?_originsFrom s stack name h hpos hend
    rw [hx] at ho
    cases ho
    exact hbyte

end

/-- Every byte of a flattened file stands on the source line of the byte before it, or behind a
newline. -/
theorem continues_originsFrom {s : Sources} {root text : Text} (hs : s.LinesApart root text)
    (stack : List Text) (name source : Text) (cursor : Nat) (directives : List Directive) :
    StartLines source cursor directives →
    (s.originsFrom stack name source cursor directives).IsChain Origin.Continues := by
  induction stack, name, source, cursor, directives using includeInduct (s := s) with
  | nil stack name source cursor =>
    intro _
    rw [originsFrom_nil]
    exact Origin.isChain_ofRange _ _ _ _
  | kept stack name source cursor d rest hkept ih =>
    intro h
    obtain _ | @⟨_, k, _, _, hcursor, hline, hstart, hk, hsemi, hrest⟩ := h
    have hlt := (List.getElem?_eq_some_iff.1 hsemi).1
    rw [originsFrom_kept hkept, List.append_assoc]
    refine Origin.isChain_append_of_ended (Origin.isChain_ofRange _ _ _ _) ?_
      (Origin.ended_ofRange hline)
    refine List.isChain_append.2 ⟨Origin.isChain_ofRange _ _ _ _, ih hrest, fun x hx y hy => ?_⟩
    -- the directive and what follows it are one piece of the file
    rw [Origin.getLast?_ofRange, if_pos (by omega)] at hx
    cases hx
    rw [head?_originsFrom s stack name hrest hk hsemi y hy, hk,
      show min (k + 1) source.length - 1 = k by omega]
    exact Origin.continues_succ name source k
  | included stack name source cursor d rest inner hstack hr ihInner ih =>
    intro h
    obtain _ | @⟨_, k, _, _, hcursor, hline, hstart, hk, hsemi, hrest⟩ := h
    have hinner := startLines_directivesOf (hs.included _ _ hr)
    have hended := ended_originsFrom s (d.target :: stack) d.target hinner (hs.ended _ _ hr)
    rw [originsFrom_included hstack hr]
    refine Origin.isChain_append_of_ended ?_ (ih hrest)
      ((Origin.ended_ofRange hline).append hended)
    exact Origin.isChain_append_of_ended (Origin.isChain_ofRange _ _ _ _) (ihInner hinner)
      (Origin.ended_ofRange hline)

/-! ## Whole lines -/

/-- Where each byte stands on the line of the byte before it, it stands on the line of the first
byte of its line. -/
theorem line_eq_of_isChain {os : List Origin} {t : Text} (hbytes : os.map Origin.byte? = t.map some)
    (hchain : os.IsChain Origin.Continues) {k : Nat} :
    ∀ {o o₀ : Origin}, os[k]? = some o → os[t.lineStart k]? = some o₀ →
      o₀.file = o.file ∧ o₀.line = o.line := by
  induction k with
  | zero =>
    intro o o₀ ho ho₀
    rw [Nat.le_zero.1 (Text.lineStart_le t 0), ho] at ho₀
    cases ho₀
    exact ⟨rfl, rfl⟩
  | succ k ih =>
    intro o o₀ ho ho₀
    have hlt := (List.getElem?_eq_some_iff.1 ho).1
    have hlength : os.length = t.length := by simpa using congrArg List.length hbytes
    have hb : t[k]? = some t[k] := List.getElem?_eq_getElem (by omega)
    have hbyte : os[k].byte? = some t[k] := by
      have h := congrArg (·[k]?) hbytes
      simpa [hb, List.getElem?_eq_getElem (show k < os.length by omega)] using h
    have hstep := List.isChain_iff_getElem.1 hchain k hlt
    rw [Text.lineStart_succ hb] at ho₀
    split at ho₀
    · rw [ho] at ho₀
      cases ho₀
      exact ⟨rfl, rfl⟩
    · next hne =>
      obtain ⟨hfile, hline⟩ := ih (List.getElem?_eq_getElem (by omega)) ho₀
      rw [(List.getElem?_eq_some_iff.1 ho).2] at hstep
      rcases hstep with hnewline | ⟨hfile', hline'⟩
      · rw [hbyte] at hnewline
        exact absurd (Option.some.inj hnewline) hne
      · exact ⟨hfile.trans hfile', hline.trans hline'⟩

/-- Where the lines are apart, each flattened line comes from one line of one file. -/
theorem lineStart_origins {s : Sources} {root source : Text} (hs : s.LinesApart root source)
    {t : Text} (hbytes : (s.origins root source).map Origin.byte? = t.map some) {k : Nat}
    {o o₀ : Origin} (ho : (s.origins root source)[k]? = some o)
    (ho₀ : (s.origins root source)[t.lineStart k]? = some o₀) :
    o₀.file = o.file ∧ o₀.line = o.line :=
  line_eq_of_isChain hbytes
    (continues_originsFrom hs _ _ _ _ _ (startLines_directivesOf hs.root)) ho ho₀

end Sources

end PageLang
