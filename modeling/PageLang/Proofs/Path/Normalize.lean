import PageLang.Path
import PageLang.Proofs.Text.Trim

/-!
# Names of files are settled

The text of a path is read back as the same path, and a path that is normalised has nothing left to
resolve. So a file has one name however often it is asked for: the name of a name is itself.

* `Path.Readable`: the components are such as are read from a text.
* `Path.ofText_toText`: the text of a path.
* `Path.normalize_normalize`: normalising once is enough.
* `Path.key_key`: the name that a name leads to.
-/

namespace PageLang.Path

/-! ## Reading a path -/

/-- The components are such as are read from a text: not empty, not the place they stand at, and
without a separator. -/
def Readable (p : Path) : Prop :=
  ∀ c ∈ p.components, c ≠ [] ∧ c ≠ Text.ofString "." ∧ Byte.slash ∉ c

theorem notMem_of_mem_splitOn {separator : UInt8} {t piece : Text}
    (h : piece ∈ t.splitOn separator) : separator ∉ piece := by
  induction t generalizing piece with
  | nil =>
    rw [List.mem_singleton.1 h]
    exact List.not_mem_nil
  | cons b t ih =>
    obtain ⟨first, pieces, hcons⟩ := List.exists_cons_of_ne_nil (Text.splitOn_ne_nil separator t)
    have hfirst := ih (hcons ▸ List.mem_cons_self)
    rw [Text.splitOn, hcons] at h
    split at h
    · rcases List.mem_cons.1 h with rfl | h
      · exact List.not_mem_nil
      · exact ih (hcons ▸ h)
    · next hb =>
      rcases List.mem_cons.1 h with rfl | h
      · exact List.not_mem_cons_of_ne_of_not_mem (fun e => hb (by simp [e])) hfirst
      · exact ih (hcons ▸ List.mem_cons_of_mem _ h)

theorem readable_ofText (t : Text) : (ofText t).Readable := by
  intro c hc
  obtain ⟨hc, hkept⟩ := List.mem_filter.1 hc
  obtain ⟨hempty, hdot⟩ := Bool.and_eq_true_iff.1 hkept
  exact ⟨by simpa using hempty, by simpa using hdot, notMem_of_mem_splitOn hc⟩

theorem Readable.directory {p : Path} (h : p.Readable) : p.directory.Readable := by
  unfold Path.directory
  split
  · intro c hc
    cases hc
  · intro c hc
    exact h c (List.dropLast_subset _ hc)

theorem Readable.join {p q : Path} (hp : p.Readable) (hq : q.Readable) :
    (Path.join p q).Readable := by
  unfold Path.join
  split
  · exact hq
  · exact fun c hc => (List.mem_append.1 hc).elim (hp c) (hq c)

theorem splitOn_join {separator : UInt8} {first : Text} {pieces : List Text}
    (h : ∀ piece ∈ first :: pieces, separator ∉ piece) :
    Text.splitOn separator (Text.join [separator] (first :: pieces)) = first :: pieces := by
  have hjoin : Text.join [separator] (first :: pieces) =
      first ++ pieces.flatMap (separator :: ·) := by
    unfold Text.join List.intercalate
    induction pieces generalizing first with
    | nil => simp
    | cons piece pieces ih =>
      have := @ih piece (fun x hx => h x (List.mem_cons_of_mem _ hx))
      simp_all
  rw [hjoin]
  exact Text.splitOn_flatMap (h first List.mem_cons_self)
    (fun piece hpiece => h piece (List.mem_cons_of_mem _ hpiece))

/-- The components that are read from a text in which they are joined. -/
theorem Readable.components_join {p : Path} (h : p.Readable) :
    (Text.splitOn Byte.slash (Text.join [Byte.slash] p.components)).filter
      (fun c => !c.isEmpty && c != Text.ofString ".") = p.components := by
  cases hc : p.components with
  | nil => rfl
  | cons first pieces =>
    unfold Readable at h
    rw [hc] at h
    rw [splitOn_join (fun c hc => (h c hc).2.2), List.filter_eq_self]
    intro c hc
    obtain ⟨hempty, hdot, -⟩ := h c hc
    simp [hempty, hdot]

/-- A path is read back from its text. -/
theorem ofText_toText {p : Path} (h : p.Readable) : ofText p.toText = p := by
  obtain ⟨absolute, components⟩ := p
  have hcomponents := h.components_join
  cases absolute with
  | true =>
    have hsplit : Text.splitOn Byte.slash (Byte.slash :: Text.join [Byte.slash] components) =
        [] :: Text.splitOn Byte.slash (Text.join [Byte.slash] components) := by
      simp [Text.splitOn]
    simp only [ofText, toText, if_true, List.head?_cons, List.cons_append, List.nil_append]
    rw [hsplit, List.filter_cons_of_neg (by simp), hcomponents]
    simp
  | false =>
    have hhead : (Text.join [Byte.slash] components).head? ≠ some Byte.slash := by
      cases components with
      | nil => simp [Text.join, List.intercalate]
      | cons first pieces =>
        obtain ⟨hempty, -, hslash⟩ := h first List.mem_cons_self
        obtain ⟨b, rest, rfl⟩ := List.exists_cons_of_ne_nil hempty
        have hb : b ≠ Byte.slash := fun e => hslash (e ▸ List.mem_cons_self)
        cases pieces <;> simpa [Text.join, List.intercalate] using hb
    simp only [ofText, toText, Bool.false_eq_true, if_false, List.nil_append]
    rw [hcomponents, decide_eq_false hhead]

/-! ## Normalising -/

/-- Only the first component leads to a directory above. -/
def Settled (components : List Text) : Prop := up ∉ components.tail

theorem settled_nil : Settled [] := List.not_mem_nil

/-- One more component of a path that is settled. A step up takes the last one away, so it stays
only where there is none. -/
theorem Settled.resolve {components : List Text} (h : Settled components) (c : Text) :
    Settled (resolve components c) := by
  unfold Path.resolve
  split
  · unfold Settled at h ⊢
    rw [List.tail_dropLast]
    exact fun hup => h (List.dropLast_subset _ hup)
  · next hstays =>
    cases components with
    | nil => exact settled_nil
    | cons first rest =>
      intro hup
      rcases List.mem_append.1 hup with hup | hup
      · exact h hup
      · exact hstays ⟨(List.mem_singleton.1 hup).symm, List.cons_ne_nil _ _⟩

theorem settled_foldl {components : List Text} (h : Settled components) (more : List Text) :
    Settled (more.foldl resolve components) := by
  induction more generalizing components with
  | nil => exact h
  | cons c more ih => exact ih (h.resolve c)

/-- Of components that are settled none is resolved. -/
theorem Settled.foldl {components more : List Text} (h : Settled (components ++ more)) :
    more.foldl Path.resolve components = components ++ more := by
  induction more generalizing components with
  | nil => exact (List.append_nil _).symm
  | cons c more ih =>
    have hstays : Path.resolve components c = components ++ [c] := by
      refine if_neg fun hup => h ?_
      obtain ⟨first, rest, rfl⟩ := List.exists_cons_of_ne_nil hup.2
      rw [hup.1]
      simp
    rw [List.foldl_cons, hstays, ih (by simpa using h)]
    simp

/-- A normalised path has nothing left to resolve. -/
theorem normalize_normalize (p : Path) : p.normalize.normalize = p.normalize := by
  have hsettled : Settled (p.components.foldl resolve []) := settled_foldl settled_nil _
  unfold normalize
  dsimp only
  have hfold : (p.components.foldl resolve []).foldl resolve [] = p.components.foldl resolve [] :=
    Settled.foldl hsettled
  rw [hfold]

theorem mem_of_mem_resolve {components : List Text} {c d : Text}
    (h : d ∈ resolve components c) : d ∈ components ∨ d = c := by
  unfold resolve at h
  split at h
  · exact .inl (List.dropLast_subset _ h)
  · simpa using h

theorem Readable.normalize {p : Path} (h : p.Readable) : p.normalize.Readable := by
  have hmem : ∀ (more components : List Text), ∀ c ∈ more.foldl resolve components,
      c ∈ components ∨ c ∈ more := by
    intro more
    induction more with
    | nil => exact fun components c hc => .inl hc
    | cons d more ih =>
      intro components c hc
      rcases ih _ c hc with hc | hc
      · rcases mem_of_mem_resolve hc with hc | rfl
        · exact .inl hc
        · exact .inr List.mem_cons_self
      · exact .inr (List.mem_cons_of_mem _ hc)
  intro c hc
  exact h c ((hmem p.components [] c hc).resolve_left List.not_mem_nil)

/-! ## Names -/

/-- The name of the file that a name leads to is that name. -/
theorem key_key {p : Path} (h : p.Readable) : (ofText p.key).key = p.key := by
  unfold key
  rw [ofText_toText h.normalize, normalize_normalize]

end PageLang.Path
