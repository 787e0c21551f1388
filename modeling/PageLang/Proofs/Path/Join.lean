import PageLang.Proofs.Path.Normalize

/-!
# Normalising a path taken from a directory

Normalising goes through the components from the first to the last, and what it has kept is
settled: it would be kept again. So it does not matter whether a directory is normalised before
another path is taken from it, and normalising twice is normalising once. Both hold of the
components as of the texts that are written.

* `Path.joinText`: a path taken from a directory, as texts.
* `Path.ofText_joinText`: it reads as the one path taken from the other.
* `Path.normalize_join`: normalising the directory first changes nothing.
* `Path.key_joinText`: both laws, for paths and for the names of files.
-/

namespace PageLang.Path

/-- The text of a path taken from a directory. A separator is put between the two unless the
directory is empty or ends with one, and a path from the root stands for itself. -/
def joinText (directory t : Text) : Text :=
  if t.head? = some Byte.slash then t
  else if directory = [] ∨ directory.getLast? = some Byte.slash then directory ++ t
  else directory ++ Byte.slash :: t

/-! ## Texts -/

variable {directory t u : Text}

/-- The components behind a separator follow those in front of it. -/
theorem components_append_slash (t u : Text) :
    (ofText (t ++ Byte.slash :: u)).components = (ofText t).components ++ (ofText u).components := by
  simp only [ofText, Text.splitOn_append, List.filter_append]

theorem components_of_getLast? (h : directory.getLast? = some Byte.slash) (t : Text) :
    (ofText (directory ++ t)).components = (ofText directory).components ++ (ofText t).components := by
  obtain ⟨front, rfl⟩ := List.getLast?_eq_some_iff.1 h
  have hempty : (ofText []).components = [] := rfl
  rw [List.append_assoc, List.singleton_append, components_append_slash, components_append_slash,
    hempty, List.append_nil]

theorem absolute_append (h : directory ≠ []) (t : Text) :
    (ofText (directory ++ t)).absolute = (ofText directory).absolute := by
  obtain ⟨b, rest, rfl⟩ := List.exists_cons_of_ne_nil h
  rfl

/-- The text of a path taken from a directory reads as that path. -/
theorem ofText_joinText (directory t : Text) :
    ofText (joinText directory t) = (ofText directory).join (ofText t) := by
  unfold joinText
  by_cases hroot : t.head? = some Byte.slash
  · have habsolute : (ofText t).absolute = true := by simp [ofText, hroot]
    rw [if_pos hroot, Path.join, if_pos habsolute]
  · have habsolute : ¬ (ofText t).absolute = true := by simp [ofText, hroot]
    rw [if_neg hroot, Path.join, if_neg habsolute]
    by_cases hne : directory = []
    · subst hne
      have hrelative : (ofText t).absolute = false := by simpa using habsolute
      rw [if_pos (.inl rfl), List.nil_append]
      exact congrArg (Path.mk · (ofText t).components) hrelative
    · split
      · next h =>
        exact congr (congrArg Path.mk (absolute_append hne t))
          (components_of_getLast? (h.resolve_left hne) t)
      · exact congr (congrArg Path.mk (absolute_append hne _)) (components_append_slash _ t)

/-! ## Normalising -/

/-- Whether a directory is normalised before a path is taken from it does not matter. -/
theorem normalize_join (p q : Path) : (p.normalize.join q).normalize = (p.join q).normalize := by
  unfold Path.join
  split
  · rfl
  · have hsettled : p.normalize.components.foldl resolve [] = p.normalize.components :=
      congrArg Path.components p.normalize_normalize
    refine congrArg (Path.mk p.absolute) ?_
    rw [List.foldl_append, List.foldl_append, hsettled]
    rfl

/-- Normalising twice is normalising once, and a directory may be normalised before a path is taken
from it. So it is with paths, and with the names of the files that texts lead to: the name of a name
is the name, and a path taken from the name of a directory has the name that it has taken from the
directory. -/
theorem key_joinText :
    (∀ p q : Path, p.normalize.normalize = p.normalize ∧
      (p.join q).normalize = (p.normalize.join q).normalize) ∧
    ∀ t u : Text, (ofText (ofText t).key).key = (ofText t).key ∧
      ofText (joinText t u) = (ofText t).join (ofText u) ∧
      (ofText (joinText t u)).key = (ofText (joinText (ofText t).key u)).key := by
  refine ⟨fun p q => ⟨p.normalize_normalize, (p.normalize_join q).symm⟩, fun t u => ?_⟩
  have hreadable : (ofText t).Readable := readable_ofText t
  have hname : ofText (ofText t).key = (ofText t).normalize := ofText_toText hreadable.normalize
  refine ⟨key_key hreadable, ofText_joinText t u, ?_⟩
  rw [ofText_joinText, ofText_joinText, hname, key, key, normalize_join]

/-- A step up that normalising keeps is taken away by the one that follows. -/
example : (ofText "a/../..").key = Text.ofString ".." ∧
    (ofText (joinText "a/../.." "../b")).key = Text.ofString "b" := by decide

end PageLang.Path
