import PageLang.Hierarchy.Parser

/-!
# Data imports

A data import is written `*json: name=path;` and may stand anywhere in live text. The path may be
quoted.

* `MaskedText.dataImports`: the imports of a text, and the faults of those that break the form.
-/

namespace PageLang

namespace DataImport

/-- The name and the path of an import, given what stands between the keyword and the semicolon. -/
def parse? (written : Text) : Option (Text × Text) := do
  let rest ← Text.stripStart? [Byte.colon] written.trim
  let (name, rest) ← rest.trim.identifier?
  let path ← Text.stripStart? [Byte.equals] rest.trimStart
  let path := path.trimStart
  if path.isEmpty || path.hasBlank then none
  else some (name, path.stripBytes (fun b => b == Byte.singleQuote || b == Byte.doubleQuote))

end DataImport

namespace MaskedText

/-- The import whose keyword stands at `start` and whose statement ends at `stop`. -/
def dataImport (s : MaskedText) (start stop : Nat) : Except Fault DataImport :=
  let written := (s.slice (start + 5) stop).stripEndBytes (· == Byte.semicolon)
  match DataImport.parse? written, s.byte? (stop - 1) with
  | some (name, path), some Byte.semicolon => .ok ⟨name, path, ⟨start, stop⟩⟩
  | _, _ => .error ⟨.dataImport, ⟨start, stop⟩⟩

/-- The imports from `pos` on, faulty ones included, in order. -/
def dataImportsFrom (s : MaskedText) (pos : Nat) : List (Except Fault DataImport) :=
  match hfind : s.indexOf? "*json" pos with
  | none => []
  | some start =>
    s.dataImport start (s.statementEnd start) ::
      s.dataImportsFrom (max (s.statementEnd start) (start + 1))
termination_by s.size - pos
decreasing_by
  have h := indexOf?_eq_some hfind (by decide)
  have h1 : (Text.ofString "*json").length = 5 := by decide
  omega

/-- The imports of a text in order, and the faults of the faulty ones in order. -/
def dataImports (s : MaskedText) : List DataImport × List Fault :=
  let found := s.dataImportsFrom 0
  (found.filterMap (fun r => r.toOption),
    found.filterMap (fun r => match r with | .error fault => some fault | .ok _ => none))

end MaskedText

end PageLang
