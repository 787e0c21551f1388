import PageLang.Diagnostic.Basic

/-!
# Where flattened lines come from

A position map lists the files that make up a flattened text, and the regions of its lines: from
which line on the text continues which line of which file. Diagnostics of the flattened text are
moved to the file and the lines they come from.

Lines of regions count from 0; lines asked for and answered count from 1.
-/

namespace PageLang

/-- A run of flattened lines that continue the lines of one file. -/
structure Region where
  flatLine : Nat
  /-- The position of the file among the files of the map. -/
  file : Nat
  line : Nat
  deriving DecidableEq

/-- The files and the regions of a flattened text. -/
structure PositionMap where
  files : List Text
  regions : List Region
  deriving DecidableEq

namespace PositionMap

/-- The map with one more region at the end. It takes the place of one that starts on the same
line. -/
def addRegion (m : PositionMap) (r : Region) : PositionMap :=
  match m.regions.getLast? with
  | some last =>
    if last.flatLine = r.flatLine then { m with regions := m.regions.dropLast ++ [r] }
    else { m with regions := m.regions ++ [r] }
  | none => { m with regions := [r] }

/-- The file and the line that a flattened line comes from. -/
def sourceLine? (m : PositionMap) (flatLine : Nat) : Option (Text × Nat) :=
  match flatLine with
  | 0 => none
  | flat + 1 => do
    let region ← (m.regions.takeWhile (fun r => r.flatLine ≤ flat)).getLast?
    let file ← m.files[region.file]?
    return (file, region.line + (flat - region.flatLine) + 1)

/-- The file that an offset of the flattened text comes from. -/
def fileAt? (m : PositionMap) (text : Text) (offset : Nat) : Option Text :=
  (m.sourceLine? (text.place offset).line).map (·.1)

/-- A diagnostic of the flattened text, moved to where its first line comes from. Its last line
counts only if it comes from the same file. -/
def relocate (m : PositionMap) (d : Diagnostic) : Diagnostic :=
  match m.sourceLine? d.line.first with
  | none => d
  | some (file, first) =>
    let last := match m.sourceLine? d.line.last with
      | some (other, line) => if other = file then line else first
      | none => first
    { d with file, line := .spanning first last }

end PositionMap

end PageLang
