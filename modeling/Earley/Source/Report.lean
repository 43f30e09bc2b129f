import Earley.Source.Location
import Earley.Text.Numeral

/-! Reports about a place in a source: a heading with line and column, the lines around the place
with a marker below, and a message. -/
namespace Earley.Source

/-- A report about the characters from `position` on. The marker covers at least one character,
and of a range of several lines only the first. -/
structure Report where
  title : List Char
  position : Nat
  location : Location
  markerWidth : Nat
  message : List Char
deriving DecidableEq

namespace Report

/-- How many lines are shown before and after the reported one. -/
def contextLines : Int := 2

/-- The column at which a marker ends that starts in the given line: the end of the range, or
the end of the line if the range goes on below it. -/
def markerEnd (source : List Char) (line : Nat) (stop : Location) : Nat :=
  if stop.line = line then stop.column
  else ((shownLines source)[line - 1]?.getD []).length + 1

/-- Report the range from `position` to `stop`, or a single position. The range must lie within
the source and must not be turned round. -/
def make? (source : List Char) (position : Int) (stop : Option Int) (title message : List Char) :
    Option Report := do
  let location ← locate? source position contextLines contextLines
  match stop with
  | none => some ⟨title, position.toNat, location, 1, message⟩
  | some stop =>
    let stopLocation ← locate? source stop 0 0
    if position ≤ stop then
      let width := markerEnd source location.line stopLocation - location.column
      some ⟨title, position.toNat, location, max 1 width, message⟩
    else none

/-- A line of the context behind its number. -/
def numberedLine (number : Nat) (line : List Char) : List Char :=
  Text.zeroPadded 3 number ++ ':' :: ' ' :: line

/-- The marker below the reported line, indented past a number of three digits. -/
def marker (report : Report) : List Char :=
  List.replicate (report.location.column + 4) ' ' ++ List.replicate report.markerWidth '^'

/-- The context, with the marker after the line that the report is about. -/
def excerpt (report : Report) : List (List Char) :=
  report.location.context.flatMap fun (number, line) =>
    if number = report.location.line then [numberedLine number line, report.marker]
    else [numberedLine number line]

/-- The full text: heading, excerpt and message, with empty lines in between. -/
def text (report : Report) : List Char :=
  report.title ++ " on line ".toList ++ Nat.toDigits 10 report.location.line
    ++ ':' :: Nat.toDigits 10 report.location.column
    ++ "\n\n".toList ++ Text.join ['\n'] report.excerpt ++ "\n\n".toList ++ report.message

end Report

end Earley.Source
