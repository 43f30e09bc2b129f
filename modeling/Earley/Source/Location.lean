import Earley.Text.Field

/-! Where a position of a source lies: its line, its column, and the lines around it. Only the
newline character separates the lines of a source here. -/
namespace Earley.Source

/-- Drop the carriage returns at the end of a line. They are not shown. -/
def dropReturns (line : List Char) : List Char := (line.reverse.dropWhile (· = '\r')).reverse

/-- The lines of a source as they are shown. A source has one line more than newlines. -/
def shownLines (source : List Char) : List (List Char) :=
  (Text.fields '\n' source).map dropReturns

/-- Lines and columns count from one. The context holds line numbers in ascending order, each
with its shown line. -/
structure Location where
  line : Nat
  column : Nat
  context : List (Nat × List Char)
deriving DecidableEq

/-- The line of a position: one more than the newlines before it. -/
def lineOf (source : List Char) (position : Nat) : Nat :=
  (source.take position).count '\n' + 1

/-- The column of a position: one more than the characters between the last newline before it
and the position. -/
def columnOf (source : List Char) (position : Nat) : Nat :=
  ((source.take position).reverse.takeWhile (· ≠ '\n')).length + 1

/-- The lines numbered from `first` to `last`, as far as the source has them. -/
def window (source : List Char) (first last : Int) : List (Nat × List Char) :=
  ((shownLines source).zipIdx 1).filterMap fun (line, number) =>
    if first ≤ number ∧ number ≤ last then some (number, line) else none

/-- Locate a position, with so many lines of context before and after its line. A negative count
takes lines away again, the line of the position included. The end of the source is a position;
there is none beyond. -/
def locate? (source : List Char) (position before after : Int) : Option Location :=
  if 0 ≤ position ∧ position ≤ source.length then
    let line := lineOf source position.toNat
    some ⟨line, columnOf source position.toNat, window source (line - before) (line + after)⟩
  else none

end Earley.Source
