import Earley.Grammar
import Earley.Text.Line

/-! Grammars as text, one production in a row. A character is a nonterminal exactly if it is the
left side of some row, so symbols can only be told apart once all rows are known. -/
namespace Earley.Grammar

/-- What can be wrong in a source. -/
inductive Fault where
  /-- A row has no arrow. -/
  | missingArrow
  /-- There is more than one character on the left. -/
  | wideLeftSide (left : List Char)
  /-- The character on the left has a meaning of its own on the right. -/
  | reservedLeftSide (left : Char)
  /-- The sign for the empty form stands beside other symbols. -/
  | mixedEpsilon
  /-- No row is a production. -/
  | noProduction
deriving DecidableEq

def Fault.message : Fault → String
  | .missingArrow =>
    "Expected " ++ Text.quoted ['-', '>'] ++ " or " ++ Text.quoted ['→'] ++ " in production"
  | .wideLeftSide left =>
    "Left side must be a single non-terminal character, got " ++ Text.quoted left
  | .reservedLeftSide left => "Character " ++ Text.quoted [left] ++ " is reserved"
  | .mixedEpsilon =>
    "Epsilon " ++ Text.quoted [epsilon] ++ " must be the only symbol of its alternative"
  | .noProduction => "Grammar does not contain any production"

/-- A fault and its place in the source. Without an end it is a single position. -/
structure Flaw where
  position : Nat
  stop : Option Nat
  fault : Fault
deriving DecidableEq

/-- The error about a flaw of a source. -/
def Flaw.toError (source : List Char) (flaw : Flaw) : Error :=
  .ofSource source flaw.position (flaw.stop.map fun (n : Nat) => (n : Int))
    flaw.fault.message.toList

/-- The sign between alternatives. -/
def alternativeSeparator : Char := '|'

/-- The sign that starts a comment. -/
def commentSign : Char := '#'

/-- One alternative without its blanks, and where in the source it begins: after the arrow or
the separator, before any blank. -/
structure Cell where
  position : Nat
  letters : List Char
deriving DecidableEq

/-- A row that is a production. -/
structure Row where
  head : Char
  cells : List Cell
deriving DecidableEq

/-- Cut a row at its first arrow, in either spelling: what stands before it, the arrow, and what
comes after. -/
def splitArrow? : List Char → Option (List Char × List Char × List Char)
  | [] => none
  | '→' :: rest => some ([], ['→'], rest)
  | '-' :: '>' :: rest => some ([], ['-', '>'], rest)
  | c :: rest => (splitArrow? rest).map fun (before, arrow, after) => (c :: before, arrow, after)

/-- The cells of the fields of a right side, the first of which begins at the position. -/
def Cell.ofFields (position : Nat) : List (List Char) → List Cell
  | [] => []
  | field :: others =>
    ⟨position, Text.removeBlanks field⟩ :: Cell.ofFields (position + field.length + 1) others

/-- Read a row that begins at the position. Blank rows, comments, and rows with nothing but
blanks before the arrow give no production. -/
def Row.read (position : Nat) (text : List Char) : Except Flaw (Option Row) :=
  match Text.trim text with
  | [] => .ok none
  | first :: _ =>
    if first = commentSign then .ok none
    else
      match splitArrow? text with
      | none => .error ⟨position, none, .missingArrow⟩
      | some (before, arrow, after) =>
        let leftPosition := position + (before.takeWhile Text.isBlank).length
        match Text.trim before with
        | [] => .ok none
        | [head] =>
          if head = alternativeSeparator ∨ head = epsilon then
            .error ⟨leftPosition, none, .reservedLeftSide head⟩
          else
            .ok (some ⟨head, Cell.ofFields (position + before.length + arrow.length)
              (Text.fields alternativeSeparator after)⟩)
        | left => .error ⟨leftPosition, some (leftPosition + left.length), .wideLeftSide left⟩

/-- Read lines that begin at the position, up to the first flaw. -/
def readRows (position : Nat) : List Text.Line → Except Flaw (List Row)
  | [] => .ok []
  | line :: rest => do
    let row ← Row.read position line.content
    let rows ← readRows (position + line.width) rest
    return row.toList ++ rows

/-- Read a cell. The empty form is written by its sign or by nothing. -/
def Cell.read (heads : List Char) (cell : Cell) : Except Flaw Form :=
  if cell.letters = [epsilon] then .ok []
  else if cell.letters.contains epsilon then .error ⟨cell.position, none, .mixedEpsilon⟩
  else
    .ok (cell.letters.map fun c =>
      if heads.contains c then Symbol.nonterminal (some c) else Symbol.terminal (some c))

/-- Add the productions of rows to a grammar, up to the first flaw. -/
def extendByRows (heads : List Char) (g : Grammar) : List Row → Except Flaw Grammar
  | [] => .ok g
  | row :: rest => do
    let alternatives ← row.cells.mapM (Cell.read heads)
    extendByRows heads (g.extend row.head alternatives) rest

/-- The grammar that a source says, or its first flaw. The left sides of all rows are judged
before any right side. The first row gives the start symbol. -/
def ofSource (source : List Char) : Except Flaw Grammar := do
  match ← readRows 0 (Text.Line.ofText source) with
  | [] => .error ⟨0, none, .noProduction⟩
  | row :: rest =>
    extendByRows ((row :: rest).map Row.head) (empty (some row.head)) (row :: rest)

/-- Read a valid grammar. -/
def read (source : List Char) : Except Error Grammar :=
  match ofSource source with
  | .error flaw => .error (flaw.toError source)
  | .ok g => g.validate.map fun _ => g

end Earley.Grammar
