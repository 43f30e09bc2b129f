import Earley.State
import Earley.Source.Report

/-! What can go wrong, by cause, and how it is told. -/
namespace Earley

/-- Assumptions that a caller broke. Most of them are reported without a text. -/
inductive Misuse where
  /-- A symbol name has more than one character. -/
  | longName
  /-- The left side of a production is a terminal. -/
  | terminalLeftSide
  /-- The start symbol is a terminal. -/
  | terminalStart
  /-- A terminal was to be replaced. -/
  | terminalReplaced
  /-- An error about undefined names has no name. -/
  | noNames
  /-- A position lies outside of its source, or a range is turned round. -/
  | outsideSource
  /-- The limit of a parser is negative. -/
  | negativeLimit
  /-- No production has the given handle. -/
  | unknownHandle
  /-- A search or a witness path does not start at the completed seed. -/
  | notCompleteParse
  /-- The completed seed of a witness path does not consist of the start symbol alone. -/
  | manyStartSymbols
  /-- A back-pointer refers to a state that the chart does not have. -/
  | danglingPointer
  /-- The descendants were wanted of a node that the graph does not have. -/
  | absentNode
  /-- A completed state of a witness path has a left side that the form lacks. -/
  | inapplicable (state : State) (form : Form)
  /-- A witness path does not end in the word. -/
  | otherWord (word : List Char)
  /-- The states of a position were still growing when their number exceeded every bound. -/
  | unboundedColumn (position : Nat)
deriving DecidableEq

def Misuse.message : Misuse → String
  | .danglingPointer => "back-pointers must refer to existing states"
  | .inapplicable state form => state.format .plain ++ " does not apply to " ++ form.format .plain
  | .otherWord word => "witness path does not derive " ++ Text.quoted word
  | _ => ""

inductive Error where
  /-- The empty name is the left side of a production. -/
  | emptyLeftSide
  /-- There is no production that could give the start symbol. -/
  | noProductions
  /-- A symbol with the empty name occurs in the production. -/
  | emptySymbol (production : Production)
  /-- Nonterminals are used that have no production. The names ascend. -/
  | undefined (names : List (List Char))
  /-- A source could not be read as a grammar. -/
  | malformedSource (report : Source.Report)
  /-- The dot lies outside of the rule, which is given by its left side and its alternative. -/
  | dotOutOfBounds (dot : Int) (lhs : Letter) (alternative : Form)
  /-- The chart has positions up to `last`, but was asked for another one. -/
  | noPosition (position : Int) (last : Nat)
  /-- A state was to be inserted beyond the position after the last. -/
  | cannotInsert (state : State) (position : Int) (last : Nat)
  /-- No state has the given identifier, or no symbol the given index. -/
  | noSuchIndex
  /-- The search for a derivation met more nodes than the limit allows. -/
  | limitReached (word : List Char) (limit : Int)
  | misuse (cause : Misuse)
deriving DecidableEq

namespace Error

/-- The text of an error. An index that is out of range has none. -/
def message : Error → String
  | .emptyLeftSide => "The empty character is reserved and cannot be used as non-terminal"
  | .noProductions => "Need at least one production to determine the start symbol"
  | .emptySymbol production =>
    production.format .plain ++ ": symbols must be single characters, got " ++ Text.quoted []
  | .undefined names =>
    "Undefined non-terminal" ++ (if 1 < names.length then "s" else "") ++ ": "
      ++ ", ".intercalate (names.map Text.quoted)
  | .malformedSource report => String.ofList report.text
  | .dotOutOfBounds dot lhs alternative =>
    "Dot position " ++ toString dot ++ " out of bounds for "
      ++ (if lhs.isSome then (Production.mk lhs [alternative]).format .plain
          else alternative.format .plain)
  | .noPosition position last =>
    "Position " ++ toString position ++ " out of range, chart has positions 0 to "
      ++ toString last
  | .cannotInsert state position last =>
    "Cannot insert " ++ state.format .plain ++ " at position " ++ toString position
      ++ ", chart has positions 0 to " ++ toString last
  | .noSuchIndex => ""
  | .limitReached word limit =>
    "Derivation limit of " ++ toString limit ++ " reached for " ++ Text.quoted word
  | .misuse cause => cause.message

/-- Names in ascending order, each once. Characters compare by their code points. -/
def insertAscending (name : List Char) : List (List Char) → List (List Char)
  | [] => [name]
  | head :: rest =>
    if name < head then name :: head :: rest
    else if name = head then head :: rest
    else head :: insertAscending name rest

/-- The error about the given undefined names. There must be one. -/
def ofUndefined (names : List (List Char)) : Error :=
  if names.isEmpty then .misuse .noNames
  else .undefined (names.foldr insertAscending [])

/-- The title of a report about a source that is no grammar. -/
def sourceTitle : List Char := "Grammar syntax error".toList

/-- The error about a place in a source that is no grammar. The place must lie in the source. -/
def ofSource (source : List Char) (position : Int) (stop : Option Int) (message : List Char) :
    Error :=
  match Source.Report.make? source position stop sourceTitle message with
  | some report => .malformedSource report
  | none => .misuse .outsideSource

end Error

end Earley
