import Earley.Parser.Closure

/-! The chart of a word, built from left to right. -/
namespace Earley.Parser

/-- The seed of every chart: the start symbol is expected from the first position on. -/
def seed (g : Grammar) : State := .initial augmentedStart [.nonterminal g.start] 0

/-- Insert the successors of those of the given states that expect the character. -/
def scanStates (c : Char) (position : Nat) : List (Nat × State) → Chart → Except Error Chart
  | [], chart => .ok chart
  | (id, state) :: rest, chart => do
    if state.next? = some (.terminal (some c)) then
      let (chart, _) ← chart.insert (← state.advance) (position + 1) [(id : Int)]
      scanStates c position rest chart
    else scanStates c position rest chart

/-- Carry the states of a position over the next character. There is none at the end. -/
def scan (position : Nat) (chart : Chart) : Except Error Chart :=
  match chart.word[position]? with
  | none => .ok chart
  | some c => do scanStates c position (← chart.statesAt position) chart

/-- Close a position, then carry its states over the next character. -/
def visit (parser : Parser) (progress : Progress) (position : Nat) : Except Error Progress := do
  let ⟨chart, log⟩ ← parser.close position progress
  let log := parser.record (.closed position chart) log
  return ⟨← scan position chart, log⟩

/-- The chart of a word, with what was logged while it was built. -/
def makeChart (parser : Parser) (word : List Char) : Except Error Progress := do
  let (chart, _) ← (Chart.empty word).insert (seed parser.grammar) 0 []
  (List.range (word.length + 1)).foldlM parser.visit ⟨chart, #[]⟩

end Earley.Parser
