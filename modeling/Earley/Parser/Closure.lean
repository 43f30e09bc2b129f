import Earley.Parser

/-! Closing a position: prediction and completion are applied to all of its states, also to those
that this adds, until nothing changes. Grammars with cycles and empty alternatives take several
sweeps, since a state may be completed before another one has started to wait for it. -/
namespace Earley

/-- The number of dotted rules of a grammar: a dot before each symbol of each alternative, and
one at its end. -/
def Grammar.dottedRules (g : Grammar) : Nat :=
  (g.productions.flatMap Production.alternatives).foldr
    (fun alternative count => alternative.length + 1 + count) 0

namespace Parser

/-- No position has more states than this: each dotted rule from each origin, and two states of
the augmented start symbol. -/
def columnBound (g : Grammar) (position : Nat) : Nat := (position + 1) * g.dottedRules + 2

/-- No position needs more sweeps than this. Each but the last adds a state, or a back-pointer
from one state of the position to another. -/
def sweepBound (g : Grammar) (position : Nat) : Nat :=
  columnBound g position * columnBound g position + columnBound g position + 1

/-- The states derived from one state at a position. Before a nonterminal its alternatives are
predicted. A complete state advances the states at its origin that wait for its left side. -/
def derived (g : Grammar) (chart : Chart) (position : Nat) (state : State) :
    Except Error (List State) :=
  match state.next? with
  | some (.nonterminal letter) => do
    let production ← g.production letter.toList
    return production.alternatives.map fun alternative =>
      .initial (.nonterminal letter) alternative position
  | some (.terminal _) => .ok []
  | none => do
    let candidates ← chart.statesAt state.origin
    return candidates.filterMap fun (_, waiting) =>
      if waiting.next? = some state.lhs then waiting.advance? else none

/-- Insert states that were all derived from one state, and tell whether the chart changed. -/
def insertAll (position id : Nat) : List State → Chart → Except Error (Chart × Bool)
  | [], chart => .ok (chart, false)
  | state :: rest, chart => do
    let (chart, changed) ← chart.insert state position [(id : Int)]
    let (chart, changedLater) ← insertAll position id rest chart
    return (chart, changed || changedLater)

/-- A chart under construction, and what was logged meanwhile. -/
structure Progress where
  chart : Chart
  log : Log

/-- Log an event if the parser traces. -/
def record (parser : Parser) (event : Event) (log : Log) : Log :=
  if parser.trace then log.push event else log

/-- Insert what is derived from one state. -/
def examine (parser : Parser) (position id : Nat) (progress : Progress) :
    Except Error (Progress × Bool) := do
  let ⟨chart, log⟩ := progress
  let entry ← chart.entry id
  let log := parser.record (.examined id entry) log
  let states ← derived parser.grammar chart position entry.state
  let (chart, changed) ← insertAll position id states chart
  return (⟨chart, log⟩, changed)

/-- Examine the states at a position from an index on. The column grows meanwhile, and states
that are added are examined too. -/
def sweep (parser : Parser) (position : Nat) :
    Nat → Nat → Progress → Except Error (Progress × Bool)
  | 0, _, _ => .error (.misuse (.unboundedColumn position))
  | fuel + 1, index, progress =>
    match (progress.chart.column position)[index]? with
    | none => .ok (progress, false)
    | some id => do
      let (progress, changed) ← parser.examine position id progress
      let (progress, changedLater) ← parser.sweep position fuel (index + 1) progress
      return (progress, changed || changedLater)

/-- Sweep over a position until a sweep changes nothing. -/
def repeatSweeps (parser : Parser) (position : Nat) : Nat → Progress → Except Error Progress
  | 0, _ => .error (.misuse (.unboundedColumn position))
  | sweeps + 1, progress => do
    let bound := columnBound parser.grammar position + 1
    let (progress, changed) ← parser.sweep position bound 0 progress
    if changed then parser.repeatSweeps position sweeps progress else return progress

/-- Close a position. For a valid grammar the bounds are never met. -/
def close (parser : Parser) (position : Nat) (progress : Progress) : Except Error Progress := do
  parser.repeatSweeps position (sweepBound parser.grammar position) progress

end Parser

end Earley
