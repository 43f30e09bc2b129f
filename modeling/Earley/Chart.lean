import Earley.Construction
import Earley.Digraph

/-! Charts: for each position of a word the states that end there. Every state has an identifier,
and beside it the identifiers of the states it was derived from. -/
namespace Earley

/-- A state of a chart, and the states it was derived from: its back-pointers. -/
structure Entry where
  state : State
  prev : List Nat
deriving DecidableEq

/-- The states stand in the order in which they were inserted, and the place of a state is its
identifier. The back-pointers of the states stand in the same order. For each position, a column
lists the identifiers there in ascending order, and an index gives the identifier of each state
there, the latest one first. -/
structure Chart where
  word : List Char
  states : Array State
  prev : Array (List Nat)
  columns : Array (Array Nat)
  indexes : Array (List (State × Nat))
deriving DecidableEq

/-- Add a back-pointer at the end, unless it is there already. The flag is raised if it is new. -/
def mergePointer (merged : List Nat × Bool) (id : Nat) : List Nat × Bool :=
  if id ∈ merged.1 then merged else (merged.1 ++ [id], true)

/-- Add back-pointers one after the other, and tell whether one of them is new. -/
def mergePointers (prev added : List Nat) : List Nat × Bool :=
  added.foldl mergePointer (prev, false)

/-- An entry behind its identifier. Back-pointers are only shown if there are any. -/
def Entry.format (style : Style) (id : Nat) (entry : Entry) : String :=
  toString id ++ " " ++ entry.state.format style
    ++ (if entry.prev.isEmpty then ""
        else " Prev: [" ++ ",".intercalate (entry.prev.map toString) ++ "]")

namespace Chart

/-- The chart of a word without states. There is a position before each character and one at
the end. -/
def empty (word : List Char) : Chart where
  word := word
  states := #[]
  prev := #[]
  columns := Array.replicate (word.length + 1) #[]
  indexes := Array.replicate (word.length + 1) []

def size (chart : Chart) : Nat := chart.states.size

/-- The state of an identifier, if there is one. -/
def state? (chart : Chart) (id : Nat) : Option State := chart.states[id]?

/-- The state of an identifier. -/
def state (chart : Chart) (id : Nat) : Except Error State :=
  match chart.state? id with
  | some state => .ok state
  | none => .error .noSuchIndex

/-- The back-pointers of an identifier, none if the chart does not have it. -/
def pointers (chart : Chart) (id : Nat) : List Nat := chart.prev[id]?.getD []

/-- The state of an identifier with its back-pointers. -/
def entry (chart : Chart) (id : Nat) : Except Error Entry := do
  return ⟨← chart.state id, chart.pointers id⟩

/-- The identifiers at a position, none beyond the last. -/
def column (chart : Chart) (position : Nat) : Array Nat := chart.columns[position]?.getD #[]

/-- The index of a position, which is empty beyond the last. -/
def index (chart : Chart) (position : Nat) : List (State × Nat) :=
  chart.indexes[position]?.getD []

/-- Refuse positions that the chart does not have. -/
def checkPosition (chart : Chart) (position : Int) : Except Error Nat :=
  if 0 ≤ position ∧ position ≤ chart.word.length then .ok position.toNat
  else .error (.noPosition position chart.word.length)

/-- The identifiers at a position, in order. -/
def idsAt (chart : Chart) (position : Int) : Except Error (List Nat) := do
  return (chart.column (← chart.checkPosition position)).toList

/-- The states at a position with their identifiers, in order. -/
def statesAt (chart : Chart) (position : Int) : Except Error (List (Nat × State)) := do
  return (← chart.idsAt position).filterMap fun id =>
    (chart.state? id).map fun state => (id, state)

/-- The identifier that the index of a position has for a state. -/
def find? (chart : Chart) (state : State) (position : Nat) : Option Nat :=
  (chart.index position).lookup state

/-- The identifier of a state at a position of the chart, if it is there. -/
def findEqual (chart : Chart) (state : State) (position : Int) : Except Error (Option Nat) := do
  return chart.find? state (← chart.checkPosition position)

/-- Store a state at a position under the next identifier, without back-pointers. -/
def store (chart : Chart) (state : State) (position : Nat) : Chart :=
  let id := chart.size
  { chart with
    states := chart.states.push state
    prev := chart.prev.push []
    columns := chart.columns.modify position fun column => column.push id
    indexes := chart.indexes.modify position fun index => (state, id) :: index }

/-- Merge back-pointers into those of an identifier, and tell whether one of them is new. -/
def mergePrev (chart : Chart) (id : Nat) (prev : List Nat) : Chart × Bool :=
  let (merged, added) := mergePointers (chart.pointers id) prev
  ({ chart with prev := chart.prev.modify id fun _ => merged }, added)

/-- Put a state at a position, or merge its back-pointers into those of the same state there.
The flag tells whether the state or one of the back-pointers is new. -/
def put (chart : Chart) (state : State) (position : Nat) (prev : List Nat) : Chart × Bool :=
  match chart.find? state position with
  | none =>
    let id := chart.size
    (((chart.store state position).mergePrev id prev).1, true)
  | some id => chart.mergePrev id prev

/-- Insert a state at a position, derived from the states with the given identifiers, and tell
whether the chart changed. One position beyond the last, states are dropped. An error does not
take back what was done to the chart before. -/
def insertInto (state : State) (position : Int) (prev : List Int) : EStateM Error Chart Bool := do
  let last := (← get).word.length
  let size := (← get).size
  if position < 0 ∨ last + 1 < position then throw (.cannotInsert state position last)
  else if position = last + 1 then return false
  else if prev.all fun id => 0 ≤ id && id < size then
    modifyGet fun chart => (chart.put state position.toNat (prev.map Int.toNat)).swap
  else throw (.misuse .danglingPointer)

/-- Insert a state into a chart that is given up if there is an error. -/
def insert (chart : Chart) (state : State) (position : Int) (prev : List Int) :
    Except Error (Chart × Bool) :=
  match (insertInto state position prev).run chart with
  | .ok changed next => .ok (next, changed)
  | .error error _ => .error error

/-- The identifier of the completed seed at the end of the word. The word matches exactly if it
is there. -/
def findMatch (chart : Chart) : Except Error (Option Nat) := do
  let states ← chart.statesAt chart.word.length
  return (states.find? fun (_, state) => state.isCompleteParse).map Prod.fst

/-- The graph of all identifiers with an edge for each back-pointer. -/
def backPointers (chart : Chart) : Digraph Nat where
  nodes := List.range chart.size
  edges := chart.prev.toList.zipIdx.flatMap fun (pointers, id) =>
    pointers.map fun source => (id, source)

/-- The states of one position with their back-pointers, a line for each. -/
def formatColumn (style : Style) (chart : Chart) (position : Nat) : String :=
  let lines := (chart.column position).toList.filterMap fun id =>
    (chart.state? id).map fun state =>
      "  " ++ (Entry.mk state (chart.pointers id)).format style id ++ "\n"
  "S(" ++ toString position ++ "): \x7b\n" ++ String.join lines ++ "\x7d"

/-- All positions, one after the other. -/
def format (style : Style) (chart : Chart) : String :=
  "\n".intercalate ((List.range chart.columns.size).map (chart.formatColumn style))

def inspect (chart : Chart) : String :=
  "Chart[" ++ Text.quoted chart.word ++ ", " ++ toString chart.size ++ " states]"

end Chart

end Earley
