import Earley.Production

/-! Parse states: rules with a dot that separates what was matched from what is still expected.
A state does not know what it was derived from; the chart keeps that beside it. -/
namespace Earley

/-- The rule `lhs → before after`, matched as far as `before` from position `origin` on. The
dot lies between the two parts, so it cannot lie outside of the rule. -/
structure State where
  origin : Int
  lhs : Symbol
  before : Form
  after : Form
deriving DecidableEq

/-- The left side above the start symbol. Its name is empty, so no symbol of a valid grammar
equals it. -/
def augmentedStart : Symbol := .nonterminal none

/-- The sign for the dot. -/
def dotSign : Char := '•'

namespace State

/-- The whole right side, without regard to the dot. -/
def alternative (state : State) : Form := state.before ++ state.after

/-- The rule with the dot in front of it. -/
def initial (lhs : Symbol) (alternative : Form) (origin : Int) : State :=
  ⟨origin, lhs, [], alternative⟩

def isComplete (state : State) : Bool := state.after.isEmpty

/-- Whether the start symbol was matched as a whole. -/
def isCompleteParse (state : State) : Bool := state.lhs = augmentedStart && state.isComplete

/-- The symbol expected next. A complete state expects none. -/
def next? (state : State) : Option Symbol := state.after.head?

/-- Move the dot over the next symbol. A complete state has no successor. -/
def advance? (state : State) : Option State :=
  match state.after with
  | [] => none
  | symbol :: rest => some { state with before := state.before ++ [symbol], after := rest }

/-- Advancing moves the dot and changes nothing else. -/
theorem alternative_of_advance? {state next : State} (hAdvance : state.advance? = some next) :
    next.alternative = state.alternative ∧ next.lhs = state.lhs ∧ next.origin = state.origin := by
  unfold advance? at hAdvance
  split at hAdvance
  · simp at hAdvance
  · next symbol rest hAfter =>
    obtain rfl := Option.some.inj hAdvance
    simp [alternative, hAfter]

/-- The rule with its dot, then the origin. An empty rule shows the sign for the empty form in
front of its dot. -/
def format (style : Style) (state : State) : String :=
  let before :=
    if state.alternative.isEmpty then Form.format style []
    else String.join (state.before.map (Symbol.format style))
  "(" ++ state.lhs.format style ++ " -> " ++ before ++ String.singleton dotSign
    ++ String.join (state.after.map (Symbol.format style)) ++ " ; " ++ toString state.origin ++ ")"

def inspect (state : State) : String := "ParseState" ++ state.format .plain

end State

end Earley
