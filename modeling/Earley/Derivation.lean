import Earley.Chart

/-! Derivations: how a word is derived from the start symbol, rule by rule. -/
namespace Earley

/-- The rule `lhs → alternative` was applied to the last `lhs` of the form before, which gave
`result`. -/
structure Step where
  lhs : Symbol
  alternative : Form
  result : Form
deriving DecidableEq

/-- The steps lead from the start symbol to the word. The states are those of the path through
the chart that the derivation was read from, the completed seed first. -/
structure Derivation where
  word : List Char
  start : Symbol
  states : List State
  steps : List Step
deriving DecidableEq

/-- The applied rule. -/
def Step.formatRule (style : Style) (step : Step) : String :=
  (Production.mk step.lhs.letter [step.alternative]).format style

namespace Derivation

/-- Replay rules on a form. The left side of each must occur in the form that it applies to. -/
def replay (form : Form) : List State → Except Error (List Step)
  | [] => .ok []
  | state :: rest =>
    if state.lhs ∈ Form.nonterminals form then do
      let result ← form.substituteLast state.lhs state.alternative
      return ⟨state.lhs, state.alternative, result⟩ :: (← replay result rest)
    else .error (.misuse (.inapplicable state form))

/-- The form after all steps. -/
def lastForm (initial : Form) (steps : List Step) : Form :=
  (steps.getLast?.map Step.result).getD initial

/-- Read the derivation off a path through the chart: the rules of its complete states, in order.
The first of them must be the completed seed, and the last form must be the word. -/
def ofPath (chart : Chart) (path : List Nat) : Except Error Derivation := do
  let states ← path.mapM chart.state
  match states.filter State.isComplete with
  | [] => .error (.misuse .notCompleteParse)
  | seed :: rest =>
    if seed.isCompleteParse = false then .error (.misuse .notCompleteParse)
    else
      match seed.alternative with
      | [start] => do
        let steps ← replay [start] rest
        if lastForm [start] steps = .ofWord chart.word then
          return ⟨chart.word, start, states, steps⟩
        else .error (.misuse (.otherWord chart.word))
      | _ => .error (.misuse .manyStartSymbols)

def length (derivation : Derivation) : Nat := derivation.steps.length

/-- The forms from the start symbol on. -/
def sententialForms (derivation : Derivation) : List Form :=
  [derivation.start] :: derivation.steps.map Step.result

/-- Pairs of a rule and the form it leads to. The first row shows the start symbol. -/
def rows (style : Style) (derivation : Derivation) : List (String × String) :=
  ("Start", derivation.start.format style)
    :: derivation.steps.map fun step => (step.formatRule style, step.result.format style)

/-- Fill up a text with spaces on the left. -/
def alignRight (width : Nat) (text : String) : String :=
  String.ofList (List.replicate (width - text.length) ' ') ++ text

/-- One line for each row, with the rules aligned on the right. -/
def format (style : Style) (derivation : Derivation) : String :=
  let rows := derivation.rows style
  let width := rows.foldl (fun width row => max width row.1.length) 0
  "\n".intercalate (rows.map fun (rule, form) => alignRight width rule ++ "  " ++ form)

def inspect (derivation : Derivation) : String :=
  "Derivation[" ++ Text.quoted derivation.word ++ ": "
    ++ ", ".intercalate (derivation.steps.map (Step.formatRule .plain)) ++ "]"

end Derivation

end Earley
