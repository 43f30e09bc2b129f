import Earley.Error

/-! Construction from parts that may not fit together: names, productions and dotted rules that
a caller supplies are refused where no such thing exists. -/
namespace Earley

/-- The name that consists of the given characters. -/
def Letter.ofName (name : List Char) : Except Error Letter :=
  match Letter.ofList? name with
  | some letter => .ok letter
  | none => .error (.misuse .longName)

/-- Put another form in place of the last occurrence of a nonterminal. A form without the
nonterminal stays as it is. -/
def Form.substituteLast (form : Form) (symbol : Symbol) (replacement : Form) : Except Error Form :=
  if symbol.isTerminal then .error (.misuse .terminalReplaced)
  else .ok ((form.replaceLast? symbol replacement).getD form)

/-- The production of a nonterminal. Repeated alternatives are kept once. -/
def Production.ofSymbol (lhs : Symbol) (alternatives : List Form) : Except Error Production :=
  match lhs with
  | .terminal _ => .error (.misuse .terminalLeftSide)
  | .nonterminal letter => .ok (.ofAlternatives letter alternatives)

namespace State

/-- The error about a dot outside of the rule. To tell the rule, its left side must be a
nonterminal, unless it has no name. -/
def dotError (lhs : Symbol) (alternative : Form) (dot : Int) : Error :=
  match lhs with
  | .terminal (some _) => .misuse .terminalLeftSide
  | _ => .dotOutOfBounds dot lhs.letter alternative

/-- The rule `lhs → alternative` with so many symbols before the dot. -/
def ofDot (lhs : Symbol) (alternative : Form) (dot origin : Int) : Except Error State :=
  if 0 ≤ dot ∧ dot ≤ alternative.length then
    .ok ⟨origin, lhs, alternative.take dot.toNat, alternative.drop dot.toNat⟩
  else .error (dotError lhs alternative dot)

/-- Every state is placed by its own rule and dot. -/
theorem ofDot_alternative (state : State) :
    ofDot state.lhs state.alternative state.before.length state.origin = .ok state := by
  have hInside : (state.before.length : Int) ≤ state.alternative.length := by
    simp only [alternative, List.length_append]
    omega
  simp [ofDot, hInside]
  simp [alternative]

/-- Move the dot over the next symbol. -/
def advance (state : State) : Except Error State :=
  match state.advance? with
  | some next => .ok next
  | none => .error (dotError state.lhs state.alternative (state.before.length + 1))

end State

end Earley
