import Earley.Construction

/-! Context free grammars. The productions stand in the order in which their left sides were
first given, which every display and every parse follows. -/
namespace Earley

/-- A start symbol, and the alternatives of each left side. A left side has a name, and the first
entry under a name is the one that counts. -/
structure Grammar where
  start : Letter
  entries : List (Char × List Form)
deriving DecidableEq

namespace Grammar

/-- A grammar without productions. -/
def empty (start : Letter) : Grammar := ⟨start, []⟩

/-- A grammar without productions whose start symbol is the given one, which must not be a
terminal. -/
def ofStart : Symbol → Except Error Grammar
  | .terminal _ => .error (.misuse .terminalStart)
  | .nonterminal letter => .ok (empty letter)

/-- The names of the left sides, in order. -/
def heads (g : Grammar) : List Char := g.entries.map Prod.fst

/-- The productions, in order. -/
def productions (g : Grammar) : List Production :=
  g.entries.map fun (head, alternatives) => ⟨some head, alternatives⟩

/-- The alternatives of a left side. -/
def alternatives? (g : Grammar) (head : Char) : Option (List Form) := g.entries.lookup head

/-- Whether a name has a production. -/
def defines (g : Grammar) : Letter → Bool
  | none => false
  | some head => (g.alternatives? head).isSome

/-- Add alternatives to those of a left side, which becomes the last one if it is new. -/
def extend (g : Grammar) (head : Char) (alternatives : List Form) : Grammar :=
  if g.defines (some head) then
    { g with
      entries := g.entries.map fun (other, old) =>
        (other, if other = head then addAlternatives old alternatives else old) }
  else { g with entries := g.entries ++ [(head, addAlternatives [] alternatives)] }

/-- Add a production, or merge it into the one with the same left side. -/
def add (g : Grammar) (production : Production) : Except Error Grammar :=
  match production.lhs with
  | none => .error .emptyLeftSide
  | some head => .ok (g.extend head production.alternatives)

/-- The production of a name. -/
def production (g : Grammar) (name : List Char) : Except Error Production :=
  match name with
  | [head] =>
    match g.alternatives? head with
    | some alternatives => .ok ⟨some head, alternatives⟩
    | none => .error (.ofUndefined [name])
  | _ => .error (.ofUndefined [name])

/-- The names that are used: the start symbol, then each nonterminal of an alternative. -/
def used (g : Grammar) : List Letter :=
  g.start :: g.productions.flatMap fun production =>
    production.alternatives.flatMap fun alternative =>
      (Form.nonterminals alternative).map Symbol.letter

/-- The used names that have no production, ascending and each once. -/
def undefined (g : Grammar) : List (List Char) :=
  ((g.used.filter fun letter => !g.defines letter).map Option.toList).foldr
    Error.insertAscending []

/-- Whether a symbol with the empty name occurs in an alternative. -/
def hasEmptySymbol (production : Production) : Bool :=
  production.alternatives.any fun alternative =>
    alternative.any fun symbol => symbol.letter.isNone

/-- Whether the grammar can be used for parsing: every symbol has a name, and every used
nonterminal has a production. Of several faults the first in this order is reported. -/
def validate (g : Grammar) : Except Error Unit :=
  match g.productions.find? hasEmptySymbol with
  | some production => .error (.emptySymbol production)
  | none => if g.undefined.isEmpty then .ok () else .error (.ofUndefined g.undefined)

/-- How the start symbol of a new grammar is chosen. -/
inductive StartChoice where
  /-- The left side of the first production. -/
  | first
  /-- The nonterminal of the given name. -/
  | named (name : List Char)
  | given (symbol : Symbol)

/-- The start symbol that a choice gives for the productions. -/
def StartChoice.resolve (productions : List Production) : StartChoice → Except Error Symbol
  | .first =>
    match productions with
    | [] => .error .noProductions
    | production :: _ => .ok (.nonterminal production.lhs)
  | .named name => (Letter.ofName name).map .nonterminal
  | .given symbol => .ok symbol

/-- Build a valid grammar from productions. Those with the same left side are merged. -/
def build (start : StartChoice) (productions : List Production) : Except Error Grammar := do
  let initial ← ofStart (← start.resolve productions)
  let grammar ← productions.foldlM add initial
  grammar.validate
  return grammar

/-- The start symbol, then one line for each production. -/
def format (style : Style) (g : Grammar) : String :=
  "\n".intercalate (("Start symbol: " ++ (Symbol.nonterminal g.start).format style)
    :: g.productions.map (Production.format style))

/-- The grammar with name and kind of every symbol, for diagnostics. -/
def inspect (g : Grammar) : String :=
  "Grammar[start=" ++ Text.quoted g.start.toList ++ ", "
    ++ ", ".intercalate (g.productions.map Production.inspect) ++ "]"

end Grammar

end Earley
