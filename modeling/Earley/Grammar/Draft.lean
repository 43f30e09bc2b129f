import Earley.Grammar

/-! Grammars under construction. Productions can still grow after they were added, so a draft
refers to them by handles, and the grammar shows what they have become. -/
namespace Earley

/-- Handles count the productions in the order in which they were made. Each left side of the
grammar stands for one production, the first that was added for it. -/
structure Draft where
  start : Letter
  productions : Array Production
  heads : List (Char × Nat)

namespace Draft

/-- A draft without productions. The start symbol must not be a terminal. -/
def ofStart : Symbol → Except Error Draft
  | .terminal _ => .error (.misuse .terminalStart)
  | .nonterminal letter => .ok ⟨letter, #[], []⟩

/-- Make a production without adding it to the grammar. Its handle is returned. -/
def create (draft : Draft) (lhs : Symbol) (alternatives : List Form) :
    Except Error (Draft × Nat) := do
  let production ← Production.ofSymbol lhs alternatives
  return ({ draft with productions := draft.productions.push production }, draft.productions.size)

/-- The production with the given handle, as it is now. -/
def production (draft : Draft) (handle : Nat) : Except Error Production :=
  match draft.productions[handle]? with
  | some production => .ok production
  | none => .error (.misuse .unknownHandle)

/-- Add alternatives to a production. They show in the grammar if the production stands in it. -/
def grow (draft : Draft) (handle : Nat) (alternatives : List Form) : Draft :=
  { draft with
    productions := draft.productions.modify handle fun production =>
      { production with alternatives := addAlternatives production.alternatives alternatives } }

/-- Add one alternative to a production, and tell whether it is new there. -/
def addAlternative (draft : Draft) (handle : Nat) (alternative : Form) :
    Except Error (Draft × Bool) := do
  let production ← draft.production handle
  return (draft.grow handle [alternative], !production.contains alternative)

/-- Add a production to the grammar. If another one stands there for its left side, that one
takes over the alternatives, and the two stay apart from then on. -/
def add (draft : Draft) (handle : Nat) : Except Error Draft := do
  let production ← draft.production handle
  match production.lhs with
  | none => .error .emptyLeftSide
  | some head =>
    match draft.heads.lookup head with
    | none => return { draft with heads := draft.heads ++ [(head, handle)] }
    | some present => return draft.grow present production.alternatives

/-- The grammar as it is now. -/
def grammar (draft : Draft) : Grammar where
  start := draft.start
  entries := draft.heads.filterMap fun (head, handle) =>
    (draft.productions[handle]?).map fun production => (head, production.alternatives)

/-- The productions with the given handles, one for each. -/
def listed (productions : Array Production) (handles : List (Fin productions.size)) :
    List Production :=
  handles.map fun handle => productions[handle]

/-- Build a valid grammar from listed productions, of which one may be listed more than once. Those
with the same left side are merged into the first of them. -/
def build (start : Grammar.StartChoice) (productions : Array Production)
    (handles : List (Fin productions.size)) : Except Error Draft := do
  let initial ← ofStart (← start.resolve (listed productions handles))
  let draft ← handles.foldlM (fun draft handle => draft.add handle) { initial with productions }
  draft.grammar.validate
  return draft

end Draft

end Earley
