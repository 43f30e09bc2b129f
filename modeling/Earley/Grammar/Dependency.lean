import Earley.Digraph
import Earley.Grammar

/-! Which nonterminals a nonterminal depends on, and which of them the start symbol reaches. -/
namespace Earley.Grammar

/-- The graph with an edge from the left side of each production to each nonterminal of its
alternatives. -/
def dependencies (g : Grammar) : Digraph Letter where
  nodes := g.heads.map some
  edges := g.productions.flatMap fun production =>
    production.alternatives.flatMap fun alternative =>
      (Form.nonterminals alternative).map fun symbol => (production.lhs, symbol.letter)

/-- The left sides that no path of dependencies connects with the start symbol, in order. A start
symbol that the graph does not have reaches none of them. How the descendants of a node are found
is left open. -/
def unreachable (g : Grammar) (descendants : Digraph Letter → Letter → Except Error (List Letter)) :
    Except Error (List Char) :=
  if g.start ∈ g.dependencies.nodeSet then do
    let reached := g.start :: (← descendants g.dependencies g.start)
    return g.heads.filter fun head => !reached.contains (some head)
  else return g.heads

end Earley.Grammar
