import Earley.Error

/-! Finite directed graphs, given by their nodes and edges. -/
namespace Earley

/-- Nodes and edges may be listed more than once. The ends of an edge need not be listed among
the nodes, they are nodes all the same. -/
structure Digraph (α : Type) where
  nodes : List α
  edges : List (α × α)

namespace Digraph

variable {α : Type} [DecidableEq α]

/-- The nodes, those that only occur in an edge included, each once. -/
def nodeSet (graph : Digraph α) : List α :=
  (graph.nodes ++ graph.edges.flatMap fun edge => [edge.1, edge.2]).eraseDups

/-- The edges, each once. -/
def edgeSet (graph : Digraph α) : List (α × α) := graph.edges.eraseDups

/-- The ends of edges that start in a set of nodes and leave it. -/
def frontier (graph : Digraph α) (seen : List α) : List α :=
  ((graph.edges.filter fun edge => seen.contains edge.1 && !seen.contains edge.2).map
    Prod.snd).eraseDups

/-- Enlarge a set of nodes by its frontier, at most so many times, until no edge leaves it. -/
def spread (graph : Digraph α) : Nat → List α → List α
  | 0, seen => seen
  | rounds + 1, seen =>
    match graph.frontier seen with
    | [] => seen
    | fresh => graph.spread rounds (seen ++ fresh)

/-- The other nodes on paths from a node, which must be one of the graph. Every round follows an
edge that no earlier round followed, so there are no more rounds than edges. -/
def descendants (graph : Digraph α) (node : α) : Except Error (List α) :=
  if node ∈ graph.nodeSet then
    .ok ((graph.spread graph.edges.length [node]).filter fun other => other ≠ node)
  else .error (.misuse .absentNode)

end Digraph

end Earley
