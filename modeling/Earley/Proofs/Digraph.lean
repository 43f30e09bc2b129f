import Earley.Digraph
import Mathlib.Data.List.Basic
import Mathlib.Logic.Relation
import Mathlib.Tactic.Common

/-! Paths in finite graphs, and what is relied on of a way to find the descendants of a node. The
nodes that are computed by spreading from one of them are those at the ends of paths from there. -/
namespace Earley.Digraph

variable {α : Type} {graph : Digraph α} {source target : α}

/-- There is an edge from the source to the target. -/
def Edge (graph : Digraph α) (source target : α) : Prop := (source, target) ∈ graph.edges

/-- Finitely many edges lead from the source to the target, possibly none. -/
def Path (graph : Digraph α) : α → α → Prop := Relation.ReflTransGen graph.Edge

theorem Path.refl (source : α) : graph.Path source source := Relation.ReflTransGen.refl

theorem Edge.path (hEdge : graph.Edge source target) : graph.Path source target :=
  Relation.ReflTransGen.single hEdge

theorem Path.trans {middle : α} (hFirst : graph.Path source middle)
    (hSecond : graph.Path middle target) : graph.Path source target :=
  Relation.ReflTransGen.trans hFirst hSecond

/-- No edge leaves the nodes. -/
def Closed (graph : Digraph α) (seen : List α) : Prop :=
  ∀ ⦃source⦄, source ∈ seen → ∀ ⦃target⦄, graph.Edge source target → target ∈ seen

theorem Closed.mem_of_path {seen : List α} (hClosed : graph.Closed seen) (hSource : source ∈ seen)
    (hPath : graph.Path source target) : target ∈ seen := by
  induction hPath with
  | refl => exact hSource
  | tail _ hLast ih => exact hClosed ih hLast

variable [DecidableEq α]

theorem mem_frontier_iff {seen : List α} :
    target ∈ graph.frontier seen ↔ target ∉ seen ∧ ∃ source ∈ seen, graph.Edge source target := by
  simp only [frontier, List.mem_eraseDups, List.mem_map, List.mem_filter, Bool.and_eq_true,
    Bool.not_eq_true', List.contains_eq_mem, decide_eq_true_eq, decide_eq_false_iff_not]
  constructor
  · rintro ⟨⟨source, _⟩, ⟨hEdge, hSource, hNew⟩, rfl⟩
    exact ⟨hNew, source, hSource, hEdge⟩
  · rintro ⟨hNew, source, hSource, hEdge⟩
    exact ⟨(source, target), ⟨hEdge, hSource, hNew⟩, rfl⟩

theorem closed_of_frontier_eq_nil {seen : List α} (hNone : graph.frontier seen = []) :
    graph.Closed seen := by
  intro source hSource target hEdge
  by_contra hNew
  have hMem := mem_frontier_iff.mpr ⟨hNew, source, hSource, hEdge⟩
  rw [hNone] at hMem
  cases hMem

/-- The edges to nodes that were not met yet. -/
def unmet (graph : Digraph α) (seen : List α) : List (α × α) :=
  graph.edges.filter fun edge => !seen.contains edge.2

/-- Each round follows an edge to a node that was not met before. -/
theorem length_unmet_lt {seen : List α} {first : α} (hFirst : first ∈ graph.frontier seen) :
    (graph.unmet (seen ++ graph.frontier seen)).length < (graph.unmet seen).length := by
  obtain ⟨hNew, source, _, hEdge⟩ := mem_frontier_iff.mp hFirst
  have hFewer : (graph.unmet (seen ++ graph.frontier seen)).Sublist (graph.unmet seen) := by
    apply List.monotone_filter_right
    intro edge hEdge
    simp only [List.contains_eq_mem, List.mem_append, Bool.not_eq_true', decide_eq_false_iff_not,
      not_or] at hEdge ⊢
    exact hEdge.1
  refine Nat.lt_of_le_of_ne hFewer.length_le fun hSame => ?_
  have hMet : (source, first) ∈ graph.unmet seen := List.mem_filter.mpr ⟨hEdge, by simpa using hNew⟩
  rw [← hFewer.eq_of_length hSame] at hMet
  simpa [hFirst] using (List.mem_filter.mp hMet).2

theorem mem_spread_of_mem {rounds : Nat} {seen : List α} (hMem : source ∈ seen) :
    source ∈ graph.spread rounds seen := by
  induction rounds generalizing seen with
  | zero => exact hMem
  | succ rounds ih =>
      rw [spread]
      split
      · exact hMem
      · exact ih (List.mem_append_left _ hMem)

/-- Nothing is met that no path leads to. -/
theorem exists_path_of_mem_spread {rounds : Nat} {seen : List α}
    (hMem : target ∈ graph.spread rounds seen) : ∃ source ∈ seen, graph.Path source target := by
  induction rounds generalizing seen with
  | zero => exact ⟨target, hMem, Path.refl target⟩
  | succ rounds ih =>
      rw [spread] at hMem
      split at hMem
      · exact ⟨target, hMem, Path.refl target⟩
      · obtain ⟨middle, hMiddle, hRest⟩ := ih hMem
        rcases List.mem_append.mp hMiddle with hSeen | hFresh
        · exact ⟨middle, hSeen, hRest⟩
        · obtain ⟨_, source, hSource, hEdge⟩ := mem_frontier_iff.mp hFresh
          exact ⟨source, hSource, hEdge.path.trans hRest⟩

/-- There are rounds enough to follow every edge. -/
theorem closed_spread {rounds : Nat} {seen : List α}
    (hRounds : (graph.unmet seen).length ≤ rounds) : graph.Closed (graph.spread rounds seen) := by
  induction rounds generalizing seen with
  | zero =>
      intro source _ target hEdge
      show target ∈ seen
      by_contra hNew
      have hMem : (source, target) ∈ graph.unmet seen :=
        List.mem_filter.mpr ⟨hEdge, by simpa using hNew⟩
      rw [List.eq_nil_of_length_eq_zero (Nat.le_zero.mp hRounds)] at hMem
      cases hMem
  | succ rounds ih =>
      rw [spread]
      split
      · next hNone => exact closed_of_frontier_eq_nil hNone
      · next fresh hFresh =>
        apply ih
        obtain ⟨first, hFirst⟩ := List.exists_mem_of_ne_nil _ hFresh
        have hLess := length_unmet_lt hFirst
        omega

/-- The computed nodes are those at the ends of paths. -/
theorem mem_spread_iff :
    target ∈ graph.spread graph.edges.length [source] ↔ graph.Path source target := by
  constructor
  · intro hMem
    obtain ⟨start, hStart, hPath⟩ := exists_path_of_mem_spread hMem
    rwa [List.mem_singleton.mp hStart] at hPath
  · intro hPath
    have hClosed : graph.Closed (graph.spread graph.edges.length [source]) :=
      closed_spread (List.length_filter_le _ _)
    exact hClosed.mem_of_path (mem_spread_of_mem (List.mem_singleton_self source)) hPath

theorem mem_nodeSet_of_mem_nodes (hSource : source ∈ graph.nodes) : source ∈ graph.nodeSet :=
  List.mem_eraseDups.mpr (List.mem_append_left _ hSource)

theorem Edge.mem_nodeSet (hEdge : graph.Edge source target) : source ∈ graph.nodeSet := by
  refine List.mem_eraseDups.mpr (List.mem_append_right _ ?_)
  exact List.mem_flatMap.mpr ⟨_, hEdge, by simp⟩

/-- From a node that the graph does not have, no path leads anywhere else. -/
theorem Path.eq_of_notMem_nodeSet (hPath : graph.Path source target)
    (hAbsent : source ∉ graph.nodeSet) : target = source := by
  rcases Relation.ReflTransGen.cases_head hPath with hSame | ⟨middle, hEdge, _⟩
  · exact hSame.symm
  · exact absurd (Edge.mem_nodeSet hEdge) hAbsent

/-- What is relied on of a way to find descendants: for each node of a graph it gives the other
nodes that paths lead to, in any order. Nothing is said about nodes that the graph does not have. -/
def FindsDescendants (descendants : Digraph α → α → Except Error (List α)) : Prop :=
  ∀ graph : Digraph α, ∀ source ∈ graph.nodeSet, ∃ found, descendants graph source = .ok found ∧
    ∀ target, target ∈ found ↔ target ≠ source ∧ graph.Path source target

/-- Spreading is such a way. -/
theorem findsDescendants_descendants : FindsDescendants (@descendants α _) := by
  intro graph source hSource
  refine ⟨_, if_pos hSource, fun target => ?_⟩
  simp [mem_spread_iff, and_comm]

end Earley.Digraph
