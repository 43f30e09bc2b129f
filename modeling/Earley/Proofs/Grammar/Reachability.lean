import Earley.Grammar.Dependency
import Earley.Proofs.Digraph
import Earley.Proofs.Grammar.Drafting
import Earley.Proofs.Grammar.Validity

/-! Which nonterminals a start symbol reaches. A path of dependencies leads to the same ones as
deriving forms does, whether or not these forms derive a word, and whether or not the nonterminals
on the way have productions. -/
namespace Earley

namespace Grammar

variable {g : Grammar} {letter : Letter}

/-- If no left side is listed twice, every entry is the one that a lookup finds. -/
theorem produces_of_mem_entries (hHeads : g.heads.Nodup) {head : Char} {alternatives : List Form}
    {alternative : Form} (hEntry : (head, alternatives) ∈ g.entries)
    (hMem : alternative ∈ alternatives) : g.Produces head alternative :=
  ⟨alternatives, lookup_eq_some_of_mem hHeads hEntry, hMem⟩

/-- Every entry counts for the graph, also one that no lookup finds. -/
theorem edge_dependencies_iff_mem {source target : Letter} :
    g.dependencies.Edge source target ↔ ∃ head alternatives alternative, source = some head ∧
      (head, alternatives) ∈ g.entries ∧ alternative ∈ alternatives ∧
        .nonterminal target ∈ alternative := by
  simp only [Digraph.Edge, dependencies, productions, List.mem_flatMap, List.mem_map]
  constructor
  · rintro ⟨_, ⟨⟨head, alternatives⟩, hEntry, rfl⟩, alternative, hMem, symbol, hSymbol, hSame⟩
    obtain ⟨rfl, rfl⟩ := Prod.mk.inj hSame
    have hInside := mem_map_letter_nonterminals_iff.mp (List.mem_map_of_mem hSymbol)
    exact ⟨head, alternatives, alternative, rfl, hEntry, hMem, hInside⟩
  · rintro ⟨head, alternatives, alternative, rfl, hEntry, hMem, hInside⟩
    obtain ⟨symbol, hSymbol, rfl⟩ :=
      List.mem_map.mp (mem_map_letter_nonterminals_iff.mpr hInside)
    exact ⟨_, ⟨_, hEntry, rfl⟩, alternative, hMem, symbol, hSymbol, rfl⟩

theorem edge_dependencies_iff (hHeads : g.heads.Nodup) {source target : Letter} :
    g.dependencies.Edge source target ↔ ∃ head alternative, source = some head ∧
      g.Produces head alternative ∧ .nonterminal target ∈ alternative := by
  rw [edge_dependencies_iff_mem]
  constructor
  · rintro ⟨head, alternatives, alternative, rfl, hEntry, hMem, hInside⟩
    exact ⟨head, alternative, rfl, produces_of_mem_entries hHeads hEntry hMem, hInside⟩
  · rintro ⟨head, alternative, rfl, hRule, hInside⟩
    obtain ⟨alternatives, hEntry, hMem⟩ := hRule.mem_entries
    exact ⟨head, alternatives, alternative, rfl, hEntry, hMem, hInside⟩

/-- The nonterminal occurs in a form that is derived from the start symbol. -/
def Occurs (g : Grammar) (letter : Letter) : Prop :=
  ∃ form, g.Derives [.nonterminal g.start] form ∧ .nonterminal letter ∈ form

/-- Each edge is followed by applying the rule that it comes from. -/
theorem occurs_of_path (hHeads : g.heads.Nodup) (hPath : g.dependencies.Path g.start letter) :
    g.Occurs letter := by
  induction hPath with
  | refl => exact ⟨_, Derives.refl _, List.mem_singleton_self _⟩
  | tail _ hLast ih =>
      obtain ⟨form, hForm, hMem⟩ := ih
      obtain ⟨head, alternative, rfl, hRule, hInside⟩ := (edge_dependencies_iff hHeads).mp hLast
      obtain ⟨before, after, rfl⟩ := List.append_of_mem hMem
      refine ⟨before ++ alternative ++ after, ?_, by simp [hInside]⟩
      exact Relation.ReflTransGen.tail hForm (Rewrites.rule before after hRule)

/-- What a rule brings into a form depends on the left side that it replaces. -/
theorem path_of_derives (hHeads : g.heads.Nodup) {form : Form}
    (hForm : g.Derives [.nonterminal g.start] form) (hMem : .nonterminal letter ∈ form) :
    g.dependencies.Path g.start letter := by
  induction hForm generalizing letter with
  | refl =>
      obtain rfl : letter = g.start := by simpa using hMem
      exact Digraph.Path.refl _
  | tail _ hLast ih =>
      cases hLast with
      | @rule head alternative before after hRule =>
          simp only [List.mem_append] at hMem
          rcases hMem with (hBefore | hInside) | hAfter
          · exact ih (by simp [hBefore])
          · have hEdge : g.dependencies.Edge (some head) letter :=
              (edge_dependencies_iff hHeads).mpr ⟨head, alternative, rfl, hRule, hInside⟩
            exact (ih (by simp)).trans hEdge.path
          · exact ih (by simp [hAfter])

theorem path_dependencies_iff (hHeads : g.heads.Nodup) :
    g.dependencies.Path g.start letter ↔ g.Occurs letter := by
  constructor
  · exact occurs_of_path hHeads
  · rintro ⟨form, hForm, hMem⟩
    exact path_of_derives hHeads hForm hMem

/-- These are the left sides that the start symbol does not reach. -/
def Unreached (g : Grammar) (names : List Char) : Prop :=
  ∀ head, head ∈ names ↔ head ∈ g.heads ∧ ¬ g.dependencies.Path g.start (some head)

/-- The start symbol counts among the reached nonterminals, and if the graph does not have it, then
no left side is reached. -/
theorem unreachable_eq_ok {descendants : Digraph Letter → Letter → Except Error (List Letter)}
    (hFinds : Digraph.FindsDescendants descendants) (g : Grammar) :
    ∃ names, g.unreachable descendants = .ok names ∧ names.Sublist g.heads ∧
      g.Unreached names := by
  by_cases hStart : g.start ∈ g.dependencies.nodeSet
  · obtain ⟨found, hFound, hMem⟩ := hFinds g.dependencies g.start hStart
    have hReached (letter : Letter) :
        letter ∈ g.start :: found ↔ g.dependencies.Path g.start letter := by
      rw [List.mem_cons, hMem]
      by_cases hSame : letter = g.start
      · simp [hSame, Digraph.Path.refl]
      · simp [hSame]
    refine ⟨g.heads.filter fun head => !(g.start :: found).contains (some head), ?_,
      List.filter_sublist, fun head => ?_⟩
    · rw [unreachable, if_pos hStart, hFound]
      rfl
    · rw [List.mem_filter, ← hReached]
      simp
  · refine ⟨g.heads, if_neg hStart, List.Sublist.refl _, fun head => ?_⟩
    refine ⟨fun hHead => ⟨hHead, fun hPath => hStart ?_⟩, And.left⟩
    rw [← hPath.eq_of_notMem_nodeSet hStart]
    exact Digraph.mem_nodeSet_of_mem_nodes (List.mem_map_of_mem hHead)

end Grammar

namespace Draft

/-- Whatever was done to a draft, the unreachable left sides of its grammar are listed each once and
in the order in which they were added. They are those that occur in no form derived from the start
symbol, which need not have a production itself. -/
theorem unreachable_exact {descendants : Digraph Letter → Letter → Except Error (List Letter)}
    (hFinds : Digraph.FindsDescendants descendants) (start : Letter)
    (operations : List Operation) :
    (∀ more, (afterAll start operations).grammar.heads <+:
        (afterAll start (operations ++ more)).grammar.heads) ∧
      ∃ names, (afterAll start operations).grammar.unreachable descendants = .ok names ∧
        names.Sublist (afterAll start operations).grammar.heads ∧ names.Nodup ∧
        ∀ head, head ∈ names ↔ head ∈ (afterAll start operations).grammar.heads ∧
          ∀ form, (afterAll start operations).grammar.Derives [.nonterminal start] form →
            .nonterminal (some head) ∉ form := by
  have hKeyed := keyed_afterAll start operations
  have hHeads := hKeyed.nodup_heads_grammar
  have hStart : (afterAll start operations).grammar.start = start := hKeyed.start_eq
  obtain ⟨names, hNames, hOrder, hMem⟩ :=
    Grammar.unreachable_eq_ok hFinds (afterAll start operations).grammar
  refine ⟨heads_afterAll_isPrefix start operations, names, hNames, hOrder, hOrder.nodup hHeads,
    fun head => ?_⟩
  rw [hMem, Grammar.path_dependencies_iff hHeads, Grammar.Occurs, hStart]
  simp

/-- A production of `A` that needs the start symbol `S`, which itself has none. -/
def backward : List Operation :=
  [.create (.nonterminal (some 'A')) [[.nonterminal (some 'S')]], .add 0]

theorem unreachable_exact_backward :
    Digraph.FindsDescendants (@Digraph.descendants Letter _) ∧
      (afterAll (some 'S') backward).grammar.unreachable Digraph.descendants = .ok ['A'] ∧
      (afterAll (some 'T') backward).grammar.unreachable Digraph.descendants = .ok ['A'] ∧
      ∀ form, (afterAll (some 'S') backward).grammar.Derives [.nonterminal (some 'S')] form →
        .nonterminal (some 'A') ∉ form := by
  have hFinds : Digraph.FindsDescendants (@Digraph.descendants Letter _) :=
    Digraph.findsDescendants_descendants
  have hNames : (afterAll (some 'S') backward).grammar.unreachable Digraph.descendants =
      .ok ['A'] := by decide
  obtain ⟨_, names, hFound, _, _, hMem⟩ := unreachable_exact hFinds (some 'S') backward
  rw [hNames] at hFound
  cases hFound
  exact ⟨hFinds, hNames, by decide, ((hMem 'A').mp (List.mem_singleton_self _)).2⟩

end Draft

end Earley
