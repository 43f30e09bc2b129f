import Earley.Proofs.Chart.Growth
import Earley.Proofs.Derivation.Replay
import Mathlib.Data.List.Chain

/-! The search and the replay of what it finds. The search makes a form of the start symbol while it
goes along, and leaves out the states that do not apply. A derivation is read off the path later, by
code that knows nothing of that form and refuses what does not apply. Both come to the same forms,
on every chart that insertions can make. -/
namespace Earley.Derivation

variable {chart : Chart}

/-- The path of the last of the nodes runs through all of them. -/
theorem path_of_isChain {node : Node} {rest : List Node}
    (hChain : (node :: rest).IsChain (Node.Child chart)) :
    ((node :: rest).getLast (List.cons_ne_nil _ _)).path = node.path ++ rest.map Node.last := by
  induction rest generalizing node with
  | nil => simp
  | cons child rest ih =>
      obtain ⟨hChild, hRest⟩ := List.isChain_cons_cons.mp hChain
      rw [List.getLast_cons_cons, ih hRest, hChild.path]
      simp

/-- Replaying the states of the nodes after the first leads from form to form as the search did. -/
theorem exists_replays_of_isChain {node : Node} {rest : List Node}
    (hChain : (node :: rest).IsChain (Node.Child chart)) :
    ∃ states steps, (rest.map Node.last).mapM chart.state = .ok states ∧
      Replays node.form (states.filter State.isComplete) steps
        ((node :: rest).getLast (List.cons_ne_nil _ _)).form ∧
      steps.map Step.result = (rest.filter (Node.completes chart)).map Node.form := by
  induction rest generalizing node with
  | nil => exact ⟨[], [], rfl, Replays.nil node.form, rfl⟩
  | cons child rest ih =>
      obtain ⟨hChild, hRest⟩ := List.isChain_cons_cons.mp hChain
      obtain ⟨states, steps, hStates, hReplays, hForms⟩ := ih hRest
      obtain ⟨state, first, hState, hFirst, hForm⟩ := hChild.replays
      refine ⟨state :: states, first ++ steps, ?_, ?_, ?_⟩
      · rw [List.map_cons, List.mapM_cons, bind_of_eq_ok (Chart.state_eq_ok_iff.mpr hState),
          bind_of_eq_ok hStates]
        rfl
      · rw [← List.singleton_append, List.filter_append, List.getLast_cons_cons]
        exact hFirst.append hReplays
      · rw [List.map_append, hForm, hForms, ← List.map_append, ← List.filter_append,
          List.singleton_append]

theorem pointers_of_isChain {nodes : List Node} (hChain : nodes.IsChain (Node.Child chart)) :
    (nodes.map Node.last).IsChain fun later earlier => earlier ∈ chart.pointers later := by
  rw [List.isChain_map]
  refine hChain.imp ?_
  intro node child hChild
  obtain ⟨id, hPointer, _, _, hExtend⟩ := Node.child_iff.mp hChild
  rw [(Node.extend?_eq_some_iff.mp hExtend).1]
  exact hPointer

/-- A path that the search gives runs through nodes of which each is a child of the one before. -/
theorem exists_isChain_of_findPath {id : Nat} {state : State} (hState : chart.state? id = some state)
    (hComplete : state.isCompleteParse = true) {limit : Int} {trace : Bool} {path : List Nat}
    (hPath : (findPath chart id limit trace).1 = .ok (some path)) :
    ∃ rest : List Node, (⟨id, [], state.alternative⟩ :: rest).IsChain (Node.Child chart) ∧
      path = id :: rest.map Node.last ∧
      ((⟨id, [], state.alternative⟩ :: rest).getLast (List.cons_ne_nil _ _)).Goal chart := by
  obtain ⟨finding, hSearch, hAnswer⟩ := searches_findPath hState hComplete limit trace
  rw [hPath] at hAnswer
  cases finding with
  | exhausted => cases hAnswer
  | limitReached => cases hAnswer
  | found other =>
      cases hAnswer
      obtain ⟨node, hNode, goal, hReach, hGoal, rfl⟩ := hSearch.exists_goal
      obtain rfl := List.mem_singleton.mp hNode
      obtain ⟨rest, hChain, rfl⟩ :=
        List.exists_isChain_cons_of_relationReflTransGen hReach.to_reflTransGen
      exact ⟨rest, hChain, path_of_isChain hChain, hGoal⟩

/-- On every chart that insertions make, and for every completed seed with a single start symbol: a
path that the search finds begins with the seed and follows back-pointers, and a derivation is read
off it without error. The forms of the derivation are those that the search held at the nodes on its
way, after each complete state, and the last of them is the word. -/
theorem findPath_replays {word : List Char} {insertions : List Insertion}
    (hChart : chart = Chart.afterAll word insertions) {id : Nat} {state : State} {start : Symbol}
    (hState : chart.state? id = some state) (hComplete : state.isCompleteParse = true)
    (hStart : state.alternative = [start]) (limit : Int) (trace : Bool) {path : List Nat}
    (hPath : (findPath chart id limit trace).1 = .ok (some path)) :
    path.head? = some id ∧ (path.IsChain fun later earlier => earlier ∈ chart.pointers later) ∧
      ∃ (nodes : List Node) (derivation : Derivation), nodes.head? = some ⟨id, [], [start]⟩ ∧
        nodes.IsChain (Node.Child chart) ∧ nodes.map Node.last = path ∧
        ofPath chart path = .ok derivation ∧
        derivation.sententialForms = (nodes.filter (Node.completes chart)).map Node.form ∧
        derivation.sententialForms.getLast? = some (Form.ofWord word) ∧
        (derive chart id limit trace).1 = .ok (some derivation) := by
  have hWord : chart.word = word := by
    rw [hChart]
    exact (Chart.appends_afterAll word [] insertions).word
  obtain ⟨rest, hChain, hSame, hGoal⟩ := exists_isChain_of_findPath hState hComplete hPath
  rw [hStart] at hChain hGoal
  obtain ⟨states, steps, hStates, hReplays, hForms⟩ := exists_replays_of_isChain hChain
  rw [hGoal] at hReplays
  have hSeed : state.isComplete = true := (Bool.and_eq_true_iff.mp hComplete).2
  have hMapM : path.mapM chart.state = .ok (state :: states) := by
    rw [hSame, List.mapM_cons, bind_of_eq_ok (Chart.state_eq_ok_iff.mpr hState),
      bind_of_eq_ok hStates]
    rfl
  have hRead : ofPath chart path = .ok ⟨chart.word, start, state :: states, steps⟩ :=
    ofPath_eq_ok_iff.mpr ⟨rfl, state, states.filter State.isComplete, hMapM,
      List.filter_cons_of_pos hSeed, hComplete, hStart, hReplays⟩
  refine ⟨by rw [hSame]; rfl, ?_, ⟨id, [], [start]⟩ :: rest, _, rfl, hChain, hSame.symm, hRead,
    ?_, ?_, ?_⟩
  · rw [hSame]
    exact pointers_of_isChain hChain
  · have hFirst : Node.completes chart ⟨id, [], [start]⟩ = true := by
      rw [Node.completes, hState]
      exact hSeed
    rw [List.filter_cons_of_pos hFirst, List.map_cons, ← hForms]
    rfl
  · rw [← hWord]
    exact hReplays.getLast?
  · rcases hFind : findPath chart id limit trace with ⟨answer, log⟩
    rw [hFind] at hPath
    obtain rfl : answer = .ok (some path) := hPath
    simp only [derive, hFind, hRead]
    rfl

/-- A match that is its own back-pointer, and that has another to a complete state with a terminal
on its left side. The third leads on to a state that is its own back-pointer, and to an empty rule. -/
def tangled : List Insertion :=
  let start := Symbol.nonterminal (some 'S')
  let silent := Symbol.nonterminal (some 'E')
  let letter := Symbol.terminal (some 'a')
  [⟨⟨0, augmentedStart, [start], []⟩, 1, []⟩, ⟨⟨0, letter, [letter], []⟩, 1, []⟩,
    ⟨⟨0, start, [silent, letter], []⟩, 1, []⟩, ⟨⟨0, silent, [], []⟩, 1, []⟩,
    ⟨⟨0, start, [silent], [letter]⟩, 1, []⟩, ⟨⟨0, start, [silent], [letter]⟩, 1, [4, 3]⟩,
    ⟨⟨0, start, [silent, letter], []⟩, 1, [4]⟩, ⟨⟨0, augmentedStart, [start], []⟩, 1, [0, 1, 2]⟩]

theorem findPath_replays_tangled :
    (Chart.afterAll ['a'] tangled).state? 0 =
      some ⟨0, augmentedStart, [.nonterminal (some 'S')], []⟩ ∧
    (findPath (Chart.afterAll ['a'] tangled) 0 3 false).1 = .ok (some [0, 2, 4, 3]) ∧
    ∃ derivation, ofPath (Chart.afterAll ['a'] tangled) [0, 2, 4, 3] = .ok derivation ∧
      derivation.sententialForms.getLast? = some (Form.ofWord ['a']) ∧
      (derive (Chart.afterAll ['a'] tangled) 0 3 false).1 = .ok (some derivation) := by
  have hState : (Chart.afterAll ['a'] tangled).state? 0 =
      some ⟨0, augmentedStart, [.nonterminal (some 'S')], []⟩ := by decide
  have hPath : (findPath (Chart.afterAll ['a'] tangled) 0 3 false).1 =
      .ok (some [0, 2, 4, 3]) := by decide +kernel
  obtain ⟨_, _, _, derivation, _, _, _, hRead, _, hLast, hDerive⟩ :=
    findPath_replays rfl hState rfl rfl 3 false hPath
  exact ⟨hState, hPath, derivation, hRead, hLast, hDerive⟩

end Earley.Derivation
