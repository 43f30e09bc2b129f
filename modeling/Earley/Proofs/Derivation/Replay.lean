import Earley.Proofs.Derivation.Search

/-! Replaying the complete states of a path. What the search makes of the start symbol, and what
replaying its path makes of it, are the same form at every node. -/
namespace Earley.Derivation

variable {chart : Chart}

/-- Each state replaces the last occurrence of its left side, and gives one step. -/
inductive Replays : Form → List State → List Step → Form → Prop where
  | nil (form : Form) : Replays form [] [] form
  | cons {form next result : Form} {state : State} {states : List State} {steps : List Step}
      (hNonterminal : state.lhs.isTerminal = false)
      (hReplace : form.replaceLast? state.lhs state.alternative = some next)
      (hRest : Replays next states steps result) :
      Replays form (state :: states) (⟨state.lhs, state.alternative, next⟩ :: steps) result

theorem Replays.append {form middle result : Form} {first second : List State}
    {firstSteps secondSteps : List Step} (hFirst : Replays form first firstSteps middle)
    (hSecond : Replays middle second secondSteps result) :
    Replays form (first ++ second) (firstSteps ++ secondSteps) result := by
  induction hFirst with
  | nil => exact hSecond
  | cons hNonterminal hReplace _ ih => exact Replays.cons hNonterminal hReplace (ih hSecond)

theorem Replays.lastForm {form result : Form} {states : List State} {steps : List Step}
    (hReplays : Replays form states steps result) : lastForm form steps = result := by
  induction hReplays with
  | nil => rfl
  | cons _ _ _ ih =>
      rw [← ih, Derivation.lastForm, Derivation.lastForm, List.getLast?_cons]
      cases List.getLast? _ <;> rfl

theorem Replays.getLast? {form result : Form} {states : List State} {steps : List Step}
    (hReplays : Replays form states steps result) :
    (form :: steps.map Step.result).getLast? = some result := by
  rw [← hReplays.lastForm, List.getLast?_cons, List.getLast?_map]
  rfl

theorem replay_cons_eq_ok_iff {form : Form} {state : State} {states : List State}
    {steps : List Step} :
    replay form (state :: states) = .ok steps ↔ ∃ next rest, state.lhs.isTerminal = false ∧
      form.replaceLast? state.lhs state.alternative = some next ∧ replay next states = .ok rest ∧
      steps = ⟨state.lhs, state.alternative, next⟩ :: rest := by
  have hApplies : state.lhs ∈ Form.nonterminals form ↔
      state.lhs.isTerminal = false ∧ form.replaceLast? state.lhs state.alternative ≠ none := by
    rw [ne_eq, Form.replaceLast?_eq_none_iff, not_not]
    simp [Form.nonterminals, and_comm]
  rw [replay]
  split
  · next hMem =>
    obtain ⟨hNonterminal, hSome⟩ := hApplies.mp hMem
    obtain ⟨next, hReplace⟩ := Option.ne_none_iff_exists'.mp hSome
    have hSubstitute : form.substituteLast state.lhs state.alternative = .ok next := by
      rw [Form.substituteLast, hNonterminal, hReplace]
      rfl
    rw [bind_of_eq_ok hSubstitute, bind_eq_ok_iff]
    simp only [hNonterminal, hReplace, Option.some.injEq, true_and]
    constructor
    · rintro ⟨rest, hRest, hSteps⟩
      cases hSteps
      exact ⟨next, rest, rfl, hRest, rfl⟩
    · rintro ⟨_, rest, rfl, hRest, rfl⟩
      exact ⟨rest, hRest, rfl⟩
  · next hAbsent =>
    constructor
    · intro hError
      cases hError
    · rintro ⟨next, _, hNonterminal, hReplace, _⟩
      exact absurd (hApplies.mpr ⟨hNonterminal, by simp [hReplace]⟩) hAbsent

theorem Replays.replay {form result : Form} {states : List State} {steps : List Step}
    (hReplays : Replays form states steps result) : replay form states = .ok steps := by
  induction hReplays with
  | nil => rfl
  | cons hNonterminal hReplace _ ih =>
      exact replay_cons_eq_ok_iff.mpr ⟨_, _, hNonterminal, hReplace, ih, rfl⟩

theorem exists_replays_of_replay_eq_ok {form : Form} {states : List State} {steps : List Step}
    (hReplay : replay form states = .ok steps) : ∃ result, Replays form states steps result := by
  induction states generalizing form steps with
  | nil =>
      cases hReplay
      exact ⟨form, Replays.nil form⟩
  | cons state states ih =>
      obtain ⟨next, rest, hNonterminal, hReplace, hRest, rfl⟩ := replay_cons_eq_ok_iff.mp hReplay
      obtain ⟨result, hReplays⟩ := ih hRest
      exact ⟨result, Replays.cons hNonterminal hReplace hReplays⟩

/-- What a path must be like for a derivation to be read off it. -/
theorem ofPath_eq_ok_iff {path : List Nat} {derivation : Derivation} :
    ofPath chart path = .ok derivation ↔ derivation.word = chart.word ∧ ∃ first rest,
      path.mapM chart.state = .ok derivation.states ∧
      derivation.states.filter State.isComplete = first :: rest ∧ first.isCompleteParse = true ∧
      first.alternative = [derivation.start] ∧
      Replays [derivation.start] rest derivation.steps (Form.ofWord chart.word) := by
  rw [ofPath, bind_eq_ok_iff]
  constructor
  · rintro ⟨states, hStates, hRead⟩
    split at hRead
    · cases hRead
    · next first rest hFirst =>
      split at hRead
      · cases hRead
      · next hComplete =>
        split at hRead
        · next start hStart =>
          obtain ⟨steps, hReplay, hRead⟩ := bind_eq_ok_iff.mp hRead
          obtain ⟨result, hReplays⟩ := exists_replays_of_replay_eq_ok hReplay
          rw [hReplays.lastForm] at hRead
          split at hRead
          · next hWord =>
            cases hRead
            subst hWord
            exact ⟨rfl, first, rest, hStates, hFirst, by simpa using hComplete, hStart, hReplays⟩
          · cases hRead
        · cases hRead
  · obtain ⟨word, start, states, steps⟩ := derivation
    rintro ⟨rfl, first, rest, hStates, hFirst, hComplete, hStart, hReplays⟩
    refine ⟨states, hStates, ?_⟩
    simp only [hFirst, hComplete, hStart, Bool.true_eq_false, if_false]
    rw [bind_of_eq_ok hReplays.replay, hReplays.lastForm, if_pos rfl]
    rfl

theorem mapM_state_append {path : List Nat} {states : List State} {id : Nat} {state : State}
    (hPath : path.mapM chart.state = .ok states) (hState : chart.state? id = some state) :
    (path ++ [id]).mapM chart.state = .ok (states ++ [state]) := by
  have hLast : [id].mapM chart.state = .ok [state] := by
    rw [List.mapM_cons, bind_of_eq_ok (Chart.state_eq_ok_iff.mpr hState)]
    rfl
  rw [List.mapM_append, bind_of_eq_ok hPath, bind_of_eq_ok hLast]
  rfl

/-- The last state on the path of the node is complete. -/
def Node.completes (chart : Chart) (node : Node) : Bool :=
  (chart.state? node.last).any State.isComplete

/-- Replaying the last state of a child does with the form of its parent what the search did: a
complete state leads to the form of the child, and any other state leaves the form alone. -/
theorem Node.Child.replays {node child : Node} (hChild : node.Child chart child) :
    ∃ state steps, chart.state? child.last = some state ∧
      Replays node.form ([state].filter State.isComplete) steps child.form ∧
      steps.map Step.result = ([child].filter (Node.completes chart)).map Node.form := by
  obtain ⟨id, _, state, hState, hExtend⟩ := Node.child_iff.mp hChild
  obtain ⟨rfl, _, hForm⟩ := Node.extend?_eq_some_iff.mp hExtend
  have hCompletes : child.completes chart = state.isComplete := by
    rw [Node.completes, hState]
    rfl
  cases hComplete : state.isComplete with
  | true =>
      obtain ⟨hNonterminal, hReplace⟩ : state.lhs.isTerminal = false ∧
          node.form.replaceLast? state.lhs state.alternative = some child.form := by
        simpa [hComplete] using hForm
      refine ⟨state, [⟨state.lhs, state.alternative, child.form⟩], hState, ?_, ?_⟩
      · simpa [hComplete] using Replays.cons hNonterminal hReplace (Replays.nil _)
      · simp [hCompletes, hComplete]
  | false =>
      have hSame : child.form = node.form := by simpa [hComplete] using hForm
      refine ⟨state, [], hState, ?_, ?_⟩
      · simpa [hComplete, hSame] using Replays.nil node.form
      · simp [hCompletes, hComplete]

/-- The first state on the path of the node is `first`, and replaying the other complete states on
it turns `start` into the form of the node. -/
def Node.Replayed (chart : Chart) (first : State) (start : Symbol) (node : Node) : Prop :=
  ∃ states rest steps, node.path.mapM chart.state = .ok states ∧
    states.filter State.isComplete = first :: rest ∧ Replays [start] rest steps node.form

theorem Node.replayed_initial {first : State} (start : Symbol) {id : Nat}
    (hState : chart.state? id = some first) (hComplete : first.isComplete) :
    Node.Replayed chart first start ⟨id, [], [start]⟩ := by
  have hNothing : ([] : List Nat).mapM chart.state = .ok [] := rfl
  have hPath := mapM_state_append hNothing hState
  exact ⟨[first], [], [], hPath, by simp [hComplete], Replays.nil _⟩

theorem Node.Replayed.child {first : State} {start : Symbol} {node child : Node}
    (hNode : node.Replayed chart first start) (hChild : node.Child chart child) :
    child.Replayed chart first start := by
  obtain ⟨states, rest, steps, hStates, hFirst, hReplays⟩ := hNode
  obtain ⟨state, more, hState, hMore, _⟩ := hChild.replays
  have hPath := mapM_state_append hStates hState
  rw [← hChild.path] at hPath
  refine ⟨states ++ [state], _, _, hPath, ?_, hReplays.append hMore⟩
  rw [List.filter_append, hFirst]
  rfl

theorem Node.Replayed.descendant {first : State} {start : Symbol} {node goal : Node}
    (hNode : node.Replayed chart first start)
    (hPath : Relation.TransGen (Node.Child chart) node goal) : goal.Replayed chart first start := by
  induction hPath with
  | single hChild => exact hNode.child hChild
  | tail _ hChild ih => exact ih.child hChild

/-- A derivation can be read off the path of a goal. -/
theorem Node.Replayed.ofPath {first : State} {start : Symbol} {goal : Node}
    (hNode : goal.Replayed chart first start) (hGoal : goal.Goal chart)
    (hComplete : first.isCompleteParse = true) (hStart : first.alternative = [start]) :
    ∃ derivation, ofPath chart goal.path = .ok derivation := by
  obtain ⟨states, rest, steps, hStates, hFirst, hReplays⟩ := hNode
  rw [hGoal] at hReplays
  exact ⟨⟨chart.word, start, states, steps⟩, ofPath_eq_ok_iff.mpr
    ⟨rfl, first, rest, hStates, hFirst, hComplete, hStart, hReplays⟩⟩

end Earley.Derivation
