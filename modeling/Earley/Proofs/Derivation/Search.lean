import Earley.Derivation.Search
import Earley.Proofs.Chart.Contents
import Mathlib.Data.List.TakeDrop
import Mathlib.Data.List.TakeWhile
import Mathlib.Logic.Relation

/-! What the search for a path finds. The queue always holds the rest of one level of paths, and
behind it what is known of the next level. So the search goes level by level, which is described by
a relation that knows neither the queue nor the log. -/
namespace Earley.Derivation

variable {chart : Chart} {limit : Int} {count : Nat}

/-- The extensions of a path by some of its back-pointers, in their order. -/
def Node.extensions (chart : Chart) (node : Node) (ids : List Nat) : List Node :=
  ids.filterMap fun id => (chart.state? id).bind (node.extend? id)

/-- All extensions of a path. -/
def Node.children (chart : Chart) (node : Node) : List Node :=
  node.extensions chart (chart.pointers node.last)

def Node.Child (chart : Chart) (node child : Node) : Prop := child ∈ node.children chart

/-- The form of the node is the word. -/
def Node.Goal (chart : Chart) (node : Node) : Prop := node.form = Form.ofWord chart.word

theorem Node.child_iff {node child : Node} :
    node.Child chart child ↔ ∃ id ∈ chart.pointers node.last, ∃ state,
      chart.state? id = some state ∧ node.extend? id state = some child := by
  simp only [Child, children, extensions, List.mem_filterMap, Option.bind_eq_some_iff]

theorem Node.extend?_eq_some_iff {node child : Node} {id : Nat} {state : State} :
    node.extend? id state = some child ↔
      child.last = id ∧ child.earlier = node.last :: node.earlier ∧
        if state.isComplete then state.lhs.isTerminal = false ∧
          node.form.replaceLast? state.lhs state.alternative = some child.form
        else child.form = node.form := by
  obtain ⟨last, earlier, form⟩ := child
  unfold extend?
  by_cases hComplete : state.isComplete
  · cases hTerminal : state.lhs.isTerminal with
    | true => simp [hComplete]
    | false =>
        simp only [hComplete, if_true, Option.map_eq_some_iff, Node.mk.injEq, true_and,
          Bool.false_eq_true, if_false]
        constructor
        · rintro ⟨result, hReplace, rfl, rfl, rfl⟩
          exact ⟨rfl, rfl, hReplace⟩
        · rintro ⟨rfl, rfl, hReplace⟩
          exact ⟨form, hReplace, rfl, rfl, rfl⟩
  · simp only [hComplete, if_false, Option.some.injEq, Node.mk.injEq, Bool.false_eq_true]
    constructor
    · rintro ⟨rfl, rfl, rfl⟩
      exact ⟨rfl, rfl, rfl⟩
    · rintro ⟨rfl, rfl, rfl⟩
      exact ⟨rfl, rfl, rfl⟩

theorem Node.Child.path {node child : Node} (hChild : node.Child chart child) :
    child.path = node.path ++ [child.last] := by
  obtain ⟨id, _, state, _, hExtend⟩ := Node.child_iff.mp hChild
  obtain ⟨_, hEarlier, _⟩ := Node.extend?_eq_some_iff.mp hExtend
  simp [Node.path, hEarlier]

/-- What nodes add to a search: an end, or so many nodes for the next level. -/
inductive Expansion where
  | ended (finding : Finding)
  | added (nodes : List Node)
deriving DecidableEq

/-- How it ends to go through nodes in order, after `count` others were counted. The nodes before
the first goal are counted, the goal is not. -/
inductive Inspects (chart : Chart) (limit : Int) (count : Nat) : List Node → Expansion → Prop where
  | found {before after : List Node} {goal : Node} (hBefore : ∀ node ∈ before, ¬ node.Goal chart)
      (hLimit : before = [] ∨ (count + before.length : Nat) ≤ limit) (hGoal : goal.Goal chart) :
      Inspects chart limit count (before ++ goal :: after) (.ended (.found goal.path))
  | limitReached {before after : List Node} (hBefore : ∀ node ∈ before, ¬ node.Goal chart)
      (hSome : before ≠ []) (hLimit : limit < (count + before.length : Nat)) :
      Inspects chart limit count (before ++ after) (.ended .limitReached)
  | added {nodes : List Node} (hNodes : ∀ node ∈ nodes, ¬ node.Goal chart)
      (hLimit : nodes = [] ∨ (count + nodes.length : Nat) ≤ limit) :
      Inspects chart limit count nodes (.added nodes)

/-- Put nodes in front of those that are added. -/
def Expansion.after (nodes : List Node) : Expansion → Expansion
  | .ended finding => .ended finding
  | .added more => .added (nodes ++ more)

@[simp] theorem Expansion.after_nil (expansion : Expansion) : expansion.after [] = expansion := by
  cases expansion <;> rfl

theorem Inspects.append_ended {nodes : List Node} {finding : Finding}
    (hNodes : Inspects chart limit count nodes (.ended finding)) (more : List Node) :
    Inspects chart limit count (nodes ++ more) (.ended finding) := by
  cases hNodes with
  | found hBefore hLimit hGoal =>
      rw [List.append_assoc, List.cons_append]
      exact Inspects.found hBefore hLimit hGoal
  | limitReached hBefore hSome hLimit =>
      rw [List.append_assoc]
      exact Inspects.limitReached hBefore hSome hLimit

theorem Inspects.append {nodes more : List Node} {expansion : Expansion}
    (hNodes : Inspects chart limit count nodes (.added nodes))
    (hMore : Inspects chart limit (count + nodes.length) more expansion) :
    Inspects chart limit count (nodes ++ more) (expansion.after nodes) := by
  cases hNodes with
  | added hNone hFirst =>
      have hAll {before : List Node} (hBefore : ∀ node ∈ before, ¬ node.Goal chart) :
          ∀ node ∈ nodes ++ before, ¬ node.Goal chart := by
        intro node hNode
        rcases List.mem_append.mp hNode with hNode | hNode
        · exact hNone node hNode
        · exact hBefore node hNode
      have hCount (before : List Node) :
          count + (nodes ++ before).length = count + nodes.length + before.length := by
        rw [List.length_append, Nat.add_assoc]
      have hWithin {before : List Node}
          (hLimit : before = [] ∨ (count + nodes.length + before.length : Nat) ≤ limit) :
          nodes ++ before = [] ∨ (count + (nodes ++ before).length : Nat) ≤ limit := by
        rcases hLimit with rfl | hLimit
        · simpa using hFirst
        · rw [hCount]
          exact Or.inr hLimit
      cases hMore with
      | found hBefore hLimit hGoal =>
          rw [← List.append_assoc]
          exact Inspects.found (hAll hBefore) (hWithin hLimit) hGoal
      | limitReached hBefore hSome hLimit =>
          rw [← List.append_assoc]
          apply Inspects.limitReached (hAll hBefore) (by simp [hSome])
          rw [hCount]
          exact hLimit
      | added hBefore hLimit => exact Inspects.added (hAll hBefore) (hWithin hLimit)

theorem inspects_added_iff {nodes added : List Node} :
    Inspects chart limit count nodes (.added added) ↔ added = nodes ∧
      (∀ node ∈ nodes, ¬ node.Goal chart) ∧
      (nodes = [] ∨ (count + nodes.length : Nat) ≤ limit) := by
  constructor
  · intro hNodes
    cases hNodes with
    | added hNone hLimit => exact ⟨rfl, hNone, hLimit⟩
  · rintro ⟨rfl, hNone, hLimit⟩
    exact Inspects.added hNone hLimit

theorem Inspects.exists_found {nodes : List Node} {finding : Finding}
    (hNodes : Inspects chart limit count nodes (.ended finding))
    (hLimit : (count + nodes.length : Nat) ≤ limit) : ∃ path, finding = .found path := by
  cases hNodes with
  | found _ _ _ => exact ⟨_, rfl⟩
  | limitReached _ _ hReached =>
      rw [List.length_append] at hLimit
      omega

/-- Going through the back-pointers of a path one by one ends with the first extension that is a
goal or exceeds the limit. If there is none, all extensions have to wait behind the others. -/
theorem Node.inspects_expand (chart : Chart) (limit : Int) (node : Node) (ids : List Nat)
    (queue : Queue) (count : Nat) :
    (∃ finding, node.expand chart limit ids queue count = .error finding ∧
      Inspects chart limit count (node.extensions chart ids) (.ended finding)) ∨
    ∃ next, node.expand chart limit ids queue count =
        .ok (next, count + (node.extensions chart ids).length) ∧
      next.toList = queue.toList ++ node.extensions chart ids ∧
      Inspects chart limit count (node.extensions chart ids)
        (.added (node.extensions chart ids)) := by
  induction ids generalizing queue count with
  | nil =>
      have hNone : Inspects chart limit count [] (.added []) :=
        Inspects.added (by simp) (Or.inl rfl)
      exact Or.inr ⟨queue, rfl, (List.append_nil _).symm, hNone⟩
  | cons id rest ih =>
      cases hChild : (chart.state? id).bind (node.extend? id) with
      | none =>
          have hSkip : node.extensions chart (id :: rest) = node.extensions chart rest := by
            simp [extensions, hChild]
          simp only [expand, hChild, hSkip]
          exact ih queue count
      | some child =>
          have hFirst : node.extensions chart (id :: rest) =
              [child] ++ node.extensions chart rest := by
            simp [extensions, hChild]
          simp only [expand, hChild, hFirst]
          by_cases hGoal : child.form = Form.ofWord chart.word
          · rw [if_pos hGoal]
            exact Or.inl ⟨_, rfl, Inspects.found (by simp) (Or.inl rfl) hGoal⟩
          rw [if_neg hGoal]
          have hNone : ∀ node ∈ [child], ¬ node.Goal chart := by
            simpa [Goal] using hGoal
          by_cases hLimit : limit < ((count + 1 : Nat) : Int)
          · rw [if_pos hLimit]
            exact Or.inl ⟨_, rfl, Inspects.limitReached hNone (by simp) hLimit⟩
          rw [if_neg hLimit]
          have hWaits : Inspects chart limit count [child] (.added [child]) :=
            Inspects.added hNone (Or.inr (Int.not_lt.mp hLimit))
          rcases ih (queue.enqueue child) (count + 1) with
            ⟨finding, hEnd, hRest⟩ | ⟨next, hAll, hQueue, hRest⟩
          · exact Or.inl ⟨finding, hEnd, hWaits.append hRest⟩
          · refine Or.inr ⟨next, ?_, ?_, hWaits.append hRest⟩
            · rw [hAll, List.length_append, List.length_singleton, Nat.add_assoc]
            · rw [hQueue, Queue.toList_enqueue, List.append_assoc]

/-- How a search ends that has these paths in its queue, after `count` others were counted. -/
inductive Dequeues (chart : Chart) (limit : Int) : Nat → List Node → Finding → Prop where
  | exhausted {count : Nat} : Dequeues chart limit count [] .exhausted
  | ended {count : Nat} {node : Node} {rest : List Node} {finding : Finding}
      (hEnded : Inspects chart limit count (node.children chart) (.ended finding)) :
      Dequeues chart limit count (node :: rest) finding
  | added {count : Nat} {node : Node} {rest : List Node} {finding : Finding}
      (hAdded : Inspects chart limit count (node.children chart) (.added (node.children chart)))
      (hRest : Dequeues chart limit (count + (node.children chart).length)
        (rest ++ node.children chart) finding) :
      Dequeues chart limit count (node :: rest) finding

section

variable {trace : Bool} {queue : Queue} {log : Log}

theorem search_of_none (hNext : queue.dequeue? = none) :
    search chart limit trace queue count log = (.exhausted, log) := by
  rw [search]
  split
  · rfl
  · next hSome => cases hSome.symm.trans hNext

theorem search_of_some {node : Node} {rest : Queue} (hNext : queue.dequeue? = some (node, rest)) :
    search chart limit trace queue count log =
      match node.expand chart limit (chart.pointers node.last) rest count with
      | .error finding => (finding, if trace then log.push (node.event chart) else log)
      | .ok (next, newCount) => search chart limit trace next newCount
          (if trace then log.push (node.event chart) else log) := by
  rw [search]
  split
  · next hNone => cases hNone.symm.trans hNext
  · next hSome =>
    cases hSome.symm.trans hNext
    dsimp only
    split
    · next hExpand => rw [hExpand]
    · next hExpand => rw [hExpand]

end

theorem dequeues_search (chart : Chart) (limit : Int) (trace : Bool) (queue : Queue) (count : Nat)
    (log : Log) :
    Dequeues chart limit count queue.toList (search chart limit trace queue count log).1 := by
  induction queue, count, log using search.induct chart limit trace with
  | case1 queue count log hNext =>
      rw [search_of_none hNext, Queue.toList_eq_nil hNext]
      exact Dequeues.exhausted
  | case2 queue count log node rest hNext finding hExpand =>
      rw [search_of_some hNext, hExpand, Queue.toList_of_dequeue? hNext]
      rcases node.inspects_expand chart limit (chart.pointers node.last) rest count with
        ⟨other, hEnd, hEnded⟩ | ⟨next, hAll, _, _⟩
      · cases hExpand.symm.trans hEnd
        exact Dequeues.ended hEnded
      · cases hExpand.symm.trans hAll
  | case3 queue count log node rest hNext newLog next newCount hExpand ih =>
      rw [search_of_some hNext, hExpand, Queue.toList_of_dequeue? hNext]
      rcases node.inspects_expand chart limit (chart.pointers node.last) rest count with
        ⟨finding, hEnd, _⟩ | ⟨other, hAll, hQueue, hAdded⟩
      · cases hExpand.symm.trans hEnd
      · cases hExpand.symm.trans hAll
        rw [hQueue] at ih
        exact Dequeues.added hAdded ih

/-- The rest of a level is dequeued first. What it adds goes behind what is known of the next
level. -/
theorem Dequeues.exists_inspects {level next : List Node} {finding : Finding}
    (hQueue : Dequeues chart limit count (level ++ next) finding) :
    ∃ expansion, Inspects chart limit count (level.flatMap (Node.children chart)) expansion ∧
      (∀ other, expansion = .ended other → finding = other) ∧
      ∀ nodes, expansion = .added nodes →
        Dequeues chart limit (count + nodes.length) (next ++ nodes) finding := by
  induction level generalizing count next with
  | nil =>
      refine ⟨.added [], Inspects.added (by simp) (Or.inl rfl), by simp, ?_⟩
      rintro _ ⟨⟩
      simpa using hQueue
  | cons node rest ih =>
      rw [List.flatMap_cons]
      cases hQueue with
      | ended hEnded => exact ⟨_, hEnded.append_ended _, by simp, by simp⟩
      | added hAdded hRest =>
          change Dequeues chart limit _ (rest ++ next ++ node.children chart) finding at hRest
          rw [List.append_assoc] at hRest
          obtain ⟨expansion, hInspects, hEnded, hMore⟩ := ih hRest
          refine ⟨expansion.after (node.children chart), hAdded.append hInspects, ?_, ?_⟩
          · rintro other hOther
            cases expansion with
            | ended found =>
                cases hOther
                exact hEnded _ rfl
            | added more => simp [Expansion.after] at hOther
          · rintro nodes hNodes
            cases expansion with
            | ended found => simp [Expansion.after] at hNodes
            | added more =>
                cases hNodes
                have hLater := hMore more rfl
                rwa [List.append_assoc, Nat.add_assoc, ← List.length_append] at hLater

/-- How a search from a level ends, after `count` nodes were counted. -/
inductive Searches (chart : Chart) (limit : Int) : Nat → List Node → Finding → Prop where
  | ended {count : Nat} {level : List Node} {finding : Finding}
      (hEnded : Inspects chart limit count (level.flatMap (Node.children chart)) (.ended finding)) :
      Searches chart limit count level finding
  | exhausted {count : Nat} {level : List Node}
      (hNone : level.flatMap (Node.children chart) = []) :
      Searches chart limit count level .exhausted
  | deeper {count : Nat} {level next : List Node} {finding : Finding}
      (hNext : level.flatMap (Node.children chart) = next)
      (hNone : ∀ node ∈ next, ¬ node.Goal chart) (hLimit : (count + next.length : Nat) ≤ limit)
      (hRest : Searches chart limit (count + next.length) next finding) :
      Searches chart limit count level finding

/-- A queue that holds one level is a search from that level. Each further level makes the count
grow towards the limit. -/
theorem Dequeues.searches {level : List Node} {finding : Finding}
    (hQueue : Dequeues chart limit count level finding) :
    Searches chart limit count level finding := by
  induction hLeft : limit.toNat - count using Nat.strong_induction_on generalizing count level with
  | _ left ih =>
      rw [← List.append_nil level] at hQueue
      obtain ⟨expansion, hInspects, hEnded, hMore⟩ := hQueue.exists_inspects
      cases expansion with
      | ended other =>
          obtain rfl := hEnded other rfl
          exact Searches.ended hInspects
      | added next =>
          have hRest := hMore next rfl
          obtain ⟨rfl, hNone, hLimit⟩ := inspects_added_iff.mp hInspects
          rw [List.nil_append] at hRest
          cases hSome : level.flatMap (Node.children chart) with
          | nil =>
              rw [hSome] at hRest
              cases hRest
              exact Searches.exhausted hSome
          | cons child others =>
              rw [hSome] at hRest hNone hLimit
              have hWithin := hLimit.resolve_left (List.cons_ne_nil child others)
              rw [List.length_cons] at hWithin
              refine Searches.deeper hSome hNone hWithin (ih _ ?_ hRest rfl)
              rw [List.length_cons]
              omega

theorem Searches.exists_goal {level : List Node} {path : List Nat}
    (hSearch : Searches chart limit count level (.found path)) :
    ∃ node ∈ level, ∃ goal, Relation.TransGen (Node.Child chart) node goal ∧ goal.Goal chart ∧
      path = goal.path := by
  generalize hFinding : Finding.found path = finding at hSearch
  induction hSearch with
  | @ended count level _ hEnded =>
      subst hFinding
      generalize hNodes : level.flatMap (Node.children chart) = nodes at hEnded
      cases hEnded with
      | @found before after goal _ _ hGoal =>
          have hMem : goal ∈ level.flatMap (Node.children chart) := by simp [hNodes]
          obtain ⟨node, hNode, hChild⟩ := List.mem_flatMap.mp hMem
          exact ⟨node, hNode, goal, .single hChild, hGoal, rfl⟩
  | exhausted _ => cases hFinding
  | deeper hNext _ _ _ ih =>
      obtain ⟨child, hChild, goal, hPath, hGoal, hSame⟩ := ih hFinding
      rw [← hNext] at hChild
      obtain ⟨node, hNode, hChild⟩ := List.mem_flatMap.mp hChild
      exact ⟨node, hNode, goal, hPath.head hChild, hGoal, hSame⟩

/-- A search above a goal is not exhausted. -/
theorem Searches.ne_exhausted {level : List Node} {finding : Finding}
    (hSearch : Searches chart limit count level finding) {node goal : Node} (hNode : node ∈ level)
    (hPath : Relation.TransGen (Node.Child chart) node goal) (hGoal : goal.Goal chart) :
    finding ≠ .exhausted := by
  induction hSearch generalizing node with
  | ended hEnded =>
      generalize hNodes : List.flatMap _ _ = nodes at hEnded
      cases hEnded <;> simp
  | exhausted hNone =>
      obtain ⟨child, hChild, _⟩ := Relation.TransGen.head'_iff.mp hPath
      have hMem := List.mem_flatMap_of_mem hNode hChild
      rw [hNone] at hMem
      cases hMem
  | deeper hNext hNone _ _ ih =>
      obtain ⟨child, hChild, hRest⟩ := Relation.TransGen.head'_iff.mp hPath
      have hMem := List.mem_flatMap_of_mem hNode hChild
      rw [hNext] at hMem
      rcases Relation.reflTransGen_iff_eq_or_transGen.mp hRest with rfl | hRest
      · exact absurd hGoal (hNone _ hMem)
      · exact ih hMem hRest

/-- With a limit that is large enough, a search above a goal ends with a path. -/
theorem exists_limit_found {node goal : Node}
    (hPath : Relation.TransGen (Node.Child chart) node goal) (hGoal : goal.Goal chart)
    (count : Nat) {level : List Node} (hNode : node ∈ level) :
    ∃ bound : Nat, ∀ limit : Int, bound ≤ limit → ∀ finding,
      Searches chart limit count level finding → ∃ path, finding = .found path := by
  induction hPath using Relation.TransGen.head_induction_on generalizing count level with
  | single hChild =>
      refine ⟨count + (level.flatMap (Node.children chart)).length, ?_⟩
      intro limit hBound finding hSearch
      have hMem := List.mem_flatMap_of_mem hNode hChild
      cases hSearch with
      | ended hEnded => exact hEnded.exists_found hBound
      | exhausted hNone =>
          rw [hNone] at hMem
          cases hMem
      | deeper hNext hNone _ _ =>
          rw [hNext] at hMem
          exact absurd hGoal (hNone _ hMem)
  | head hChild _ ih =>
      have hMem := List.mem_flatMap_of_mem hNode hChild
      obtain ⟨bound, hRest⟩ := ih (count + (level.flatMap (Node.children chart)).length) hMem
      refine ⟨max bound (count + (level.flatMap (Node.children chart)).length), ?_⟩
      intro limit hBound finding hSearch
      cases hSearch with
      | ended hEnded => exact hEnded.exists_found (by omega)
      | exhausted hNone =>
          rw [hNone] at hMem
          cases hMem
      | deeper hNext _ _ hSearch =>
          subst hNext
          exact hRest limit (by omega) finding hSearch

/-- What a search gives back when it ends so. -/
def Finding.answer (word : List Char) (limit : Int) : Finding → Except Error (Option (List Nat))
  | .found path => .ok (some path)
  | .exhausted => .ok none
  | .limitReached => .error (.limitReached word limit)

theorem searches_findPath {id : Nat} {state : State} (hState : chart.state? id = some state)
    (hComplete : state.isCompleteParse = true) (limit : Int) (trace : Bool) :
    ∃ finding, Searches chart limit 0 [⟨id, [], state.alternative⟩] finding ∧
      (findPath chart id limit trace).1 = finding.answer chart.word limit := by
  let queue : Queue := ⟨[⟨id, [], state.alternative⟩], []⟩
  refine ⟨_, (dequeues_search chart limit trace queue 0 #[]).searches, ?_⟩
  rw [findPath, Chart.state_eq_ok_iff.mpr hState]
  simp only [hComplete, Bool.true_eq_false, if_false]
  rcases search chart limit trace queue 0 #[] with ⟨finding, log⟩
  cases finding <;> rfl

end Earley.Derivation
