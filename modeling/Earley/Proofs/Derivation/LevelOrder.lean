import Earley.Proofs.Chart.Growth
import Earley.Proofs.Derivation.Search
import Earley.Proofs.Derivation.Trail

/-! The search takes trails in their order and counts each of them once. So it ends with the first
one that reaches the word, unless more trails than the limit come before. -/
namespace Earley.Derivation

variable {chart : Chart} {id : Nat} {form : Form} {limit : Nat}

theorem Node.extend?_eq_map (node : Node) (id : Nat) (state : State) :
    node.extend? id state =
      (state.rewrite? node.form).map fun result => ⟨id, node.last :: node.earlier, result⟩ := by
  unfold Node.extend? State.rewrite?
  by_cases hComplete : state.isComplete
  · cases hTerminal : state.lhs.isTerminal with
    | true => simp [hComplete, hTerminal, Form.nonterminals]
    | false =>
        by_cases hMem : state.lhs ∈ node.form
        · simp [hComplete, hTerminal, Form.nonterminals, hMem]
        · simp [hComplete, hTerminal, Form.nonterminals, hMem,
            Form.replaceLast?_eq_none_iff.mpr hMem]
  · simp [hComplete]

/-- The next level of a search. -/
def nextLevel (chart : Chart) (level : List Node) : List Node :=
  level.flatMap (Node.children chart)

/-- The nodes that a search meets below a node in so many levels. -/
def Node.descendants (chart : Chart) (node : Node) (n : Nat) : List Node :=
  (nextLevel chart)^[n] [node]

theorem Node.descendants_succ' (node : Node) (n : Nat) :
    node.descendants chart (n + 1) = (node.descendants chart n).flatMap (Node.children chart) :=
  Function.iterate_succ_apply' (nextLevel chart) n [node]

theorem iterate_nextLevel (n : Nat) (level : List Node) :
    (nextLevel chart)^[n] level = level.flatMap fun node => node.descendants chart n := by
  induction n generalizing level with
  | zero => simp [Node.descendants]
  | succ n ih =>
      have hNode (node : Node) : node.descendants chart (n + 1) =
          (node.children chart).flatMap fun child => child.descendants chart n := by
        rw [Node.descendants, Function.iterate_succ_apply, ih, nextLevel, List.flatMap_singleton]
      rw [Function.iterate_succ_apply, ih, nextLevel, List.flatMap_assoc]
      simp only [hNode]

theorem Node.descendants_succ (node : Node) (n : Nat) :
    node.descendants chart (n + 1) =
      (node.children chart).flatMap fun child => child.descendants chart n := by
  rw [Node.descendants, Function.iterate_succ_apply, iterate_nextLevel, nextLevel,
    List.flatMap_singleton]

/-- Each level holds the paths of one length in their order. -/
theorem Node.map_descendants (chart : Chart) (node : Node) (n : Nat) :
    (node.descendants chart n).map (fun goal => (goal.path, goal.form)) =
      (chart.trails node.last node.form n).map fun entry => (node.path ++ entry.1, entry.2) := by
  induction n generalizing node with
  | zero => simp [descendants, Chart.trails, Chart.walks, Chart.formAfter?]
  | succ n ih =>
      rw [descendants_succ, Chart.trails_succ, List.map_flatMap, List.map_flatMap]
      simp only [ih]
      rw [children, extensions, List.filterMap_eq_flatMap_toList, List.flatMap_assoc]
      congr 1
      funext next
      simp only [extend?_eq_map]
      cases hState : chart.state? next with
      | none => simp
      | some state =>
          cases hForm : state.rewrite? node.form with
          | none => simp [hForm]
          | some result => simp [hForm, Node.path]

/-- How a search from an identifier with the given form ends. -/
inductive LevelOrder (chart : Chart) (id : Nat) (form : Form) (limit : Nat) : Finding → Prop where
  | found {goal : List Nat} (hFirst : chart.IsFirst id form goal)
      (hAhead : (chart.ahead id form goal).encard ≤ limit) :
      LevelOrder chart id form limit (.found (id :: goal))
  | overtaken {goal : List Nat} (hFirst : chart.IsFirst id form goal)
      (hAhead : limit < (chart.ahead id form goal).encard) :
      LevelOrder chart id form limit .limitReached
  | unending (hNone : ∀ trail, chart.Admissible id form trail → ¬ chart.Reaches form trail)
      (hAll : limit < { trail | chart.Admissible id form trail }.encard) :
      LevelOrder chart id form limit .limitReached
  | exhausted (hNone : ∀ trail, chart.Admissible id form trail → ¬ chart.Reaches form trail)
      (hAll : { trail | chart.Admissible id form trail }.encard ≤ limit) :
      LevelOrder chart id form limit .exhausted

theorem LevelOrder.unique {first second : Finding}
    (hFirst : LevelOrder chart id form limit first)
    (hSecond : LevelOrder chart id form limit second) : first = second := by
  cases hFirst with
  | found hGoal hAhead =>
      cases hSecond with
      | found hOther _ => rw [hGoal.unique hOther]
      | overtaken hOther hLess =>
          obtain rfl := hGoal.unique hOther
          exact absurd hAhead hLess.not_ge
      | unending hNone _ => exact absurd hGoal.reaches (hNone _ hGoal.admissible)
      | exhausted hNone _ => exact absurd hGoal.reaches (hNone _ hGoal.admissible)
  | overtaken hGoal hLess =>
      cases hSecond with
      | found hOther hAhead =>
          obtain rfl := hGoal.unique hOther
          exact absurd hAhead hLess.not_ge
      | overtaken _ _ => rfl
      | unending _ _ => rfl
      | exhausted hNone _ => exact absurd hGoal.reaches (hNone _ hGoal.admissible)
  | unending hNone hLess =>
      cases hSecond with
      | found hGoal _ => exact absurd hGoal.reaches (hNone _ hGoal.admissible)
      | overtaken _ _ => rfl
      | unending _ _ => rfl
      | exhausted _ hAll => exact absurd hAll hLess.not_ge
  | exhausted hNone hAll =>
      cases hSecond with
      | found hGoal _ => exact absurd hGoal.reaches (hNone _ hGoal.admissible)
      | overtaken hGoal _ => exact absurd hGoal.reaches (hNone _ hGoal.admissible)
      | unending _ hLess => exact absurd hAll hLess.not_ge
      | exhausted _ _ => rfl

/-- A larger limit finds the same path. -/
theorem LevelOrder.found_mono {path : List Nat} {larger : Nat}
    (hFound : LevelOrder chart id form limit (.found path)) (hLarger : limit ≤ larger) :
    LevelOrder chart id form larger (.found path) := by
  cases hFound with
  | found hFirst hAhead => exact .found hFirst (hAhead.trans (by exact_mod_cast hLarger))

/-- The first node of a search. -/
def Node.root (id : Nat) (form : Form) : Node := ⟨id, [], form⟩

/-- The nodes of a level match its trails one to one, part by part. -/
theorem exists_trails_of_descendants {n : Nat} {before after : List Node}
    (hLevel : (Node.root id form).descendants chart n = before ++ after) :
    ∃ passed later, chart.trails id form n = passed ++ later ∧
      passed.map (fun entry => (id :: entry.1, entry.2)) =
        before.map (fun node => (node.path, node.form)) ∧
      later.map (fun entry => (id :: entry.1, entry.2)) =
        after.map (fun node => (node.path, node.form)) := by
  have hMap := (Node.root id form).map_descendants chart n
  rw [hLevel, List.map_append] at hMap
  exact List.map_eq_append_iff.mp hMap.symm

theorem forall_ne_of_map_eq {before : List Node} {passed : List (List Nat × Form)}
    (hMap : passed.map (fun entry => (id :: entry.1, entry.2)) =
      before.map fun node => (node.path, node.form))
    (hBefore : ∀ node ∈ before, ¬ node.Goal chart) :
    ∀ entry ∈ passed, entry.2 ≠ Form.ofWord chart.word := by
  intro entry hEntry hWord
  have hMem := List.mem_map_of_mem (f := fun entry => (id :: entry.1, entry.2)) hEntry
  rw [hMap] at hMem
  obtain ⟨node, hNode, hSame⟩ := List.mem_map.mp hMem
  exact hBefore node hNode ((Prod.mk.inj hSame).2.trans hWord)

theorem length_eq_of_map_eq {before : List Node} {passed : List (List Nat × Form)}
    (hMap : passed.map (fun entry => (id :: entry.1, entry.2)) =
      before.map fun node => (node.path, node.form)) : passed.length = before.length := by
  simpa using congrArg List.length hMap

section Levels

variable {n : Nat} (hNodup : ∀ id, (chart.pointers id).Nodup)
  (hNone : chart.NoneReaches id form n)
include hNodup hNone

/-- If the limit is exceeded before any trail reached the word, it is exceeded for good. -/
theorem levelOrder_of_passed {passed later : List (List Nat × Form)}
    (hTrails : chart.trails id form (n + 1) = passed ++ later)
    (hPassed : ∀ entry ∈ passed, entry.2 ≠ Form.ofWord chart.word)
    (hLimit : limit < (chart.shorter id form n).length + passed.length) :
    LevelOrder chart id form limit .limitReached := by
  have hCount := Chart.encard_passed hNodup hTrails
  have hLess : (limit : ℕ∞) < ((chart.shorter id form n).length + passed.length : Nat) := by
    exact_mod_cast hLimit
  rw [← hCount] at hLess
  by_cases hSome : ∃ trail, chart.Admissible id form trail ∧ chart.Reaches form trail
  · obtain ⟨trail, hTrail, hReaches⟩ := hSome
    obtain ⟨goal, hFirst⟩ := Chart.exists_isFirst hNodup hTrail hReaches
    refine .overtaken hFirst (hLess.trans_le (Set.encard_le_encard ?_))
    intro other hOther
    refine ⟨hNone.admissible_of_passed hTrails hOther, ?_⟩
    apply Chart.precedes_of_passed hNodup hTrails hOther
    exact (hFirst.admissible.passed_or_later hTrails).resolve_left
      (hNone.notMem_passed hTrails hPassed hFirst.admissible hFirst.reaches)
  · push Not at hSome
    refine .unending hSome (hLess.trans_le (Set.encard_le_encard ?_))
    exact fun other hOther => hNone.admissible_of_passed hTrails hOther

theorem levelOrder_of_goal {passed later : List (List Nat × Form)} {goal : List Nat}
    (hTrails : chart.trails id form (n + 1) = passed ++ (goal, Form.ofWord chart.word) :: later)
    (hPassed : ∀ entry ∈ passed, entry.2 ≠ Form.ofWord chart.word)
    (hLimit : (chart.shorter id form n).length + passed.length ≤ limit) :
    LevelOrder chart id form limit (.found (id :: goal)) := by
  obtain ⟨hFirst, hAhead⟩ := hNone.isFirst hNodup hTrails hPassed
  refine .found hFirst ?_
  rw [hAhead, Chart.encard_passed hNodup hTrails]
  exact_mod_cast hLimit

theorem levelOrder_of_nil (hTrails : chart.trails id form (n + 1) = [])
    (hLimit : (chart.shorter id form n).length ≤ limit) :
    LevelOrder chart id form limit .exhausted := by
  have hAll : { trail | chart.Admissible id form trail } ⊆
      { trail | trail ∈ chart.shorter id form n } :=
    fun trail hTrail => Chart.Admissible.mem_shorter hTrail hTrails
  refine .exhausted ?_ ?_
  · intro trail hTrail hReaches
    have hLength := hNone.length_lt hTrail hReaches
    have hShort := (Chart.mem_shorter_iff.mp (hAll hTrail)).2.1
    omega
  · refine (Set.encard_le_encard hAll).trans ?_
    rw [Chart.encard_setOf_mem (Chart.nodup_shorter hNodup id form n)]
    exact_mod_cast hLimit

end Levels

/-- What the search has counted when it comes to a level are the trails of the levels before. -/
theorem Searches.levelOrder (hNodup : ∀ id, (chart.pointers id).Nodup) {count : Nat}
    {level : List Node} {finding : Finding} (hSearch : Searches chart limit count level finding)
    {n : Nat} (hLevel : level = (Node.root id form).descendants chart n)
    (hCount : count = (chart.shorter id form n).length) (hWithin : count ≤ limit)
    (hNone : chart.NoneReaches id form n) : LevelOrder chart id form limit finding := by
  induction hSearch generalizing n with
  | @ended count level finding hEnded =>
      subst hLevel
      rw [← Node.descendants_succ'] at hEnded
      generalize hNodes : (Node.root id form).descendants chart (n + 1) = nodes at hEnded
      cases hEnded with
      | @found before after goal hBefore hLimit hGoal =>
          obtain ⟨passed, rest, hTrails, hPassed, hRest⟩ := exists_trails_of_descendants hNodes
          obtain ⟨⟨trail, result⟩, later, rfl, hSame, _⟩ := List.map_eq_cons_iff.mp hRest
          obtain ⟨hPath, rfl⟩ := Prod.mk.inj hSame
          rw [hGoal] at hTrails
          rw [← hPath]
          apply levelOrder_of_goal hNodup hNone hTrails (forall_ne_of_map_eq hPassed hBefore)
          rw [length_eq_of_map_eq hPassed, ← hCount]
          rcases hLimit with rfl | hLimit
          · exact hWithin
          · exact_mod_cast hLimit
      | @limitReached before after hBefore _ hLimit =>
          obtain ⟨passed, later, hTrails, hPassed, _⟩ := exists_trails_of_descendants hNodes
          apply levelOrder_of_passed hNodup hNone hTrails (forall_ne_of_map_eq hPassed hBefore)
          rw [length_eq_of_map_eq hPassed, ← hCount]
          exact_mod_cast hLimit
  | @exhausted count level hEmpty =>
      subst hLevel
      rw [← Node.descendants_succ'] at hEmpty
      have hMap := (Node.root id form).map_descendants chart (n + 1)
      rw [hEmpty] at hMap
      apply levelOrder_of_nil hNodup hNone (List.map_eq_nil_iff.mp hMap.symm)
      rwa [← hCount]
  | @deeper count level next finding hNext hNoGoal hLimit _ ih =>
      subst hLevel
      rw [← Node.descendants_succ'] at hNext
      have hParts : (Node.root id form).descendants chart (n + 1) = next ++ [] := by
        simpa using hNext
      obtain ⟨passed, later, hTrails, hPassed, hRest⟩ := exists_trails_of_descendants hParts
      obtain rfl : later = [] := by simpa using hRest
      rw [List.append_nil] at hTrails
      refine ih hNext.symm ?_ (by exact_mod_cast hLimit) ?_
      · rw [Chart.shorter_succ, hTrails, hCount, ← length_eq_of_map_eq hPassed]
        simp
      · intro length hPos hLength entry hEntry
        rcases Nat.le_succ_iff.mp hLength with hShort | rfl
        · exact hNone hPos hShort entry hEntry
        · rw [hTrails] at hEntry
          exact forall_ne_of_map_eq hPassed hNoGoal entry hEntry

theorem levelOrder_findPath (hNodup : ∀ id, (chart.pointers id).Nodup) {state : State}
    (hState : chart.state? id = some state) (hComplete : state.isCompleteParse = true)
    (limit : Nat) (trace : Bool) :
    ∃ finding, LevelOrder chart id state.alternative limit finding ∧
      (findPath chart id limit trace).1 = finding.answer chart.word limit := by
  obtain ⟨finding, hSearch, hAnswer⟩ := searches_findPath hState hComplete limit trace
  refine ⟨finding, ?_, hAnswer⟩
  apply hSearch.levelOrder hNodup (n := 0) rfl (by simp [Chart.shorter]) (Nat.zero_le limit)
  intro length hPos hLength
  omega

/-- In a chart that any insertions have built, the search gives back the first admissible trail that
reaches the word, if at most as many as the limit come before it. It reports the limit if more come
before it, or if none reaches the word and there are more of them, be they infinitely many. Else it
has gone through all of them in vain. -/
theorem findPath_levelOrder {word : List Char} {insertions : List Insertion} {chart : Chart}
    (hChart : chart = Chart.afterAll word insertions) {id : Nat} {state : State}
    (hState : chart.state? id = some state) (hComplete : state.isCompleteParse = true)
    (limit : Nat) (trace : Bool) :
    (∀ goal, chart.IsFirst id state.alternative goal →
      ((chart.ahead id state.alternative goal).encard ≤ limit →
        (findPath chart id limit trace).1 = .ok (some (id :: goal))) ∧
      (limit < (chart.ahead id state.alternative goal).encard →
        (findPath chart id limit trace).1 = .error (.limitReached word limit))) ∧
    ((∃ trail, chart.Admissible id state.alternative trail ∧
        chart.Reaches state.alternative trail) →
      ∃ goal, chart.IsFirst id state.alternative goal) ∧
    ((∀ trail, chart.Admissible id state.alternative trail →
        ¬ chart.Reaches state.alternative trail) →
      (limit < { trail | chart.Admissible id state.alternative trail }.encard →
        (findPath chart id limit trace).1 = .error (.limitReached word limit)) ∧
      ({ trail | chart.Admissible id state.alternative trail }.encard ≤ limit →
        (findPath chart id limit trace).1 = .ok none)) ∧
    ∀ path, (findPath chart id limit trace).1 = .ok (some path) → ∀ larger : Nat, limit ≤ larger →
      ∀ otherTrace, (findPath chart id larger otherTrace).1 = .ok (some path) := by
  have hNodup : ∀ id, (chart.pointers id).Nodup := by
    rw [hChart]
    exact Chart.pointersNodup_afterAll word insertions
  have hWord : chart.word = word := by
    rw [hChart]
    exact (Chart.appends_afterAll word [] insertions).word
  have hAnswer {limit : Nat} {finding : Finding}
      (hEnds : LevelOrder chart id state.alternative limit finding) (trace : Bool) :
      (findPath chart id limit trace).1 = finding.answer word limit := by
    obtain ⟨other, hOther, hAnswer⟩ := levelOrder_findPath hNodup hState hComplete limit trace
    rw [hAnswer, hWord, hEnds.unique hOther]
  refine ⟨fun goal hFirst => ⟨fun hAhead => ?_, fun hAhead => ?_⟩, ?_, fun hNone =>
    ⟨fun hAll => ?_, fun hAll => ?_⟩, ?_⟩
  · exact hAnswer (.found hFirst hAhead) trace
  · exact hAnswer (.overtaken hFirst hAhead) trace
  · rintro ⟨trail, hTrail, hReaches⟩
    exact Chart.exists_isFirst hNodup hTrail hReaches
  · exact hAnswer (.unending hNone hAll) trace
  · exact hAnswer (.exhausted hNone hAll) trace
  · intro path hPath larger hLarger otherTrace
    obtain ⟨finding, hEnds, hOther⟩ := levelOrder_findPath hNodup hState hComplete limit trace
    rw [hPath] at hOther
    cases finding with
    | found found =>
        cases hOther
        exact hAnswer (hEnds.found_mono hLarger) otherTrace
    | exhausted => cases hOther
    | limitReached => cases hOther

/-- A match with two back-pointers, to a state that leads back to itself and to a rule that gives
the word. -/
def looping : List Insertion :=
  let start := Symbol.nonterminal (some 'S')
  let letter := Symbol.terminal (some 'a')
  [⟨⟨0, augmentedStart, [start], []⟩, 1, []⟩, ⟨⟨0, start, [letter], [start]⟩, 1, []⟩,
    ⟨⟨0, start, [letter], [start]⟩, 1, [1]⟩, ⟨⟨0, start, [letter], []⟩, 1, []⟩,
    ⟨⟨0, augmentedStart, [start], []⟩, 1, [1, 2]⟩]

theorem findPath_looping :
    (Chart.afterAll ['a'] looping).state? 0 =
      some ⟨0, augmentedStart, [.nonterminal (some 'S')], []⟩ ∧
    (findPath (Chart.afterAll ['a'] looping) 0 0 false).1 = .error (.limitReached ['a'] 0) ∧
    ∀ limit : Nat, 1 ≤ limit →
      (findPath (Chart.afterAll ['a'] looping) 0 limit true).1 = .ok (some [0, 2]) := by
  have hState : (Chart.afterAll ['a'] looping).state? 0 =
      some ⟨0, augmentedStart, [.nonterminal (some 'S')], []⟩ := by decide
  have hFound : (findPath (Chart.afterAll ['a'] looping) 0 (1 : Nat) false).1 =
      .ok (some [0, 2]) := by decide +kernel
  have hReached : (findPath (Chart.afterAll ['a'] looping) 0 0 false).1 =
      .error (.limitReached ['a'] 0) := by decide +kernel
  refine ⟨hState, hReached, fun limit hLimit => ?_⟩
  exact (findPath_levelOrder rfl hState rfl 1 false).2.2.2 _ hFound limit hLimit true

end Earley.Derivation
