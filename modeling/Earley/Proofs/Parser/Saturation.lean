import Earley.Proofs.Parser.Bounds

/-! Closing a position ends within its bounds, and what it ends with is saturated: whatever the
rules infer at the position is there, together with its back-pointer. -/
namespace Earley

namespace Chart

variable {chart : Chart} {position : Nat}

/-- The states of a position are listed exactly. -/
theorem statesAt_eq_ok (hPosition : position ≤ chart.word.length) :
    ∃ states, chart.statesAt position = .ok states ∧
      ∀ id state, (id, state) ∈ states ↔ chart.At position id state := by
  have hIds : chart.idsAt position = .ok (chart.column position).toList := by
    rw [idsAt, bind_of_eq_ok (checkPosition_eq_ok hPosition)]
    rfl
  refine ⟨_, by rw [statesAt, bind_of_eq_ok hIds]; rfl, ?_⟩
  intro id state
  simp [At, List.mem_filterMap]

theorem insert_eq_put {state : State} {source : Nat} (hPosition : position ≤ chart.word.length)
    (hSource : source < chart.size) :
    chart.insert state position [(source : Int)] = .ok (chart.put state position [source]) := by
  rw [insert_eq, if_neg (by omega), if_neg (by omega), if_pos (by simpa using hSource)]
  rfl

end Chart

namespace Parser

variable {g : Grammar} {chart : Chart} {position : Nat}

/-- Whatever the rules infer at the target from an entry of the position is there, with that entry
among its back-pointers. -/
def Saturated (g : Grammar) (chart : Chart) (position target : Nat) : Prop :=
  ∀ ⦃id state⦄, Infers g chart position id target state → chart.Derived target state id

theorem Viable.defined (hValid : g.Valid) {word : List Char} {origin : Int} {lhs : Symbol}
    {before rest : Form} {letter : Letter}
    (hViable : Viable g word position ⟨origin, lhs, before, .nonterminal letter :: rest⟩) :
    ∃ head alternatives, letter = some head ∧ g.alternatives? head = some alternatives := by
  obtain ⟨_, _, _, hRule, _⟩ := hViable
  have hMem : .nonterminal letter ∈ before ++ .nonterminal letter :: rest := by simp
  have hDefined : ∃ head, letter = some head ∧ (g.alternatives? head).isSome := by
    simp only [State.alternative] at hRule
    generalize before ++ .nonterminal letter :: rest = alternative at hRule hMem
    cases hRule with
    | start =>
        obtain rfl : letter = g.start := by simpa using hMem
        exact hValid.start
    | rule hRule => exact hValid.defined hRule hMem
  obtain ⟨head, hLetter, hSome⟩ := hDefined
  obtain ⟨alternatives, hAlternatives⟩ := Option.isSome_iff_exists.mp hSome
  exact ⟨head, alternatives, hLetter, hAlternatives⟩

theorem infers_iff {id : Nat} {state next : State} (hAt : chart.At position id state) :
    Infers g chart position id position next ↔
      (∃ head alternative, state.next? = some (.nonterminal (some head)) ∧
        g.Produces head alternative ∧ next = .initial (.nonterminal (some head)) alternative position) ∨
      (state.next? = none ∧ ∃ (origin waitingId : Nat) (waiting : State), state.origin = origin ∧
        chart.At origin waitingId waiting ∧ waiting.next? = some state.lhs ∧
        waiting.advance? = some next) := by
  constructor
  · intro hInfers
    cases hInfers with
    | predict hSame hRule =>
        obtain rfl := hAt.unique hSame
        exact Or.inl ⟨_, _, rfl, hRule, rfl⟩
    | complete hSame hWaiting =>
        obtain rfl := hAt.unique hSame
        exact Or.inr ⟨rfl, _, _, _, rfl, hWaiting, rfl, rfl⟩
  · obtain ⟨origin, lhs, before, after⟩ := state
    rintro (⟨head, alternative, hNext, hRule, rfl⟩ | ⟨hComplete, hWaits⟩)
    · obtain ⟨rest, rfl⟩ := List.head?_eq_some_iff.mp hNext
      exact Infers.predict hAt hRule
    · obtain rfl : after = [] := List.head?_eq_none_iff.mp hComplete
      obtain ⟨origin, waitingId, ⟨outer, above, front, back⟩, rfl, hWaiting, hNext, hAdvance⟩ :=
        hWaits
      obtain ⟨rest, rfl⟩ := List.head?_eq_some_iff.mp hNext
      obtain rfl := Option.some.inj hAdvance
      exact Infers.complete hAt hWaiting

/-- What is computed from a state is what the rules infer from it at its position. -/
theorem derived_eq_ok (hValid : g.Valid) (hSound : Sound g chart) {id : Nat} {state : State}
    (hAt : chart.At position id state) (hPosition : position ≤ chart.word.length) :
    ∃ states, derived g chart position state = .ok states ∧
      ∀ next, next ∈ states ↔ Infers g chart position id position next := by
  simp only [infers_iff hAt]
  have hViable := hSound.viable hAt
  cases hNext : state.next? with
  | none =>
      obtain ⟨origin, hOrigin, hLe, _⟩ := hViable
      obtain ⟨candidates, hCandidates, hMem⟩ :=
        Chart.statesAt_eq_ok (Nat.le_trans hLe hPosition)
      refine ⟨_, by rw [derived, hNext, hOrigin, bind_of_eq_ok hCandidates]; rfl, ?_⟩
      intro next
      simp only [List.mem_filterMap, Prod.exists, hMem]
      constructor
      · rintro ⟨waitingId, waiting, hWaiting, hAdvance⟩
        split at hAdvance
        · next hExpects =>
          exact Or.inr ⟨trivial, origin, waitingId, waiting, hOrigin, hWaiting, hExpects, hAdvance⟩
        · simp at hAdvance
      · rintro (⟨head, _, hSome, _⟩ | ⟨_, start, waitingId, waiting, hStart, hWaiting, hExpects, hAdvance⟩)
        · simp at hSome
        · obtain rfl : origin = start := Int.ofNat.inj (hOrigin.symm.trans hStart)
          exact ⟨waitingId, waiting, hWaiting, by rw [if_pos hExpects]; exact hAdvance⟩
  | some symbol =>
      obtain ⟨origin, lhs, before, after⟩ := state
      obtain ⟨rest, rfl⟩ := List.head?_eq_some_iff.mp hNext
      cases symbol with
      | terminal letter => exact ⟨[], by rw [derived, hNext], by simp⟩
      | nonterminal letter =>
          obtain ⟨head, alternatives, rfl, hAlternatives⟩ := hViable.defined hValid
          have hProduction : g.production [head] = .ok ⟨some head, alternatives⟩ := by
            rw [Grammar.production, hAlternatives]
          refine ⟨_, by rw [derived, hNext]; exact bind_of_eq_ok hProduction, ?_⟩
          intro next
          rw [List.mem_map]
          constructor
          · rintro ⟨alternative, hMem, rfl⟩
            exact Or.inl ⟨head, alternative, rfl, ⟨alternatives, hAlternatives, hMem⟩, rfl⟩
          · rintro (⟨other, alternative, hSame, ⟨others, hOthers, hMem⟩, rfl⟩ | ⟨hNone, _⟩)
            · obtain rfl : head = other := by simpa using hSame
              obtain rfl : alternatives = others := Option.some.inj (hAlternatives.symm.trans hOthers)
              exact ⟨alternative, hMem, rfl⟩
            · simp at hNone

/-- What an operation at a position does to the chart, and what its flag tells. -/
structure Closing (g : Grammar) (position : Nat) (before after : Chart) (changed : Bool) : Prop where
  grows : Grows g position before after
  flagged : Chart.Flagged position before after changed

theorem Closing.refl (chart : Chart) : Closing g position chart chart false :=
  ⟨Relation.ReflTransGen.refl, Chart.Flagged.refl chart⟩

theorem Closing.trans {first second third : Chart} {changed changedLater : Bool}
    (hFirst : Closing g position first second changed)
    (hSecond : Closing g position second third changedLater) :
    Closing g position first third (changed || changedLater) :=
  ⟨Relation.ReflTransGen.trans hFirst.grows hSecond.grows, hFirst.flagged.trans hSecond.flagged⟩

theorem Infers.closing {id : Nat} {state : State} (hChart : chart.WellFormed)
    (hPosition : position ≤ chart.word.length) (hInfers : Infers g chart position id position state) :
    Closing g position chart (chart.put state position [id]).1 (chart.put state position [id]).2 := by
  obtain ⟨_, hAt⟩ := hInfers.exists_at
  exact ⟨hInfers.grows_put hPosition, hChart.flagged_put hPosition hAt.1⟩

theorem insertAll_eq_ok {id : Nat} {states : List State} (hChart : chart.WellFormed)
    (hPosition : position ≤ chart.word.length)
    (hStates : ∀ state ∈ states, Infers g chart position id position state) :
    ∃ next changed, insertAll position id states chart = .ok (next, changed) ∧
      Closing g position chart next changed ∧ ∀ state ∈ states, next.Derived position state id := by
  induction states generalizing chart with
  | nil => exact ⟨chart, false, rfl, Closing.refl chart, by simp⟩
  | cons state rest ih =>
      have hInfers := hStates state (List.mem_cons_self ..)
      have hFirst := hInfers.closing hChart hPosition
      have hMiddle := hFirst.grows.wellFormed hChart
      have hExtends := hFirst.grows.extends hChart
      have hMiddlePosition : position ≤ (chart.put state position [id]).1.word.length := by
        rw [hExtends.word]
        exact hPosition
      obtain ⟨next, changed, hRest, hSecond, hDerived⟩ := ih hMiddle hMiddlePosition
        fun other hOther => (hStates other (List.mem_cons_of_mem _ hOther)).mono hExtends
      refine ⟨next, _, ?_, hFirst.trans hSecond, ?_⟩
      · rw [insertAll, bind_of_eq_ok (Chart.insert_eq_put hPosition hInfers.lt_size)]
        exact bind_of_eq_ok hRest
      · intro other hOther
        rcases List.mem_cons.mp hOther with rfl | hOther
        · apply (hSecond.grows.extends hMiddle).derived_mono
          exact hInfers.derived_put hChart hPosition
        · exact hDerived other hOther

section Parser

variable {parser : Parser} {progress : Progress}

theorem examine_eq_ok (hValid : parser.grammar.Valid) (hSound : Sound parser.grammar progress.chart)
    (hPosition : position ≤ progress.chart.word.length) {id : Nat} {state : State}
    (hAt : progress.chart.At position id state) :
    ∃ next changed, parser.examine position id progress = .ok (next, changed) ∧
      Closing parser.grammar position progress.chart next.chart changed ∧
      ∀ {found}, Infers parser.grammar progress.chart position id position found →
        next.chart.Derived position found id := by
  obtain ⟨states, hStates, hMem⟩ := derived_eq_ok hValid hSound hAt hPosition
  obtain ⟨next, changed, hInsert, hClosing, hDerived⟩ :=
    insertAll_eq_ok hSound.wellFormed hPosition fun found hFound => (hMem found).mp hFound
  let entry : Entry := ⟨state, progress.chart.pointers id⟩
  refine ⟨⟨next, parser.record (.examined id entry) progress.log⟩, changed, ?_, hClosing, ?_⟩
  · rw [examine, bind_of_eq_ok (Chart.entry_eq_ok hAt.2), bind_of_eq_ok hStates]
    exact bind_of_eq_ok hInsert
  · intro found hInfers
    exact hDerived found ((hMem found).mpr hInfers)

/-- A sweep ends, since there are no more identifiers at the position than it has fuel. If it
changes nothing, nothing could be inferred from the entries that it visited. -/
theorem sweep_eq_ok (hValid : parser.grammar.Valid) {fuel index : Nat}
    (hSound : Sound parser.grammar progress.chart)
    (hPosition : position ≤ progress.chart.word.length)
    (hIndex : index ≤ columnBound parser.grammar position)
    (hFuel : columnBound parser.grammar position < fuel + index) :
    ∃ next changed, parser.sweep position fuel index progress = .ok (next, changed) ∧
      Closing parser.grammar position progress.chart next.chart changed ∧
      (changed = false → ∀ {other id state}, index ≤ other →
        (progress.chart.column position)[other]? = some id →
        Infers parser.grammar progress.chart position id position state →
        progress.chart.Derived position state id) := by
  induction fuel generalizing index progress with
  | zero => omega
  | succ fuel ih =>
      cases hId : (progress.chart.column position)[index]? with
      | none =>
          refine ⟨progress, false, by rw [sweep, hId], Closing.refl _, ?_⟩
          intro _ other id state hOther hSome
          have hSize := Array.getElem?_eq_none_iff.mp hId
          have hLt := (Array.getElem?_eq_some_iff.mp hSome).choose
          omega
      | some id =>
          have hMem := Array.mem_of_getElem? hId
          obtain ⟨state, hState⟩ :=
            Chart.exists_state?_of_lt_size (hSound.wellFormed.bounded hMem)
          obtain ⟨middle, changed, hExamine, hFirst, hDerived⟩ :=
            examine_eq_ok hValid hSound hPosition ⟨hMem, hState⟩
          have hExtends := hFirst.grows.extends hSound.wellFormed
          have hLt := (Array.getElem?_eq_some_iff.mp hId).choose
          have hColumn := hSound.size_column_le position
          obtain ⟨next, changedLater, hSweep, hSecond, hRest⟩ :=
            @ih middle (index + 1) (hFirst.grows.sound hValid hSound)
              (by rw [hExtends.word]; exact hPosition) (by omega) (by omega)
          refine ⟨next, changed || changedLater, ?_, hFirst.trans hSecond, ?_⟩
          · rw [sweep, hId]
            exact (bind_of_eq_ok hExamine).trans (bind_of_eq_ok hSweep)
          · intro hUnchanged other otherId found hOther hSome hInfers
            obtain ⟨rfl, rfl⟩ := Bool.or_eq_false_iff.mp hUnchanged
            have hSame := hFirst.flagged.unchanged rfl
            rw [hSame] at hDerived hRest
            rcases Nat.lt_or_eq_of_le hOther with hLater | rfl
            · exact hRest rfl hLater hSome hInfers
            · obtain rfl : id = otherId := Option.some.inj (hId.symm.trans hSome)
              exact hDerived hInfers

/-- Every sweep but the last makes the position heavier, so there are not too many of them. -/
theorem repeatSweeps_eq_ok (hValid : parser.grammar.Valid) {sweeps : Nat}
    (hSound : Sound parser.grammar progress.chart)
    (hPosition : position ≤ progress.chart.word.length)
    (hSweeps : sweepBound parser.grammar position ≤ sweeps + progress.chart.weight position) :
    ∃ next, parser.repeatSweeps position sweeps progress = .ok next ∧
      Grows parser.grammar position progress.chart next.chart ∧
      Saturated parser.grammar next.chart position position := by
  induction sweeps generalizing progress with
  | zero =>
      have hWeight := hSound.weight_lt position
      omega
  | succ sweeps ih =>
      obtain ⟨middle, changed, hSweep, hClosing, hVisited⟩ :=
        sweep_eq_ok hValid hSound hPosition (Nat.zero_le _) (Nat.lt_succ_self _)
      rw [repeatSweeps, bind_of_eq_ok hSweep]
      cases changed with
      | true =>
          have hHeavier := hClosing.flagged.heavier rfl
          have hExtends := hClosing.grows.extends hSound.wellFormed
          obtain ⟨next, hRest, hGrows, hSaturated⟩ := ih (hClosing.grows.sound hValid hSound)
            (by rw [hExtends.word]; exact hPosition) (by omega)
          exact ⟨next, hRest, Relation.ReflTransGen.trans hClosing.grows hGrows, hSaturated⟩
      | false =>
          refine ⟨middle, rfl, hClosing.grows, ?_⟩
          rw [hClosing.flagged.unchanged rfl]
          intro id state hInfers
          obtain ⟨_, hAt⟩ := hInfers.exists_at
          obtain ⟨index, hIndex⟩ := Array.getElem?_of_mem hAt.1
          exact hVisited rfl (Nat.zero_le _) hIndex hInfers

theorem close_eq_ok (hValid : parser.grammar.Valid) (hSound : Sound parser.grammar progress.chart)
    (hPosition : position ≤ progress.chart.word.length) :
    ∃ next, parser.close position progress = .ok next ∧
      Grows parser.grammar position progress.chart next.chart ∧
      Saturated parser.grammar next.chart position position :=
  repeatSweeps_eq_ok hValid hSound hPosition (Nat.le_add_right _ _)

end Parser

end Parser

end Earley
