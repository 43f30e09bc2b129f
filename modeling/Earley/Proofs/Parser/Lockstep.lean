import Earley.Proofs.Parser.Charting

/-! Two runs side by side. As far as two words agree, parsers of one grammar make the same
insertions in the same order. Neither what comes later in the words has an influence on that, nor
the limit of the search, nor what is logged meanwhile. -/
namespace Earley.Parser

/-- The charts of two words with a common front, while only positions of the front have states: the
same states with the same back-pointers stand in the same columns and are listed in the same
indexes. -/
structure InStep (front left right : List Char) (first second : Chart) : Prop where
  firstWord : first.word = front ++ left
  secondWord : second.word = front ++ right
  firstColumns : first.columns.size = first.word.length + 1
  secondColumns : second.columns.size = second.word.length + 1
  firstIndexes : first.indexes.size = first.word.length + 1
  secondIndexes : second.indexes.size = second.word.length + 1
  pointed : second.prev.size = second.size
  states : first.states = second.states
  prev : first.prev = second.prev
  column : ∀ {position}, position ≤ front.length → first.column position = second.column position
  index : ∀ {position}, position ≤ front.length → first.index position = second.index position
  origin : ∀ {id state}, first.state? id = some state → state.origin ≤ front.length

namespace InStep

variable {front left right : List Char} {first second next : Chart} {state : State} {position : Nat}

section Charts

variable (hStep : InStep front left right first second)
include hStep

theorem firstLength : front.length ≤ first.word.length := by
  simp [hStep.firstWord]

theorem secondLength : front.length ≤ second.word.length := by
  simp [hStep.secondWord]

theorem state?_eq (id : Nat) : first.state? id = second.state? id := by
  rw [Chart.state?, Chart.state?, hStep.states]

theorem pointers_eq (id : Nat) : first.pointers id = second.pointers id := by
  rw [Chart.pointers, Chart.pointers, hStep.prev]

theorem entry_eq (id : Nat) : first.entry id = second.entry id := by
  rw [Chart.entry, Chart.entry, Chart.state, Chart.state, hStep.state?_eq, hStep.pointers_eq]

theorem size_eq : first.size = second.size := by
  rw [Chart.size, Chart.size, hStep.states]

theorem find?_eq (hPosition : position ≤ front.length) :
    first.find? state position = second.find? state position := by
  rw [Chart.find?, Chart.find?, hStep.index hPosition]

theorem append (hPosition : position ≤ front.length) (hOrigin : state.origin ≤ front.length)
    (prev : List Nat) :
    InStep front left right (first.append state position prev)
      (second.append state position prev) := by
  have hFirst : position < first.word.length + 1 :=
    Nat.lt_succ_of_le (hPosition.trans hStep.firstLength)
  have hSecond : position < second.word.length + 1 :=
    Nat.lt_succ_of_le (hPosition.trans hStep.secondLength)
  constructor
  case firstWord => rw [Chart.word_append, hStep.firstWord]
  case secondWord => rw [Chart.word_append, hStep.secondWord]
  case firstColumns => simp [Chart.columns_append, hStep.firstColumns]
  case secondColumns => simp [Chart.columns_append, hStep.secondColumns]
  case firstIndexes => simp [Chart.indexes_append, hStep.firstIndexes]
  case secondIndexes => simp [Chart.indexes_append, hStep.secondIndexes]
  case pointed => simp [Chart.prev_append hStep.pointed, hStep.pointed]
  case states => rw [Chart.states_append, Chart.states_append, hStep.states]
  case prev =>
    have hPointed : first.prev.size = first.size := by
      rw [hStep.prev, hStep.pointed, hStep.size_eq]
    rw [Chart.prev_append hPointed, Chart.prev_append hStep.pointed, hStep.prev]
  case column =>
    intro other hOther
    rw [Chart.column_append (hStep.firstColumns ▸ hFirst),
      Chart.column_append (hStep.secondColumns ▸ hSecond), hStep.column hOther, hStep.size_eq]
  case index =>
    intro other hOther
    rw [Chart.index_append (hStep.firstIndexes ▸ hFirst),
      Chart.index_append (hStep.secondIndexes ▸ hSecond), hStep.index hOther, hStep.size_eq]
  case origin =>
    intro id found hFound
    rw [Chart.state?_append] at hFound
    split at hFound
    · cases hFound
      exact hOrigin
    · exact hStep.origin hFound

theorem merge (id : Nat) (prev : List Nat) :
    InStep front left right (first.merge id prev) (second.merge id prev) where
  firstWord := by rw [Chart.word_merge, hStep.firstWord]
  secondWord := by rw [Chart.word_merge, hStep.secondWord]
  firstColumns := by simp [hStep.firstColumns]
  secondColumns := by simp [hStep.secondColumns]
  firstIndexes := by simp [hStep.firstIndexes]
  secondIndexes := by simp [hStep.secondIndexes]
  pointed := by simp [Chart.prev_merge, hStep.pointed]
  states := by rw [Chart.states_merge, Chart.states_merge, hStep.states]
  prev := by rw [Chart.prev_merge, Chart.prev_merge, hStep.prev, hStep.pointers_eq]
  column hPosition := by rw [Chart.column_merge, Chart.column_merge, hStep.column hPosition]
  index hPosition := by rw [Chart.index_merge, Chart.index_merge, hStep.index hPosition]
  origin hFound := by
    rw [Chart.state?_merge] at hFound
    exact hStep.origin hFound

/-- Both charts change, or neither does. -/
theorem put (hPosition : position ≤ front.length) (hOrigin : state.origin ≤ front.length)
    (prev : List Nat) :
    (first.put state position prev).2 = (second.put state position prev).2 ∧
      InStep front left right (first.put state position prev).1
        (second.put state position prev).1 := by
  cases hFind : second.find? state position with
  | none =>
      have hFirst := (hStep.find?_eq hPosition).trans hFind
      rw [Chart.put_of_new hFirst, Chart.put_of_new hFind]
      exact ⟨rfl, hStep.append hPosition hOrigin prev⟩
  | some id =>
      have hFirst := (hStep.find?_eq hPosition).trans hFind
      rw [Chart.put_of_known hFirst, Chart.put_of_known hFind, hStep.pointers_eq]
      exact ⟨rfl, hStep.merge id prev⟩

theorem insert (hPosition : position ≤ front.length) (hOrigin : state.origin ≤ front.length)
    {prev : List Int} {changed : Bool}
    (hInsert : first.insert state position prev = .ok (next, changed)) :
    ∃ found, second.insert state position prev = .ok (found, changed) ∧
      InStep front left right next found := by
  have hFirst := hStep.firstLength
  have hSecond := hStep.secondLength
  rw [Chart.insert_eq, if_neg (by omega), if_neg (by omega), hStep.size_eq] at hInsert
  rw [Chart.insert_eq, if_neg (by omega), if_neg (by omega)]
  split at hInsert
  · next hPrev =>
    obtain ⟨hChanged, hNext⟩ := hStep.put hPosition hOrigin (prev.map Int.toNat)
    obtain ⟨rfl, rfl⟩ := Prod.mk.inj (Except.ok.inj hInsert)
    rw [if_pos hPrev]
    exact ⟨_, congrArg Except.ok (Prod.ext rfl hChanged.symm), hNext⟩
  · cases hInsert

theorem statesAt {origin : Int} (hOrigin : origin ≤ front.length) {states : List (Nat × State)}
    (hStates : first.statesAt origin = .ok states) :
    second.statesAt origin = .ok states ∧
      ∀ id state, (id, state) ∈ states → state.origin ≤ front.length := by
  have hFirst := hStep.firstLength
  have hSecond := hStep.secondLength
  by_cases hNegative : origin < 0
  · rw [Chart.statesAt, Chart.idsAt, Chart.checkPosition, if_neg (by omega)] at hStates
    cases hStates
  · obtain ⟨place, rfl⟩ := Int.eq_ofNat_of_zero_le (not_lt.mp hNegative)
    have hPlace : place ≤ front.length := by omega
    rw [Chart.statesAt, Chart.idsAt, bind_of_eq_ok (Chart.checkPosition_eq_ok (by omega))]
      at hStates ⊢
    cases hStates
    refine ⟨?_, ?_⟩
    · simp only [hStep.column hPlace, hStep.state?_eq]
      rfl
    · intro id state hMem
      obtain ⟨_, _, hFound⟩ := List.mem_filterMap.mp hMem
      obtain ⟨_, hState, hSame⟩ := Option.map_eq_some_iff.mp hFound
      cases hSame
      exact hStep.origin hState

theorem derived {g : Grammar} (hPosition : position ≤ front.length)
    (hOrigin : state.origin ≤ front.length) {states : List State}
    (hDerived : derived g first position state = .ok states) :
    derived g second position state = .ok states ∧
      ∀ found ∈ states, found.origin ≤ front.length := by
  rw [Parser.derived] at hDerived ⊢
  cases hNext : state.next? with
  | none =>
      simp only [hNext] at hDerived ⊢
      obtain ⟨candidates, hCandidates, hDerived⟩ := bind_eq_ok_iff.mp hDerived
      cases hDerived
      obtain ⟨hSecond, hWaiting⟩ := hStep.statesAt hOrigin hCandidates
      refine ⟨by rw [bind_of_eq_ok hSecond]; rfl, ?_⟩
      intro found hFound
      obtain ⟨⟨id, waiting⟩, hMem, hAdvance⟩ := List.mem_filterMap.mp hFound
      split at hAdvance
      · rw [(State.alternative_of_advance? hAdvance).2.2]
        exact hWaiting id waiting hMem
      · cases hAdvance
  | some symbol =>
      cases symbol with
      | terminal letter =>
          simp only [hNext] at hDerived ⊢
          cases hDerived
          exact ⟨rfl, by simp⟩
      | nonterminal letter =>
          simp only [hNext] at hDerived ⊢
          refine ⟨hDerived, ?_⟩
          obtain ⟨production, _, hDerived⟩ := bind_eq_ok_iff.mp hDerived
          cases hDerived
          intro found hFound
          obtain ⟨alternative, _, rfl⟩ := List.mem_map.mp hFound
          exact Int.ofNat_le.mpr hPosition

end Charts

theorem insertAll (hStep : InStep front left right first second)
    (hPosition : position ≤ front.length) {id : Nat} {states : List State}
    (hOrigins : ∀ state ∈ states, state.origin ≤ front.length) {changed : Bool}
    (hInsert : insertAll position id states first = .ok (next, changed)) :
    ∃ found, Parser.insertAll position id states second = .ok (found, changed) ∧
      InStep front left right next found := by
  induction states generalizing first second changed with
  | nil =>
      cases hInsert
      exact ⟨second, rfl, hStep⟩
  | cons state rest ih =>
      obtain ⟨⟨middle, changedFirst⟩, hFirst, hInsert⟩ := bind_eq_ok_iff.mp hInsert
      obtain ⟨⟨last, changedLater⟩, hRest, hInsert⟩ := bind_eq_ok_iff.mp hInsert
      cases hInsert
      obtain ⟨between, hSecond, hMiddle⟩ :=
        hStep.insert hPosition (hOrigins state (List.mem_cons_self ..)) hFirst
      obtain ⟨found, hFound, hLast⟩ :=
        ih hMiddle (fun other hOther => hOrigins other (List.mem_cons_of_mem _ hOther)) hRest
      refine ⟨found, ?_, hLast⟩
      rw [Parser.insertAll, bind_of_eq_ok hSecond]
      exact bind_of_eq_ok hFound

section Parsers

variable {parser other : Parser} {log newLog : Log}
  (hGrammar : parser.grammar = other.grammar) (hStep : InStep front left right first second)
include hGrammar hStep

theorem examine (hPosition : position ≤ front.length) {id : Nat} {changed : Bool}
    (hExamine : parser.examine position id ⟨first, log⟩ = .ok (⟨next, newLog⟩, changed))
    (otherLog : Log) :
    ∃ found foundLog, other.examine position id ⟨second, otherLog⟩ =
      .ok (⟨found, foundLog⟩, changed) ∧ InStep front left right next found := by
  obtain ⟨entry, hEntry, hExamine⟩ := bind_eq_ok_iff.mp hExamine
  obtain ⟨states, hStates, hExamine⟩ := bind_eq_ok_iff.mp hExamine
  obtain ⟨⟨last, changedLast⟩, hInsert, hExamine⟩ := bind_eq_ok_iff.mp hExamine
  cases hExamine
  have hState : first.state? id = some entry.state := (Chart.entry_eq_ok_iff.mp hEntry).1
  obtain ⟨hDerived, hOrigins⟩ := hStep.derived hPosition (hStep.origin hState) hStates
  obtain ⟨found, hFound, hLast⟩ := hStep.insertAll hPosition hOrigins hInsert
  rw [hGrammar] at hDerived
  refine ⟨found, other.record (.examined id entry) otherLog, ?_, hLast⟩
  rw [Parser.examine, bind_of_eq_ok ((hStep.entry_eq id).symm.trans hEntry),
    bind_of_eq_ok hDerived, bind_of_eq_ok hFound]
  rfl

theorem sweep (hPosition : position ≤ front.length) {fuel index : Nat} {changed : Bool}
    (hSweep : parser.sweep position fuel index ⟨first, log⟩ = .ok (⟨next, newLog⟩, changed))
    (otherLog : Log) :
    ∃ found foundLog, other.sweep position fuel index ⟨second, otherLog⟩ =
      .ok (⟨found, foundLog⟩, changed) ∧ InStep front left right next found := by
  induction fuel generalizing index first second log changed otherLog with
  | zero => cases hSweep
  | succ fuel ih =>
      rw [Parser.sweep] at hSweep ⊢
      rw [← hStep.column hPosition]
      cases hId : (first.column position)[index]? with
      | none =>
          simp only [hId] at hSweep ⊢
          cases hSweep
          exact ⟨second, otherLog, rfl, hStep⟩
      | some id =>
          simp only [hId] at hSweep ⊢
          obtain ⟨⟨⟨middle, middleLog⟩, changedFirst⟩, hExamine, hSweep⟩ := bind_eq_ok_iff.mp hSweep
          obtain ⟨⟨⟨last, lastLog⟩, changedLater⟩, hRest, hSweep⟩ := bind_eq_ok_iff.mp hSweep
          cases hSweep
          obtain ⟨between, betweenLog, hBetween, hMiddle⟩ :=
            hStep.examine hGrammar hPosition hExamine otherLog
          obtain ⟨found, foundLog, hFound, hLast⟩ := ih hMiddle hRest betweenLog
          refine ⟨found, foundLog, ?_, hLast⟩
          rw [bind_of_eq_ok hBetween, bind_of_eq_ok hFound]
          rfl

theorem repeatSweeps (hPosition : position ≤ front.length) {sweeps : Nat}
    (hSweeps : parser.repeatSweeps position sweeps ⟨first, log⟩ = .ok ⟨next, newLog⟩)
    (otherLog : Log) :
    ∃ found foundLog, other.repeatSweeps position sweeps ⟨second, otherLog⟩ =
      .ok ⟨found, foundLog⟩ ∧ InStep front left right next found := by
  induction sweeps generalizing first second log otherLog with
  | zero => cases hSweeps
  | succ sweeps ih =>
      rw [Parser.repeatSweeps] at hSweeps ⊢
      obtain ⟨⟨⟨middle, middleLog⟩, changed⟩, hSweep, hSweeps⟩ := bind_eq_ok_iff.mp hSweeps
      obtain ⟨between, betweenLog, hBetween, hMiddle⟩ :=
        hStep.sweep hGrammar hPosition hSweep otherLog
      rw [hGrammar] at hBetween
      rw [bind_of_eq_ok hBetween]
      cases changed with
      | true => exact ih hMiddle hSweeps betweenLog
      | false =>
          cases hSweeps
          exact ⟨between, betweenLog, rfl, hMiddle⟩

theorem close (hPosition : position ≤ front.length)
    (hClose : parser.close position ⟨first, log⟩ = .ok ⟨next, newLog⟩) (otherLog : Log) :
    ∃ found foundLog, other.close position ⟨second, otherLog⟩ = .ok ⟨found, foundLog⟩ ∧
      InStep front left right next found := by
  rw [Parser.close, hGrammar] at hClose
  exact hStep.repeatSweeps hGrammar hPosition hClose otherLog

end Parsers

theorem scanStates (hStep : InStep front left right first second)
    (hPosition : position < front.length) {c : Char} {states : List (Nat × State)}
    (hOrigins : ∀ id state, (id, state) ∈ states → state.origin ≤ front.length)
    (hScan : scanStates c position states first = .ok next) :
    ∃ found, Parser.scanStates c position states second = .ok found ∧
      InStep front left right next found := by
  induction states generalizing first second with
  | nil =>
      cases hScan
      exact ⟨second, rfl, hStep⟩
  | cons pair rest ih =>
      obtain ⟨id, state⟩ := pair
      have hRest (other : Nat) (found : State) (hMem : (other, found) ∈ rest) :
          found.origin ≤ front.length := hOrigins other found (List.mem_cons_of_mem _ hMem)
      rw [Parser.scanStates] at hScan ⊢
      split at hScan
      · next hNext =>
        obtain ⟨advanced, hAdvance, hScan⟩ := bind_eq_ok_iff.mp hScan
        obtain ⟨⟨middle, changed⟩, hInsert, hScan⟩ := bind_eq_ok_iff.mp hScan
        have hOrigin : advanced.origin ≤ front.length := by
          rw [State.advance] at hAdvance
          split at hAdvance
          · next hSome =>
            cases hAdvance
            rw [(State.alternative_of_advance? hSome).2.2]
            exact hOrigins id state (List.mem_cons_self ..)
          · cases hAdvance
        have hTarget : position + 1 ≤ front.length := hPosition
        obtain ⟨between, hBetween, hMiddle⟩ := hStep.insert hTarget hOrigin hInsert
        obtain ⟨found, hFound, hLast⟩ := ih hMiddle hRest hScan
        refine ⟨found, ?_, hLast⟩
        rw [if_pos hNext, bind_of_eq_ok hAdvance]
        exact (bind_of_eq_ok hBetween).trans hFound
      · next hNext =>
        rw [if_neg hNext]
        exact ih hStep hRest hScan

theorem scan (hStep : InStep front left right first second) (hPosition : position < front.length)
    (hScan : scan position first = .ok next) :
    ∃ found, Parser.scan position second = .ok found ∧ InStep front left right next found := by
  have hLetter : second.word[position]? = first.word[position]? := by
    rw [hStep.firstWord, hStep.secondWord, List.getElem?_append_left hPosition,
      List.getElem?_append_left hPosition]
  rw [Parser.scan] at hScan ⊢
  rw [hLetter]
  cases hWord : first.word[position]? with
  | none =>
      simp only [hWord] at hScan ⊢
      cases hScan
      exact ⟨second, rfl, hStep⟩
  | some c =>
      simp only [hWord] at hScan ⊢
      obtain ⟨states, hStates, hScan⟩ := bind_eq_ok_iff.mp hScan
      obtain ⟨hSecond, hOrigins⟩ := hStep.statesAt (Int.ofNat_le.mpr hPosition.le) hStates
      obtain ⟨found, hFound, hLast⟩ := hStep.scanStates hPosition hOrigins hScan
      exact ⟨found, (bind_of_eq_ok hSecond).trans hFound, hLast⟩

theorem visit {parser other : Parser} {log newLog : Log}
    (hGrammar : parser.grammar = other.grammar) (hStep : InStep front left right first second)
    (hPosition : position < front.length)
    (hVisit : parser.visit ⟨first, log⟩ position = .ok ⟨next, newLog⟩) (otherLog : Log) :
    ∃ found foundLog, other.visit ⟨second, otherLog⟩ position = .ok ⟨found, foundLog⟩ ∧
      InStep front left right next found := by
  obtain ⟨⟨middle, middleLog⟩, hClose, hVisit⟩ := bind_eq_ok_iff.mp hVisit
  obtain ⟨last, hScan, hVisit⟩ := bind_eq_ok_iff.mp hVisit
  cases hVisit
  obtain ⟨between, betweenLog, hBetween, hMiddle⟩ :=
    hStep.close hGrammar hPosition.le hClose otherLog
  obtain ⟨found, hFound, hLast⟩ := hMiddle.scan hPosition hScan
  refine ⟨found, other.record (.closed position between) betweenLog, ?_, hLast⟩
  rw [Parser.visit, bind_of_eq_ok hBetween]
  exact bind_of_eq_ok hFound

theorem empty (front left right : List Char) :
    InStep front left right (Chart.empty (front ++ left)) (Chart.empty (front ++ right)) := by
  refine ⟨rfl, rfl, by simp [Chart.empty], by simp [Chart.empty], by simp [Chart.empty],
    by simp [Chart.empty], rfl, rfl, rfl, ?_, ?_, ?_⟩
  · intro position hPosition
    rw [Chart.column_empty, Chart.column_empty]
  · intro position hPosition
    rw [Chart.index_empty, Chart.index_empty]
  · intro id state hState
    simp [Chart.state?, Chart.empty] at hState

theorem seeded (g : Grammar) (front left right : List Char) :
    InStep front left right (seeded g (front ++ left)) (seeded g (front ++ right)) :=
  ((empty front left right).put (Nat.zero_le _) (Int.natCast_nonneg _) []).2

/-- Nothing is left to tell the charts apart if the words end with their common front. -/
theorem eq_of_nil (hStep : InStep front [] [] first second) : first = second := by
  have hWord : first.word = second.word := hStep.firstWord.trans hStep.secondWord.symm
  have hInside {position : Nat} (hPosition : position < first.word.length + 1) :
      position ≤ front.length := by
    rw [hStep.firstWord, List.append_nil] at hPosition
    exact Nat.le_of_lt_succ hPosition
  have hColumns : first.columns = second.columns := by
    apply Array.ext
    · rw [hStep.firstColumns, hStep.secondColumns, hWord]
    · intro position hFirst hSecond
      have hSame := hStep.column (hInside (hStep.firstColumns ▸ hFirst))
      simpa [Chart.column, hFirst, hSecond] using hSame
  have hIndexes : first.indexes = second.indexes := by
    apply Array.ext
    · rw [hStep.firstIndexes, hStep.secondIndexes, hWord]
    · intro position hFirst hSecond
      have hSame := hStep.index (hInside (hStep.firstIndexes ▸ hFirst))
      simpa [Chart.index, hFirst, hSecond] using hSame
  cases first
  cases second
  exact Chart.mk.injEq .. ▸ ⟨hWord, hStep.states, hStep.prev, hColumns, hIndexes⟩

end InStep

variable {parser other : Parser} {front left : List Char} {next : Chart} {newLog : Log}

/-- Visits are in step on the common front of two words. -/
theorem visited_inStep (hGrammar : parser.grammar = other.grammar) {count : Nat}
    (hCount : count ≤ front.length)
    (hVisited : parser.visited (front ++ left) count = .ok ⟨next, newLog⟩) (right : List Char) :
    ∃ found foundLog, other.visited (front ++ right) count = .ok ⟨found, foundLog⟩ ∧
      InStep front left right next found := by
  induction count generalizing next newLog with
  | zero =>
      cases hVisited
      rw [hGrammar]
      exact ⟨_, #[], rfl, InStep.seeded other.grammar front left right⟩
  | succ count ih =>
      rw [visited_succ] at hVisited ⊢
      obtain ⟨⟨middle, middleLog⟩, hPrior, hVisit⟩ := bind_eq_ok_iff.mp hVisited
      obtain ⟨between, betweenLog, hBetween, hMiddle⟩ := ih (Nat.le_of_succ_le hCount) hPrior
      rw [bind_of_eq_ok hBetween]
      exact hMiddle.visit hGrammar hCount hVisit betweenLog

/-- Parsers of the same grammar build the same chart. They are in step until the last position is
closed, where the charts are equal, and so is what scanning makes of them. -/
theorem makeChart_congr {word : List Char}
    (hChart : parser.makeChart word = .ok ⟨next, newLog⟩) (other : Parser)
    (hGrammar : parser.grammar = other.grammar) :
    ∃ foundLog, other.makeChart word = .ok ⟨next, foundLog⟩ := by
  rw [makeChart_eq_visited, visited_succ] at hChart ⊢
  obtain ⟨⟨prior, priorLog⟩, hPrior, hVisit⟩ := bind_eq_ok_iff.mp hChart
  have hFront : parser.visited (word ++ []) word.length = .ok ⟨prior, priorLog⟩ := by
    rw [List.append_nil]
    exact hPrior
  obtain ⟨before, beforeLog, hBefore, hStep⟩ :=
    visited_inStep hGrammar (Nat.le_refl _) hFront []
  obtain ⟨⟨middle, middleLog⟩, hClose, hVisit⟩ := bind_eq_ok_iff.mp hVisit
  obtain ⟨last, hScan, hVisit⟩ := bind_eq_ok_iff.mp hVisit
  cases hVisit
  obtain ⟨between, betweenLog, hBetween, hMiddle⟩ :=
    hStep.close hGrammar (Nat.le_refl _) hClose beforeLog
  obtain rfl := hMiddle.eq_of_nil
  rw [List.append_nil] at hBefore
  refine ⟨other.record (.closed word.length middle) betweenLog, ?_⟩
  rw [bind_of_eq_ok hBefore, visit, bind_of_eq_ok hBetween]
  exact bind_of_eq_ok hScan

end Earley.Parser
