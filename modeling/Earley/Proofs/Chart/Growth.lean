import Earley.Proofs.Chart.Insertion

/-! Charts under arbitrary insertions, those that are refused included. Such a chart is consistent
at every moment, and an insertion never takes away or reorders what was there before. -/
namespace Earley

theorem isPrefix_addPointers (prev added : List Nat) : prev <+: addPointers prev added := by
  induction added generalizing prev with
  | nil => exact List.prefix_rfl
  | cons id rest ih =>
      have hFirst : prev <+: addPointer prev id := by
        unfold addPointer
        split <;> simp
      exact hFirst.trans (ih _)

/-- What a caller asks a chart to insert. The position and the back-pointers may be anything. -/
structure Insertion where
  state : State
  position : Int
  prev : List Int

namespace Chart

variable {chart : Chart} {state : State} {position : Nat} {prev : List Nat}

/-- The chart that an insertion leaves behind, also if it raises an error. -/
def attempt (chart : Chart) (insertion : Insertion) : Chart :=
  match (insertInto insertion.state insertion.position insertion.prev).run chart with
  | .ok _ next => next
  | .error _ next => next

/-- The chart after insertions were tried one after the other, from the empty chart on. -/
def afterAll (word : List Char) (insertions : List Insertion) : Chart :=
  insertions.foldl attempt (empty word)

/-- The states, the columns and the back-pointers of the later chart start with those of the
earlier one. -/
structure Appends (before after : Chart) : Prop where
  word : after.word = before.word
  states : before.states.toList <+: after.states.toList
  columns : ∀ position, (before.column position).toList <+: (after.column position).toList
  pointers : ∀ id, before.pointers id <+: after.pointers id

theorem Appends.refl (chart : Chart) : chart.Appends chart :=
  ⟨rfl, List.prefix_rfl, fun _ => List.prefix_rfl, fun _ => List.prefix_rfl⟩

theorem Appends.trans {first second third : Chart} (hFirst : first.Appends second)
    (hSecond : second.Appends third) : first.Appends third where
  word := hSecond.word.trans hFirst.word
  states := hFirst.states.trans hSecond.states
  columns position := (hFirst.columns position).trans (hSecond.columns position)
  pointers id := (hFirst.pointers id).trans (hSecond.pointers id)

theorem WellFormed.appends_append (hChart : chart.WellFormed)
    (hPosition : position ≤ chart.word.length) :
    chart.Appends (chart.append state position prev) where
  word := word_append
  states := by simp [states_append]
  columns other := by
    rw [column_append (hChart.lt_columns hPosition)]
    split <;> simp
  pointers id := by
    rw [pointers_append hChart.pointed]
    split
    · next hId => simp [hChart.pointers_eq_nil (Nat.le_of_eq hId.symm)]
    · exact List.prefix_rfl

theorem appends_merge {id : Nat} (hId : id < chart.prev.size) :
    chart.Appends (chart.merge id prev) where
  word := word_merge
  states := by simp
  columns other := by simp
  pointers other := by
    rw [pointers_merge hId]
    split
    · next hOther => exact hOther ▸ isPrefix_addPointers _ _
    · exact List.prefix_rfl

theorem WellFormed.appends_put (hChart : chart.WellFormed)
    (hPosition : position ≤ chart.word.length) :
    chart.Appends (chart.put state position prev).1 := by
  cases hFind : chart.find? state position with
  | none =>
      rw [put_of_new hFind]
      exact hChart.appends_append hPosition
  | some id =>
      rw [put_of_known hFind]
      exact appends_merge (hChart.lt_prev (hChart.find?_eq_some_iff.mp hFind))

/-- After an insertion the state stands at the position, with the back-pointers that it had there
before and the added ones. -/
theorem WellFormed.exists_at_put (hChart : chart.WellFormed)
    (hPosition : position ≤ chart.word.length) (state : State) (prev : List Nat) :
    ∃ id, (chart.put state position prev).1.At position id state ∧ ∀ source,
      source ∈ (chart.put state position prev).1.pointers id ↔
        source ∈ chart.pointers id ∨ source ∈ prev := by
  obtain ⟨id, hAt⟩ : (chart.put state position prev).1.Holds position state :=
    hChart.holds_put hPosition
  refine ⟨id, hAt, fun source => ?_⟩
  rw [hChart.mem_pointers_put_iff hPosition]
  simp [hAt]

/-- The flag tells truly whether the chart changed. -/
theorem WellFormed.put_changed_iff (hChart : chart.WellFormed) :
    (chart.put state position prev).2 = true ↔ (chart.put state position prev).1 ≠ chart := by
  constructor
  · intro hChanged hSame
    cases hFind : chart.find? state position with
    | none =>
        have hSize := congrArg size hSame
        simp [put_of_new hFind] at hSize
    | some id =>
        rw [put_of_known hFind] at hChanged hSame
        have hKnown := hChart.lt_prev (hChart.find?_eq_some_iff.mp hFind)
        apply of_decide_eq_true hChanged
        intro source hSource
        rw [← hSame, mem_pointers_merge hKnown]
        exact Or.inr ⟨rfl, hSource⟩
  · intro hOther
    by_contra hUnchanged
    exact hOther (put_eq_self (Bool.eq_false_iff.mpr hUnchanged))

/-- The back-pointers of each state are listed without repetition. -/
def PointersNodup (chart : Chart) : Prop := ∀ id, (chart.pointers id).Nodup

theorem PointersNodup.put (hPointers : chart.PointersNodup) (hChart : chart.WellFormed) :
    (chart.put state position prev).1.PointersNodup := by
  intro other
  cases hFind : chart.find? state position with
  | none =>
      rw [put_of_new hFind, pointers_append hChart.pointed]
      split
      · exact nodup_addPointers List.nodup_nil prev
      · exact hPointers other
  | some id =>
      have hKnown := hChart.lt_prev (hChart.find?_eq_some_iff.mp hFind)
      rw [put_of_known hFind, pointers_merge hKnown]
      split
      · exact nodup_addPointers (hPointers id) prev
      · exact hPointers other

section Insert

variable {insertion : Insertion}

theorem insert_of_outside
    (hOutside : insertion.position < 0 ∨ chart.word.length + 1 < insertion.position) :
    chart.insert insertion.state insertion.position insertion.prev =
      .error (.cannotInsert insertion.state insertion.position chart.word.length) := by
  rw [insert_eq, if_pos hOutside]

theorem insert_of_beyond (hBeyond : insertion.position = chart.word.length + 1) :
    chart.insert insertion.state insertion.position insertion.prev = .ok (chart, false) := by
  rw [insert_eq, if_neg (by omega), if_pos hBeyond]

/-- Back-pointers to states that the chart does not have. -/
def Dangling (chart : Chart) (prev : List Int) : Prop := ∃ id ∈ prev, id < 0 ∨ chart.size ≤ id

theorem insert_of_dangling (hLower : 0 ≤ insertion.position)
    (hUpper : insertion.position ≤ chart.word.length) (hPrev : chart.Dangling insertion.prev) :
    chart.insert insertion.state insertion.position insertion.prev =
      .error (.misuse .danglingPointer) := by
  rw [insert_eq, if_neg (by omega), if_neg (by omega), if_neg]
  obtain ⟨id, hMem, hId⟩ := hPrev
  simp only [List.all_eq_true, Bool.and_eq_true, decide_eq_true_eq]
  intro hAll
  have hKnown := hAll id hMem
  omega

theorem insert_of_inside (hLower : 0 ≤ insertion.position)
    (hUpper : insertion.position ≤ chart.word.length) (hPrev : ¬ chart.Dangling insertion.prev) :
    chart.insert insertion.state insertion.position insertion.prev =
      .ok (chart.put insertion.state insertion.position.toNat
        (insertion.prev.map Int.toNat)) := by
  rw [insert_eq, if_neg (by omega), if_neg (by omega), if_pos]
  simpa [Dangling] using hPrev

theorem mem_map_toNat_iff (hPrev : ¬ chart.Dangling insertion.prev) {source : Nat} :
    source ∈ insertion.prev.map Int.toNat ↔ (source : Int) ∈ insertion.prev := by
  constructor
  · intro hSource
    obtain ⟨id, hId, rfl⟩ := List.mem_map.mp hSource
    have hLower : ¬ id < 0 := fun hNegative => hPrev ⟨id, hId, Or.inl hNegative⟩
    rwa [Int.toNat_of_nonneg (by omega)]
  · intro hSource
    exact List.mem_map.mpr ⟨source, hSource, Int.toNat_natCast source⟩

theorem toNat_lt_size (hPrev : ¬ chart.Dangling insertion.prev) :
    ∀ source ∈ insertion.prev.map Int.toNat, source < chart.size := by
  intro source hSource
  have hMem := (mem_map_toNat_iff hPrev).mp hSource
  by_contra hBeyond
  exact hPrev ⟨source, hMem, by omega⟩

/-- An insertion is refused, or dropped, or it puts the state at a position of the chart, derived
from states of the chart. -/
theorem insert_cases (chart : Chart) (insertion : Insertion) :
    (∃ error, chart.insert insertion.state insertion.position insertion.prev = .error error) ∨
      chart.insert insertion.state insertion.position insertion.prev = .ok (chart, false) ∨
      ∃ position ≤ chart.word.length, ∃ prev, (∀ source ∈ prev, source < chart.size) ∧
        chart.insert insertion.state insertion.position insertion.prev =
          .ok (chart.put insertion.state position prev) := by
  by_cases hInside : 0 ≤ insertion.position ∧ insertion.position ≤ chart.word.length
  · by_cases hPrev : chart.Dangling insertion.prev
    · exact Or.inl ⟨_, insert_of_dangling hInside.1 hInside.2 hPrev⟩
    · refine Or.inr (Or.inr ⟨insertion.position.toNat, by omega, _, toNat_lt_size hPrev, ?_⟩)
      exact insert_of_inside hInside.1 hInside.2 hPrev
  · by_cases hBeyond : insertion.position = chart.word.length + 1
    · exact Or.inr (Or.inl (insert_of_beyond hBeyond))
    · exact Or.inl ⟨_, insert_of_outside (by omega)⟩

/-- An insertion that raises an error has not touched the chart: it checks what it is asked for
before it stores or merges anything. -/
theorem attempt_of_error {error : Error}
    (hInsert : chart.insert insertion.state insertion.position insertion.prev = .error error) :
    chart.attempt insertion = chart := by
  rw [insert_eq] at hInsert
  rw [attempt, run_insertInto]
  split at hInsert
  · next hOutside => rw [if_pos hOutside]
  · next hInside =>
    rw [if_neg hInside]
    split at hInsert
    · cases hInsert
    · next hLast =>
      rw [if_neg hLast]
      split at hInsert
      · cases hInsert
      · next hDangling => rw [if_neg hDangling]

theorem attempt_of_ok {next : Chart} {changed : Bool}
    (hInsert : chart.insert insertion.state insertion.position insertion.prev =
      .ok (next, changed)) : chart.attempt insertion = next := by
  rw [insert] at hInsert
  rw [attempt]
  cases hRun : (insertInto insertion.state insertion.position insertion.prev).run chart with
  | ok flag found =>
      rw [hRun] at hInsert
      cases hInsert
      rfl
  | error error found =>
      rw [hRun] at hInsert
      cases hInsert

theorem attempt_eq_self_or_put (chart : Chart) (insertion : Insertion) :
    chart.attempt insertion = chart ∨ ∃ position ≤ chart.word.length, ∃ prev,
      (∀ source ∈ prev, source < chart.size) ∧
      chart.attempt insertion = (chart.put insertion.state position prev).1 := by
  rcases insert_cases chart insertion with
    ⟨error, hInsert⟩ | hInsert | ⟨position, hPosition, prev, hPrev, hInsert⟩
  · exact Or.inl (attempt_of_error hInsert)
  · exact Or.inl (attempt_of_ok hInsert)
  · exact Or.inr ⟨position, hPosition, prev, hPrev, attempt_of_ok hInsert⟩

/-- An accepted insertion tells truly whether it changed the chart. -/
theorem WellFormed.changed_iff_of_insert (hChart : chart.WellFormed) {next : Chart} {changed : Bool}
    (hInsert : chart.insert insertion.state insertion.position insertion.prev =
      .ok (next, changed)) : changed = true ↔ next ≠ chart := by
  rcases insert_cases chart insertion with
    ⟨error, hOther⟩ | hOther | ⟨position, _, prev, _, hOther⟩
  · simp [hInsert] at hOther
  · rw [hInsert] at hOther
    cases hOther
    simp
  · rw [hInsert] at hOther
    have hPut : (next, changed) = chart.put insertion.state position prev := Except.ok.inj hOther
    have hFlag := @hChart.put_changed_iff chart insertion.state position prev
    rwa [← hPut] at hFlag

end Insert

theorem WellFormed.attempt (hChart : chart.WellFormed) (insertion : Insertion) :
    (chart.attempt insertion).WellFormed := by
  rcases attempt_eq_self_or_put chart insertion with
    hSame | ⟨position, hPosition, prev, hPrev, hPut⟩
  · rwa [hSame]
  · rw [hPut]
    exact hChart.put hPosition hPrev

theorem PointersNodup.attempt (hPointers : chart.PointersNodup) (hChart : chart.WellFormed)
    (insertion : Insertion) : (chart.attempt insertion).PointersNodup := by
  rcases attempt_eq_self_or_put chart insertion with hSame | ⟨position, _, prev, _, hPut⟩
  · rwa [hSame]
  · rw [hPut]
    exact hPointers.put hChart

theorem WellFormed.appends_attempt (hChart : chart.WellFormed) (insertion : Insertion) :
    chart.Appends (chart.attempt insertion) := by
  rcases attempt_eq_self_or_put chart insertion with hSame | ⟨position, hPosition, prev, _, hPut⟩
  · rw [hSame]
    exact Appends.refl chart
  · rw [hPut]
    exact hChart.appends_put hPosition

theorem afterAll_append (word : List Char) (insertions more : List Insertion) :
    afterAll word (insertions ++ more) = more.foldl Chart.attempt (afterAll word insertions) :=
  List.foldl_append

theorem WellFormed.foldl_attempt (hChart : chart.WellFormed) (insertions : List Insertion) :
    (insertions.foldl Chart.attempt chart).WellFormed ∧
      chart.Appends (insertions.foldl Chart.attempt chart) := by
  induction insertions generalizing chart with
  | nil => exact ⟨hChart, Appends.refl chart⟩
  | cons first rest ih =>
      obtain ⟨hLast, hAppends⟩ := ih (hChart.attempt first)
      exact ⟨hLast, (hChart.appends_attempt first).trans hAppends⟩

theorem PointersNodup.foldl_attempt (hPointers : chart.PointersNodup) (hChart : chart.WellFormed)
    (insertions : List Insertion) :
    (insertions.foldl Chart.attempt chart).PointersNodup := by
  induction insertions generalizing chart with
  | nil => exact hPointers
  | cons first rest ih => exact ih (hPointers.attempt hChart first) (hChart.attempt first)

theorem wellFormed_afterAll (word : List Char) (insertions : List Insertion) :
    (afterAll word insertions).WellFormed :=
  ((wellFormed_empty word).foldl_attempt insertions).1

theorem pointersNodup_afterAll (word : List Char) (insertions : List Insertion) :
    (afterAll word insertions).PointersNodup :=
  PointersNodup.foldl_attempt (fun _ => by simp) (wellFormed_empty word) insertions

/-- Over a whole run, nothing is taken away or reordered. -/
theorem appends_afterAll (word : List Char) (insertions more : List Insertion) :
    (afterAll word insertions).Appends (afterAll word (insertions ++ more)) := by
  rw [afterAll_append]
  exact ((wellFormed_afterAll word insertions).foldl_attempt more).2

/-- How a chart holds its states. What it keeps of them is in step, every identifier has one place,
a place has no state twice, and looking a state up gives its identifier there. -/
structure Consistent (chart : Chart) : Prop extends chart.WellFormed where
  once : ∀ id < chart.size, ∃! position, id ∈ chart.column position
  known : ∀ {position id}, id ∈ chart.column position →
    id < chart.size ∧ position ≤ chart.word.length
  distinct : ∀ {position first second state}, chart.At position first state →
    chart.At position second state → first = second
  found_iff : ∀ {position : Nat}, position ≤ chart.word.length → ∀ {state id},
    chart.findEqual state position = .ok (some id) ↔ chart.At position id state
  notFound_iff : ∀ {position : Nat}, position ≤ chart.word.length → ∀ {state},
    chart.findEqual state position = .ok none ↔ ∀ id, ¬ chart.At position id state
  pointers_nodup : ∀ id, (chart.pointers id).Nodup
  pointers_lt : ∀ {id source}, source ∈ chart.pointers id → source < chart.size

theorem findEqual_eq (hPosition : position ≤ chart.word.length) (state : State) :
    chart.findEqual state position = .ok (chart.find? state position) := by
  rw [findEqual, bind_of_eq_ok (checkPosition_eq_ok hPosition)]
  rfl

theorem WellFormed.consistent (hChart : chart.WellFormed) (hPointers : chart.PointersNodup) :
    chart.Consistent where
  toWellFormed := hChart
  once id hId := by
    obtain ⟨position, hMem⟩ := hChart.covered hId
    exact ⟨position, hMem, fun other hOther => hChart.separate hOther hMem⟩
  known hMem := ⟨hChart.bounded hMem, hChart.position_le hMem⟩
  distinct := hChart.distinct
  found_iff hPosition := by
    simp [findEqual_eq hPosition, hChart.find?_eq_some_iff]
  notFound_iff hPosition := by
    simp [findEqual_eq hPosition, hChart.find?_eq_none_iff]
  pointers_nodup := hPointers
  pointers_lt := hChart.older

/-- What a chart does about an insertion: whether it is refused, and if it is not, that the state
stands at its position afterwards with its old back-pointers and the given ones. -/
structure Answers (chart : Chart) (insertion : Insertion) : Prop where
  changed_iff : ∀ {next changed},
    chart.insert insertion.state insertion.position insertion.prev = .ok (next, changed) →
      chart.attempt insertion = next ∧ (changed = true ↔ next ≠ chart)
  outside : insertion.position < 0 ∨ chart.word.length + 1 < insertion.position →
    chart.insert insertion.state insertion.position insertion.prev =
      .error (.cannotInsert insertion.state insertion.position chart.word.length) ∧
      chart.attempt insertion = chart
  beyond : insertion.position = chart.word.length + 1 →
    chart.insert insertion.state insertion.position insertion.prev = .ok (chart, false)
  dangling : 0 ≤ insertion.position → insertion.position ≤ chart.word.length →
    chart.Dangling insertion.prev →
      chart.insert insertion.state insertion.position insertion.prev =
        .error (.misuse .danglingPointer) ∧ chart.attempt insertion = chart
  stored : 0 ≤ insertion.position → insertion.position ≤ chart.word.length →
    ¬ chart.Dangling insertion.prev → ∃ next changed,
      chart.insert insertion.state insertion.position insertion.prev = .ok (next, changed) ∧
      ∃ id, next.At insertion.position.toNat id insertion.state ∧
        ∀ source, source ∈ next.pointers id ↔
          source ∈ chart.pointers id ∨ (source : Int) ∈ insertion.prev

theorem WellFormed.answers (hChart : chart.WellFormed) (insertion : Insertion) :
    chart.Answers insertion where
  changed_iff hInsert := ⟨attempt_of_ok hInsert, hChart.changed_iff_of_insert hInsert⟩
  outside hOutside := ⟨insert_of_outside hOutside, attempt_of_error (insert_of_outside hOutside)⟩
  beyond := insert_of_beyond
  dangling hLower hUpper hPrev :=
    have hInsert := insert_of_dangling hLower hUpper hPrev
    ⟨hInsert, attempt_of_error hInsert⟩
  stored hLower hUpper hPrev := by
    have hPosition : insertion.position.toNat ≤ chart.word.length := by omega
    obtain ⟨id, hAt, hPointers⟩ :=
      hChart.exists_at_put hPosition insertion.state (insertion.prev.map Int.toNat)
    simp only [mem_map_toNat_iff hPrev] at hPointers
    exact ⟨(chart.put ..).1, (chart.put ..).2, insert_of_inside hLower hUpper hPrev,
      id, hAt, hPointers⟩

/-- Whatever was inserted, and whatever was refused, the chart is consistent, it has all it had at
any earlier moment at the front of what it has, and the next insertion is answered as it should. -/
theorem afterAll_consistent (word : List Char) (insertions : List Insertion) :
    (afterAll word insertions).Consistent ∧
      (∀ more, (afterAll word insertions).Appends (afterAll word (insertions ++ more))) ∧
      ∀ insertion, (afterAll word insertions).Answers insertion := by
  have hChart := wellFormed_afterAll word insertions
  exact ⟨hChart.consistent (pointersNodup_afterAll word insertions),
    appends_afterAll word insertions, hChart.answers⟩

/-- A state that becomes its own back-pointer, inserted among insertions that are refused. -/
def selfDerived : List Insertion :=
  let state : State := .initial augmentedStart [.terminal (some 'a')] 0
  [⟨state, 0, []⟩, ⟨state, 3, []⟩, ⟨state, 0, [0, 0]⟩, ⟨state, 2, [7]⟩, ⟨state, 1, [-1]⟩]

theorem afterAll_selfDerived :
    (afterAll ['a'] selfDerived).Consistent ∧ (afterAll ['a'] selfDerived).size = 1 ∧
      (afterAll ['a'] selfDerived).pointers 0 = [0] :=
  ⟨(afterAll_consistent ['a'] selfDerived).1, by decide, by decide⟩

end Chart

end Earley
