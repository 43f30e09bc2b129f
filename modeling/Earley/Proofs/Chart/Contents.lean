import Earley.Chart
import Mathlib.Tactic.Common

/-! What a chart holds, and what one insertion adds to it. A chart is seen through two relations:
which state stands where under which identifier, and which identifiers are its back-pointers. The
index of a position is an account of the first one, which has to be kept in step. -/
namespace Earley

theorem bind_of_eq_ok {α β : Type} {action : Except Error α} {value : α} {next : α → Except Error β}
    (hAction : action = .ok value) : action >>= next = next value := by
  rw [hAction]
  rfl

theorem bind_eq_ok_iff {α β : Type} {action : Except Error α} {result : β}
    {next : α → Except Error β} :
    action >>= next = .ok result ↔ ∃ value, action = .ok value ∧ next value = .ok result := by
  cases action with
  | error error => simp [bind, Except.bind]
  | ok value => simp [bind, Except.bind]

/-- If no key is listed twice, every entry is the one that a lookup finds. -/
theorem lookup_eq_some_of_mem {α β : Type} [BEq α] [LawfulBEq α] {entries : List (α × β)} {key : α}
    {value : β} (hKeys : (entries.map Prod.fst).Nodup) (hEntry : (key, value) ∈ entries) :
    entries.lookup key = some value := by
  obtain ⟨before, after, rfl⟩ := List.append_of_mem hEntry
  refine List.lookup_eq_some_iff.mpr ⟨before, after, rfl, fun other hOther => ?_⟩
  rw [List.map_append, List.map_cons, List.nodup_append] at hKeys
  have hDiffers := hKeys.2.2 other.1 (List.mem_map_of_mem hOther) key (List.mem_cons_self ..)
  simpa using Ne.symm hDiffers

theorem mem_of_lookup_eq_some {α β : Type} [BEq α] [LawfulBEq α] {entries : List (α × β)} {key : α}
    {value : β} (hFound : entries.lookup key = some value) : (key, value) ∈ entries := by
  obtain ⟨before, after, rfl, -⟩ := List.lookup_eq_some_iff.mp hFound
  exact List.mem_append_right _ (List.mem_cons_self ..)

/-- A back-pointer stands at the end, unless it was there already. -/
def addPointer (prev : List Nat) (id : Nat) : List Nat := if id ∈ prev then prev else prev ++ [id]

/-- The back-pointers with further ones, each of which was added after the others. -/
def addPointers (prev added : List Nat) : List Nat := added.foldl addPointer prev

theorem mem_addPointer {prev : List Nat} {id source : Nat} :
    source ∈ addPointer prev id ↔ source ∈ prev ∨ source = id := by
  unfold addPointer
  split
  · next hOld =>
    constructor
    · exact Or.inl
    · rintro (hMem | rfl)
      · exact hMem
      · exact hOld
  · simp

theorem mem_addPointers {prev added : List Nat} {source : Nat} :
    source ∈ addPointers prev added ↔ source ∈ prev ∨ source ∈ added := by
  induction added generalizing prev with
  | nil => simp [addPointers]
  | cons id rest ih =>
      change source ∈ addPointers (addPointer prev id) rest ↔ _
      rw [ih, mem_addPointer, List.mem_cons, or_assoc]

theorem addPointers_eq_self {prev added : List Nat} (hOld : ∀ id ∈ added, id ∈ prev) :
    addPointers prev added = prev := by
  induction added with
  | nil => rfl
  | cons id rest ih =>
      change addPointers (addPointer prev id) rest = prev
      rw [addPointer, if_pos (hOld id (List.mem_cons_self ..))]
      exact ih fun other hOther => hOld other (List.mem_cons_of_mem _ hOther)

theorem foldl_mergePointer (prev added : List Nat) (changed : Bool) :
    added.foldl mergePointer (prev, changed) =
      (addPointers prev added, changed || decide (¬ ∀ id ∈ added, id ∈ prev)) := by
  induction added generalizing prev changed with
  | nil => simp [addPointers]
  | cons id rest ih =>
      change rest.foldl mergePointer (mergePointer (prev, changed) id) =
        (addPointers (addPointer prev id) rest, _)
      by_cases hOld : id ∈ prev
      · simp [mergePointer, addPointer, hOld, ih]
      · simp [mergePointer, addPointer, hOld, ih]

/-- Merging adds the back-pointers, and its flag tells truly whether one of them is new. -/
theorem mergePointers_eq (prev added : List Nat) :
    mergePointers prev added = (addPointers prev added, decide (¬ ∀ id ∈ added, id ∈ prev)) := by
  rw [mergePointers, foldl_mergePointer, Bool.false_or]

theorem nodup_addPointer {prev : List Nat} (hNodup : prev.Nodup) (id : Nat) :
    (addPointer prev id).Nodup := by
  unfold addPointer
  split
  · exact hNodup
  · next hNew =>
    refine List.nodup_append.mpr ⟨hNodup, by simp, fun other hOther last hLast hSame => ?_⟩
    rw [List.mem_singleton.mp hLast] at hSame
    exact hNew (hSame ▸ hOther)

/-- Adding back-pointers never makes a repetition. -/
theorem nodup_addPointers {prev : List Nat} (hNodup : prev.Nodup) (added : List Nat) :
    (addPointers prev added).Nodup := by
  induction added generalizing prev with
  | nil => exact hNodup
  | cons id rest ih => exact ih (nodup_addPointer hNodup id)

namespace Chart

variable {chart : Chart} {state : State} {position : Nat} {prev : List Nat}

/-- The state stands at the position under the identifier. -/
def At (chart : Chart) (position id : Nat) (state : State) : Prop :=
  id ∈ chart.column position ∧ chart.state? id = some state

instance (chart : Chart) (position id : Nat) (state : State) :
    Decidable (chart.At position id state) := inferInstanceAs (Decidable (_ ∧ _))

/-- The state stands at the position. -/
def Holds (chart : Chart) (position : Nat) (state : State) : Prop :=
  ∃ id, chart.At position id state

/-- The state stands at the position, and the source is one of its back-pointers. -/
def Derived (chart : Chart) (position : Nat) (state : State) (source : Nat) : Prop :=
  ∃ id, chart.At position id state ∧ source ∈ chart.pointers id

/-- The states, the back-pointers, the columns and the indexes are in step. Every identifier stands
in one column. The index of a position lists exactly the states that stand there, none of them
twice. Back-pointers refer to states of the chart. -/
structure WellFormed (chart : Chart) : Prop where
  pointed : chart.prev.size = chart.size
  positions : chart.columns.size = chart.word.length + 1
  indexed : chart.indexes.size = chart.word.length + 1
  ascending : ∀ position, (chart.column position).toList.Pairwise (· < ·)
  bounded : ∀ {position id}, id ∈ chart.column position → id < chart.size
  covered : ∀ {id}, id < chart.size → ∃ position, id ∈ chart.column position
  separate : ∀ {first second id}, id ∈ chart.column first → id ∈ chart.column second →
    first = second
  listed : ∀ {position state id}, (state, id) ∈ chart.index position ↔ chart.At position id state
  unrepeated : ∀ position, ((chart.index position).map Prod.fst).Nodup
  older : ∀ {id source}, source ∈ chart.pointers id → source < chart.size

theorem At.unique {other id : Nat} {first second : State} (hFirst : chart.At position id first)
    (hSecond : chart.At other id second) : first = second :=
  Option.some.inj (hFirst.2.symm.trans hSecond.2)

theorem lt_size_of_state? {id : Nat} (hState : chart.state? id = some state) : id < chart.size :=
  (Array.getElem?_eq_some_iff.mp hState).choose

theorem At.lt_size {id : Nat} (hAt : chart.At position id state) : id < chart.size :=
  lt_size_of_state? hAt.2

theorem state_eq_ok_iff {id : Nat} : chart.state id = .ok state ↔ chart.state? id = some state := by
  rw [Chart.state]
  cases chart.state? id with
  | none => simp
  | some found => simp

theorem entry_eq_ok {id : Nat} (hState : chart.state? id = some state) :
    chart.entry id = .ok ⟨state, chart.pointers id⟩ := by
  rw [entry, bind_of_eq_ok (state_eq_ok_iff.mpr hState)]
  rfl

theorem entry_eq_ok_iff {id : Nat} {entry : Entry} :
    chart.entry id = .ok entry ↔
      chart.state? id = some entry.state ∧ chart.pointers id = entry.prev := by
  constructor
  · intro hEntry
    obtain ⟨state, hState, hEntry⟩ := bind_eq_ok_iff.mp hEntry
    cases hEntry
    exact ⟨state_eq_ok_iff.mp hState, rfl⟩
  · rintro ⟨hState, hPrev⟩
    rw [entry_eq_ok hState, hPrev]

theorem exists_state?_of_lt_size {id : Nat} (hId : id < chart.size) :
    ∃ state, chart.state? id = some state :=
  ⟨chart.states[id], Array.getElem?_eq_getElem hId⟩

theorem checkPosition_eq_ok (hPosition : position ≤ chart.word.length) :
    chart.checkPosition position = .ok position := by
  rw [checkPosition, if_pos (by omega)]
  rfl

section WellFormed

variable (hChart : chart.WellFormed)
include hChart

theorem WellFormed.lt_columns (hPosition : position ≤ chart.word.length) :
    position < chart.columns.size := by
  rw [hChart.positions]
  omega

theorem WellFormed.lt_indexes (hPosition : position ≤ chart.word.length) :
    position < chart.indexes.size := by
  rw [hChart.indexed]
  omega

/-- Looking a state up in the index of a position finds it exactly if it stands there. -/
theorem WellFormed.find?_eq_some_iff {id : Nat} :
    chart.find? state position = some id ↔ chart.At position id state := by
  rw [← hChart.listed]
  exact ⟨mem_of_lookup_eq_some, lookup_eq_some_of_mem (hChart.unrepeated position)⟩

theorem WellFormed.find?_eq_none_iff :
    chart.find? state position = none ↔ ∀ id, ¬ chart.At position id state := by
  simp [Option.eq_none_iff_forall_ne_some, hChart.find?_eq_some_iff]

/-- A state stands at a position under one identifier only. -/
theorem WellFormed.distinct {first second : Nat} (hFirst : chart.At position first state)
    (hSecond : chart.At position second state) : first = second :=
  Option.some.inj ((hChart.find?_eq_some_iff.mpr hFirst).symm.trans
    (hChart.find?_eq_some_iff.mpr hSecond))

end WellFormed

/-- The chart with a new state at the position. -/
def append (chart : Chart) (state : State) (position : Nat) (prev : List Nat) : Chart :=
  ((chart.store state position).mergePrev chart.size prev).1

/-- The chart with further back-pointers of one state. -/
def merge (chart : Chart) (id : Nat) (prev : List Nat) : Chart := (chart.mergePrev id prev).1

theorem put_of_new (hNew : chart.find? state position = none) (prev : List Nat) :
    chart.put state position prev = (chart.append state position prev, true) := by
  simp only [put, hNew]
  rfl

theorem mergePrev_eq (chart : Chart) (id : Nat) (prev : List Nat) :
    chart.mergePrev id prev =
      ({ chart with prev := chart.prev.modify id fun _ => addPointers (chart.pointers id) prev },
        decide (¬ ∀ source ∈ prev, source ∈ chart.pointers id)) := by
  simp only [mergePrev, mergePointers_eq]

/-- Merging changes the chart exactly if it brings a new back-pointer, and the flag tells so. -/
theorem put_of_known {id : Nat} (hKnown : chart.find? state position = some id) (prev : List Nat) :
    chart.put state position prev =
      (chart.merge id prev, decide (¬ ∀ source ∈ prev, source ∈ chart.pointers id)) := by
  simp only [put, hKnown, merge, mergePrev_eq]

@[simp] theorem word_merge {id : Nat} : (chart.merge id prev).word = chart.word := by
  rw [merge, mergePrev_eq]

@[simp] theorem states_merge {id : Nat} : (chart.merge id prev).states = chart.states := by
  rw [merge, mergePrev_eq]

@[simp] theorem columns_merge {id : Nat} : (chart.merge id prev).columns = chart.columns := by
  rw [merge, mergePrev_eq]

@[simp] theorem indexes_merge {id : Nat} : (chart.merge id prev).indexes = chart.indexes := by
  rw [merge, mergePrev_eq]

theorem prev_merge {id : Nat} : (chart.merge id prev).prev =
    chart.prev.modify id fun _ => addPointers (chart.pointers id) prev := by
  rw [merge, mergePrev_eq]

@[simp] theorem size_merge {id : Nat} : (chart.merge id prev).size = chart.size := by
  rw [size, states_merge, size]

@[simp] theorem state?_merge {id : Nat} (other : Nat) :
    (chart.merge id prev).state? other = chart.state? other := by
  rw [state?, states_merge, state?]

@[simp] theorem column_merge {id : Nat} (other : Nat) :
    (chart.merge id prev).column other = chart.column other := by
  rw [column, columns_merge, column]

@[simp] theorem index_merge {id : Nat} (other : Nat) :
    (chart.merge id prev).index other = chart.index other := by
  rw [index, indexes_merge, index]

theorem pointers_merge {id : Nat} (hId : id < chart.prev.size) (other : Nat) :
    (chart.merge id prev).pointers other =
      if other = id then addPointers (chart.pointers id) prev else chart.pointers other := by
  rw [pointers, prev_merge, Array.getElem?_modify]
  by_cases hOther : id = other
  · subst hOther
    rw [if_pos rfl, if_pos rfl, Array.getElem?_eq_getElem hId]
    rfl
  · rw [if_neg hOther, if_neg (Ne.symm hOther), pointers]

theorem mem_pointers_merge {id other source : Nat} (hId : id < chart.prev.size) :
    source ∈ (chart.merge id prev).pointers other ↔
      source ∈ chart.pointers other ∨ (other = id ∧ source ∈ prev) := by
  rw [pointers_merge hId]
  split
  · next hOther => simp [hOther, mem_addPointers]
  · next hOther => simp [hOther]

theorem merge_eq_self {id : Nat} (hOld : ∀ source ∈ prev, source ∈ chart.pointers id) :
    chart.merge id prev = chart := by
  have hPrev : (chart.prev.modify id fun _ => addPointers (chart.pointers id) prev) =
      chart.prev := by
    apply Array.ext_getElem?
    intro i
    rw [Array.getElem?_modify, addPointers_eq_self hOld]
    split
    · next hId =>
      subst hId
      cases hFound : chart.prev[id]? with
      | none => rfl
      | some found => simp [pointers, hFound]
    · rfl
  rw [merge, mergePrev_eq, hPrev]

@[simp] theorem word_append : (chart.append state position prev).word = chart.word := word_merge

theorem states_append : (chart.append state position prev).states = chart.states.push state :=
  states_merge

theorem columns_append : (chart.append state position prev).columns =
    chart.columns.modify position fun column => column.push chart.size := columns_merge

theorem indexes_append : (chart.append state position prev).indexes =
    chart.indexes.modify position fun index => (state, chart.size) :: index := indexes_merge

@[simp] theorem size_append : (chart.append state position prev).size = chart.size + 1 := by
  rw [size, states_append, Array.size_push, size]

theorem state?_append (id : Nat) :
    (chart.append state position prev).state? id =
      if id = chart.size then some state else chart.state? id := by
  rw [state?, states_append, Array.getElem?_push, size, state?]

theorem column_append (hPosition : position < chart.columns.size) (other : Nat) :
    (chart.append state position prev).column other =
      if other = position then (chart.column other).push chart.size else chart.column other := by
  rw [column, columns_append, Array.getElem?_modify]
  by_cases hOther : position = other
  · subst hOther
    simp [column, hPosition]
  · simp [hOther, Ne.symm hOther, column]

theorem mem_column_append (hPosition : position < chart.columns.size) {other id : Nat} :
    id ∈ (chart.append state position prev).column other ↔
      id ∈ chart.column other ∨ (other = position ∧ id = chart.size) := by
  rw [column_append hPosition]
  split
  · next hOther => simp [hOther]
  · next hOther => simp [hOther]

theorem index_append (hPosition : position < chart.indexes.size) (other : Nat) :
    (chart.append state position prev).index other =
      if other = position then (state, chart.size) :: chart.index other else chart.index other := by
  rw [index, indexes_append, Array.getElem?_modify]
  by_cases hOther : position = other
  · subst hOther
    simp [index, hPosition]
  · simp [hOther, Ne.symm hOther, index]

/-- The new state has the given back-pointers, if those of the others are in step with them. -/
theorem prev_append (hPointed : chart.prev.size = chart.size) :
    (chart.append state position prev).prev = chart.prev.push (addPointers [] prev) := by
  have hStored : (chart.store state position).pointers chart.size = [] := by
    simp [pointers, store, ← hPointed]
  change ((chart.store state position).merge chart.size prev).prev = _
  rw [prev_merge, hStored, store, ← hPointed]
  apply Array.ext_getElem?
  intro id
  rw [Array.getElem?_modify, Array.getElem?_push, Array.getElem?_push]
  by_cases hId : chart.prev.size = id
  · simp [hId]
  · rw [if_neg hId, if_neg (Ne.symm hId), if_neg (Ne.symm hId)]

theorem pointers_append (hPointed : chart.prev.size = chart.size) (id : Nat) :
    (chart.append state position prev).pointers id =
      if id = chart.size then addPointers [] prev else chart.pointers id := by
  rw [pointers, prev_append hPointed, Array.getElem?_push, hPointed, pointers]
  split <;> rfl

/-- What an insertion returns or raises, and the chart that it leaves behind. -/
theorem run_insertInto (chart : Chart) (state : State) (position : Int) (prev : List Int) :
    (insertInto state position prev).run chart =
      if position < 0 ∨ chart.word.length + 1 < position then
        .error (.cannotInsert state position chart.word.length) chart
      else if position = chart.word.length + 1 then .ok false chart
      else if prev.all fun id => 0 ≤ id && id < chart.size then
        .ok (chart.put state position.toNat (prev.map Int.toNat)).2
          (chart.put state position.toNat (prev.map Int.toNat)).1
      else .error (.misuse .danglingPointer) chart := by
  simp only [insertInto, EStateM.run_bind, EStateM.run_get]
  split_ifs <;> rfl

theorem insert_eq (chart : Chart) (state : State) (position : Int) (prev : List Int) :
    chart.insert state position prev =
      if position < 0 ∨ chart.word.length + 1 < position then
        .error (.cannotInsert state position chart.word.length)
      else if position = chart.word.length + 1 then .ok (chart, false)
      else if prev.all fun id => 0 ≤ id && id < chart.size then
        .ok (chart.put state position.toNat (prev.map Int.toNat))
      else .error (.misuse .danglingPointer) := by
  rw [insert, run_insertInto]
  split_ifs <;> rfl

end Chart

end Earley
