import Earley.Proofs.Chart.Contents
import Mathlib.Data.Finset.Prod

/-! Insertion into a well-formed chart: what it adds, that it keeps the chart well-formed, and that
it makes a position heavier whenever it reports a change. -/
namespace Earley.Chart

variable {chart : Chart} {state : State} {position : Nat} {prev : List Nat}

@[simp] theorem word_put : (chart.put state position prev).1.word = chart.word := by
  cases hFind : chart.find? state position with
  | none => rw [put_of_new hFind, word_append]
  | some id => rw [put_of_known hFind, word_merge]

@[simp] theorem column_empty (word : List Char) (position : Nat) :
    (empty word).column position = #[] := by
  simp only [column, empty, Array.getElem?_replicate]
  split <;> rfl

@[simp] theorem index_empty (word : List Char) (position : Nat) :
    (empty word).index position = [] := by
  simp only [index, empty, Array.getElem?_replicate]
  split <;> rfl

@[simp] theorem pointers_empty (word : List Char) (id : Nat) : (empty word).pointers id = [] := by
  simp [pointers, empty]

/-- A chart without states is well-formed. -/
theorem wellFormed_empty (word : List Char) : (empty word).WellFormed where
  pointed := rfl
  positions := by simp [empty]
  indexed := by simp [empty]
  ascending := by simp
  bounded := by simp
  covered := by simp [size, empty]
  separate := by simp
  listed := by simp [At]
  unrepeated := by simp
  older := by simp

namespace WellFormed

theorem position_le (hChart : chart.WellFormed) {id : Nat} (hMem : id ∈ chart.column position) :
    position ≤ chart.word.length := by
  by_contra hBeyond
  have hNone : chart.columns[position]? = none := by
    simp only [Array.getElem?_eq_none_iff, hChart.positions]
    omega
  simp [column, hNone] at hMem

theorem size_notMem (hChart : chart.WellFormed) (other : Nat) : chart.size ∉ chart.column other :=
  fun hMem => Nat.lt_irrefl _ (hChart.bounded hMem)

theorem lt_prev (hChart : chart.WellFormed) {id : Nat} (hAt : chart.At position id state) :
    id < chart.prev.size := by
  rw [hChart.pointed]
  exact hAt.lt_size

theorem pointers_eq_nil (hChart : chart.WellFormed) {id : Nat} (hId : chart.size ≤ id) :
    chart.pointers id = [] := by
  rw [pointers, Array.getElem?_eq_none (hChart.pointed ▸ hId)]
  rfl

theorem exists_at (hChart : chart.WellFormed) {id : Nat} (hId : id < chart.size) :
    ∃ position state, chart.At position id state := by
  obtain ⟨position, hMem⟩ := hChart.covered hId
  obtain ⟨state, hState⟩ := exists_state?_of_lt_size hId
  exact ⟨position, state, hMem, hState⟩

theorem at_append_iff (hChart : chart.WellFormed) (hPosition : position ≤ chart.word.length)
    {other id : Nat} {found : State} :
    (chart.append state position prev).At other id found ↔
      chart.At other id found ∨ (other = position ∧ found = state ∧ id = chart.size) := by
  rw [At, At, mem_column_append (hChart.lt_columns hPosition), state?_append]
  by_cases hId : id = chart.size
  · subst hId
    simp [hChart.size_notMem, eq_comm]
  · simp [hId]

theorem at_merge_iff {other id merged : Nat} {found : State} :
    (chart.merge merged prev).At other id found ↔ chart.At other id found := by
  simp [At]

/-- An insertion adds at most the state, under the next identifier. -/
theorem at_put_iff (hChart : chart.WellFormed) (hPosition : position ≤ chart.word.length)
    {other id : Nat} {found : State} :
    (chart.put state position prev).1.At other id found ↔
      chart.At other id found ∨ (other = position ∧ found = state ∧ id = chart.size ∧
        chart.find? state position = none) := by
  cases hFind : chart.find? state position with
  | none => simp [put_of_new hFind, hChart.at_append_iff hPosition]
  | some known => simp [put_of_known hFind, at_merge_iff]

theorem at_put (hChart : chart.WellFormed) (hPosition : position ≤ chart.word.length)
    {other id : Nat} {found : State} (hAt : chart.At other id found) :
    (chart.put state position prev).1.At other id found :=
  (hChart.at_put_iff hPosition).mpr (Or.inl hAt)

theorem holds_put (hChart : chart.WellFormed) (hPosition : position ≤ chart.word.length) :
    (chart.put state position prev).1.Holds position state := by
  cases hFind : chart.find? state position with
  | none => exact ⟨chart.size, (hChart.at_put_iff hPosition).mpr (Or.inr ⟨rfl, rfl, rfl, hFind⟩)⟩
  | some known => exact ⟨known, hChart.at_put hPosition (hChart.find?_eq_some_iff.mp hFind)⟩

/-- An insertion adds its back-pointers to the inserted state, and no others. -/
theorem mem_pointers_put_iff (hChart : chart.WellFormed)
    (hPosition : position ≤ chart.word.length) {id source : Nat} :
    source ∈ (chart.put state position prev).1.pointers id ↔
      source ∈ chart.pointers id ∨
        (source ∈ prev ∧ (chart.put state position prev).1.At position id state) := by
  cases hFind : chart.find? state position with
  | none =>
      rw [put_of_new hFind, hChart.at_append_iff hPosition, pointers_append hChart.pointed]
      have hNew := hChart.find?_eq_none_iff.mp hFind id
      by_cases hId : id = chart.size
      · subst hId
        simp [hChart.pointers_eq_nil (Nat.le_refl _), mem_addPointers]
      · simp [hId, hNew]
  | some known =>
      have hKnown := hChart.find?_eq_some_iff.mp hFind
      rw [put_of_known hFind, at_merge_iff, mem_pointers_merge (hChart.lt_prev hKnown)]
      have hSame : chart.At position id state ↔ id = known :=
        ⟨fun hAt => hChart.distinct hAt hKnown, fun hId => hId ▸ hKnown⟩
      rw [hSame, and_comm (a := source ∈ prev)]

theorem pairwise_column_append (hChart : chart.WellFormed)
    (hPosition : position ≤ chart.word.length) (other : Nat) :
    ((chart.append state position prev).column other).toList.Pairwise (· < ·) := by
  rw [column_append (hChart.lt_columns hPosition)]
  split
  · rw [Array.toList_push, List.pairwise_append]
    refine ⟨hChart.ascending other, List.pairwise_singleton _ _, ?_⟩
    intro old hOld new hNew
    rw [List.mem_singleton.mp hNew]
    exact hChart.bounded (Array.mem_toList_iff.mp hOld)
  · exact hChart.ascending other

theorem mem_index_append_iff (hChart : chart.WellFormed)
    (hPosition : position ≤ chart.word.length) {other id : Nat} {found : State} :
    (found, id) ∈ (chart.append state position prev).index other ↔
      (chart.append state position prev).At other id found := by
  rw [index_append (hChart.lt_indexes hPosition), hChart.at_append_iff hPosition, ← hChart.listed]
  split
  · next hOther => simp [hOther, or_comm]
  · next hOther => simp [hOther]

/-- Only a state that the index does not have is stored, so the index lists none twice. -/
theorem nodup_index_append (hChart : chart.WellFormed) (hPosition : position ≤ chart.word.length)
    (hNew : chart.find? state position = none) (other : Nat) :
    (((chart.append state position prev).index other).map Prod.fst).Nodup := by
  rw [index_append (hChart.lt_indexes hPosition)]
  split
  · next hOther =>
    subst hOther
    refine List.nodup_cons.mpr ⟨fun hMem => ?_, hChart.unrepeated other⟩
    obtain ⟨⟨found, id⟩, hEntry, rfl⟩ := List.mem_map.mp hMem
    exact hChart.find?_eq_none_iff.mp hNew id (hChart.listed.mp hEntry)
  · exact hChart.unrepeated other

theorem append (hChart : chart.WellFormed) (hPosition : position ≤ chart.word.length)
    (hNew : chart.find? state position = none) (hPrev : ∀ source ∈ prev, source < chart.size) :
    (chart.append state position prev).WellFormed := by
  have hColumn {other id : Nat} : id ∈ (chart.append state position prev).column other ↔
      id ∈ chart.column other ∨ (other = position ∧ id = chart.size) :=
    mem_column_append (hChart.lt_columns hPosition)
  constructor
  case pointed => simp [prev_append hChart.pointed, hChart.pointed]
  case positions => simp [columns_append, hChart.positions]
  case indexed => simp [indexes_append, hChart.indexed]
  case ascending => exact hChart.pairwise_column_append hPosition
  case bounded =>
    intro other id hMem
    rw [size_append]
    rcases hColumn.mp hMem with hOld | ⟨_, rfl⟩
    · exact Nat.lt_succ_of_lt (hChart.bounded hOld)
    · exact Nat.lt_succ_self _
  case covered =>
    intro id hId
    rw [size_append] at hId
    rcases Nat.lt_succ_iff_lt_or_eq.mp hId with hOld | rfl
    · obtain ⟨other, hMem⟩ := hChart.covered hOld
      exact ⟨other, hColumn.mpr (Or.inl hMem)⟩
    · exact ⟨position, hColumn.mpr (Or.inr ⟨rfl, rfl⟩)⟩
  case separate =>
    intro first second id hFirst hSecond
    rcases hColumn.mp hFirst with hOld | ⟨hFirst, hId⟩ <;>
      rcases hColumn.mp hSecond with hOther | ⟨hSecond, hSize⟩
    · exact hChart.separate hOld hOther
    · exact absurd (hSize ▸ hOld) (hChart.size_notMem first)
    · exact absurd (hId ▸ hOther) (hChart.size_notMem second)
    · exact hFirst.trans hSecond.symm
  case listed => exact hChart.mem_index_append_iff hPosition
  case unrepeated => exact hChart.nodup_index_append hPosition hNew
  case older =>
    intro id source hSource
    rw [pointers_append hChart.pointed] at hSource
    rw [size_append]
    split at hSource
    · exact Nat.lt_succ_of_lt (hPrev source (by simpa [mem_addPointers] using hSource))
    · exact Nat.lt_succ_of_lt (hChart.older hSource)

theorem merge (hChart : chart.WellFormed) {id : Nat} (hId : id < chart.prev.size)
    (hPrev : ∀ source ∈ prev, source < chart.size) : (chart.merge id prev).WellFormed where
  pointed := by simp [prev_merge, hChart.pointed]
  positions := by simp [hChart.positions]
  indexed := by simp [hChart.indexed]
  ascending := by simpa using hChart.ascending
  bounded hMem := by
    rw [column_merge] at hMem
    rw [size_merge]
    exact hChart.bounded hMem
  covered hId := by
    rw [size_merge] at hId
    simpa using hChart.covered hId
  separate hFirst hSecond := by
    rw [column_merge] at hFirst hSecond
    exact hChart.separate hFirst hSecond
  listed := by
    intro other found stored
    rw [index_merge, at_merge_iff]
    exact hChart.listed
  unrepeated := by simpa using hChart.unrepeated
  older := by
    intro other source hSource
    rw [size_merge]
    rcases (mem_pointers_merge hId).mp hSource with hOld | ⟨_, hNew⟩
    · exact hChart.older hOld
    · exact hPrev source hNew

/-- Insertion keeps a chart well-formed if the back-pointers refer to states of the chart. -/
theorem put (hChart : chart.WellFormed) (hPosition : position ≤ chart.word.length)
    (hPrev : ∀ source ∈ prev, source < chart.size) :
    (chart.put state position prev).1.WellFormed := by
  cases hFind : chart.find? state position with
  | none =>
      rw [put_of_new hFind]
      exact hChart.append hPosition hFind hPrev
  | some id =>
      rw [put_of_known hFind]
      exact hChart.merge (hChart.lt_prev (hChart.find?_eq_some_iff.mp hFind)) hPrev

/-- An insertion leaves no trace but its own state with its own back-pointers. -/
theorem derived_put_iff (hChart : chart.WellFormed) (hPosition : position ≤ chart.word.length)
    (hPrev : ∀ source ∈ prev, source < chart.size) {other source : Nat} {found : State} :
    (chart.put state position prev).1.Derived other found source ↔
      chart.Derived other found source ∨ (other = position ∧ found = state ∧ source ∈ prev) := by
  constructor
  · rintro ⟨id, hAt, hSource⟩
    rcases (hChart.mem_pointers_put_iff hPosition).mp hSource with hOld | ⟨hNew, hPut⟩
    · rcases (hChart.at_put_iff hPosition).mp hAt with hAt | ⟨_, _, rfl, _⟩
      · exact Or.inl ⟨id, hAt, hOld⟩
      · simp [hChart.pointers_eq_nil (Nat.le_refl _)] at hOld
    · exact Or.inr ⟨(hChart.put hPosition hPrev).separate hAt.1 hPut.1, hAt.unique hPut, hNew⟩
  · rintro (⟨id, hAt, hSource⟩ | ⟨rfl, rfl, hNew⟩)
    · exact ⟨id, hChart.at_put hPosition hAt,
        (hChart.mem_pointers_put_iff hPosition).mpr (Or.inl hSource)⟩
    · obtain ⟨id, hAt⟩ : (chart.put found other prev).1.Holds other found :=
        hChart.holds_put hPosition
      exact ⟨id, hAt, (hChart.mem_pointers_put_iff hPosition).mpr (Or.inr ⟨hNew, hAt⟩)⟩

end WellFormed

/-- The back-pointers from one identifier of the position to another. -/
def links (chart : Chart) (position : Nat) : Finset (Nat × Nat) :=
  let column := (chart.column position).toList.toFinset
  (column ×ˢ column).filter fun link => link.2 ∈ chart.pointers link.1

/-- The identifiers of a position and the links between them. Back-pointers that leave the position
do not count, as closing it adds none of these. -/
def weight (chart : Chart) (position : Nat) : Nat :=
  (chart.column position).size + (chart.links position).card

theorem mem_links {target source : Nat} :
    (target, source) ∈ chart.links position ↔ target ∈ chart.column position ∧
      source ∈ chart.column position ∧ source ∈ chart.pointers target := by
  simp [links, and_assoc]

theorem weight_le (chart : Chart) (position : Nat) :
    chart.weight position ≤ (chart.column position).size +
      (chart.column position).size * (chart.column position).size := by
  have hColumn : (chart.column position).toList.toFinset.card ≤ (chart.column position).size :=
    List.toFinset_card_le _
  have hLinks : (chart.links position).card ≤ (chart.column position).toList.toFinset.card *
      (chart.column position).toList.toFinset.card := by
    rw [← Finset.card_product]
    exact Finset.card_filter_le _ _
  have hSquare := Nat.mul_le_mul hColumn hColumn
  rw [weight]
  omega

theorem WellFormed.links_subset_append (hChart : chart.WellFormed)
    (hPosition : position ≤ chart.word.length) :
    chart.links position ⊆ (chart.append state position prev).links position := by
  rintro ⟨target, source⟩ hLink
  obtain ⟨hTarget, hSource, hPointer⟩ := mem_links.mp hLink
  have hColumn {id : Nat} (hId : id ∈ chart.column position) :
      id ∈ (chart.append state position prev).column position :=
    (mem_column_append (hChart.lt_columns hPosition)).mpr (Or.inl hId)
  refine mem_links.mpr ⟨hColumn hTarget, hColumn hSource, ?_⟩
  rw [pointers_append hChart.pointed, if_neg (Nat.ne_of_lt (hChart.bounded hTarget))]
  exact hPointer

theorem WellFormed.links_ssubset_merge (hChart : chart.WellFormed) {target source : Nat}
    (hTarget : target ∈ chart.column position) (hSource : source ∈ chart.column position)
    (hNew : source ∉ chart.pointers target) :
    chart.links position ⊂ (chart.merge target [source]).links position := by
  have hPointers {id other : Nat} : other ∈ (chart.merge target [source]).pointers id ↔
      other ∈ chart.pointers id ∨ (id = target ∧ other ∈ [source]) :=
    mem_pointers_merge (hChart.pointed ▸ hChart.bounded hTarget)
  refine Finset.ssubset_iff_subset_ne.mpr ⟨?_, ?_⟩
  · rintro ⟨first, second⟩ hLink
    obtain ⟨hFirst, hSecond, hPointer⟩ := mem_links.mp hLink
    refine mem_links.mpr ⟨?_, ?_, hPointers.mpr (Or.inl hPointer)⟩
    · rwa [column_merge]
    · rwa [column_merge]
  · intro hSame
    have hLink : (target, source) ∈ (chart.merge target [source]).links position :=
      mem_links.mpr ⟨by rwa [column_merge], by rwa [column_merge],
        hPointers.mpr (Or.inr ⟨rfl, List.mem_singleton_self _⟩)⟩
    rw [← hSame] at hLink
    exact hNew (mem_links.mp hLink).2.2

/-- An insertion that is derived from the same position, and that reports a change, makes the
position heavier. -/
theorem WellFormed.weight_lt_put (hChart : chart.WellFormed)
    (hPosition : position ≤ chart.word.length) {source : Nat}
    (hSource : source ∈ chart.column position)
    (hChanged : (chart.put state position [source]).2 = true) :
    chart.weight position < (chart.put state position [source]).1.weight position := by
  cases hFind : chart.find? state position with
  | none =>
      have hLinks : (chart.links position).card ≤
          ((chart.append state position [source]).links position).card :=
        Finset.card_le_card (hChart.links_subset_append hPosition)
      rw [put_of_new hFind, weight, weight, column_append (hChart.lt_columns hPosition)]
      simp only [if_true, Array.size_push]
      omega
  | some target =>
      rw [put_of_known hFind] at hChanged ⊢
      have hNew : source ∉ chart.pointers target := by simpa using hChanged
      have hLinks := Finset.card_lt_card
        (hChart.links_ssubset_merge (hChart.find?_eq_some_iff.mp hFind).1 hSource hNew)
      simp only [weight, column_merge]
      omega

/-- An insertion that reports no change leaves the chart as it is. -/
theorem put_eq_self (hUnchanged : (chart.put state position prev).2 = false) :
    (chart.put state position prev).1 = chart := by
  cases hFind : chart.find? state position with
  | none => simp [put_of_new hFind] at hUnchanged
  | some id =>
      rw [put_of_known hFind] at hUnchanged ⊢
      exact merge_eq_self (by simpa using hUnchanged)

/-- What the flag of an operation on a position tells: whether the chart changed, and that it
grew at the position if it did. -/
structure Flagged (position : Nat) (before after : Chart) (changed : Bool) : Prop where
  unchanged : changed = false → after = before
  heavier : changed = true → before.weight position < after.weight position

theorem Flagged.refl (chart : Chart) : Flagged position chart chart false :=
  ⟨fun _ => rfl, fun hChanged => by simp at hChanged⟩

theorem Flagged.trans {first second third : Chart} {changed changedLater : Bool}
    (hFirst : Flagged position first second changed)
    (hSecond : Flagged position second third changedLater) :
    Flagged position first third (changed || changedLater) := by
  cases changed with
  | false =>
      obtain rfl := hFirst.unchanged rfl
      simpa using hSecond
  | true =>
      have hHeavier := hFirst.heavier rfl
      refine ⟨fun hUnchanged => by simp at hUnchanged, fun _ => ?_⟩
      cases changedLater with
      | false => rwa [hSecond.unchanged rfl]
      | true => exact hHeavier.trans (hSecond.heavier rfl)

theorem WellFormed.flagged_put (hChart : chart.WellFormed)
    (hPosition : position ≤ chart.word.length) {source : Nat}
    (hSource : source ∈ chart.column position) :
    Flagged position chart (chart.put state position [source]).1
      (chart.put state position [source]).2 :=
  ⟨put_eq_self, hChart.weight_lt_put hPosition hSource⟩

end Earley.Chart
