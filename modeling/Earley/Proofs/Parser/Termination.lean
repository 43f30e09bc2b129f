import Earley.Proofs.Parser.Charting
import Mathlib.Data.List.Dedup

/-! Closing a position ends by itself. The sweeps are described without any bound on their length
or on their number; that such a description exists for each position is what says that the loops
end. The sizes of the positions are bounded by the distinct rules of the grammar. -/
namespace Earley

/-- The grammar with each alternative of a left side listed once. -/
def Grammar.distinct (g : Grammar) : Grammar :=
  { g with entries := g.entries.map fun (head, alternatives) => (head, alternatives.dedup) }

theorem Grammar.alternatives?_distinct (g : Grammar) (head : Char) :
    g.distinct.alternatives? head = (g.alternatives? head).map List.dedup := by
  simp only [alternatives?, distinct]
  induction g.entries with
  | nil => rfl
  | cons entry rest ih =>
      rw [List.map_cons, List.lookup_cons, List.lookup_cons, ih]
      cases head == entry.1 <;> rfl

theorem Grammar.Produces.distinct {g : Grammar} {head : Char} {alternative : Form}
    (hRule : g.Produces head alternative) : g.distinct.Produces head alternative := by
  obtain ⟨alternatives, hLookup, hMem⟩ := hRule
  refine ⟨alternatives.dedup, ?_, List.mem_dedup.mpr hMem⟩
  rw [g.alternatives?_distinct, hLookup]
  rfl

namespace Chart

variable {chart next : Chart} {state : State} {prev : List Int}

/-- An insertion that reports no change makes none. -/
theorem eq_of_insert {position : Int}
    (hInsert : chart.insert state position prev = .ok (next, false)) : next = chart := by
  rw [insert_eq] at hInsert
  split at hInsert
  · cases hInsert
  · split at hInsert
    · cases hInsert
      rfl
    · split at hInsert
      · obtain ⟨hNext, hFlag⟩ := Prod.mk.inj (Except.ok.inj hInsert)
        rw [← hNext]
        exact put_eq_self hFlag
      · cases hInsert

end Chart

namespace Parser

variable {g : Grammar} {parser : Parser} {chart next : Chart} {position : Nat}

theorem eq_of_insertAll {id : Nat} {states : List State}
    (hInsert : insertAll position id states chart = .ok (next, false)) : next = chart := by
  induction states generalizing chart with
  | nil =>
      cases hInsert
      rfl
  | cons state rest ih =>
      obtain ⟨⟨middle, changed⟩, hFirst, hInsert⟩ := bind_eq_ok_iff.mp hInsert
      obtain ⟨⟨last, changedLater⟩, hRest, hInsert⟩ := bind_eq_ok_iff.mp hInsert
      obtain ⟨rfl, hFlag⟩ := Prod.mk.inj (Except.ok.inj hInsert)
      obtain ⟨rfl, rfl⟩ := Bool.or_eq_false_iff.mp hFlag
      exact (ih hRest).trans (Chart.eq_of_insert hFirst)

theorem eq_of_examine {id : Nat} {before after : Progress}
    (hExamine : parser.examine position id before = .ok (after, false)) :
    after.chart = before.chart := by
  obtain ⟨entry, _, hExamine⟩ := bind_eq_ok_iff.mp hExamine
  obtain ⟨states, _, hExamine⟩ := bind_eq_ok_iff.mp hExamine
  obtain ⟨⟨last, changed⟩, hInsert, hExamine⟩ := bind_eq_ok_iff.mp hExamine
  obtain ⟨hAfter, rfl⟩ := Prod.mk.inj (Except.ok.inj hExamine)
  rw [← hAfter]
  exact eq_of_insertAll hInsert

/-- A sweep from an index of a position on, however long it takes: it goes on until the index has
passed the last of the states, also of those that the sweep itself has added. -/
inductive Sweeps (parser : Parser) (position : Nat) : Nat → Progress → Progress → Bool → Prop where
  | done {index : Nat} {progress : Progress}
      (hEnd : (progress.chart.column position)[index]? = none) :
      Sweeps parser position index progress progress false
  | next {index id : Nat} {before middle after : Progress} {changed changedLater : Bool}
      (hId : (before.chart.column position)[index]? = some id)
      (hExamine : parser.examine position id before = .ok (middle, changed))
      (hRest : Sweeps parser position (index + 1) middle after changedLater) :
      Sweeps parser position index before after (changed || changedLater)

/-- A number of sweeps over a position. All but the last report a change; the last one reports
none, and it leaves the chart as it is. -/
inductive Closes (parser : Parser) (position : Nat) : Nat → Progress → Progress → Prop where
  | last {before after : Progress} (hSweep : Sweeps parser position 0 before after false)
      (hSame : after.chart = before.chart) : Closes parser position 1 before after
  | again {count : Nat} {before middle after : Progress}
      (hSweep : Sweeps parser position 0 before middle true)
      (hRest : Closes parser position count middle after) :
      Closes parser position (count + 1) before after

theorem Sweeps.eq_of_unchanged {index : Nat} {before after : Progress}
    (hSweeps : Sweeps parser position index before after false) : after.chart = before.chart := by
  generalize hFlag : false = changed at hSweeps
  induction hSweeps with
  | done _ => rfl
  | next _ hExamine _ ih =>
      obtain ⟨rfl, rfl⟩ := Bool.or_eq_false_iff.mp hFlag.symm
      exact (ih rfl).trans (eq_of_examine hExamine)

/-- A sweep that stays within its bound is one that ends by itself. -/
theorem sweeps_of_sweep {fuel index : Nat} {before after : Progress} {changed : Bool}
    (hSweep : parser.sweep position fuel index before = .ok (after, changed)) :
    Sweeps parser position index before after changed := by
  induction fuel generalizing index before changed with
  | zero => cases hSweep
  | succ fuel ih =>
      rw [sweep] at hSweep
      cases hId : (before.chart.column position)[index]? with
      | none =>
          simp only [hId] at hSweep
          cases hSweep
          exact Sweeps.done hId
      | some id =>
          simp only [hId] at hSweep
          obtain ⟨⟨middle, changedFirst⟩, hExamine, hSweep⟩ := bind_eq_ok_iff.mp hSweep
          obtain ⟨⟨last, changedLater⟩, hRest, hSweep⟩ := bind_eq_ok_iff.mp hSweep
          cases hSweep
          exact Sweeps.next hId hExamine (ih hRest)

theorem closes_of_repeatSweeps {sweeps : Nat} {before after : Progress}
    (hSweeps : parser.repeatSweeps position sweeps before = .ok after) :
    ∃ count ≤ sweeps, Closes parser position count before after := by
  induction sweeps generalizing before with
  | zero => cases hSweeps
  | succ sweeps ih =>
      rw [repeatSweeps] at hSweeps
      obtain ⟨⟨middle, changed⟩, hSweep, hSweeps⟩ := bind_eq_ok_iff.mp hSweeps
      have hFirst := sweeps_of_sweep hSweep
      cases changed with
      | true =>
          obtain ⟨count, hCount, hCloses⟩ := ih hSweeps
          exact ⟨count + 1, Nat.succ_le_succ hCount, Closes.again hFirst hCloses⟩
      | false =>
          cases hSweeps
          exact ⟨1, Nat.le_add_left 1 sweeps, Closes.last hFirst hFirst.eq_of_unchanged⟩

/-- The position has at most each distinct dotted rule from each origin up to it, and the two
states of the rule above the start symbol. -/
theorem Sound.size_column_le_distinct (hSound : Sound g chart) (position : Nat) :
    (chart.column position).size ≤ (position + 1) * g.distinct.dottedRules + 2 := by
  have hStates {id : Nat} {state : State} (hAt : chart.At position id state) :
      state ∈ candidates g.distinct position :=
    (hSound.viable hAt).mem_candidates g.distinct rfl fun hRule => hRule.distinct
  calc
    _ ≤ (candidates g.distinct position).length :=
      size_column_le_length hSound.wellFormed hStates
    _ = columnBound g.distinct position := length_candidates g.distinct position

/-- The chart of a word is built by closing its positions one after the other. Closing takes
finitely many sweeps, of which the last changes nothing, and no position gets more states than
each distinct dotted rule from each origin up to it, and two. -/
theorem makeChart_closes (hValid : g.validate = .ok ()) (limit : Int) (trace : Bool)
    (word : List Char) :
    ∃ progress, makeChart ⟨g, limit, trace⟩ word = .ok progress ∧
      ∀ position ≤ word.length,
        (∃ before after count, visited ⟨g, limit, trace⟩ word position = .ok before ∧
          close ⟨g, limit, trace⟩ position before = .ok after ∧
          Closes ⟨g, limit, trace⟩ position count before after ∧ count ≤ sweepBound g position) ∧
        (progress.chart.column position).size ≤ (position + 1) * g.distinct.dottedRules + 2 := by
  have hPromises := Grammar.valid_of_validate hValid
  obtain ⟨progress, hChart, hCharted⟩ := @makeChart_eq_ok ⟨g, limit, trace⟩ hPromises word
  refine ⟨progress, hChart, ?_⟩
  intro position hPosition
  refine ⟨?_, hCharted.sound.size_column_le_distinct position⟩
  obtain ⟨before, hVisited, hBefore⟩ :=
    @visited_eq_ok ⟨g, limit, trace⟩ hPromises word position (Nat.le_succ_of_le hPosition)
  obtain ⟨after, hClose, _⟩ :=
    @close_eq_ok position ⟨g, limit, trace⟩ before hPromises hBefore.sound
      (by rw [hBefore.word]; exact hPosition)
  obtain ⟨count, hCount, hCloses⟩ := closes_of_repeatSweeps hClose
  exact ⟨before, after, count, hVisited, hClose, hCloses, hCount⟩

theorem makeChart_closes_doubling :
    Grammar.doubling.validate = .ok () ∧
      ∃ progress, makeChart ⟨Grammar.doubling, 0, false⟩ ['a', 'a'] = .ok progress ∧
        (∃ before after count, visited ⟨Grammar.doubling, 0, false⟩ ['a', 'a'] 2 = .ok before ∧
          Closes ⟨Grammar.doubling, 0, false⟩ 2 count before after) ∧
        (progress.chart.column 2).size ≤ 20 := by
  obtain ⟨progress, hChart, hPositions⟩ :=
    makeChart_closes Grammar.validate_doubling 0 false ['a', 'a']
  obtain ⟨⟨before, after, count, hVisited, _, hCloses, _⟩, hSize⟩ := hPositions 2 (Nat.le_refl 2)
  exact ⟨rfl, progress, hChart, ⟨before, after, count, hVisited, hCloses⟩, hSize⟩

end Parser

end Earley
