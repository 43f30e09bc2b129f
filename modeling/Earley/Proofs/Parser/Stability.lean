import Earley.Proofs.Parser.Lockstep

/-! What comes later in a word never changes what stands at an earlier position of its chart.
Closing a position changes nothing but that position, although completion looks at earlier ones, and
scanning it changes nothing but the next one. -/
namespace Earley

/-- The charts have the same identifiers at the position, in the same order, and with the same
states and back-pointers. -/
def Chart.SameAt (position : Nat) (first second : Chart) : Prop :=
  first.column position = second.column position ∧
    ∀ id ∈ first.column position,
      first.state? id = second.state? id ∧ first.pointers id = second.pointers id

namespace Chart.SameAt

variable {first second third : Chart} {position : Nat}

theorem refl (chart : Chart) : SameAt position chart chart := ⟨rfl, fun _ _ => ⟨rfl, rfl⟩⟩

theorem symm (hSame : SameAt position first second) : SameAt position second first :=
  ⟨hSame.1.symm, fun id hMem => (hSame.2 id (hSame.1 ▸ hMem)).imp Eq.symm Eq.symm⟩

theorem trans (hFirst : SameAt position first second) (hSecond : SameAt position second third) :
    SameAt position first third :=
  ⟨hFirst.1.trans hSecond.1, fun id hMem => (hFirst.2 id hMem).imp
    (fun hState => hState.trans (hSecond.2 id (hFirst.1 ▸ hMem)).1)
    (fun hPointers => hPointers.trans (hSecond.2 id (hFirst.1 ▸ hMem)).2)⟩

/-- Whoever asks for the position gets the same answers. -/
theorem idsAt_eq_ok (hSame : SameAt position first second) (hFirst : first.WellFormed)
    (hInFirst : position ≤ first.word.length) (hInSecond : position ≤ second.word.length) :
    ∃ ids, first.idsAt position = .ok ids ∧ second.idsAt position = .ok ids ∧
      ∀ id ∈ ids, ∃ entry, first.entry id = .ok entry ∧ second.entry id = .ok entry := by
  refine ⟨(first.column position).toList, ?_, ?_, ?_⟩
  · rw [idsAt, bind_of_eq_ok (checkPosition_eq_ok hInFirst)]
    rfl
  · rw [idsAt, bind_of_eq_ok (checkPosition_eq_ok hInSecond), hSame.1]
    rfl
  · intro id hId
    have hMem := Array.mem_toList_iff.mp hId
    obtain ⟨hState, hPointers⟩ := hSame.2 id hMem
    obtain ⟨state, hFound⟩ := exists_state?_of_lt_size (hFirst.bounded hMem)
    refine ⟨⟨state, first.pointers id⟩, entry_eq_ok hFound, ?_⟩
    rw [entry_eq_ok (hState.symm.trans hFound), hPointers]

end Chart.SameAt

namespace Parser

variable {g : Grammar} {parser : Parser} {chart next : Chart} {word : List Char}

/-- An insertion leaves the other positions alone: a new state stands at its target, and so does the
old state whose back-pointers grow. -/
theorem Inserts.sameAt {target position : Nat} (hStep : Inserts g target chart next)
    (hChart : chart.WellFormed) (hOther : position ≠ target) : chart.SameAt position next := by
  obtain ⟨hTarget, _, source, state, _, rfl⟩ := hStep
  cases hFind : chart.find? state target with
  | none =>
      rw [Chart.put_of_new hFind]
      refine ⟨?_, ?_⟩
      · rw [Chart.column_append (hChart.lt_columns hTarget), if_neg hOther]
      · intro id hMem
        have hOld : id ≠ chart.size := Nat.ne_of_lt (hChart.bounded hMem)
        rw [Chart.state?_append, Chart.pointers_append hChart.pointed, if_neg hOld, if_neg hOld]
        exact ⟨rfl, rfl⟩
  | some known =>
      rw [Chart.put_of_known hFind]
      have hAt := hChart.find?_eq_some_iff.mp hFind
      refine ⟨(Chart.column_merge position).symm, ?_⟩
      intro id hMem
      have hKnown : id ≠ known := by
        rintro rfl
        exact hOther (hChart.separate hMem hAt.1)
      rw [Chart.state?_merge, Chart.pointers_merge (hChart.lt_prev hAt), if_neg hKnown]
      exact ⟨rfl, rfl⟩

theorem Grows.sameAt {target position : Nat} (hGrows : Grows g target chart next)
    (hChart : chart.WellFormed) (hOther : position ≠ target) : chart.SameAt position next := by
  induction hGrows with
  | refl => exact Chart.SameAt.refl chart
  | tail hPrior hLast ih => exact ih.trans (hLast.sameAt (Grows.wellFormed hPrior hChart) hOther)

/-- A visit works at its own position first, and then at the next one. -/
theorem visited_succ_sameAt (hValid : parser.grammar.Valid) {count : Nat}
    (hCount : count ≤ word.length) :
    ∃ before closed after, parser.visited word count = .ok before ∧
      parser.close count before = .ok closed ∧ parser.visited word (count + 1) = .ok after ∧
      (∀ position ≠ count, before.chart.SameAt position closed.chart) ∧
      ∀ position ≠ count + 1, closed.chart.SameAt position after.chart := by
  obtain ⟨before, hBefore, hCharted⟩ :=
    @visited_eq_ok parser hValid word count (Nat.le_succ_of_le hCount)
  have hInside : count ≤ before.chart.word.length := by
    rw [hCharted.word]
    exact hCount
  obtain ⟨closed, hClose, hClosing, _⟩ := close_eq_ok hValid hCharted.sound hInside
  have hClosed := hClosing.wellFormed hCharted.sound.wellFormed
  obtain ⟨last, hScan, hScanning, _⟩ := scan_eq_ok parser.grammar count hClosed
  refine ⟨before, closed, ⟨last, parser.record (.closed count closed.chart) closed.log⟩, hBefore,
    hClose, ?_, ?_, ?_⟩
  · rw [visited_succ, bind_of_eq_ok hBefore, visit, bind_of_eq_ok hClose]
    exact bind_of_eq_ok hScan
  · intro position hOther
    exact hClosing.sameAt hCharted.sound.wellFormed hOther
  · intro position hOther
    exact hScanning.sameAt hClosed hOther

/-- Once a position is closed, it stays as it is, and so do the positions before it. -/
theorem visited_sameAt (hValid : parser.grammar.Valid) {place count : Nat} (hLater : place < count)
    (hCount : count ≤ word.length + 1) :
    ∃ before closed after, parser.visited word place = .ok before ∧
      parser.close place before = .ok closed ∧ parser.visited word count = .ok after ∧
      ∀ position ≤ place, closed.chart.SameAt position after.chart := by
  induction count, hLater using Nat.le_induction with
  | base =>
      obtain ⟨before, closed, after, hBefore, hClose, hAfter, _, hSame⟩ :=
        visited_succ_sameAt hValid (Nat.le_of_succ_le_succ hCount)
      exact ⟨before, closed, after, hBefore, hClose, hAfter,
        fun position hPosition => hSame position (by omega)⟩
  | succ count hLater ih =>
      obtain ⟨before, closed, middle, hBefore, hClose, hMiddle, hSame⟩ :=
        ih (Nat.le_of_succ_le hCount)
      obtain ⟨prior, between, after, hPrior, _, hAfter, hClosing, hScanning⟩ :=
        visited_succ_sameAt hValid (Nat.le_of_succ_le_succ hCount)
      obtain rfl := Except.ok.inj (hPrior.symm.trans hMiddle)
      refine ⟨before, closed, after, hBefore, hClose, hAfter, ?_⟩
      intro position hPosition
      exact (hSame position hPosition).trans
        ((hClosing position (by omega)).trans (hScanning position (by omega)))

theorem InStep.sameAt {front left right : List Char} {first second : Chart}
    (hStep : InStep front left right first second) {position : Nat}
    (hPosition : position ≤ front.length) : first.SameAt position second :=
  ⟨hStep.column hPosition, fun id _ => ⟨hStep.state?_eq id, hStep.pointers_eq id⟩⟩

/-- Up to the end of their common front, the charts of two words are the same. The runs are in step
until the last position of the front is closed, and from then on each of them leaves the front
alone. -/
theorem makeChart_sameAt {other : Parser} (hValid : parser.grammar.Valid)
    (hGrammar : parser.grammar = other.grammar) (front left right : List Char) :
    ∃ first second, parser.makeChart (front ++ left) = .ok first ∧
      other.makeChart (front ++ right) = .ok second ∧
      ∀ position ≤ front.length, first.chart.SameAt position second.chart := by
  have hLeft : front.length < (front ++ left).length + 1 := by
    rw [List.length_append]
    omega
  have hRight : front.length < (front ++ right).length + 1 := by
    rw [List.length_append]
    omega
  obtain ⟨⟨before, beforeLog⟩, ⟨closed, closedLog⟩, first, hBefore, hClosed, hFirst, hSame⟩ :=
    visited_sameAt hValid hLeft (Nat.le_refl _)
  obtain ⟨found, foundLog, hFound, hStep⟩ :=
    visited_inStep hGrammar (Nat.le_refl _) hBefore right
  obtain ⟨ended, endedLog, hEnded, hEnd⟩ :=
    hStep.close hGrammar (Nat.le_refl _) hClosed foundLog
  obtain ⟨prior, last, second, hPrior, hLast, hSecond, hOther⟩ :=
    @visited_sameAt other _ (hGrammar ▸ hValid) _ _ hRight (Nat.le_refl _)
  obtain rfl := Except.ok.inj (hPrior.symm.trans hFound)
  obtain rfl := Except.ok.inj (hLast.symm.trans hEnded)
  rw [← makeChart_eq_visited] at hFirst hSecond
  refine ⟨first, second, hFirst, hSecond, ?_⟩
  intro position hPosition
  exact (hSame position hPosition).symm.trans
    ((hEnd.sameAt hPosition).trans (hOther position hPosition))

/-- The charts of words that agree on their first characters agree on the positions up to there: the
same identifiers stand in the same order, with the same states, and with the same back-pointers in
the same order. -/
theorem makeChart_prefix_stable (hValid : g.validate = .ok ()) (limit : Int) (trace : Bool)
    (first second : List Char) (count : Nat) (hFirst : count ≤ first.length)
    (hSecond : count ≤ second.length) (hAgree : first.take count = second.take count) :
    ∃ left right, makeChart ⟨g, limit, trace⟩ first = .ok left ∧
      makeChart ⟨g, limit, trace⟩ second = .ok right ∧
      ∀ position ≤ count, ∃ ids, left.chart.idsAt position = .ok ids ∧
        right.chart.idsAt position = .ok ids ∧
        ∀ id ∈ ids, ∃ entry, left.chart.entry id = .ok entry ∧ right.chart.entry id = .ok entry := by
  have hPromises := Grammar.valid_of_validate hValid
  obtain ⟨left, hLeft, hLeftCharted⟩ := @makeChart_eq_ok ⟨g, limit, trace⟩ hPromises first
  obtain ⟨right, hRight, hRightCharted⟩ := @makeChart_eq_ok ⟨g, limit, trace⟩ hPromises second
  obtain ⟨_, _, hFound, hOther, hSame⟩ :=
    @makeChart_sameAt ⟨g, limit, trace⟩ ⟨g, limit, trace⟩ hPromises rfl (first.take count)
      (first.drop count) (second.drop count)
  rw [List.take_append_drop, hLeft] at hFound
  rw [hAgree, List.take_append_drop, hRight] at hOther
  obtain rfl := Except.ok.inj hFound
  obtain rfl := Except.ok.inj hOther
  refine ⟨left, right, hLeft, hRight, ?_⟩
  intro position hPosition
  have hBoth := hSame position (by rw [List.length_take_of_le hFirst]; exact hPosition)
  refine hBoth.idsAt_eq_ok hLeftCharted.sound.wellFormed ?_ ?_
  · rw [hLeftCharted.word]
    exact hPosition.trans hFirst
  · rw [hRightCharted.word]
    exact hPosition.trans hSecond

theorem makeChart_prefix_stable_doubling :
    Grammar.doubling.validate = .ok () ∧
      ∃ left right, makeChart ⟨Grammar.doubling, 0, false⟩ ['a', 'a'] = .ok left ∧
        makeChart ⟨Grammar.doubling, 0, false⟩ ['a', 'b', 'a'] = .ok right ∧
        ∃ ids, left.chart.idsAt (1 : Nat) = .ok ids ∧ right.chart.idsAt (1 : Nat) = .ok ids ∧
          ∀ id ∈ ids, ∃ entry, left.chart.entry id = .ok entry ∧
            right.chart.entry id = .ok entry := by
  obtain ⟨left, right, hLeft, hRight, hSame⟩ := makeChart_prefix_stable Grammar.validate_doubling 0
    false ['a', 'a'] ['a', 'b', 'a'] 1 (by decide) (by decide) rfl
  exact ⟨rfl, left, right, hLeft, hRight, hSame 1 (Nat.le_refl 1)⟩

end Parser

end Earley
