import Earley.Proofs.Chart.Insertion
import Earley.Proofs.Grammar.Derivability

/-! The three rules by which a chart grows. Everything that holds of all charts of a parser is
proved from these rules alone, without regard to the order in which states are visited. -/
namespace Earley.Parser

variable {g : Grammar} {chart : Chart}

/-- `Infers g chart position id target state`: from the entry `id` at `position`, the rules allow
`state` at `target`. Prediction and completion stay at the position, scanning moves on by one.
The entry `id` becomes a back-pointer; the state that waited for a completed one does not. -/
inductive Infers (g : Grammar) (chart : Chart) (position id : Nat) : Nat → State → Prop where
  | predict {origin : Int} {lhs : Symbol} {before rest : Form} {head : Char} {alternative : Form}
      (hAt : chart.At position id ⟨origin, lhs, before, .nonterminal (some head) :: rest⟩)
      (hRule : g.Produces head alternative) :
      Infers g chart position id position ⟨position, .nonterminal (some head), [], alternative⟩
  | complete {origin waitingId : Nat} {outer : Int} {lhs above : Symbol} {body before rest : Form}
      (hAt : chart.At position id ⟨origin, lhs, body, []⟩)
      (hWaiting : chart.At origin waitingId ⟨outer, above, before, lhs :: rest⟩) :
      Infers g chart position id position ⟨outer, above, before ++ [lhs], rest⟩
  | scan {origin : Int} {lhs : Symbol} {before rest : Form} {c : Char}
      (hAt : chart.At position id ⟨origin, lhs, before, .terminal (some c) :: rest⟩)
      (hWord : chart.word[position]? = some c) :
      Infers g chart position id (position + 1) ⟨origin, lhs, before ++ [.terminal (some c)], rest⟩

/-- One insertion that the rules allow. -/
def Inserts (g : Grammar) (target : Nat) (chart next : Chart) : Prop :=
  target ≤ chart.word.length ∧ ∃ position id state, Infers g chart position id target state ∧
    next = (chart.put state target [id]).1

/-- Finitely many insertions at one position. -/
def Grows (g : Grammar) (target : Nat) : Chart → Chart → Prop :=
  Relation.ReflTransGen (Inserts g target)

theorem Infers.exists_at {position id target : Nat} {state : State}
    (hInfers : Infers g chart position id target state) : ∃ source, chart.At position id source := by
  cases hInfers with
  | predict hAt _ => exact ⟨_, hAt⟩
  | complete hAt _ => exact ⟨_, hAt⟩
  | scan hAt _ => exact ⟨_, hAt⟩

theorem Infers.lt_size {position id target : Nat} {state : State}
    (hInfers : Infers g chart position id target state) : id < chart.size := by
  obtain ⟨_, hAt⟩ := hInfers.exists_at
  exact hAt.lt_size

theorem Infers.sources_lt {position id target : Nat} {state : State}
    (hInfers : Infers g chart position id target state) : ∀ source ∈ [id], source < chart.size := by
  intro source hSource
  rw [List.mem_singleton.mp hSource]
  exact hInfers.lt_size

theorem Infers.derived_put {position id target : Nat} {state : State} (hChart : chart.WellFormed)
    (hTarget : target ≤ chart.word.length) (hInfers : Infers g chart position id target state) :
    (chart.put state target [id]).1.Derived target state id :=
  (hChart.derived_put_iff hTarget hInfers.sources_lt).mpr
    (Or.inr ⟨rfl, rfl, List.mem_singleton_self _⟩)

theorem Infers.grows_put {position id target : Nat} {state : State}
    (hTarget : target ≤ chart.word.length) (hInfers : Infers g chart position id target state) :
    Grows g target chart (chart.put state target [id]).1 :=
  Relation.ReflTransGen.single ⟨hTarget, position, id, state, hInfers, rfl⟩

theorem Inserts.wellFormed {target : Nat} {next : Chart} (hStep : Inserts g target chart next)
    (hChart : chart.WellFormed) : next.WellFormed := by
  obtain ⟨hTarget, position, id, state, hInfers, rfl⟩ := hStep
  exact hChart.put hTarget hInfers.sources_lt

theorem Grows.wellFormed {target : Nat} {next : Chart} (hGrows : Grows g target chart next)
    (hChart : chart.WellFormed) : next.WellFormed := by
  induction hGrows with
  | refl => exact hChart
  | tail _ hLast ih => exact hLast.wellFormed ih

/-- The later chart has everything that the earlier one has, and it has nothing new at the other
positions than `target`. -/
structure Extends (target : Nat) (chart next : Chart) : Prop where
  word : next.word = chart.word
  at_mono : ∀ {position id state}, chart.At position id state → next.At position id state
  derived_mono : ∀ {position state source}, chart.Derived position state source →
    next.Derived position state source
  at_frame : ∀ {position id state}, position ≠ target → next.At position id state →
    chart.At position id state

theorem Inserts.extends {target : Nat} {next : Chart} (hStep : Inserts g target chart next)
    (hChart : chart.WellFormed) : Extends target chart next := by
  obtain ⟨hTarget, position, id, state, hInfers, rfl⟩ := hStep
  refine ⟨Chart.word_put, fun hAt => hChart.at_put hTarget hAt, ?_, ?_⟩
  · intro other found source hDerived
    exact (hChart.derived_put_iff hTarget hInfers.sources_lt).mpr (Or.inl hDerived)
  · intro other found state hOther hAt
    rcases (hChart.at_put_iff hTarget).mp hAt with hOld | ⟨hSame, _⟩
    · exact hOld
    · exact absurd hSame hOther

theorem Grows.extends {target : Nat} {next : Chart} (hGrows : Grows g target chart next)
    (hChart : chart.WellFormed) : Extends target chart next := by
  induction hGrows with
  | refl => exact ⟨rfl, id, id, fun _ => id⟩
  | tail hPrior hLast ih =>
      have hExtends := hLast.extends (Grows.wellFormed hPrior hChart)
      refine ⟨hExtends.word.trans ih.word, ?_, ?_, ?_⟩
      · intro position id state hAt
        exact hExtends.at_mono (ih.at_mono hAt)
      · intro position state source hDerived
        exact hExtends.derived_mono (ih.derived_mono hDerived)
      · intro position id state hOther hAt
        exact ih.at_frame hOther (hExtends.at_frame hOther hAt)

theorem Infers.mono {target position id goal : Nat} {next : Chart} {state : State}
    (hInfers : Infers g chart position id goal state) (hExtends : Extends target chart next) :
    Infers g next position id goal state := by
  cases hInfers with
  | predict hAt hRule => exact Infers.predict (hExtends.at_mono hAt) hRule
  | complete hAt hWaiting =>
      exact Infers.complete (hExtends.at_mono hAt) (hExtends.at_mono hWaiting)
  | scan hAt hWord =>
      apply Infers.scan (hExtends.at_mono hAt)
      rw [hExtends.word]
      exact hWord

/-- Growth at `target` allows no new inference from earlier positions, if completion there only
looks further back. -/
theorem Infers.of_extends {target position id goal : Nat} {next : Chart} {state : State}
    (hExtends : Extends target chart next) (hEarlier : position < target)
    (hOrigin : ∀ {id state}, chart.At position id state → state.origin ≤ position)
    (hInfers : Infers g next position id goal state) : Infers g chart position id goal state := by
  have hHere {id : Nat} {state : State} (hAt : next.At position id state) :
      chart.At position id state := hExtends.at_frame (Nat.ne_of_lt hEarlier) hAt
  cases hInfers with
  | predict hAt hRule => exact Infers.predict (hHere hAt) hRule
  | @complete origin _ _ _ _ _ _ _ hAt hWaiting =>
      have hBack : (origin : Int) ≤ position := hOrigin (hHere hAt)
      refine Infers.complete (hHere hAt) (hExtends.at_frame ?_ hWaiting)
      omega
  | scan hAt hWord =>
      rw [hExtends.word] at hWord
      exact Infers.scan (hHere hAt) hWord

end Earley.Parser
