import Earley.Proofs.Chart.Growth
import Earley.Proofs.Digraph
import Earley.Proofs.Parser.Provenance

/-! Where back-pointers lead. They may lead in cycles, but the pointer that a state was created with
is an older state, and no later insertion takes its place. Following these pointers leads from every
state to the seed. -/
namespace Earley

theorem Chart.edge_backPointers_iff {chart : Chart} {id source : Nat} :
    chart.backPointers.Edge id source ↔ source ∈ chart.pointers id := by
  simp only [Digraph.Edge, backPointers, List.mem_flatMap, List.mem_map, Prod.exists,
    List.mem_zipIdx_iff_getElem?, Array.getElem?_toList, Prod.mk.injEq, pointers]
  constructor
  · rintro ⟨pointers, other, hPointers, pointer, hPointer, rfl, rfl⟩
    simpa [hPointers] using hPointer
  · intro hSource
    cases hPointers : chart.prev[id]? with
    | none => simp [hPointers] at hSource
    | some pointers =>
        exact ⟨pointers, id, hPointers, source, by simpa [hPointers] using hSource, rfl, rfl⟩

namespace Parser

variable {g : Grammar} {chart : Chart} {word : List Char}

/-- Every state but the first has a back-pointer, and its first one is older than itself. -/
def Descends (chart : Chart) : Prop :=
  ∀ id < chart.size, id ≠ 0 → ∃ first rest, chart.pointers id = first :: rest ∧ first < id

theorem Descends.path_zero (hChart : Descends chart) {id : Nat} (hId : id < chart.size) :
    chart.backPointers.Path id 0 := by
  induction id using Nat.strong_induction_on with
  | _ id ih =>
      by_cases hZero : id = 0
      · rw [hZero]
        exact Digraph.Path.refl 0
      · obtain ⟨first, rest, hPointers, hOlder⟩ := hChart id hId hZero
        have hEdge : chart.backPointers.Edge id first := by
          simp [Chart.edge_backPointers_iff, hPointers]
        exact hEdge.path.trans (ih first hOlder (hOlder.trans hId))

/-- A new state points to the state that it is derived from. An old one keeps its first pointer,
whatever is merged into the others. -/
theorem Inserts.descends {target : Nat} {next : Chart} (hStep : Inserts g target chart next)
    (hChart : chart.WellFormed) (hDescends : Descends chart) : Descends next := by
  obtain ⟨hTarget, place, source, state, hInfers, rfl⟩ := hStep
  have hAppends : chart.Appends (chart.put state target [source]).1 := hChart.appends_put hTarget
  intro id hId hZero
  by_cases hOld : id < chart.size
  · obtain ⟨first, rest, hPointers, hOlder⟩ := hDescends id hOld hZero
    obtain ⟨added, hAdded⟩ := hAppends.pointers id
    rw [hPointers, List.cons_append] at hAdded
    exact ⟨first, rest ++ added, hAdded.symm, hOlder⟩
  · cases hFind : chart.find? state target with
    | none =>
        rw [Chart.put_of_new hFind] at hId ⊢
        rw [Chart.size_append] at hId
        obtain rfl : id = chart.size := by omega
        rw [Chart.pointers_append hChart.pointed, if_pos rfl]
        exact ⟨source, [], rfl, hInfers.lt_size⟩
    | some known =>
        rw [Chart.put_of_known hFind, Chart.size_merge] at hId
        exact absurd hId hOld

theorem Reached.descends (hReached : Reached g word chart) : Descends chart := by
  induction hReached with
  | refl =>
      intro id hId hZero
      obtain ⟨position, state, hAt⟩ := (sound_seeded g word).wellFormed.exists_at hId
      exact absurd (at_seeded_iff.mp hAt).2.2 hZero
  | tail hPrior hLast ih =>
      obtain ⟨_, hStep⟩ := hLast
      exact hStep.descends (Reached.wellFormed hPrior) ih

/-- Left recursion closes a cycle: the predicted state expects its own left side where it stands. -/
theorem Charted.exists_edge_self (hCharted : Charted g word (word.length + 1) chart)
    {head : Char} (hStart : g.start = some head) {rest : Form}
    (hRule : g.Produces head (.nonterminal (some head) :: rest)) :
    ∃ id, chart.backPointers.Edge id id := by
  have hSeed : chart.At 0 0 ⟨0, augmentedStart, [], [.nonterminal (some head)]⟩ := by
    rw [← hStart]
    exact hCharted.seed
  obtain ⟨id, hAt, _⟩ := hCharted.derived_of_infers (Infers.predict hSeed hRule)
  have hId : id ≠ 0 := by
    rintro rfl
    have hLhs := congrArg State.lhs (hAt.unique hCharted.seed)
    simp [Parser.seed, State.initial, augmentedStart] at hLhs
  refine ⟨id, Chart.edge_backPointers_iff.mpr ?_⟩
  exact ((hCharted.mem_pointers_initial_iff hId hAt).2 id).mpr ⟨_, hAt, rfl⟩

/-- In the chart of a word, the seed has the first identifier and no back-pointers. Every other
state has some, of which the first is older than the state, and so every state leads to the seed.
For all that there are charts with cycles, for every word. -/
theorem makeChart_leads_to_seed (hValid : g.validate = .ok ()) (limit : Int) (trace : Bool)
    (word : List Char) :
    (∃ progress, makeChart ⟨g, limit, trace⟩ word = .ok progress ∧
      progress.chart.At 0 0 (seed g) ∧ progress.chart.pointers 0 = [] ∧
      ∀ id < progress.chart.size,
        (id ≠ 0 → ∃ first rest, progress.chart.pointers id = first :: rest ∧ first < id) ∧
          progress.chart.backPointers.Path id 0) ∧
    ∃ progress id, makeChart ⟨Grammar.doubling, limit, trace⟩ word = .ok progress ∧
      progress.chart.backPointers.Edge id id := by
  constructor
  · obtain ⟨progress, hChart, hCharted⟩ :=
      @makeChart_eq_ok ⟨g, limit, trace⟩ (Grammar.valid_of_validate hValid) word
    have hDescends := hCharted.reached.descends
    refine ⟨progress, hChart, hCharted.seed, hCharted.pointers_seed, ?_⟩
    intro id hId
    exact ⟨hDescends id hId, hDescends.path_zero hId⟩
  · obtain ⟨progress, hChart, hCharted⟩ := @makeChart_eq_ok ⟨Grammar.doubling, limit, trace⟩
      (Grammar.valid_of_validate Grammar.validate_doubling) word
    have hRule := Grammar.produces_doubling_iff.mpr (Or.inl rfl)
    obtain ⟨id, hEdge⟩ := hCharted.exists_edge_self rfl hRule
    exact ⟨progress, id, hChart, hEdge⟩

theorem makeChart_leads_to_seed_doubling :
    Grammar.doubling.validate = .ok () ∧
      ∃ progress, makeChart ⟨Grammar.doubling, 0, false⟩ ['a'] = .ok progress ∧
        7 < progress.chart.size ∧
        (∃ first rest, progress.chart.pointers 7 = first :: rest ∧ first < 7) ∧
        progress.chart.backPointers.Path 7 0 := by
  obtain ⟨⟨progress, hChart, _, _, hLeads⟩, _⟩ :=
    makeChart_leads_to_seed Grammar.validate_doubling 0 false ['a']
  have hSize : 7 < progress.chart.size := by
    have hComputed : (makeChart ⟨Grammar.doubling, 0, false⟩ ['a']).toOption.all fun progress =>
        7 < progress.chart.size := by decide +kernel
    rw [hChart] at hComputed
    exact of_decide_eq_true hComputed
  obtain ⟨hOlder, hPath⟩ := hLeads 7 hSize
  exact ⟨rfl, progress, hChart, hSize, hOlder (by decide), hPath⟩

end Parser

end Earley
