import Earley.Proofs.Parser.Viability
import Mathlib.Data.List.Nodup

/-! The states that may stand at a position are finite in number, and so are the changes that
closing the position can make. -/
namespace Earley.Parser

variable {g : Grammar} {chart : Chart} {position : Nat}

/-- A rule with its dot in every place. -/
def dotted (origin : Nat) (lhs : Symbol) (alternative : Form) : List State :=
  (List.range (alternative.length + 1)).map fun dot =>
    ⟨origin, lhs, alternative.take dot, alternative.drop dot⟩

/-- All states with a rule of the grammar and the given origin. -/
def dottedFrom (productions : List Production) (origin : Nat) : List State :=
  productions.flatMap fun production =>
    production.alternatives.flatMap (dotted origin (.nonterminal production.lhs))

/-- All states with a rule of the grammar and an origin up to the position, and the two states of
the rule above the start symbol. -/
def candidates (g : Grammar) (position : Nat) : List State :=
  dotted 0 augmentedStart [.nonterminal g.start] ++
    (List.range (position + 1)).flatMap (dottedFrom g.productions)

theorem mem_dotted {origin : Nat} {state : State} (hOrigin : state.origin = origin) :
    state ∈ dotted origin state.lhs state.alternative := by
  refine List.mem_map.mpr ⟨state.before.length, ?_, ?_⟩
  · simp only [State.alternative, List.length_append, List.mem_range]
    omega
  · cases state
    simp_all [State.alternative]

theorem length_flatMap_dotted (origin : Nat) (lhs : Symbol) (alternatives : List Form)
    (total : Nat) :
    (alternatives.flatMap (dotted origin lhs)).length + total =
      alternatives.foldr (fun alternative count => alternative.length + 1 + count) total := by
  induction alternatives with
  | nil => simp
  | cons alternative rest ih =>
      rw [List.foldr_cons, ← ih, List.flatMap_cons, List.length_append]
      simp only [dotted, List.length_map, List.length_range]
      omega

theorem length_dottedFrom (g : Grammar) (origin : Nat) :
    (dottedFrom g.productions origin).length = g.dottedRules := by
  rw [Grammar.dottedRules]
  induction g.productions with
  | nil => rfl
  | cons production rest ih =>
      rw [List.flatMap_cons, List.foldr_append, ← ih, dottedFrom, List.flatMap_cons,
        List.length_append]
      exact length_flatMap_dotted origin _ _ _

theorem length_candidates (g : Grammar) (position : Nat) :
    (candidates g position).length = columnBound g position := by
  simp only [candidates, dotted, columnBound, List.length_append, List.length_flatMap,
    length_dottedFrom, List.length_map, List.length_range, List.length_singleton,
    List.map_const', List.sum_replicate_nat]
  omega

/-- The candidates of any grammar with the same start symbol and the same rules will do, however
its productions list these rules. -/
theorem Viable.mem_candidates {word : List Char} {state : State}
    (hViable : Viable g word position state) (other : Grammar) (hStart : other.start = g.start)
    (hRules : ∀ {head alternative}, g.Produces head alternative →
      other.Produces head alternative) : state ∈ candidates other position := by
  obtain ⟨origin, hOrigin, hLe, hRule, _, hExpects⟩ := hViable
  have hMem := mem_dotted hOrigin
  generalize state.lhs = lhs at hRule hExpects hMem
  generalize state.alternative = alternative at hRule hMem
  apply List.mem_append.mpr
  cases hRule with
  | start =>
      cases hExpects with
      | start => exact Or.inl (hStart ▸ hMem)
  | @rule head _ hRule =>
      obtain ⟨alternatives, hProduction, hAlternative⟩ := (hRules hRule).mem_productions
      right
      apply List.mem_flatMap.mpr
      refine ⟨origin, List.mem_range.mpr (by omega), ?_⟩
      exact List.mem_flatMap.mpr ⟨_, hProduction, List.mem_flatMap.mpr ⟨_, hAlternative, hMem⟩⟩

/-- Equal states share their identifier, so a position has no more identifiers than there are
states that may stand there. -/
theorem size_column_le_length (hChart : chart.WellFormed) {states : List State}
    (hStates : ∀ {id state}, chart.At position id state → state ∈ states) :
    (chart.column position).size ≤ states.length := by
  let column := (chart.column position).toList
  have hExists {id : Nat} (hId : id ∈ column) : ∃ state, chart.At position id state := by
    have hMem := Array.mem_toList_iff.mp hId
    obtain ⟨state, hState⟩ := Chart.exists_state?_of_lt_size (hChart.bounded hMem)
    exact ⟨state, hMem, hState⟩
  have hNodup : (column.map chart.state?).Nodup := by
    apply List.Nodup.map_on
    · intro first hFirst second hSecond hSame
      obtain ⟨state, hAt⟩ := hExists hFirst
      exact hChart.distinct hAt ⟨Array.mem_toList_iff.mp hSecond, hSame ▸ hAt.2⟩
    · exact (hChart.ascending position).imp fun hLt => Nat.ne_of_lt hLt
  have hSubset : column.map chart.state? ⊆ states.map some := by
    intro found hFound
    obtain ⟨id, hId, rfl⟩ := List.mem_map.mp hFound
    obtain ⟨state, hAt⟩ := hExists hId
    rw [hAt.2]
    exact List.mem_map_of_mem (hStates hAt)
  have hLength := (hNodup.subperm hSubset).length_le
  simpa [column] using hLength

theorem Sound.size_column_le (hSound : Sound g chart) (position : Nat) :
    (chart.column position).size ≤ columnBound g position := by
  rw [← length_candidates]
  apply size_column_le_length hSound.wellFormed
  intro id state hAt
  exact (hSound.viable hAt).mem_candidates g rfl fun hRule => hRule

/-- Closing a position takes fewer changes than its number of sweeps. -/
theorem Sound.weight_lt (hSound : Sound g chart) (position : Nat) :
    chart.weight position < sweepBound g position := by
  have hColumn := hSound.size_column_le position
  have hSquare := Nat.mul_le_mul hColumn hColumn
  have hWeight := chart.weight_le position
  rw [sweepBound]
  omega

end Earley.Parser
