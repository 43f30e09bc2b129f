import Earley.Proofs.Parser.Outcome

/-! Parsing with a valid grammar never fails. Every chart that is met on the way is coherent: what
its entries refer to is there, so no lookup can miss. -/
namespace Earley

namespace Parser

/-- What the lookups in a chart of the word rely on. Identifiers and back-pointers have entries,
states begin at a position of the word that is not after their own, their left sides can be
replaced, and the nonterminals that they expect have productions. -/
structure Coherent (g : Grammar) (word : List Char) (chart : Chart) : Prop where
  wellFormed : chart.WellFormed
  placed : ∀ {position id state}, chart.At position id state →
    position ≤ word.length ∧ 0 ≤ state.origin ∧ state.origin ≤ position
  nonterminal : ∀ {id state}, chart.state? id = some state → state.lhs.isTerminal = false
  defined : ∀ {id state letter}, chart.state? id = some state →
    state.next? = some (.nonterminal letter) → ∃ production,
      g.production letter.toList = .ok production

theorem Sound.defined {g : Grammar} {chart : Chart} (hValid : g.Valid) (hSound : Sound g chart)
    {id : Nat} {state : State} {letter : Letter} (hState : chart.state? id = some state)
    (hNext : state.next? = some (.nonterminal letter)) :
    ∃ production, g.production letter.toList = .ok production := by
  obtain ⟨position, other, hAt⟩ := hSound.wellFormed.exists_at (Chart.lt_size_of_state? hState)
  obtain rfl : state = other := Option.some.inj (hState.symm.trans hAt.2)
  obtain ⟨origin, lhs, before, after⟩ := state
  obtain ⟨rest, rfl⟩ := List.head?_eq_some_iff.mp hNext
  obtain ⟨head, alternatives, rfl, hAlternatives⟩ := (hSound.viable hAt).defined hValid
  exact ⟨⟨some head, alternatives⟩, by simp [Grammar.production, hAlternatives]⟩

theorem Reached.coherent {g : Grammar} {word : List Char} {chart : Chart} (hValid : g.Valid)
    (hReached : Reached g word chart) : Coherent g word chart := by
  have hSound := hReached.sound hValid
  refine ⟨hSound.wellFormed, ?_, ?_, ?_⟩
  · intro position id state hAt
    have hPosition := hSound.wellFormed.position_le hAt.1
    rw [hReached.word_eq] at hPosition
    obtain ⟨origin, hOrigin, hLe, _⟩ := hSound.viable hAt
    exact ⟨hPosition, by omega, by omega⟩
  · intro id state hState
    exact (hSound.hasRule hState).isTerminal_lhs
  · intro id state letter hState hNext
    exact hSound.defined hValid hState hNext

end Parser

/-- With a valid grammar and a limit that is not negative, the parser is made, and every word is
parsed without an error: the word matches, with a derivation or without one, or it does not match.
All charts on the way are coherent, and what is found as a match is the completed seed. -/
theorem Grammar.parse_total {g : Grammar} (hValid : g.validate = .ok ()) {limit : Int}
    (hLimit : 0 ≤ limit) (trace : Bool) (word : List Char) :
    ∃ parser outcome log, Parser.ofGrammar g limit trace = .ok parser ∧
      parser.parse word = .ok (outcome, log) ∧ g.parse word limit trace = .ok (outcome, log) ∧
      (outcome.verdict = .noMatch ∨ ∃ derivation, outcome.verdict = .matched derivation) ∧
      Parser.Reached g word outcome.chart ∧
      (∀ chart, Parser.Reached g word chart → Parser.Coherent g word chart) ∧
      ∀ id, outcome.chart.findMatch = .ok (some id) →
        outcome.chart.state? id = some (Parser.completedSeed g) := by
  have hPromises := valid_of_validate hValid
  obtain ⟨outcome, log, hParse, _, hCharted, hVerdict⟩ :=
    @Parser.parse_eq_ok ⟨g, limit, trace⟩ hPromises word
  refine ⟨⟨g, limit, trace⟩, outcome, log, ?_, hParse, ?_, ?_, hCharted.reached, ?_, ?_⟩
  · exact Parser.ofGrammar_eq_ok hValid hLimit trace
  · rw [parse_eq hValid hLimit]
    exact hParse
  · rcases hVerdict with ⟨_, hNone⟩ | ⟨_, _, hJudged⟩
    · exact Or.inl hNone
    · exact Or.inr hJudged.exists_matched
  · intro chart hReached
    exact hReached.coherent hPromises
  · intro id hFind
    exact (hCharted.findMatch_eq_some_iff.mp hFind).2

theorem Grammar.parse_total_doubling :
    Grammar.doubling.validate = .ok () ∧ (0 : Int) ≤ 0 ∧
      ∃ outcome log, Grammar.doubling.parse ['a', 'a'] 0 true = .ok (outcome, log) ∧
        (outcome.verdict = .noMatch ∨ ∃ derivation, outcome.verdict = .matched derivation) ∧
        Parser.Coherent Grammar.doubling ['a', 'a'] outcome.chart := by
  obtain ⟨_, outcome, log, _, _, hParse, hVerdict, hReached, hCoherent, _⟩ :=
    parse_total validate_doubling (Int.le_refl 0) true ['a', 'a']
  exact ⟨rfl, Int.le_refl 0, outcome, log, hParse, hVerdict, hCoherent _ hReached⟩

end Earley
