import Earley.Parser.Outcome
import Earley.Proofs.Derivation.Replay
import Earley.Proofs.Parser.Completeness

/-! What the parser of a valid grammar answers. It never fails, and the word matches exactly if the
start symbol derives it, whether or not a derivation is found within the limit. -/
namespace Earley

/-- The derivation that comes with a match. -/
def Verdict.derivation? : Verdict → Option Derivation
  | .matched derivation => derivation
  | _ => none

theorem Verdict.derivation?_eq_some_iff {verdict : Verdict} {derivation : Derivation} :
    verdict.derivation? = some derivation ↔ verdict = .matched (some derivation) := by
  cases verdict <;> simp [derivation?]

namespace Parser

open Earley.Derivation

variable {g : Grammar} {chart : Chart} {word : List Char}

/-- The identifier that is found is the one of the completed seed at the end of the word. -/
theorem Charted.findMatch_eq_ok (hCharted : Charted g word (word.length + 1) chart) :
    ∃ found, chart.findMatch = .ok found ∧
      ∀ id, found = some id ↔ chart.At word.length id (completedSeed g) := by
  have hLength : chart.word.length = word.length := by rw [hCharted.word]
  obtain ⟨states, hStates, hMem⟩ := Chart.statesAt_eq_ok (Nat.le_of_eq hLength.symm)
  rw [← hLength] at hStates hMem
  have hSeed {id : Nat} {state : State} (hAt : chart.At chart.word.length id state)
      (hComplete : state.isCompleteParse = true) : state = completedSeed g := by
    obtain ⟨hLhs, hAfter⟩ := Bool.and_eq_true_iff.mp hComplete
    rcases (viable_augmentedStart_iff (Nat.le_refl _) (of_decide_eq_true hLhs)).mp
      (hCharted.sound.viable hAt) with ⟨_, rfl⟩ | ⟨rfl, _⟩
    · cases hAfter
    · rfl
  have hFindMatch : chart.findMatch =
      .ok ((states.find? fun pair => pair.2.isCompleteParse).map Prod.fst) := by
    rw [Chart.findMatch, bind_of_eq_ok hStates]
    rfl
  refine ⟨_, hFindMatch, ?_⟩
  rw [← hLength]
  intro id
  constructor
  · intro hFound
    obtain ⟨⟨_, state⟩, hFind, rfl⟩ := Option.map_eq_some_iff.mp hFound
    have hAt := (hMem _ _).mp (List.mem_of_find?_eq_some hFind)
    have hComplete := List.find?_some hFind
    obtain rfl := hSeed hAt hComplete
    exact hAt
  · intro hAt
    cases hFind : states.find? fun pair => pair.2.isCompleteParse with
    | none =>
        have hOther := List.find?_eq_none.mp hFind _ ((hMem _ _).mpr hAt)
        exact absurd rfl hOther
    | some pair =>
        obtain ⟨other, state⟩ := pair
        have hOther := (hMem _ _).mp (List.mem_of_find?_eq_some hFind)
        have hComplete := List.find?_some hFind
        obtain rfl := hSeed hOther hComplete
        rw [hCharted.sound.wellFormed.distinct hOther hAt]
        rfl

/-- What the verdict about a match says about the search for a path. -/
inductive Judged (chart : Chart) (id : Nat) (limit : Int) (trace : Bool) : Verdict → Prop where
  | derived {path : List Nat} {derivation : Derivation}
      (hPath : (findPath chart id limit trace).1 = .ok (some path))
      (hRead : ofPath chart path = .ok derivation) :
      Judged chart id limit trace (.matched (some derivation))
  | exhausted (hPath : (findPath chart id limit trace).1 = .ok none) :
      Judged chart id limit trace (.matched none)
  | limitReached (hPath : (findPath chart id limit trace).1 =
      .error (.limitReached chart.word limit)) :
      Judged chart id limit trace (.matched none)

theorem Judged.matches {id : Nat} {limit : Int} {trace : Bool} {verdict : Verdict}
    (hJudged : Judged chart id limit trace verdict) : verdict.matches = true := by
  cases hJudged <;> rfl

theorem Judged.exists_matched {id : Nat} {limit : Int} {trace : Bool} {verdict : Verdict}
    (hJudged : Judged chart id limit trace verdict) : ∃ derivation, verdict = .matched derivation := by
  cases hJudged <;> exact ⟨_, rfl⟩

theorem judge_eq_ok (parser : Parser) {id : Nat}
    (hState : chart.state? id = some (completedSeed g)) (log : Log) :
    ∃ verdict newLog, parser.judge chart id log = .ok (verdict, newLog) ∧
      Judged chart id parser.limit parser.trace verdict := by
  obtain ⟨finding, hSearch, hAnswer⟩ :=
    searches_findPath hState rfl parser.limit parser.trace
  rw [judge, derive]
  cases hFind : findPath chart id parser.limit parser.trace with
  | mk answer searchLog =>
      rw [hFind] at hAnswer
      obtain rfl : answer = finding.answer chart.word parser.limit := hAnswer
      cases finding with
      | found path =>
          obtain ⟨node, hNode, goal, hPath, hGoal, rfl⟩ := hSearch.exists_goal
          obtain rfl := List.mem_singleton.mp hNode
          have hFirst := Node.replayed_initial (.nonterminal g.start) hState rfl
          obtain ⟨derivation, hRead⟩ := (hFirst.descendant hPath).ofPath hGoal rfl rfl
          refine ⟨.matched (some derivation), log ++ searchLog, ?_, ?_⟩
          · simp only [Finding.answer, hRead]
            rfl
          · exact Judged.derived (by rw [hFind]; rfl) hRead
      | exhausted => exact ⟨_, _, rfl, Judged.exhausted (by rw [hFind]; rfl)⟩
      | limitReached => exact ⟨_, _, rfl, Judged.limitReached (by rw [hFind]; rfl)⟩

/-- Every word is parsed without error. -/
theorem parse_eq_ok {parser : Parser} (hValid : parser.grammar.Valid) (word : List Char) :
    ∃ outcome log, parser.parse word = .ok (outcome, log) ∧
      (∃ chartLog, parser.makeChart word = .ok ⟨outcome.chart, chartLog⟩) ∧
      Charted parser.grammar word (word.length + 1) outcome.chart ∧
      ((outcome.chart.findMatch = .ok none ∧ outcome.verdict = .noMatch) ∨
        ∃ id, outcome.chart.findMatch = .ok (some id) ∧
          Judged outcome.chart id parser.limit parser.trace outcome.verdict) := by
  obtain ⟨⟨chart, chartLog⟩, hChart, hCharted⟩ := makeChart_eq_ok hValid word
  obtain ⟨found, hFind, hFound⟩ := hCharted.findMatch_eq_ok
  cases found with
  | none =>
      refine ⟨⟨word, chart, .noMatch⟩, chartLog, ?_, ⟨chartLog, hChart⟩, hCharted, ?_⟩
      · rw [parse, bind_of_eq_ok hChart]
        exact bind_of_eq_ok hFind
      · exact Or.inl ⟨hFind, rfl⟩
  | some id =>
      have hAt := (hFound id).mp rfl
      obtain ⟨verdict, log, hJudge, hJudged⟩ := judge_eq_ok parser hAt.2 chartLog
      refine ⟨⟨word, chart, verdict⟩, log, ?_, ⟨chartLog, hChart⟩, hCharted, ?_⟩
      · rw [parse, bind_of_eq_ok hChart]
        apply (bind_of_eq_ok hFind).trans
        exact bind_of_eq_ok hJudge
      · exact Or.inr ⟨id, hFind, hJudged⟩

theorem Charted.findMatch_eq_some_iff (hCharted : Charted g word (word.length + 1) chart)
    {id : Nat} : chart.findMatch = .ok (some id) ↔ chart.At word.length id (completedSeed g) := by
  obtain ⟨found, hFind, hFound⟩ := hCharted.findMatch_eq_ok
  rw [hFind, Except.ok.injEq]
  exact hFound id

theorem Charted.exists_findMatch_iff (hCharted : Charted g word (word.length + 1) chart) :
    (∃ id, chart.findMatch = .ok (some id)) ↔
      g.Derives [.nonterminal g.start] (Form.ofWord word) := by
  simp only [hCharted.findMatch_eq_some_iff]
  change chart.Holds word.length (completedSeed g) ↔ _
  rw [hCharted.holds_iff_viable (Nat.le_refl _),
    viable_augmentedStart_iff (Nat.le_refl _) rfl, List.take_length]
  simp [completedSeed, Parser.seed, State.initial]

end Parser

variable {g : Grammar}

theorem Parser.ofGrammar_eq_ok (hValid : g.validate = .ok ()) {limit : Int} (hLimit : 0 ≤ limit)
    (trace : Bool) : ofGrammar g limit trace = .ok ⟨g, limit, trace⟩ := by
  rw [ofGrammar, bind_of_eq_ok hValid, if_neg (by omega)]
  rfl

theorem Grammar.parse_eq (hValid : g.validate = .ok ()) {limit : Int} (hLimit : 0 ≤ limit)
    (trace : Bool) (word : List Char) :
    g.parse word limit trace = Parser.parse ⟨g, limit, trace⟩ word := by
  rw [parse, bind_of_eq_ok (Parser.ofGrammar_eq_ok hValid hLimit trace)]

/-- A word matches a valid grammar exactly if it can be derived from the start symbol. The limit
of the search and the debug flag have no influence on that. -/
theorem Grammar.parse_matches_iff (hValid : g.validate = .ok ()) {limit : Int} (hLimit : 0 ≤ limit)
    (trace : Bool) (word : List Char) :
    ∃ outcome log, g.parse word limit trace = .ok (outcome, log) ∧
      (outcome.verdict.matches = true ↔ g.Derives [.nonterminal g.start] (Form.ofWord word)) := by
  obtain ⟨outcome, log, hParse, _, hCharted, hVerdict⟩ :=
    @Parser.parse_eq_ok ⟨g, limit, trace⟩ (valid_of_validate hValid) word
  refine ⟨outcome, log, ?_, ?_⟩
  · rw [parse_eq hValid hLimit]
    exact hParse
  · rw [← hCharted.exists_findMatch_iff]
    rcases hVerdict with ⟨hNone, hVerdict⟩ | ⟨id, hFind, hJudged⟩
    · simp [hNone, hVerdict, Verdict.matches]
    · simp [hFind, hJudged.matches]

theorem Grammar.parse_matches_doubling :
    Grammar.doubling.validate = .ok () ∧ (0 : Int) ≤ 0 ∧
      ∃ outcome log, Grammar.doubling.parse ['a', 'a'] 0 false = .ok (outcome, log) ∧
        outcome.verdict.matches = true := by
  have hDouble := produces_doubling_iff.mpr (Or.inl rfl)
  have hLetter := produces_doubling_iff.mpr (Or.inr (Or.inl rfl))
  obtain ⟨outcome, log, hParse, hMatches⟩ :=
    parse_matches_iff validate_doubling (Int.le_refl 0) false ['a', 'a']
  refine ⟨rfl, Int.le_refl 0, outcome, log, hParse, hMatches.mpr ?_⟩
  exact hDouble.derives.trans (hLetter.derives.append hLetter.derives)

end Earley
