import Earley.Proofs.Parser.Lockstep
import Earley.Proofs.Parser.Outcome

/-! The search misses no derivation. A derivation that can be retraced through the chart is a path
of the search, and so only the limit can keep the search from a goal. -/
namespace Earley

namespace Derivation

variable {g : Grammar} {chart : Chart} {word : List Char}

theorem Node.exists_child_of_retraces {last : Nat} {form : Form} {target : Nat × Form}
    (hStep : chart.Retraces (last, form) target) (earlier : List Nat) :
    ∃ child, Node.Child chart ⟨last, earlier, form⟩ child ∧ (child.last, child.form) = target := by
  cases hStep with
  | @replace _ source origin lhs alternative left right hPointer hState hNonterminal hLast =>
      have hReplace := Form.replaceLast?_append_cons left hLast alternative
      refine ⟨⟨source, last :: earlier, left ++ alternative ++ right⟩, ?_, rfl⟩
      refine Node.child_iff.mpr ⟨source, hPointer, _, hState, ?_⟩
      exact Node.extend?_eq_some_iff.mpr ⟨rfl, rfl, by
        simpa [State.isComplete, State.alternative, hNonterminal] using hReplace⟩
  | @pass _ source _ _ _ _ _ _ hPointer hState =>
      refine ⟨⟨source, last :: earlier, form⟩, ?_, rfl⟩
      refine Node.child_iff.mpr ⟨source, hPointer, _, hState, ?_⟩
      exact Node.extend?_eq_some_iff.mpr ⟨rfl, rfl, by simp [State.isComplete]⟩

theorem Node.exists_descendant_of_retraces {last : Nat} {form : Form} {target : Nat × Form}
    (hPath : Relation.ReflTransGen chart.Retraces (last, form) target) (earlier : List Nat) :
    ∃ node, Relation.ReflTransGen (Node.Child chart) ⟨last, earlier, form⟩ node ∧
      (node.last, node.form) = target := by
  induction hPath with
  | refl => exact ⟨_, Relation.ReflTransGen.refl, rfl⟩
  | tail _ hStep ih =>
      obtain ⟨node, hNode, rfl⟩ := ih
      obtain ⟨child, hChild, hTarget⟩ := Node.exists_child_of_retraces hStep node.earlier
      exact ⟨child, hNode.tail hChild, hTarget⟩

end Derivation

namespace Parser

open Earley.Derivation

variable {g : Grammar} {chart : Chart} {word : List Char} {id : Nat}

/-- A match has a goal among the descendants of the first node of its search. -/
theorem Charted.exists_goal (hCharted : Charted g word (word.length + 1) chart)
    (hAt : chart.At word.length id (completedSeed g)) :
    ∃ goal, Relation.TransGen (Node.Child chart) ⟨id, [], [.nonterminal g.start]⟩ goal ∧
      goal.Goal chart := by
  have hDerives : g.Derives [.nonterminal g.start] (Form.ofWord word) :=
    hCharted.exists_findMatch_iff.mp ⟨id, hCharted.findMatch_eq_some_iff.mpr hAt⟩
  have hSeed : chart.At 0 0 ⟨0, augmentedStart, [], [.nonterminal g.start] ++ []⟩ := hCharted.seed
  have hWord : word.drop 0 = word ++ [] := by simp
  obtain ⟨last, hLast, hPath⟩ := hCharted.advance hDerives.expands hSeed rfl hWord
  rw [Nat.zero_add] at hLast
  obtain rfl : last = id := hCharted.sound.wellFormed.distinct hLast hAt
  have hRetraces := hPath [] []
  simp only [List.nil_append, Form.ofWord, List.map_nil, List.append_nil] at hRetraces
  obtain ⟨goal, hDescends, hTarget⟩ := Node.exists_descendant_of_retraces hRetraces []
  have hForm : goal.form = Form.ofWord word := (Prod.mk.inj hTarget).2
  refine ⟨goal, ?_, by rw [Node.Goal, hCharted.word, hForm]⟩
  rcases Relation.reflTransGen_iff_eq_or_transGen.mp hDescends with rfl | hDescends
  · have hMem : Symbol.nonterminal g.start ∈ Form.ofWord word := by
      rw [← hForm]
      exact List.mem_singleton_self _
    exact absurd hMem (Form.nonterminal_notMem_ofWord _ _)
  · exact hDescends

theorem Charted.findPath_found_or_limitReached
    (hCharted : Charted g word (word.length + 1) chart)
    (hAt : chart.At word.length id (completedSeed g)) (limit : Int) (trace : Bool) :
    (∃ path, (findPath chart id limit trace).1 = .ok (some path)) ∨
      (findPath chart id limit trace).1 = .error (.limitReached word limit) := by
  obtain ⟨goal, hPath, hGoal⟩ := hCharted.exists_goal hAt
  obtain ⟨finding, hSearch, hAnswer⟩ := searches_findPath hAt.2 rfl limit trace
  have hSome := hSearch.ne_exhausted (List.mem_singleton_self _) hPath hGoal
  rw [hAnswer, ← hCharted.word]
  cases finding with
  | found path => exact Or.inl ⟨path, rfl⟩
  | exhausted => exact absurd rfl hSome
  | limitReached => exact Or.inr rfl

theorem Charted.exists_bound (hCharted : Charted g word (word.length + 1) chart)
    (hAt : chart.At word.length id (completedSeed g)) :
    ∃ bound : Nat, ∀ (limit : Int) trace, bound ≤ limit →
      ∃ path, (findPath chart id limit trace).1 = .ok (some path) := by
  obtain ⟨goal, hPath, hGoal⟩ := hCharted.exists_goal hAt
  obtain ⟨bound, hBound⟩ := exists_limit_found hPath hGoal 0 (List.mem_singleton_self _)
  refine ⟨bound, ?_⟩
  intro limit trace hLimit
  obtain ⟨finding, hSearch, hAnswer⟩ := searches_findPath hAt.2 rfl limit trace
  obtain ⟨path, rfl⟩ := hBound limit hLimit finding hSearch
  exact ⟨path, hAnswer⟩

/-- A match is reported without a derivation only if the search reached its limit. -/
theorem Charted.exists_derivation_or_limitReached
    (hCharted : Charted g word (word.length + 1) chart)
    (hAt : chart.At word.length id (completedSeed g)) {limit : Int} {trace : Bool}
    {verdict : Verdict} (hJudged : Judged chart id limit trace verdict) :
    (∃ derivation, verdict = .matched (some derivation)) ∨
      (verdict = .matched none ∧
        (findPath chart id limit trace).1 = .error (.limitReached word limit)) := by
  cases hJudged with
  | derived _ _ => exact Or.inl ⟨_, rfl⟩
  | exhausted hPath =>
      have hOther := hCharted.findPath_found_or_limitReached hAt limit trace
      simp [hPath] at hOther
  | limitReached hPath =>
      rw [hCharted.word] at hPath
      exact Or.inr ⟨rfl, hPath⟩

end Parser

open Earley.Derivation

theorem Grammar.parse_of_findMatch {g : Grammar} (hValid : g.validate = .ok ()) {limit : Int}
    (hLimit : 0 ≤ limit) {trace : Bool} {word : List Char} {chart : Chart} {chartLog : Log}
    (hChart : Parser.makeChart ⟨g, limit, trace⟩ word = .ok ⟨chart, chartLog⟩) {id : Nat}
    (hFind : chart.findMatch = .ok (some id)) :
    ∃ outcome log, g.parse word limit trace = .ok (outcome, log) ∧
      Parser.Judged chart id limit trace outcome.verdict := by
  obtain ⟨outcome, log, hParse, ⟨_, hOther⟩, _, hVerdict⟩ :=
    @Parser.parse_eq_ok ⟨g, limit, trace⟩ (valid_of_validate hValid) word
  obtain rfl : chart = outcome.chart := by
    rw [hChart] at hOther
    exact (Parser.Progress.mk.inj (Except.ok.inj hOther)).1
  refine ⟨outcome, log, ?_, ?_⟩
  · rw [parse_eq hValid hLimit]
    exact hParse
  · rcases hVerdict with ⟨hNone, _⟩ | ⟨other, hSome, hJudged⟩
    · rw [hFind] at hNone
      cases hNone
    · rw [hFind] at hSome
      cases hSome
      exact hJudged

/-- The search for a path from a match either gives one or reaches its limit, and with a limit
that is large enough it gives one. So a match is reported without a derivation only if the limit
was reached. The chart in which the search takes place does not depend on the limit. -/
theorem Grammar.findPath_complete {g : Grammar} (hValid : g.validate = .ok ())
    (word : List Char) :
    ∃ chart, (∀ limit trace, ∃ log, Parser.makeChart ⟨g, limit, trace⟩ word = .ok ⟨chart, log⟩) ∧
      ((∃ id, chart.findMatch = .ok (some id)) ↔
        g.Derives [.nonterminal g.start] (Form.ofWord word)) ∧
      ∀ id, chart.findMatch = .ok (some id) →
        (∀ limit trace, (∃ path, (findPath chart id limit trace).1 = .ok (some path)) ∨
          (findPath chart id limit trace).1 = .error (.limitReached word limit)) ∧
        (∀ limit trace, 0 ≤ limit → ∃ outcome log, g.parse word limit trace = .ok (outcome, log) ∧
          ((∃ derivation, outcome.verdict = .matched (some derivation)) ∨
            (outcome.verdict = .matched none ∧
              (findPath chart id limit trace).1 = .error (.limitReached word limit)))) ∧
        ∃ bound : Nat, ∀ (limit : Int) trace, bound ≤ limit →
          (∃ path, (findPath chart id limit trace).1 = .ok (some path)) ∧
          ∃ outcome log derivation, g.parse word limit trace = .ok (outcome, log) ∧
            outcome.verdict = .matched (some derivation) := by
  obtain ⟨⟨chart, log⟩, hChart, hCharted⟩ :=
    @Parser.makeChart_eq_ok ⟨g, 0, false⟩ (valid_of_validate hValid) word
  have hSame (limit : Int) (trace : Bool) :
      ∃ log, Parser.makeChart ⟨g, limit, trace⟩ word = .ok ⟨chart, log⟩ :=
    Parser.makeChart_congr hChart ⟨g, limit, trace⟩ rfl
  refine ⟨chart, hSame, hCharted.exists_findMatch_iff, ?_⟩
  intro id hFind
  have hAt := hCharted.findMatch_eq_some_iff.mp hFind
  obtain ⟨bound, hBound⟩ := hCharted.exists_bound hAt
  refine ⟨hCharted.findPath_found_or_limitReached hAt, ?_, bound, ?_⟩
  · intro limit trace hLimit
    obtain ⟨_, hChart⟩ := hSame limit trace
    obtain ⟨outcome, log, hParse, hJudged⟩ := parse_of_findMatch hValid hLimit hChart hFind
    exact ⟨outcome, log, hParse, hCharted.exists_derivation_or_limitReached hAt hJudged⟩
  · intro limit trace hLimit
    obtain ⟨path, hPath⟩ := hBound limit trace hLimit
    obtain ⟨_, hChart⟩ := hSame limit trace
    obtain ⟨outcome, log, hParse, hJudged⟩ :=
      parse_of_findMatch hValid (by omega) hChart hFind
    refine ⟨⟨path, hPath⟩, outcome, log, ?_⟩
    rcases hCharted.exists_derivation_or_limitReached hAt hJudged with
      ⟨derivation, hVerdict⟩ | ⟨_, hOther⟩
    · exact ⟨derivation, hParse, hVerdict⟩
    · rw [hPath] at hOther
      cases hOther

theorem Grammar.findPath_doubling :
    doubling.validate = .ok () ∧ ∃ chart id log, Parser.makeChart ⟨doubling, 5, true⟩ ['a', 'a'] =
        .ok ⟨chart, log⟩ ∧
      chart.findMatch = .ok (some id) ∧
      ∃ bound : Nat, ∃ path, (Derivation.findPath chart id bound false).1 = .ok (some path) := by
  have hDouble := produces_doubling_iff.mpr (Or.inl rfl)
  have hLetter := produces_doubling_iff.mpr (Or.inr (Or.inl rfl))
  have hDerives := hDouble.derives.trans (hLetter.derives.append hLetter.derives)
  obtain ⟨chart, hChart, hMatch, hSearch⟩ := findPath_complete validate_doubling ['a', 'a']
  obtain ⟨id, hFind⟩ := hMatch.mpr hDerives
  obtain ⟨log, hChart⟩ := hChart 5 true
  obtain ⟨_, _, bound, hBound⟩ := hSearch id hFind
  exact ⟨rfl, chart, id, log, hChart, hFind, bound, (hBound bound false (Int.le_refl _)).1⟩

end Earley
