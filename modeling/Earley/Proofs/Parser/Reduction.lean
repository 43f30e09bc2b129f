import Earley.Proofs.Grammar.Reduction
import Earley.Proofs.Parser.Outcome
import Mathlib.Data.List.Flatten

/-! Productions that no run looks up. A run that succeeds with one grammar is the same, insertion by
insertion and event by event, with every grammar that answers its lookups alike. A larger grammar
has larger bounds for closing a position, but bounds that are not met make no difference. -/
namespace Earley

/-- The larger grammar has the same start symbol, and for each left side of the smaller one the same
alternatives in the same order. -/
structure Grammar.Within (small large : Grammar) : Prop where
  start : small.start = large.start
  lookup : ∀ {head alternatives}, small.alternatives? head = some alternatives →
    large.alternatives? head = some alternatives
  dottedRules_le : small.dottedRules ≤ large.dottedRules

namespace Grammar

theorem Within.production {small large : Grammar} (hWithin : small.Within large)
    {name : List Char} {found : Production} (hFound : small.production name = .ok found) :
    large.production name = .ok found := by
  rw [Grammar.production.eq_def] at hFound ⊢
  split at hFound
  · next head =>
    cases hLookup : small.alternatives? head with
    | none => simp [hLookup] at hFound
    | some alternatives => simpa [hLookup, hWithin.lookup hLookup] using hFound
  · cases hFound

theorem foldr_length_le {some all : List Form} (hSome : some.Sublist all) :
    some.foldr (fun alternative count => alternative.length + 1 + count) 0 ≤
      all.foldr (fun alternative count => alternative.length + 1 + count) 0 := by
  induction hSome with
  | slnil => exact Nat.le_refl _
  | cons alternative _ ih => exact ih.trans (Nat.le_add_left _ _)
  | cons_cons alternative _ ih => exact Nat.add_le_add_left ih _

theorem without_within (g : Grammar) (dropped : List Char) : (g.without dropped).Within g := by
  refine ⟨rfl, alternatives?_of_without, foldr_length_le ?_⟩
  apply List.Sublist.flatMap
  exact List.filter_sublist.map _

end Grammar

namespace Parser

open Grammar

variable {parser other : Parser}

theorem columnBound_mono (hWithin : parser.grammar.Within other.grammar) (position : Nat) :
    columnBound parser.grammar position ≤ columnBound other.grammar position :=
  Nat.add_le_add_right (Nat.mul_le_mul_left _ hWithin.dottedRules_le) _

theorem sweepBound_mono (hWithin : parser.grammar.Within other.grammar) (position : Nat) :
    sweepBound parser.grammar position ≤ sweepBound other.grammar position := by
  have hColumn := columnBound_mono hWithin position
  have hSquare := Nat.mul_le_mul hColumn hColumn
  rw [sweepBound, sweepBound]
  omega

theorem derived_of_within {small large : Grammar} (hWithin : small.Within large) {chart : Chart}
    {position : Nat} {state : State} {states : List State}
    (hDerived : derived small chart position state = .ok states) :
    derived large chart position state = .ok states := by
  rw [derived] at hDerived ⊢
  split at hDerived
  · obtain ⟨production, hFound, hStates⟩ := bind_eq_ok_iff.mp hDerived
    rw [bind_of_eq_ok (hWithin.production hFound)]
    exact hStates
  · exact hDerived
  · exact hDerived

section Run

variable (hTrace : parser.trace = other.trace) (hWithin : parser.grammar.Within other.grammar)
include hTrace

theorem record_eq (event : Event) (log : Log) :
    parser.record event log = other.record event log := by
  rw [record, record, hTrace]

include hWithin

theorem examine_of_within {position id : Nat} {progress next : Progress} {changed : Bool}
    (hExamine : parser.examine position id progress = .ok (next, changed)) :
    other.examine position id progress = .ok (next, changed) := by
  obtain ⟨entry, hEntry, hExamine⟩ := bind_eq_ok_iff.mp hExamine
  obtain ⟨states, hStates, hExamine⟩ := bind_eq_ok_iff.mp hExamine
  rw [record_eq hTrace] at hExamine
  rw [examine, bind_of_eq_ok hEntry, bind_of_eq_ok (derived_of_within hWithin hStates)]
  exact hExamine

theorem sweep_of_within {position fuel bound index : Nat} (hFuel : fuel ≤ bound)
    {progress next : Progress} {changed : Bool}
    (hSweep : parser.sweep position fuel index progress = .ok (next, changed)) :
    other.sweep position bound index progress = .ok (next, changed) := by
  induction fuel generalizing bound index progress next changed with
  | zero => cases hSweep
  | succ fuel ih =>
      obtain ⟨bound, rfl⟩ := Nat.exists_eq_add_of_le' (Nat.one_le_of_lt hFuel)
      rw [sweep] at hSweep ⊢
      cases hId : (progress.chart.column position)[index]? with
      | none =>
          simp only [hId] at hSweep ⊢
          exact hSweep
      | some id =>
          simp only [hId] at hSweep ⊢
          obtain ⟨⟨middle, changedFirst⟩, hExamine, hSweep⟩ := bind_eq_ok_iff.mp hSweep
          obtain ⟨⟨last, changedLater⟩, hRest, hSweep⟩ := bind_eq_ok_iff.mp hSweep
          rw [bind_of_eq_ok (examine_of_within hTrace hWithin hExamine),
            bind_of_eq_ok (ih (Nat.le_of_succ_le_succ hFuel) hRest)]
          exact hSweep

theorem repeatSweeps_of_within {position sweeps bound : Nat} (hSweeps : sweeps ≤ bound)
    {progress next : Progress} (hRun : parser.repeatSweeps position sweeps progress = .ok next) :
    other.repeatSweeps position bound progress = .ok next := by
  induction sweeps generalizing bound progress with
  | zero => cases hRun
  | succ sweeps ih =>
      obtain ⟨bound, rfl⟩ := Nat.exists_eq_add_of_le' (Nat.one_le_of_lt hSweeps)
      rw [repeatSweeps] at hRun ⊢
      obtain ⟨⟨middle, changed⟩, hSweep, hRun⟩ := bind_eq_ok_iff.mp hRun
      have hFuel := Nat.add_le_add_right (columnBound_mono hWithin position) 1
      rw [bind_of_eq_ok (sweep_of_within hTrace hWithin hFuel hSweep)]
      cases changed with
      | true => exact ih (Nat.le_of_succ_le_succ hSweeps) hRun
      | false =>
          cases hRun
          rfl

theorem visit_of_within {position : Nat} {progress next : Progress}
    (hVisit : parser.visit progress position = .ok next) :
    other.visit progress position = .ok next := by
  obtain ⟨⟨chart, log⟩, hClose, hVisit⟩ := bind_eq_ok_iff.mp hVisit
  have hOther : other.close position progress = .ok ⟨chart, log⟩ :=
    repeatSweeps_of_within hTrace hWithin (sweepBound_mono hWithin position) hClose
  simp only [record_eq hTrace] at hVisit
  rw [visit, bind_of_eq_ok hOther]
  exact hVisit

theorem visited_of_within {word : List Char} {count : Nat} {next : Progress}
    (hVisited : parser.visited word count = .ok next) : other.visited word count = .ok next := by
  induction count generalizing next with
  | zero =>
      rw [visited, seeded, seed, ← hWithin.start]
      exact hVisited
  | succ count ih =>
      rw [visited_succ] at hVisited ⊢
      obtain ⟨middle, hPrior, hVisit⟩ := bind_eq_ok_iff.mp hVisited
      rw [bind_of_eq_ok (ih hPrior)]
      exact visit_of_within hTrace hWithin hVisit

end Run

/-- A chart that is built with the smaller grammar is also built with the larger one. -/
theorem makeChart_of_within {word : List Char} {next : Progress}
    (hChart : parser.makeChart word = .ok next) (other : Parser)
    (hTrace : parser.trace = other.trace) (hWithin : parser.grammar.Within other.grammar) :
    other.makeChart word = .ok next := by
  rw [makeChart_eq_visited] at hChart ⊢
  exact visited_of_within hTrace hWithin hChart

/-- Once the chart is built, the grammar plays no part anymore. -/
theorem parse_of_makeChart {word : List Char} {progress : Progress}
    (hFirst : parser.makeChart word = .ok progress) (hSecond : other.makeChart word = .ok progress)
    (hTrace : parser.trace = other.trace) (hLimit : parser.limit = other.limit) :
    parser.parse word = other.parse word := by
  rw [parse, parse, bind_of_eq_ok hFirst, bind_of_eq_ok hSecond]
  simp only [judge, hTrace, hLimit]

end Parser

/-- Productions that the start symbol does not reach play no part in parsing. Without them the
grammar is still valid, the start symbol reaches all that is left, and every word gets the same
chart, with the same identifiers, states and back-pointers in the same order, and the same verdict,
derivation and log. -/
theorem Grammar.reduced_parses_alike {g : Grammar} (hValid : g.validate = .ok ())
    {descendants : Digraph Letter → Letter → Except Error (List Letter)}
    (hFinds : Digraph.FindsDescendants descendants) :
    ∃ dropped, g.unreachable descendants = .ok dropped ∧
    (g.without dropped).validate = .ok () ∧ (g.without dropped).unreachable descendants = .ok [] ∧
    ∀ (word : List Char) (limit : Int), 0 ≤ limit → ∀ trace, ∃ outcome log chartLog found,
      (g.without dropped).parse word limit trace = .ok (outcome, log) ∧
      g.parse word limit trace = .ok (outcome, log) ∧
      Parser.makeChart ⟨g.without dropped, limit, trace⟩ word = .ok ⟨outcome.chart, chartLog⟩ ∧
      Parser.makeChart ⟨g, limit, trace⟩ word = .ok ⟨outcome.chart, chartLog⟩ ∧
      outcome.chart.findMatch = .ok found := by
  obtain ⟨dropped, hUnreachable, _, hDropped⟩ := unreachable_eq_ok hFinds g
  obtain ⟨names, hNames, _, hUnreached⟩ := unreachable_eq_ok hFinds (g.without dropped)
  obtain rfl := eq_nil_of_unreached_without hDropped hUnreached
  have hReduced := validate_without hDropped hValid
  refine ⟨dropped, hUnreachable, hReduced, hNames, ?_⟩
  intro word limit hLimit trace
  obtain ⟨outcome, log, hParse, ⟨chartLog, hChart⟩, hCharted, _⟩ :=
    @Parser.parse_eq_ok ⟨g.without dropped, limit, trace⟩ (valid_of_validate hReduced) word
  obtain ⟨found, hFind, _⟩ := hCharted.findMatch_eq_ok
  have hOther : Parser.makeChart ⟨g, limit, trace⟩ word = .ok ⟨outcome.chart, chartLog⟩ :=
    Parser.makeChart_of_within hChart ⟨g, limit, trace⟩ rfl (g.without_within dropped)
  have hSame := Parser.parse_of_makeChart hChart hOther rfl rfl
  refine ⟨outcome, log, chartLog, found, ?_, ?_, hChart, hOther, hFind⟩
  · rw [parse_eq hReduced hLimit]
    exact hParse
  · rw [parse_eq hValid hLimit, ← hSame]
    exact hParse

/-- The start symbol reaches `A`, but neither `B` nor `C`. -/
def Grammar.detached : Grammar :=
  ⟨some 'S', [
    ('S', [[.terminal (some 'a'), .nonterminal (some 'A')]]),
    ('B', [[.nonterminal (some 'C'), .nonterminal (some 'S')]]),
    ('A', [[.terminal (some 'b')], [.nonterminal (some 'S')]]),
    ('C', [[.terminal (some 'c')]])]⟩

theorem Grammar.reduced_parses_alike_detached :
    Grammar.detached.validate = .ok () ∧
      Digraph.FindsDescendants (@Digraph.descendants Letter _) ∧
      Grammar.detached.unreachable Digraph.descendants = .ok ['B', 'C'] ∧
      (Grammar.detached.without ['B', 'C']).validate = .ok () ∧ (0 : Int) ≤ 9 ∧
      ∃ outcome log,
        (Grammar.detached.without ['B', 'C']).parse ['a', 'a', 'b'] 9 true = .ok (outcome, log) ∧
        Grammar.detached.parse ['a', 'a', 'b'] 9 true = .ok (outcome, log) := by
  have hValid : Grammar.detached.validate = .ok () := rfl
  have hFinds : Digraph.FindsDescendants (@Digraph.descendants Letter _) :=
    Digraph.findsDescendants_descendants
  have hNames : Grammar.detached.unreachable Digraph.descendants = .ok ['B', 'C'] := by decide
  obtain ⟨dropped, hUnreachable, hReduced, _, hAlike⟩ := reduced_parses_alike hValid hFinds
  rw [hNames] at hUnreachable
  cases hUnreachable
  obtain ⟨outcome, log, _, _, hParse, hOther, _⟩ :=
    hAlike ['a', 'a', 'b'] 9 (by decide) true
  exact ⟨hValid, hFinds, hNames, hReduced, by decide, outcome, log, hParse, hOther⟩

end Earley
