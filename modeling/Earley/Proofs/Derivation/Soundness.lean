import Earley.Proofs.Parser.Outcome

/-! Every derivation that the parser gives is one of the grammar. The search may follow a
back-pointer into another parent of a state, but whatever it replays there is a rule too. -/
namespace Earley

/-- The step replaces the last occurrence of its left side in the form by one of its
alternatives. -/
structure Step.Applies (g : Grammar) (form : Form) (step : Step) : Prop where
  rule : ∃ head, step.lhs = .nonterminal (some head) ∧ g.Produces head step.alternative
  last : ∃ before after, form = before ++ step.lhs :: after ∧ step.lhs ∉ after ∧
    step.result = before ++ step.alternative ++ after

namespace Derivation

variable {g : Grammar} {chart : Chart}

/-- Rules of a chart, when they are replayed on a form of the grammar, are rules of the grammar:
the symbol above the start symbol occurs in no form that is met. -/
theorem Replays.applies (hValid : g.Valid) {form result : Form} {states : List State}
    {steps : List Step} (hReplays : Replays form states steps result)
    (hRules : ∀ state ∈ states, g.HasRule state.lhs state.alternative)
    (hForm : augmentedStart ∉ form) {index : Nat} {step : Step} {current : Form}
    (hStep : steps[index]? = some step)
    (hCurrent : (form :: steps.map Step.result)[index]? = some current) :
    step.Applies g current := by
  induction hReplays generalizing index with
  | nil => cases hStep
  | @cons form next _ state _ _ _ hReplace _ ih =>
      have hRule := hRules state (List.mem_cons_self ..)
      obtain ⟨before, after, rfl, hLast, rfl⟩ := Form.exists_of_replaceLast?_eq_some hReplace
      simp only [List.mem_append, List.mem_cons, not_or] at hForm
      obtain ⟨hBefore, hLhs, hAfter⟩ := hForm
      cases index with
      | zero =>
          cases hStep
          cases hCurrent
          exact ⟨hRule.produces (Ne.symm hLhs), before, after, rfl, hLast, rfl⟩
      | succ index =>
          apply ih (fun other hOther => hRules other (List.mem_cons_of_mem _ hOther)) _ hStep
          · exact hCurrent
          · simp only [List.mem_append, not_or]
            exact ⟨⟨hBefore, hRule.augmentedStart_notMem hValid⟩, hAfter⟩

theorem exists_state?_of_mapM {path : List Nat} {states : List State}
    (hPath : path.mapM chart.state = .ok states) {state : State} (hState : state ∈ states) :
    ∃ id, chart.state? id = some state := by
  induction path generalizing states with
  | nil =>
      cases hPath
      cases hState
  | cons id path ih =>
      rw [List.mapM_cons, bind_eq_ok_iff] at hPath
      obtain ⟨first, hFirst, hPath⟩ := hPath
      obtain ⟨rest, hRest, hStates⟩ := bind_eq_ok_iff.mp hPath
      cases hStates
      rcases List.mem_cons.mp hState with rfl | hState
      · exact ⟨id, Chart.state_eq_ok_iff.mp hFirst⟩
      · exact ih hRest hState

end Derivation

theorem Parser.validate_of_ofGrammar {g : Grammar} {limit : Int} {trace : Bool} {parser : Parser}
    (hParser : Parser.ofGrammar g limit trace = .ok parser) :
    g.validate = .ok () ∧ parser = ⟨g, limit, trace⟩ := by
  obtain ⟨_, hValid, hParser⟩ := bind_eq_ok_iff.mp hParser
  split at hParser
  · cases hParser
  · cases hParser
    exact ⟨hValid, rfl⟩

section Parse

variable {g : Grammar} {word : List Char} {limit : Int} {trace : Bool} {outcome : Outcome}
  {log : Log} {derivation : Derivation}

/-- What the parser reads off a path is a replay of rules of the grammar from the start symbol to
the word. -/
theorem Grammar.exists_replays_of_parse (hParse : g.parse word limit trace = .ok (outcome, log))
    (hVerdict : outcome.verdict = .matched (some derivation)) :
    g.Valid ∧ derivation.start = .nonterminal g.start ∧ ∃ states,
      Derivation.Replays [.nonterminal g.start] states derivation.steps (Form.ofWord word) ∧
      ∀ state ∈ states, g.HasRule state.lhs state.alternative := by
  obtain ⟨parser, hParser, hParse⟩ := bind_eq_ok_iff.mp hParse
  obtain ⟨hValidate, rfl⟩ := Parser.validate_of_ofGrammar hParser
  have hValid := valid_of_validate hValidate
  obtain ⟨found, foundLog, hFound, _, hCharted, hJudged⟩ :=
    @Parser.parse_eq_ok ⟨g, limit, trace⟩ hValid word
  obtain ⟨rfl, rfl⟩ := Prod.mk.inj (Except.ok.inj (hParse.symm.trans hFound))
  obtain ⟨path, hRead⟩ : ∃ path, Derivation.ofPath outcome.chart path = .ok derivation := by
    rw [hVerdict] at hJudged
    rcases hJudged with ⟨_, hNone⟩ | ⟨id, _, hJudged⟩
    · cases hNone
    · cases hJudged with
      | derived _ hRead => exact ⟨_, hRead⟩
  obtain ⟨_, seed, rest, hStates, hSeed, hComplete, hStart, hReplays⟩ :=
    Derivation.ofPath_eq_ok_iff.mp hRead
  have hRules {state : State} (hState : state ∈ seed :: rest) :
      g.HasRule state.lhs state.alternative := by
    rw [← hSeed] at hState
    obtain ⟨id, hId⟩ := Derivation.exists_state?_of_mapM hStates (List.mem_of_mem_filter hState)
    exact hCharted.sound.hasRule hId
  have hSymbol : derivation.start = .nonterminal g.start := by
    have hRule := hRules (List.mem_cons_self ..)
    rw [of_decide_eq_true (Bool.and_eq_true_iff.mp hComplete).1, hStart] at hRule
    exact (List.cons.inj hRule.eq_of_augmentedStart).1
  rw [hSymbol, hCharted.word] at hReplays
  exact ⟨hValid, hSymbol, rest, hReplays,
    fun state hState => hRules (List.mem_cons_of_mem _ hState)⟩

theorem Grammar.exists_parse_of_derivation?
    (hFound : ((g.parse word limit trace).toOption.bind fun result =>
      result.1.verdict.derivation?) = some derivation) :
    ∃ outcome log, g.parse word limit trace = .ok (outcome, log) ∧
      outcome.verdict = .matched (some derivation) := by
  cases hParse : g.parse word limit trace with
  | error error =>
      rw [hParse] at hFound
      cases hFound
  | ok result =>
      rw [hParse] at hFound
      exact ⟨result.1, result.2, rfl, Verdict.derivation?_eq_some_iff.mp hFound⟩

end Parse

/-- A derivation that the parser gives starts from the start symbol, applies a rule of the grammar
in each step to the last occurrence of its left side, and ends in the word. -/
theorem Grammar.parse_derivation_sound {g : Grammar} {word : List Char} {limit : Int}
    {trace : Bool} {outcome : Outcome} {log : Log} {derivation : Derivation}
    (hParse : g.parse word limit trace = .ok (outcome, log))
    (hVerdict : outcome.verdict = .matched (some derivation)) :
    derivation.start = .nonterminal g.start ∧
      derivation.sententialForms.head? = some [.nonterminal g.start] ∧
      (∀ (index : Nat) (step : Step) (form : Form), derivation.steps[index]? = some step →
        derivation.sententialForms[index]? = some form → step.Applies g form) ∧
      derivation.sententialForms.getLast? = some (Form.ofWord word) := by
  obtain ⟨hValid, hStart, states, hReplays, hRules⟩ := exists_replays_of_parse hParse hVerdict
  rw [Derivation.sententialForms, hStart]
  refine ⟨rfl, rfl, ?_, hReplays.getLast?⟩
  intro index step form hStep hForm
  exact hReplays.applies hValid hRules (HasRule.start.augmentedStart_notMem hValid) hStep hForm

theorem Grammar.parse_derivation_doubling :
    ∃ outcome log derivation, doubling.parse ['a', 'a'] 100 false = .ok (outcome, log) ∧
      outcome.verdict = .matched (some derivation) ∧
      derivation.start = .nonterminal (some 'S') ∧
      derivation.sententialForms.getLast? = some (Form.ofWord ['a', 'a']) := by
  have hFound : ((doubling.parse ['a', 'a'] 100 false).toOption.bind fun result =>
      result.1.verdict.derivation?).isSome = true := by decide +kernel
  obtain ⟨derivation, hFound⟩ := Option.isSome_iff_exists.mp hFound
  obtain ⟨outcome, log, hParse, hVerdict⟩ := exists_parse_of_derivation? hFound
  obtain ⟨hStart, _, _, hLast⟩ := parse_derivation_sound hParse hVerdict
  exact ⟨outcome, log, derivation, hParse, hVerdict, hStart, hLast⟩

end Earley
