import Earley.Proofs.Derivation.Soundness
import Earley.Proofs.Grammar.Rightmost

/-! The order in which a derivation rewrites nonterminals. A step of the parser replaces the last
occurrence of its own left side, but another nonterminal may still follow it: the search may walk
through another parent of a state and complete a symbol there too early. The rules are those of a
right-most derivation nevertheless, and where all nonterminals of a form are the same, so is their
order. -/
namespace Earley

/-- The rule that a step applies. -/
def Step.rule (step : Step) : Symbol × Form := (step.lhs, step.alternative)

/-- The step replaces the last nonterminal of the form. -/
def Step.Rightmost (form : Form) (step : Step) : Prop :=
  ∃ before after : Form, form = before ++ step.lhs :: after ∧ after.AllTerminal ∧
    step.result = before ++ step.alternative ++ after

/-- All nonterminals of the form are occurrences of the same one. -/
def Form.Uniform (form : Form) : Prop :=
  ∀ first ∈ form.nonterminals, ∀ second ∈ form.nonterminals, first = second

theorem Form.mem_nonterminals_iff {form : Form} {symbol : Symbol} :
    symbol ∈ form.nonterminals ↔ symbol ∈ form ∧ symbol.isTerminal = false := by
  simp [nonterminals]

theorem Step.Rightmost.getLast?_nonterminals {form : Form} {step : Step}
    (hStep : step.Rightmost form) (hLhs : step.lhs.isTerminal = false) :
    form.nonterminals.getLast? = some step.lhs := by
  obtain ⟨before, after, rfl, hAfter, _⟩ := hStep
  have hNone : after.nonterminals = [] := by
    apply List.eq_nil_iff_forall_not_mem.mpr
    intro symbol hSymbol
    obtain ⟨hMem, hNonterminal⟩ := Form.mem_nonterminals_iff.mp hSymbol
    rw [hAfter symbol hMem] at hNonterminal
    cases hNonterminal
  have hSplit : Form.nonterminals (before ++ step.lhs :: after) =
      Form.nonterminals before ++ step.lhs :: Form.nonterminals after := by
    simp [Form.nonterminals, hLhs]
  rw [hSplit, hNone, List.getLast?_concat]

namespace Derivation

variable {g : Grammar} {chart : Chart} {word : List Char} {form result : Form} {steps : List Step}

/-- Each step applies a rule of the grammar to the last occurrence of its left side. -/
inductive Follows (g : Grammar) : Form → List Step → Form → Prop where
  | nil (form : Form) : Follows g form [] form
  | cons {head : Char} {alternative result : Form} {steps : List Step} (before after : Form)
      (hRule : g.Produces head alternative) (hLast : .nonterminal (some head) ∉ after)
      (hRest : Follows g (before ++ alternative ++ after) steps result) :
      Follows g (before ++ .nonterminal (some head) :: after)
        (⟨.nonterminal (some head), alternative, before ++ alternative ++ after⟩ :: steps) result

theorem Replays.follows (hValid : g.Valid) {states : List State}
    (hReplays : Replays form states steps result)
    (hRules : ∀ state ∈ states, g.HasRule state.lhs state.alternative)
    (hForm : augmentedStart ∉ form) : Follows g form steps result := by
  induction hReplays with
  | nil form => exact Follows.nil form
  | @cons _ _ _ state _ _ _ hReplace _ ih =>
      have hRule := hRules state List.mem_cons_self
      obtain ⟨before, after, rfl, hLast, rfl⟩ := Form.exists_of_replaceLast?_eq_some hReplace
      simp only [List.mem_append, List.mem_cons, not_or] at hForm ih
      obtain ⟨hBefore, hLhs, hAfter⟩ := hForm
      obtain ⟨head, hHead, hProduces⟩ := hRule.produces (Ne.symm hLhs)
      rw [hHead] at hLast ⊢
      apply Follows.cons before after hProduces hLast
      exact ih (fun other hOther => hRules other (List.mem_cons_of_mem _ hOther))
        ⟨⟨hBefore, hRule.augmentedStart_notMem hValid⟩, hAfter⟩

theorem Follows.derives (hFollows : Follows g form steps result) : g.Derives form result := by
  induction hFollows with
  | nil form => exact Grammar.Derives.refl form
  | cons before after hRule _ _ ih =>
      exact Relation.ReflTransGen.head (Grammar.Rewrites.rule before after hRule) ih

/-- The rules of the steps can be put into the order of a right-most derivation. -/
theorem Follows.exists_rightmost (hFollows : Follows g form steps result)
    (hResult : result.AllTerminal) :
    ∃ rules, rules.Perm (steps.map Step.rule) ∧ g.Rightmost form rules result := by
  induction hFollows with
  | nil form => exact ⟨[], List.Perm.nil, Grammar.Rightmost.refl form⟩
  | cons before after hRule _ _ ih =>
      obtain ⟨rules, hPerm, hRightmost⟩ := ih hResult
      obtain ⟨reordered, hReordered, hFirst⟩ := hRightmost.exists_of_step hRule hResult
      exact ⟨reordered, hReordered.trans (hPerm.cons _), hFirst⟩

/-- If all forms between the start and the result are uniform, no other nonterminal can follow the
last occurrence of the left side. -/
theorem Follows.rightmost {start : Form}
    (hUniform : ∀ form, g.Derives start form → g.Derives form result → form.Uniform)
    (hStart : g.Derives start form) (hFollows : Follows g form steps result) {index : Nat}
    {step : Step} {current : Form} (hStep : steps[index]? = some step)
    (hCurrent : (form :: steps.map Step.result)[index]? = some current) :
    step.Rightmost current := by
  induction hFollows generalizing index with
  | nil => cases hStep
  | @cons head alternative result steps before after hRule hLast hRest ih =>
      have hFirst := Grammar.Rewrites.rule before after hRule
      cases index with
      | zero =>
          cases hStep
          cases hCurrent
          refine ⟨before, after, rfl, ?_, rfl⟩
          intro symbol hSymbol
          by_contra hNonterminal
          have hAlike := hUniform _ hStart (Relation.ReflTransGen.head hFirst hRest.derives)
          obtain rfl : symbol = .nonterminal (some head) := by
            apply hAlike
            · exact Form.mem_nonterminals_iff.mpr ⟨by simp [hSymbol], by simpa using hNonterminal⟩
            · exact Form.mem_nonterminals_iff.mpr ⟨by simp, rfl⟩
          exact hLast hSymbol
      | succ index => exact ih hUniform (Relation.ReflTransGen.tail hStart hFirst) hStep hCurrent

end Derivation

open Earley.Derivation

variable {g : Grammar} {word : List Char} {limit : Int} {trace : Bool} {derivation : Derivation}

theorem Grammar.follows_of_parse {outcome : Outcome} {log : Log}
    (hParse : g.parse word limit trace = .ok (outcome, log))
    (hVerdict : outcome.verdict = .matched (some derivation)) :
    derivation.start = .nonterminal g.start ∧
      Follows g [.nonterminal g.start] derivation.steps (Form.ofWord word) := by
  obtain ⟨hValid, hStart, states, hReplays, hRules⟩ := exists_replays_of_parse hParse hVerdict
  exact ⟨hStart, hReplays.follows hValid hRules (HasRule.start.augmentedStart_notMem hValid)⟩

/-- The rules of a derivation that the parser gives are those of a right-most derivation of the
word, in some order. The derivation is right-most itself if every form on the way from the start
symbol to the word has occurrences of one nonterminal only. -/
theorem Grammar.parse_derivation_order {outcome : Outcome} {log : Log}
    (hParse : g.parse word limit trace = .ok (outcome, log))
    (hVerdict : outcome.verdict = .matched (some derivation)) :
    (∃ rules, rules.Perm (derivation.steps.map Step.rule) ∧
      g.Rightmost [.nonterminal g.start] rules (Form.ofWord word)) ∧
    ((∀ form, g.Derives [.nonterminal g.start] form → g.Derives form (Form.ofWord word) →
        form.Uniform) →
      ∀ (index : Nat) (step : Step) (form : Form), derivation.steps[index]? = some step →
        derivation.sententialForms[index]? = some form → step.Rightmost form) := by
  obtain ⟨hStart, hFollows⟩ := follows_of_parse hParse hVerdict
  refine ⟨hFollows.exists_rightmost (Form.allTerminal_ofWord word), ?_⟩
  intro hUniform index step form hStep hForm
  rw [sententialForms, hStart] at hForm
  exact hFollows.rightmost hUniform (Derives.refl _) hStep hForm

/-- No alternative has more than one nonterminal. -/
def Grammar.Linear (g : Grammar) : Prop :=
  ∀ {head alternative}, g.Produces head alternative → (Form.nonterminals alternative).length ≤ 1

theorem Grammar.Linear.length_nonterminals_le (hLinear : g.Linear) {form result : Form}
    (hForm : g.Derives form result) :
    (Form.nonterminals result).length ≤ (Form.nonterminals form).length := by
  induction hForm with
  | refl => exact Nat.le_refl _
  | tail _ hLast ih =>
      cases hLast with
      | rule before after hRule =>
          have hAlternative := hLinear hRule
          simp only [Form.nonterminals, List.filter_append, List.filter_cons, List.length_append,
            Symbol.isTerminal, Bool.not_false, if_true, List.length_cons] at hAlternative ih ⊢
          omega

/-- The forms of a linear grammar have no two nonterminals that could differ. -/
theorem Grammar.Linear.uniform (hLinear : g.Linear) {form : Form}
    (hForm : g.Derives [.nonterminal g.start] form) : form.Uniform := by
  have hLength : (Form.nonterminals form).length ≤ 1 := hLinear.length_nonterminals_le hForm
  intro first hFirst second hSecond
  cases hNonterminals : Form.nonterminals form with
  | nil =>
      rw [hNonterminals] at hFirst
      cases hFirst
  | cons only rest =>
      rw [hNonterminals] at hLength hFirst hSecond
      obtain rfl : rest = [] := by
        apply List.eq_nil_of_length_eq_zero
        simpa using hLength
      exact (List.mem_singleton.mp hFirst).trans (List.mem_singleton.mp hSecond).symm

/-- As many `a` as `b`, all `a` in front. -/
def Grammar.nested : Grammar :=
  ⟨some 'S', [('S', [[.terminal (some 'a'), .nonterminal (some 'S'), .terminal (some 'b')], []])]⟩

theorem Grammar.linear_nested : Grammar.nested.Linear := by
  intro head alternative hRule
  obtain ⟨alternatives, hEntry, hMem⟩ := hRule.mem_entries
  obtain ⟨rfl, rfl⟩ := Prod.mk.inj (List.mem_singleton.mp hEntry)
  rcases List.mem_pair.mp hMem with rfl | rfl <;> decide

theorem Grammar.parse_derivation_nested :
    ∃ outcome log derivation, nested.parse ['a', 'b'] 100 false = .ok (outcome, log) ∧
      outcome.verdict = .matched (some derivation) ∧ derivation.steps.length = 2 ∧
      ∀ (index : Nat) (step : Step) (form : Form), derivation.steps[index]? = some step →
        derivation.sententialForms[index]? = some form → step.Rightmost form := by
  have hFound : ((nested.parse ['a', 'b'] 100 false).toOption.bind fun result =>
      result.1.verdict.derivation?).map (fun derivation => derivation.steps.length) = some 2 := by
    decide +kernel
  obtain ⟨derivation, hDerivation, hLength⟩ := Option.map_eq_some_iff.mp hFound
  obtain ⟨outcome, log, hParse, hVerdict⟩ := exists_parse_of_derivation? hDerivation
  obtain ⟨_, hOrder⟩ := parse_derivation_order hParse hVerdict
  exact ⟨outcome, log, derivation, hParse, hVerdict, hLength,
    hOrder fun form hForm _ => linear_nested.uniform hForm⟩

/-- Of the two nonterminals after `A` either one alone would do for `A` too. -/
def Grammar.trailing : Grammar :=
  ⟨some 'S', [('S', [[.nonterminal (some 'A'), .nonterminal (some 'B'), .nonterminal (some 'B')]]),
    ('A', [[.nonterminal (some 'B')]]), ('B', [[]])]⟩

/-- A derivation of the empty word that rewrites `A` in `AB`. -/
theorem Grammar.parse_derivation_trailing :
    ∃ outcome log derivation step form, trailing.parse [] 50000 false = .ok (outcome, log) ∧
      outcome.verdict = .matched (some derivation) ∧ derivation.steps[2]? = some step ∧
      derivation.sententialForms[2]? = some form ∧ ¬ step.Rightmost form := by
  have hFound : ((trailing.parse [] 50000 false).toOption.bind fun result =>
      result.1.verdict.derivation?).map (fun derivation =>
        (derivation.sententialForms[2]?, derivation.steps[2]?)) =
      some (some [.nonterminal (some 'A'), .nonterminal (some 'B')],
        some ⟨.nonterminal (some 'A'), [.nonterminal (some 'B')],
          [.nonterminal (some 'B'), .nonterminal (some 'B')]⟩) := by
    decide +kernel
  obtain ⟨derivation, hDerivation, hSecond⟩ := Option.map_eq_some_iff.mp hFound
  obtain ⟨hForm, hStep⟩ := Prod.mk.inj hSecond
  obtain ⟨outcome, log, hParse, hVerdict⟩ := exists_parse_of_derivation? hDerivation
  refine ⟨outcome, log, derivation, _, _, hParse, hVerdict, hStep, hForm, ?_⟩
  intro hRightmost
  have hLast := hRightmost.getLast?_nonterminals rfl
  revert hLast
  decide

end Earley
