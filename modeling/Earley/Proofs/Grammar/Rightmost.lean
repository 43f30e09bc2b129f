import Earley.Proofs.Grammar.Derivability

/-! Right-most derivations. Whatever the order in which rules derive a word, the same rules can be
put into an order in which each of them is applied to the last nonterminal. -/
namespace Earley

/-- No symbol of the form is a nonterminal. -/
def Form.AllTerminal (form : Form) : Prop := ∀ symbol ∈ form, symbol.isTerminal = true

theorem Form.allTerminal_append_iff {first second : Form} :
    Form.AllTerminal (first ++ second) ↔ first.AllTerminal ∧ second.AllTerminal :=
  List.forall_mem_append

theorem Form.allTerminal_ofWord (word : List Char) : (Form.ofWord word).AllTerminal := by
  intro symbol hSymbol
  obtain ⟨c, _, rfl⟩ := List.mem_map.mp hSymbol
  rfl

namespace Grammar

variable {g : Grammar}

/-- The rules, applied in their order, lead from one form to the other, and each of them replaces
the last nonterminal of the form that it is applied to. -/
inductive Rightmost (g : Grammar) : Form → List (Symbol × Form) → Form → Prop where
  | refl (form : Form) : Rightmost g form [] form
  | step {head : Char} {alternative after result : Form} {rules : List (Symbol × Form)}
      (before : Form) (hRule : g.Produces head alternative) (hAfter : after.AllTerminal)
      (hRest : Rightmost g (before ++ alternative ++ after) rules result) :
      Rightmost g (before ++ .nonterminal (some head) :: after)
        ((.nonterminal (some head), alternative) :: rules) result

theorem Rightmost.trans {first second third : Form} {rules more : List (Symbol × Form)}
    (hFirst : g.Rightmost first rules second) (hSecond : g.Rightmost second more third) :
    g.Rightmost first (rules ++ more) third := by
  induction hFirst with
  | refl => exact hSecond
  | step before hRule hAfter _ ih => exact Rightmost.step before hRule hAfter (ih hSecond)

theorem Rightmost.append_left {form result : Form} {rules : List (Symbol × Form)}
    (hForm : g.Rightmost form rules result) (front : Form) :
    g.Rightmost (front ++ form) rules (front ++ result) := by
  induction hForm with
  | refl form => exact Rightmost.refl _
  | step before hRule hAfter _ ih =>
      rw [← List.append_assoc]
      apply Rightmost.step (front ++ before) hRule hAfter
      simpa only [List.append_assoc] using ih

/-- Behind the form there may be terminals, but no nonterminals. -/
theorem Rightmost.append_right {form result back : Form} {rules : List (Symbol × Form)}
    (hForm : g.Rightmost form rules result) (hBack : back.AllTerminal) :
    g.Rightmost (form ++ back) rules (result ++ back) := by
  induction hForm with
  | refl form => exact Rightmost.refl _
  | step before hRule hAfter _ ih =>
      rw [List.append_assoc, List.cons_append]
      apply Rightmost.step before hRule (Form.allTerminal_append_iff.mpr ⟨hAfter, hBack⟩)
      simpa only [List.append_assoc] using ih

theorem Rightmost.eq_of_allTerminal {form result : Form} {rules : List (Symbol × Form)}
    (hForm : g.Rightmost form rules result) (hTerminal : form.AllTerminal) :
    rules = [] ∧ result = form := by
  cases hForm with
  | refl => exact ⟨rfl, rfl⟩
  | step before _ _ _ =>
      have hHead := hTerminal _ (List.mem_append_right before List.mem_cons_self)
      cases hHead

/-- A right-most derivation is finished with the second part of a form before it begins with the
first one. -/
theorem Rightmost.exists_of_append {first second result : Form} {rules : List (Symbol × Form)}
    (hForm : g.Rightmost (first ++ second) rules result) :
    ∃ firstRules secondRules firstResult secondResult, rules = secondRules ++ firstRules ∧
      result = firstResult ++ secondResult ∧ g.Rightmost first firstRules firstResult ∧
      g.Rightmost second secondRules secondResult := by
  generalize hSame : first ++ second = form at hForm
  induction hForm generalizing first second with
  | refl => exact ⟨[], [], first, second, rfl, hSame.symm, Rightmost.refl _, Rightmost.refl _⟩
  | @step head alternative after _ _ before hRule hAfter _ ih =>
      rcases exists_of_append_eq_append_cons hSame with
        ⟨middle, rfl, rfl⟩ | ⟨middle, rfl, rfl⟩
      · obtain ⟨firstRules, secondRules, firstResult, secondResult, rfl, hResult, hFirst, hSecond⟩ :=
          @ih first (middle ++ alternative ++ after) (by simp only [List.append_assoc])
        exact ⟨firstRules, _ :: secondRules, firstResult, secondResult, rfl, hResult, hFirst,
          Rightmost.step middle hRule hAfter hSecond⟩
      · obtain ⟨hMiddle, hTerminal⟩ := Form.allTerminal_append_iff.mp hAfter
        obtain ⟨firstRules, secondRules, firstResult, secondResult, rfl, hResult, hFirst, hSecond⟩ :=
          @ih (before ++ alternative ++ middle) second (by simp only [List.append_assoc])
        obtain ⟨rfl, _⟩ := hSecond.eq_of_allTerminal hTerminal
        exact ⟨_ :: firstRules, [], firstResult, secondResult, rfl, hResult,
          Rightmost.step before hRule hMiddle hFirst, hSecond⟩

/-- A step at any nonterminal, in front of a right-most derivation of terminals, finds its place
among the rules: after those for what follows it, and before those of its own alternative. -/
theorem Rightmost.exists_of_step {head : Char} {alternative before after result : Form}
    {rules : List (Symbol × Form)} (hRule : g.Produces head alternative)
    (hRest : g.Rightmost (before ++ alternative ++ after) rules result)
    (hResult : result.AllTerminal) :
    ∃ reordered, reordered.Perm ((.nonterminal (some head), alternative) :: rules) ∧
      g.Rightmost (before ++ .nonterminal (some head) :: after) reordered result := by
  obtain ⟨frontRules, afterRules, front, back, rfl, rfl, hFront, hAfter⟩ := hRest.exists_of_append
  obtain ⟨beforeRules, innerRules, left, inner, rfl, rfl, hBefore, hInner⟩ :=
    hFront.exists_of_append
  obtain ⟨hFrontTerminal, hBack⟩ := Form.allTerminal_append_iff.mp hResult
  obtain ⟨_, hInnerTerminal⟩ := Form.allTerminal_append_iff.mp hFrontTerminal
  refine ⟨afterRules ++ (.nonterminal (some head), alternative) :: (innerRules ++ beforeRules),
    List.perm_middle, ?_⟩
  have hLast := hAfter.append_left (before ++ [.nonterminal (some head)])
  simp only [List.append_assoc, List.singleton_append] at hLast
  apply hLast.trans
  apply Rightmost.step before hRule hBack
  exact ((hInner.append_left before).trans (hBefore.append_right hInnerTerminal)).append_right hBack

end Grammar

end Earley
