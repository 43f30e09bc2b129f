import Earley.Grammar
import Mathlib.Logic.Relation

/-! Derivability of forms. The step relation replaces one nonterminal by one of its alternatives;
its closure is cut into independent parts by a relation that follows the symbols of a form. -/
namespace Earley

/-- A marked element of a list that is put together from two lists lies in one of them. -/
theorem exists_of_append_eq_append_cons {α : Type} {first second front back : List α} {mark : α}
    (hSame : first ++ second = front ++ mark :: back) :
    (∃ middle, front = first ++ middle ∧ second = middle ++ mark :: back) ∨
      ∃ middle, first = front ++ mark :: middle ∧ back = middle ++ second := by
  rcases List.append_eq_append_iff.mp hSame with hSecond | ⟨middle, hFirst, hBack⟩
  · exact Or.inl hSecond
  · cases middle with
    | nil => exact Or.inl ⟨[], by simp [hFirst], by simpa using hBack.symm⟩
    | cons head middle =>
        obtain ⟨rfl, hRest⟩ := List.cons_eq_cons.mp hBack
        exact Or.inr ⟨middle, hFirst, hRest⟩

namespace Grammar

variable {g : Grammar}

/-- The form is one of the alternatives of the production of `head`. Of several entries under one
name only the first counts, as it does for the parser. -/
def Produces (g : Grammar) (head : Char) (alternative : Form) : Prop :=
  ∃ alternatives, g.alternatives? head = some alternatives ∧ alternative ∈ alternatives

/-- One rewriting step, at any occurrence of the nonterminal. -/
inductive Rewrites (g : Grammar) : Form → Form → Prop where
  | rule {head : Char} {alternative : Form} (before after : Form)
      (hRule : g.Produces head alternative) :
      Rewrites g (before ++ .nonterminal (some head) :: after) (before ++ alternative ++ after)

/-- Finitely many rewriting steps, possibly none. -/
def Derives (g : Grammar) : Form → Form → Prop := Relation.ReflTransGen g.Rewrites

theorem Derives.refl (form : Form) : g.Derives form form := Relation.ReflTransGen.refl

theorem Derives.trans {first second third : Form} (hFirst : g.Derives first second)
    (hSecond : g.Derives second third) : g.Derives first third :=
  Relation.ReflTransGen.trans hFirst hSecond

theorem Produces.derives {head : Char} {alternative : Form} (hRule : g.Produces head alternative) :
    g.Derives [.nonterminal (some head)] alternative := by
  have hStep := Rewrites.rule [] [] hRule
  rw [List.nil_append, List.nil_append, List.append_nil] at hStep
  exact Relation.ReflTransGen.single hStep

/-- A derivation may take place between fixed symbols. -/
theorem Derives.within {form result : Form} (hForm : g.Derives form result)
    (before after : Form) : g.Derives (before ++ form ++ after) (before ++ result ++ after) := by
  induction hForm with
  | refl => exact Derives.refl _
  | tail _ hLast ih =>
      apply Relation.ReflTransGen.tail ih
      cases hLast with
      | rule left right hRule =>
          simpa [List.append_assoc] using Rewrites.rule (before ++ left) (right ++ after) hRule

theorem Derives.append {first second firstResult secondResult : Form}
    (hFirst : g.Derives first firstResult) (hSecond : g.Derives second secondResult) :
    g.Derives (first ++ second) (firstResult ++ secondResult) := by
  have hLeft := hFirst.within [] second
  have hRight := hSecond.within firstResult []
  simp only [List.nil_append, List.append_nil] at hLeft hRight
  exact hLeft.trans hRight

/-- Derivability symbol by symbol. Each symbol is either kept, or it is a nonterminal and an
alternative of it is expanded in its place. The parts of a form do not interact, so that a
derivation is an independent expansion of each of its symbols. -/
inductive Expands (g : Grammar) : Form → Form → Prop where
  | nil : Expands g [] []
  | keep {rest result : Form} (symbol : Symbol) (hRest : Expands g rest result) :
      Expands g (symbol :: rest) (symbol :: result)
  | rule {head : Char} {alternative rest first second : Form}
      (hRule : g.Produces head alternative) (hFirst : Expands g alternative first)
      (hRest : Expands g rest second) :
      Expands g (.nonterminal (some head) :: rest) (first ++ second)

theorem Expands.refl (form : Form) : g.Expands form form := by
  induction form with
  | nil => exact Expands.nil
  | cons symbol rest ih => exact Expands.keep symbol ih

theorem Expands.append {first second firstResult secondResult : Form}
    (hFirst : g.Expands first firstResult) (hSecond : g.Expands second secondResult) :
    g.Expands (first ++ second) (firstResult ++ secondResult) := by
  induction hFirst with
  | nil => exact hSecond
  | keep symbol _ ih => exact Expands.keep symbol ih
  | rule hRule hAlternative _ _ ih =>
      rw [List.append_assoc]
      exact Expands.rule hRule hAlternative ih

/-- What two parts of a form become can be told apart in the result. -/
theorem Expands.exists_of_append {first second result : Form}
    (hForm : g.Expands (first ++ second) result) :
    ∃ firstResult secondResult, result = firstResult ++ secondResult ∧
      g.Expands first firstResult ∧ g.Expands second secondResult := by
  induction first generalizing result with
  | nil => exact ⟨[], result, rfl, Expands.nil, hForm⟩
  | cons symbol rest ih =>
      cases hForm with
      | keep _ hRest =>
          obtain ⟨left, right, rfl, hLeft, hRight⟩ := ih hRest
          exact ⟨symbol :: left, right, rfl, Expands.keep symbol hLeft, hRight⟩
      | @rule _ _ _ expanded _ hRule hExpanded hRest =>
          obtain ⟨left, right, rfl, hLeft, hRight⟩ := ih hRest
          refine ⟨expanded ++ left, right, ?_, Expands.rule hRule hExpanded hLeft, hRight⟩
          rw [List.append_assoc]

/-- A rewriting step in front of an expansion can be absorbed. -/
theorem Rewrites.expands {form next result : Form} (hStep : g.Rewrites form next)
    (hNext : g.Expands next result) : g.Expands form result := by
  cases hStep with
  | rule before after hRule =>
      rw [List.append_assoc] at hNext
      obtain ⟨left, rest, rfl, hBefore, hRest⟩ := hNext.exists_of_append
      obtain ⟨middle, right, rfl, hAlternative, hAfter⟩ := hRest.exists_of_append
      exact hBefore.append (Expands.rule hRule hAlternative hAfter)

theorem Derives.expands {form result : Form} (hForm : g.Derives form result) :
    g.Expands form result := by
  induction hForm using Relation.ReflTransGen.head_induction_on with
  | refl => exact Expands.refl _
  | head hStep _ ih => exact hStep.expands ih

theorem Expands.derives {form result : Form} (hForm : g.Expands form result) :
    g.Derives form result := by
  induction hForm with
  | nil => exact Derives.refl _
  | keep symbol _ ih => exact (Derives.refl [symbol]).append ih
  | rule hRule _ _ ihFirst ihRest => exact (hRule.derives.trans ihFirst).append ihRest

theorem Derives.eq_nil {result : Form} (hForm : g.Derives [] result) : result = [] := by
  cases hForm.expands with
  | nil => rfl

end Grammar

end Earley
