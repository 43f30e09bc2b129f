import Earley.Proofs.Chart.Contents
import Earley.Proofs.Grammar.Derivability
import Mathlib.Data.Char
import Mathlib.Data.List.Lex

/-! What validation reports, and what it promises to the parser. Only the entries that a lookup
finds matter to the parser, so the promises are stated about rules, and not about the list of
entries. -/
namespace Earley

section Names

variable {name other : List Char} {names : List (List Char)}

theorem mem_insertAscending_iff :
    name ∈ Error.insertAscending other names ↔ name = other ∨ name ∈ names := by
  induction names with
  | nil => simp [Error.insertAscending]
  | cons head rest ih =>
      rw [Error.insertAscending]
      split
      · simp
      · split
        · next hSame => simp [hSame]
        · simp only [List.mem_cons, ih]
          exact or_left_comm

theorem pairwise_insertAscending (hNames : names.Pairwise (· < ·)) :
    (Error.insertAscending other names).Pairwise (· < ·) := by
  induction names with
  | nil => simp [Error.insertAscending]
  | cons head rest ih =>
      obtain ⟨hHead, hRest⟩ := List.pairwise_cons.mp hNames
      rw [Error.insertAscending]
      split
      · next hLess =>
        refine List.pairwise_cons.mpr ⟨fun name hMem => ?_, hNames⟩
        rcases List.mem_cons.mp hMem with rfl | hLater
        · exact hLess
        · exact lt_trans hLess (hHead name hLater)
      · next hNotLess =>
        split
        · exact hNames
        · next hDiffers =>
          refine List.pairwise_cons.mpr ⟨fun name hMem => ?_, ih hRest⟩
          rcases mem_insertAscending_iff.mp hMem with rfl | hLater
          · exact lt_of_le_of_ne (not_lt.mp hNotLess) (Ne.symm hDiffers)
          · exact hHead name hLater

/-- Sorting names gives each of them once. -/
theorem foldr_insertAscending (names : List (List Char)) :
    (names.foldr Error.insertAscending []).Pairwise (· < ·) ∧
      ∀ name, name ∈ names.foldr Error.insertAscending [] ↔ name ∈ names := by
  induction names with
  | nil => simp
  | cons head rest ih =>
      refine ⟨pairwise_insertAscending ih.1, fun name => ?_⟩
      rw [List.foldr_cons, mem_insertAscending_iff, ih.2, List.mem_cons]

end Names

namespace Grammar

variable {g : Grammar}

/-- The start symbol and every nonterminal of a rule have a production, and every symbol of a rule
has a name. -/
structure Valid (g : Grammar) : Prop where
  start : ∃ head, g.start = some head ∧ (g.alternatives? head).isSome
  named : ∀ {head alternative}, g.Produces head alternative →
    ∀ symbol ∈ alternative, symbol.letter ≠ none
  defined : ∀ {head alternative}, g.Produces head alternative →
    ∀ {letter}, .nonterminal letter ∈ alternative →
      ∃ other, letter = some other ∧ (g.alternatives? other).isSome

theorem Produces.mem_entries {head : Char} {alternative : Form}
    (hRule : g.Produces head alternative) :
    ∃ alternatives, (head, alternatives) ∈ g.entries ∧ alternative ∈ alternatives := by
  obtain ⟨alternatives, hLookup, hMem⟩ := hRule
  exact ⟨alternatives, mem_of_lookup_eq_some hLookup, hMem⟩

theorem Produces.mem_productions {head : Char} {alternative : Form}
    (hRule : g.Produces head alternative) :
    ∃ alternatives, ⟨some head, alternatives⟩ ∈ g.productions ∧ alternative ∈ alternatives := by
  obtain ⟨alternatives, hEntry, hMem⟩ := hRule.mem_entries
  exact ⟨alternatives, List.mem_map.mpr ⟨_, hEntry, rfl⟩, hMem⟩

/-- The names of the nonterminals of a form. -/
theorem mem_map_letter_nonterminals_iff {form : Form} {letter : Letter} :
    letter ∈ (Form.nonterminals form).map Symbol.letter ↔ .nonterminal letter ∈ form := by
  refine ⟨fun hMem => ?_, fun hMem => ?_⟩
  · obtain ⟨symbol, hSymbol, rfl⟩ := List.mem_map.mp hMem
    obtain ⟨hInside, hKind⟩ := List.mem_filter.mp hSymbol
    cases symbol with
    | terminal letter => simp [Symbol.isTerminal] at hKind
    | nonterminal letter => exact hInside
  · exact List.mem_map.mpr ⟨_, List.mem_filter.mpr ⟨hMem, rfl⟩, rfl⟩

theorem mem_used_iff {letter : Letter} : letter ∈ g.used ↔ letter = g.start ∨
    ∃ production ∈ g.productions, ∃ alternative ∈ production.alternatives,
      .nonterminal letter ∈ alternative := by
  simp [used, mem_map_letter_nonterminals_iff]

theorem Produces.mem_used {head : Char} {alternative : Form} {letter : Letter}
    (hRule : g.Produces head alternative) (hMem : .nonterminal letter ∈ alternative) :
    letter ∈ g.used := by
  obtain ⟨alternatives, hProduction, hAlternative⟩ := hRule.mem_productions
  exact mem_used_iff.mpr (Or.inr ⟨_, hProduction, alternative, hAlternative, hMem⟩)

theorem mem_undefined_iff {name : List Char} : name ∈ g.undefined ↔
    ∃ letter, (letter ∈ g.used ∧ g.defines letter = false) ∧ name = letter.toList := by
  rw [undefined, (foldr_insertAscending _).2, List.mem_map]
  simp only [List.mem_filter, Bool.not_eq_true']
  exact exists_congr fun letter => and_congr_right fun _ => eq_comm

/-- No undefined name is reported exactly if every used name has a production. -/
theorem undefined_eq_nil_iff : g.undefined = [] ↔ ∀ letter ∈ g.used, g.defines letter = true := by
  constructor
  · intro hNone letter hMem
    rw [← Bool.not_eq_false]
    intro hMissing
    have hReported := mem_undefined_iff.mpr ⟨letter, ⟨hMem, hMissing⟩, rfl⟩
    rw [hNone] at hReported
    cases hReported
  · intro hAll
    refine List.eq_nil_iff_forall_not_mem.mpr fun name hReported => ?_
    obtain ⟨letter, ⟨hMem, hMissing⟩, -⟩ := mem_undefined_iff.mp hReported
    rw [hAll letter hMem] at hMissing
    cases hMissing

theorem hasEmptySymbol_eq_false_iff {production : Production} :
    hasEmptySymbol production = false ↔
      ∀ alternative ∈ production.alternatives, ∀ symbol ∈ alternative, symbol.letter ≠ none := by
  simp [hasEmptySymbol]

/-- The two checks of validation. -/
theorem validate_eq_ok_iff : g.validate = .ok () ↔
    (∀ production ∈ g.productions, ∀ alternative ∈ production.alternatives,
      ∀ symbol ∈ alternative, symbol.letter ≠ none) ∧
    ∀ letter ∈ g.used, g.defines letter = true := by
  simp only [← hasEmptySymbol_eq_false_iff, ← undefined_eq_nil_iff, validate]
  cases hFind : g.productions.find? hasEmptySymbol with
  | some production =>
      have hEmpty : hasEmptySymbol production = true := List.find?_some hFind
      have hMem : production ∈ g.productions := List.mem_of_find?_eq_some hFind
      simp only [reduceCtorEq, false_iff, not_and]
      intro hAll
      rw [hAll production hMem] at hEmpty
      simp at hEmpty
  | none =>
      have hAll : ∀ production ∈ g.productions, hasEmptySymbol production = false := by
        simpa using hFind
      by_cases hNone : g.undefined = [] <;> simp [hNone]
      exact hAll

/-- Undefined names are reported if every symbol has a name. -/
theorem validate_eq_error (hNamed : ∀ production ∈ g.productions,
      ∀ alternative ∈ production.alternatives, ∀ symbol ∈ alternative, symbol.letter ≠ none)
    (hMissing : g.undefined ≠ []) :
    g.validate = .error (.undefined (g.undefined.foldr Error.insertAscending [])) := by
  have hNone : g.productions.find? hasEmptySymbol = none := by
    rw [List.find?_eq_none]
    intro production hMem
    rw [Bool.not_eq_true]
    exact hasEmptySymbol_eq_false_iff.mpr (hNamed production hMem)
  simp [validate, hNone, hMissing, Error.ofUndefined]

theorem exists_of_defines {letter : Letter} (hDefined : g.defines letter = true) :
    ∃ head, letter = some head ∧ (g.alternatives? head).isSome := by
  cases letter with
  | none => simp [defines] at hDefined
  | some head => exact ⟨head, rfl, hDefined⟩

theorem valid_of_validate (hValidate : g.validate = .ok ()) : g.Valid := by
  obtain ⟨hNamed, hUsed⟩ := validate_eq_ok_iff.mp hValidate
  refine ⟨exists_of_defines (hUsed _ (List.mem_cons_self ..)), ?_, ?_⟩
  · intro head alternative hRule
    obtain ⟨alternatives, hProduction, hAlternative⟩ := hRule.mem_productions
    exact hNamed _ hProduction alternative hAlternative
  · intro head alternative hRule letter hLetter
    exact exists_of_defines (hUsed _ (hRule.mem_used hLetter))

/-- An ambiguous grammar, with left recursion and with derivations that lead back to `S`. -/
def doubling : Grammar :=
  ⟨some 'S', [('S',
    [[.nonterminal (some 'S'), .nonterminal (some 'S')], [.terminal (some 'a')], []])]⟩

theorem validate_doubling : doubling.validate = .ok () := rfl

theorem produces_doubling_iff {alternative : Form} :
    doubling.Produces 'S' alternative ↔
      alternative = [.nonterminal (some 'S'), .nonterminal (some 'S')] ∨
      alternative = [.terminal (some 'a')] ∨ alternative = [] := by
  simp [Produces, doubling, alternatives?]

end Grammar

end Earley
