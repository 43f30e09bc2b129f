import Earley.Proofs.Grammar.Validity
import Mathlib.Data.List.Induction
import Mathlib.Data.List.Nodup

/-! What a grammar has become after productions were added one after the other. The closed form
says it by all productions at once. -/
namespace Earley.Grammar

/-- The alternatives that all productions of a left side have, each where it occurs first. -/
def alternativesOf (head : Char) (added : List (Char × List Form)) : List Form :=
  ((added.filter fun production => production.1 = head).flatMap Prod.snd).eraseDups

/-- The left sides of productions, each where it occurs first, with all their alternatives. -/
def collect (added : List (Char × List Form)) : List (Char × List Form) :=
  (added.map Prod.fst).eraseDups.map fun head => (head, alternativesOf head added)

/-- Add productions one after the other. -/
def extendAll (g : Grammar) (added : List (Char × List Form)) : Grammar :=
  added.foldl (fun g production => g.extend production.1 production.2) g

section Repetitions

variable {α : Type} [BEq α] [LawfulBEq α] {values : List α} {value : α}

theorem eraseDups_append_of_mem (hMem : value ∈ values) :
    (values ++ [value]).eraseDups = values.eraseDups := by
  rw [List.eraseDups_append]
  simp [List.removeAll, hMem]

theorem eraseDups_append_of_notMem (hNew : value ∉ values) :
    (values ++ [value]).eraseDups = values.eraseDups ++ [value] := by
  rw [List.eraseDups_append]
  simp [List.removeAll, hNew, List.eraseDups_cons]

theorem eraseDups_of_nodup (hNodup : values.Nodup) : values.eraseDups = values := by
  induction values with
  | nil => rfl
  | cons value values ih =>
      obtain ⟨hNew, hValues⟩ := List.nodup_cons.mp hNodup
      have hOthers : values.filter (fun other => !other == value) = values :=
        List.filter_eq_self.mpr fun other hMem => by simp [ne_of_mem_of_not_mem hMem hNew]
      rw [List.eraseDups_cons, hOthers, ih hValues]

end Repetitions

theorem addAlternatives_eraseDups (alternatives added : List Form) :
    addAlternatives alternatives.eraseDups added = (alternatives ++ added).eraseDups := by
  induction added using List.reverseRecOn with
  | nil => simp [addAlternatives]
  | append_singleton added alternative ih =>
      have hLast : addAlternatives alternatives.eraseDups (added ++ [alternative]) =
          addAlternative (alternatives ++ added).eraseDups alternative := by
        simp [← ih, addAlternatives]
      rw [hLast, addAlternative, ← List.append_assoc]
      split
      · next hMem => rw [eraseDups_append_of_mem (List.mem_eraseDups.mp hMem)]
      · next hNew => rw [eraseDups_append_of_notMem (mt List.mem_eraseDups.mpr hNew)]

theorem alternativesOf_append (head : Char) (added : List (Char × List Form))
    (production : Char × List Form) :
    alternativesOf head (added ++ [production]) =
      if production.1 = head then addAlternatives (alternativesOf head added) production.2
      else alternativesOf head added := by
  by_cases hSame : production.1 = head
  · simp [alternativesOf, hSame, addAlternatives_eraseDups]
  · simp [alternativesOf, hSame]

theorem alternativesOf_eq_nil {head : Char} {added : List (Char × List Form)}
    (hNew : head ∉ added.map Prod.fst) : alternativesOf head added = [] := by
  have hNone : added.filter (fun production => production.1 = head) = [] := by
    simp only [List.filter_eq_nil_iff, decide_eq_true_eq]
    intro production hMem hSame
    exact hNew (List.mem_map.mpr ⟨production, hMem, hSame⟩)
  simp [alternativesOf, hNone]

theorem lookup_collect_isSome (head : Char) (added : List (Char × List Form)) :
    ((collect added).lookup head).isSome ↔ head ∈ added.map Prod.fst := by
  rw [← List.mem_eraseDups]
  unfold collect
  generalize (added.map Prod.fst).eraseDups = heads
  induction heads with
  | nil => simp
  | cons other heads ih =>
      by_cases hSame : head = other
      · simp [hSame]
      · simp [List.lookup_cons, beq_eq_false_iff_ne.mpr hSame, hSame, ih]

theorem collect_append {g : Grammar} {added : List (Char × List Form)}
    (hEntries : g.entries = collect added) (production : Char × List Form) :
    (g.extend production.1 production.2).entries = collect (added ++ [production]) := by
  have hDefines : g.defines (some production.1) = true ↔ production.1 ∈ added.map Prod.fst := by
    rw [← lookup_collect_isSome, ← hEntries]
    rfl
  by_cases hOld : production.1 ∈ added.map Prod.fst
  · simp only [extend, hDefines.mpr hOld, if_true, hEntries, collect, List.map_append,
      List.map_singleton, eraseDups_append_of_mem hOld, List.map_map, List.map_inj_left]
    intro head _
    simp [alternativesOf_append, eq_comm]
  · simp only [extend, mt hDefines.mp hOld, if_false, hEntries, collect, List.map_append,
      List.map_singleton, eraseDups_append_of_notMem hOld, Bool.false_eq_true]
    congr 1
    · refine List.map_congr_left fun head hHead => ?_
      have hOther : production.1 ≠ head := fun hSame =>
        hOld (hSame ▸ List.mem_eraseDups.mp hHead)
      simp [alternativesOf_append, hOther]
    · simp [alternativesOf_append, alternativesOf_eq_nil hOld]

/-- The closed form of a grammar to which productions were added. -/
theorem entries_extendAll (start : Letter) (added : List (Char × List Form)) :
    ((empty start).extendAll added).entries = collect added := by
  induction added using List.reverseRecOn with
  | nil => rfl
  | append_singleton added production ih =>
      rw [extendAll, List.foldl_append]
      exact collect_append ih production

theorem start_extendAll (g : Grammar) (added : List (Char × List Form)) :
    (g.extendAll added).start = g.start := by
  induction added generalizing g with
  | nil => rfl
  | cons production rest ih =>
      refine (ih (g.extend production.1 production.2)).trans ?_
      rw [extend]
      split <;> rfl

/-- The closed form of a grammar that is built from its productions. -/
theorem extendAll_empty (start : Letter) (added : List (Char × List Form)) :
    (empty start).extendAll added = ⟨start, collect added⟩ := by
  have hStart := start_extendAll (empty start) added
  have hEntries := entries_extendAll start added
  cases hGrammar : (empty start).extendAll added with
  | mk other entries => simp_all [empty]

theorem exists_of_mem_collect {head : Char} {alternatives : List Form} {alternative : Form}
    {added : List (Char × List Form)} (hEntry : (head, alternatives) ∈ collect added)
    (hMem : alternative ∈ alternatives) : ∃ production ∈ added, alternative ∈ production.2 := by
  obtain ⟨other, _, hSame⟩ := List.mem_map.mp hEntry
  cases hSame
  obtain ⟨production, hProduction, hAlternative⟩ :=
    List.mem_flatMap.mp (List.mem_eraseDups.mp hMem)
  exact ⟨production, (List.mem_filter.mp hProduction).1, hAlternative⟩

theorem heads_collect (added : List (Char × List Form)) :
    (collect added).map Prod.fst = (added.map Prod.fst).eraseDups := by
  simp [collect, Function.comp_def]

/-- What is added is collected under its left side. -/
theorem exists_collected {added : List (Char × List Form)} {production : Char × List Form}
    (hMem : production ∈ added) : ∃ entry ∈ collect added, entry.1 = production.1 ∧
      ∀ alternative ∈ production.2, alternative ∈ entry.2 := by
  have hHead : production.1 ∈ (added.map Prod.fst).eraseDups :=
    List.mem_eraseDups.mpr (List.mem_map_of_mem hMem)
  refine ⟨_, List.mem_map_of_mem hHead, rfl, fun alternative hAlternative => ?_⟩
  exact List.mem_eraseDups.mpr
    (List.mem_flatMap.mpr ⟨production, List.mem_filter.mpr ⟨hMem, by simp⟩, hAlternative⟩)

/-- Entries without repetitions are collected as they are. -/
theorem collect_eq_self {entries : List (Char × List Form)}
    (hHeads : (entries.map Prod.fst).Nodup) (hAlternatives : ∀ entry ∈ entries, entry.2.Nodup) :
    collect entries = entries := by
  have hEntry : ∀ entry ∈ entries, alternativesOf entry.1 entries = entry.2 := by
    intro entry hMem
    obtain ⟨front, back, rfl⟩ := List.append_of_mem hMem
    rw [List.map_append, List.map_cons, List.nodup_middle, List.nodup_cons,
      ← List.map_append] at hHeads
    have hOther {other : Char × List Form} (hOther : other ∈ front ++ back) :
        other.1 ≠ entry.1 := fun hSame => hHeads.1 (hSame ▸ List.mem_map_of_mem hOther)
    have hFront : front.filter (fun other => other.1 = entry.1) = [] := by
      simpa using fun a b hMem => hOther (List.mem_append_left back hMem)
    have hBack : back.filter (fun other => other.1 = entry.1) = [] := by
      simpa using fun a b hMem => hOther (List.mem_append_right front hMem)
    simp [alternativesOf, hFront, hBack, eraseDups_of_nodup (hAlternatives entry hMem)]
  rw [collect, eraseDups_of_nodup hHeads, List.map_map]
  calc entries.map _ = entries.map id := List.map_congr_left fun entry hMem => by
        simp [hEntry entry hMem]
    _ = entries := List.map_id entries

/-- An entry of a grammar as a production. -/
def ofEntry (entry : Char × List Form) : Production := ⟨some entry.1, entry.2⟩

theorem productions_eq (g : Grammar) : g.productions = g.entries.map ofEntry := rfl

theorem lhs_ne_none {added : List (Char × List Form)} :
    ∀ production ∈ added.map ofEntry, production.lhs ≠ none := by
  intro production hMem
  obtain ⟨entry, -, rfl⟩ := List.mem_map.mp hMem
  exact Option.some_ne_none entry.1

/-- Every left side has a name, and so has every symbol of every alternative. -/
structure Named (productions : List Production) : Prop where
  heads : ∀ production ∈ productions, production.lhs ≠ none
  symbols : ∀ alternative ∈ productions.flatMap Production.alternatives,
    ∀ symbol ∈ alternative, symbol.letter ≠ none

/-- The nonterminal is the start symbol or stands in an alternative, but it has no production. -/
def Lacks (start : Letter) (productions : List Production) (letter : Letter) : Prop :=
  (letter = start ∨ ∃ alternative ∈ productions.flatMap Production.alternatives,
    .nonterminal letter ∈ alternative) ∧
  ∀ production ∈ productions, production.lhs ≠ letter

section Collected

variable {g : Grammar} {letter : Letter} {added : List (Char × List Form)}
  (hEntries : g.entries = collect added)
include hEntries

/-- The alternatives of the collected productions are those of the given ones. -/
theorem mem_alternatives_iff {alternative : Form} :
    alternative ∈ g.productions.flatMap Production.alternatives ↔
      alternative ∈ (added.map ofEntry).flatMap Production.alternatives := by
  rw [productions_eq, hEntries, List.flatMap_map, List.flatMap_map]
  constructor
  · intro hMem
    obtain ⟨entry, hEntry, hInside⟩ := List.mem_flatMap.mp hMem
    obtain ⟨source, hSource, hAlternative⟩ := exists_of_mem_collect hEntry hInside
    exact List.mem_flatMap.mpr ⟨source, hSource, hAlternative⟩
  · intro hMem
    obtain ⟨source, hSource, hInside⟩ := List.mem_flatMap.mp hMem
    obtain ⟨entry, hEntry, -, hAlternatives⟩ := exists_collected hSource
    exact List.mem_flatMap.mpr ⟨entry, hEntry, hAlternatives alternative hInside⟩

theorem defines_iff : g.defines letter = true ↔
    ∃ production ∈ added.map ofEntry, production.lhs = letter := by
  cases letter with
  | none => simp [defines, ofEntry]
  | some head =>
      rw [defines, alternatives?, hEntries, lookup_collect_isSome]
      simp [ofEntry]

/-- The used names without a production are those that the productions lack. -/
theorem used_and_undefined_iff : (letter ∈ g.used ∧ g.defines letter = false) ↔
    Lacks g.start (added.map ofEntry) letter := by
  have hUsed : letter ∈ g.used ↔ letter = g.start ∨
      ∃ alternative ∈ (added.map ofEntry).flatMap Production.alternatives,
        .nonterminal letter ∈ alternative := by
    simp only [← mem_alternatives_iff hEntries, mem_used_iff, List.mem_flatMap]
    constructor
    · rintro (hStart | ⟨production, hMem, alternative, hAlternative, hInside⟩)
      · exact Or.inl hStart
      · exact Or.inr ⟨alternative, ⟨production, hMem, hAlternative⟩, hInside⟩
    · rintro (hStart | ⟨alternative, ⟨production, hMem, hAlternative⟩, hInside⟩)
      · exact Or.inl hStart
      · exact Or.inr ⟨production, hMem, alternative, hAlternative, hInside⟩
  have hDefined : g.defines letter = false ↔
      ∀ production ∈ added.map ofEntry, production.lhs ≠ letter := by
    rw [← Bool.not_eq_true, defines_iff hEntries, not_exists]
    simp only [not_and, ne_eq]
  rw [Lacks, hUsed, hDefined]

theorem named_collected_iff : (∀ production ∈ g.productions,
      ∀ alternative ∈ production.alternatives, ∀ symbol ∈ alternative, symbol.letter ≠ none) ↔
    Named (added.map ofEntry) := by
  constructor
  · intro hNames
    refine ⟨lhs_ne_none, fun alternative hMem => ?_⟩
    obtain ⟨production, hProduction, hAlternative⟩ :=
      List.mem_flatMap.mp ((mem_alternatives_iff hEntries).mpr hMem)
    exact hNames production hProduction alternative hAlternative
  · intro hNamed production hMem alternative hAlternative
    have hInside := List.mem_flatMap.mpr ⟨production, hMem, hAlternative⟩
    exact hNamed.symbols alternative ((mem_alternatives_iff hEntries).mp hInside)

/-- Collected productions are a valid grammar if they have all names and lack no production. -/
theorem validate_collected_iff : g.validate = .ok () ↔
    Named (added.map ofEntry) ∧ ∀ letter, ¬ Lacks g.start (added.map ofEntry) letter := by
  simp only [validate_eq_ok_iff, named_collected_iff hEntries, ← used_and_undefined_iff hEntries,
    not_and, Bool.not_eq_false]

end Collected

/-- Productions make a valid grammar if every symbol of theirs has a name, and the start symbol
and every nonterminal of theirs is a left side. -/
theorem validate_of_collect {g : Grammar} {added : List (Char × List Form)} {first : Char}
    (hStart : g.start = some first) (hFirst : first ∈ added.map Prod.fst)
    (hEntries : g.entries = collect added)
    (hNamed : ∀ production ∈ added, ∀ alternative ∈ production.2, ∀ symbol ∈ alternative,
      symbol.letter ≠ none)
    (hHeads : ∀ production ∈ added, ∀ alternative ∈ production.2, ∀ letter,
      .nonterminal letter ∈ alternative → ∃ head ∈ added.map Prod.fst, letter = some head) :
    g.validate = .ok () := by
  have hSource {alternative : Form}
      (hMem : alternative ∈ (added.map ofEntry).flatMap Production.alternatives) :
      ∃ source ∈ added, alternative ∈ source.2 := by
    rwa [List.flatMap_map, List.mem_flatMap] at hMem
  have hPresent {head : Char} (hHead : head ∈ added.map Prod.fst) :
      ∃ production ∈ added.map ofEntry, production.lhs = some head := by
    obtain ⟨source, hAdded, rfl⟩ := List.mem_map.mp hHead
    exact ⟨ofEntry source, List.mem_map_of_mem hAdded, rfl⟩
  have hNames : Named (added.map ofEntry) := by
    refine ⟨lhs_ne_none, fun alternative hMem => ?_⟩
    obtain ⟨source, hAdded, hInside⟩ := hSource hMem
    exact hNamed source hAdded alternative hInside
  refine (validate_collected_iff hEntries).mpr ⟨hNames, ?_⟩
  rintro letter ⟨rfl | ⟨alternative, hMem, hLetter⟩, hNone⟩
  · obtain ⟨production, hProduction, hHead⟩ := hPresent hFirst
    exact hNone production hProduction (hHead.trans hStart.symm)
  · obtain ⟨source, hAdded, hInside⟩ := hSource hMem
    obtain ⟨head, hHead, rfl⟩ := hHeads source hAdded alternative hInside letter hLetter
    obtain ⟨production, hProduction, hHead⟩ := hPresent hHead
    exact hNone production hProduction hHead

end Earley.Grammar
