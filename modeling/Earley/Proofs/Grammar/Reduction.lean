import Earley.Proofs.Grammar.Reachability

/-! Grammars without the productions that the start symbol does not reach. What is left is valid, if
the grammar was, and the start symbol reaches all of it. -/
namespace Earley.Grammar

variable {g : Grammar} {head : Char} {letter : Letter} {alternatives : List Form}
  {dropped : List Char}

/-- The grammar without some of its left sides. The others stay in order. -/
def without (g : Grammar) (dropped : List Char) : Grammar :=
  { g with entries := g.entries.filter fun entry => !dropped.contains entry.1 }

theorem lookup_filter {α β : Type} [BEq α] [LawfulBEq α] (keeps : α → Bool) (key : α)
    (entries : List (α × β)) :
    (entries.filter fun entry => keeps entry.1).lookup key =
      if keeps key then entries.lookup key else none := by
  induction entries with
  | nil => simp
  | cons entry rest ih =>
      obtain ⟨other, value⟩ := entry
      by_cases hSame : key = other
      · subst hSame
        by_cases hKeeps : keeps key = true <;> simp [hKeeps, ih]
      · have hOther : (key == other) = false := by simpa using hSame
        by_cases hKeeps : keeps other = true <;> simp [hKeeps, ih, List.lookup_cons, hOther]

/-- A lookup finds the old alternatives or nothing. -/
theorem alternatives?_of_without
    (hFound : (g.without dropped).alternatives? head = some alternatives) :
    g.alternatives? head = some alternatives := by
  rw [alternatives?, without, lookup_filter fun head => !dropped.contains head] at hFound
  split at hFound
  · exact hFound
  · cases hFound

section Unreached

variable (hDropped : g.Unreached dropped)
include hDropped

theorem mem_entries_without_iff : (head, alternatives) ∈ (g.without dropped).entries ↔
    (head, alternatives) ∈ g.entries ∧ g.dependencies.Path g.start (some head) := by
  have hHead (hEntry : (head, alternatives) ∈ g.entries) : head ∈ g.heads :=
    List.mem_map_of_mem hEntry
  simp only [without, List.mem_filter, List.contains_eq_mem, Bool.not_eq_true',
    decide_eq_false_iff_not, hDropped head]
  constructor
  · rintro ⟨hEntry, hKept⟩
    exact ⟨hEntry, not_not.mp (not_and.mp hKept (hHead hEntry))⟩
  · rintro ⟨hEntry, hPath⟩
    exact ⟨hEntry, fun hGone => hGone.2 hPath⟩

/-- Every entry on the way to a reached nonterminal is kept. -/
theorem path_without (hPath : g.dependencies.Path g.start letter) :
    (g.without dropped).dependencies.Path (g.without dropped).start letter := by
  induction hPath with
  | refl => exact Digraph.Path.refl _
  | @tail source target hPrior hLast ih =>
      obtain ⟨head, alternatives, alternative, rfl, hEntry, hMem, hInside⟩ :=
        edge_dependencies_iff_mem.mp hLast
      have hEdge : (g.without dropped).dependencies.Edge (some head) target :=
        edge_dependencies_iff_mem.mpr ⟨head, alternatives, alternative, rfl,
          (mem_entries_without_iff hDropped).mpr ⟨hEntry, hPrior⟩, hMem, hInside⟩
      exact ih.trans hEdge.path

/-- The start symbol reaches all left sides that are left. -/
theorem eq_nil_of_unreached_without {names : List Char}
    (hNames : (g.without dropped).Unreached names) : names = [] := by
  apply List.eq_nil_iff_forall_not_mem.mpr
  intro head hMem
  obtain ⟨hHead, hNoPath⟩ := (hNames head).mp hMem
  obtain ⟨⟨_, alternatives⟩, hEntry, rfl⟩ := List.mem_map.mp hHead
  exact hNoPath (path_without hDropped ((mem_entries_without_iff hDropped).mp hEntry).2)

/-- The reached nonterminals still have their productions. -/
theorem defines_without (hDefined : g.defines letter = true)
    (hPath : g.dependencies.Path g.start letter) : (g.without dropped).defines letter = true := by
  obtain ⟨head, rfl, hSome⟩ := exists_of_defines hDefined
  have hKept : head ∉ dropped := fun hMem => ((hDropped head).mp hMem).2 hPath
  rw [defines, alternatives?, without, lookup_filter fun head => !dropped.contains head,
    if_pos (by simpa using hKept)]
  exact hSome

theorem validate_without (hValid : g.validate = .ok ()) :
    (g.without dropped).validate = .ok () := by
  obtain ⟨hNamed, hDefined⟩ := validate_eq_ok_iff.mp hValid
  apply validate_eq_ok_iff.mpr
  constructor
  · intro production hMem
    obtain ⟨⟨head, alternatives⟩, hEntry, rfl⟩ := List.mem_map.mp hMem
    have hOld := ((mem_entries_without_iff hDropped).mp hEntry).1
    exact hNamed _ (List.mem_map.mpr ⟨_, hOld, rfl⟩)
  · intro letter hUsed
    rcases mem_used_iff.mp hUsed with rfl | ⟨production, hMem, alternative, hAlternative, hInside⟩
    · exact defines_without hDropped (hDefined _ (List.mem_cons_self ..)) (Digraph.Path.refl _)
    · obtain ⟨⟨head, alternatives⟩, hEntry, rfl⟩ := List.mem_map.mp hMem
      obtain ⟨hOld, hPath⟩ := (mem_entries_without_iff hDropped).mp hEntry
      have hEdge : g.dependencies.Edge (some head) letter :=
        edge_dependencies_iff_mem.mpr
          ⟨head, alternatives, alternative, rfl, hOld, hAlternative, hInside⟩
      have hOldUsed : letter ∈ g.used :=
        mem_used_iff.mpr (Or.inr ⟨_, List.mem_map.mpr ⟨_, hOld, rfl⟩, alternative, hAlternative,
          hInside⟩)
      exact defines_without hDropped (hDefined _ hOldUsed) (hPath.trans hEdge.path)

end Unreached

end Earley.Grammar
