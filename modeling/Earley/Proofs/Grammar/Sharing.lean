import Earley.Proofs.Grammar.Collection
import Earley.Proofs.Grammar.Drafting

/-! Productions that a grammar shares with its callers. The first production of a left side stands
in the grammar itself, and later ones are merged into it, so what a change of a production does to
the grammar depends on the order in which the productions were added. -/
namespace Earley

theorem mem_addAlternatives_iff {alternatives added : List Form} {alternative : Form} :
    alternative ∈ addAlternatives alternatives added ↔
      alternative ∈ alternatives ∨ alternative ∈ added := by
  induction added generalizing alternatives with
  | nil => simp [addAlternatives]
  | cons first rest ih =>
      change alternative ∈ addAlternatives (addAlternative alternatives first) rest ↔ _
      rw [ih, addAlternative, List.mem_cons]
      by_cases hKnown : first ∈ alternatives
      · rw [if_pos hKnown]
        constructor
        · rintro (hOld | hRest)
          · exact Or.inl hOld
          · exact Or.inr (Or.inr hRest)
        · rintro (hOld | rfl | hRest)
          · exact Or.inl hOld
          · exact Or.inl hKnown
          · exact Or.inr hRest
      · rw [if_neg hKnown, List.mem_append, List.mem_singleton, or_assoc]

/-- Alternatives that are there already are not added again. -/
theorem addAlternatives_eq_self {alternatives added : List Form} (hKnown : added ⊆ alternatives) :
    addAlternatives alternatives added = alternatives := by
  induction added with
  | nil => rfl
  | cons first rest ih =>
      obtain ⟨hFirst, hRest⟩ := List.cons_subset.mp hKnown
      change addAlternatives (addAlternative alternatives first) rest = alternatives
      rw [addAlternative, if_pos hFirst, ih hRest]

theorem addAlternatives_append (alternatives added more : List Form) :
    addAlternatives alternatives (added ++ more) =
      addAlternatives (addAlternatives alternatives added) more :=
  List.foldl_append

theorem addAlternatives_nil {alternatives : List Form} (hNodup : alternatives.Nodup) :
    addAlternatives [] alternatives = alternatives := by
  have hAdded := Grammar.addAlternatives_eraseDups [] alternatives
  rwa [List.nil_append, Grammar.eraseDups_of_nodup hNodup] at hAdded

namespace Draft

variable {draft next : Draft} {operation : Operation} {error : Error} {handle other present : Nat}
  {head : Char} {production : Production}

/-- Drafts are the same if they have the same productions under each handle. -/
theorem ext_productions (hStart : draft.start = next.start) (hHeads : draft.heads = next.heads)
    (hProductions : ∀ handle : Nat, draft.productions[handle]? = next.productions[handle]?) :
    draft = next := by
  have hSame := Array.ext_getElem? hProductions
  cases draft
  cases next
  simp_all

theorem getElem?_grow (added : List Form) : (draft.grow handle added).productions[other]? =
    if handle = other then draft.productions[other]?.map fun production =>
      { production with alternatives := addAlternatives production.alternatives added }
    else draft.productions[other]? :=
  Array.getElem?_modify

/-- Growing a production by alternatives that it has changes nothing. -/
theorem grow_eq_self {added : List Form}
    (hProduction : draft.productions[handle]? = some production)
    (hKnown : added ⊆ production.alternatives) : draft.grow handle added = draft := by
  refine ext_productions rfl rfl fun other => ?_
  by_cases hOther : handle = other
  · subst hOther
    simp [getElem?_grow, hProduction, addAlternatives_eq_self hKnown]
  · simp [getElem?_grow, hOther]

theorem grow_append (draft : Draft) (handle : Nat) (added more : List Form) :
    draft.grow handle (added ++ more) = (draft.grow handle added).grow handle more := by
  refine ext_productions rfl rfl fun other => ?_
  by_cases hOther : handle = other
  · simp [getElem?_grow, hOther, addAlternatives_append, Function.comp_def]
  · simp [getElem?_grow, hOther]

/-- Each stored production is the one of its own left side, and no production has an alternative
twice. -/
structure Sound (start : Letter) (draft : Draft) : Prop extends Keyed start draft where
  distinct : ∀ {handle : Nat} {production : Production},
    draft.productions[handle]? = some production → production.alternatives.Nodup
  stored : ∀ {head : Char} {handle : Nat}, (head, handle) ∈ draft.heads →
    ∃ production, draft.productions[handle]? = some production ∧ production.lhs = some head

/-- Left sides and alternatives are only added behind those that are there. -/
structure GrowsTo (draft next : Draft) : Prop where
  heads : draft.heads <+: next.heads
  productions : ∀ {handle : Nat} {production : Production},
    draft.productions[handle]? = some production → ∃ grown, next.productions[handle]? = some grown ∧
      grown.lhs = production.lhs ∧ production.alternatives <+: grown.alternatives

theorem GrowsTo.refl (draft : Draft) : draft.GrowsTo draft :=
  ⟨List.prefix_rfl, fun hProduction => ⟨_, hProduction, rfl, List.prefix_rfl⟩⟩

theorem GrowsTo.trans {last : Draft} (hFirst : draft.GrowsTo next) (hSecond : next.GrowsTo last) :
    draft.GrowsTo last where
  heads := hFirst.heads.trans hSecond.heads
  productions hProduction := by
    obtain ⟨grown, hGrown, hLeft, hPrefix⟩ := hFirst.productions hProduction
    obtain ⟨final, hFinal, hFinalLeft, hFinalPrefix⟩ := hSecond.productions hGrown
    exact ⟨final, hFinal, hFinalLeft.trans hLeft, hPrefix.trans hFinalPrefix⟩

theorem growsTo_grow (draft : Draft) (handle : Nat) (added : List Form) :
    draft.GrowsTo (draft.grow handle added) where
  heads := List.prefix_rfl
  productions {other production} hProduction := by
    rw [getElem?_grow, hProduction]
    split
    · obtain ⟨new, hNew⟩ := isPrefix_addAlternatives production.alternatives added
      exact ⟨_, rfl, rfl, new, hNew.symm⟩
    · exact ⟨production, rfl, rfl, List.prefix_rfl⟩

theorem Change.growsTo (hChange : Change draft next) : draft.GrowsTo next := by
  cases hChange with
  | nothing => exact GrowsTo.refl draft
  | made letter alternatives =>
      refine ⟨List.prefix_rfl, fun {handle production} hProduction => ?_⟩
      have hOld : handle ≠ draft.productions.size :=
        Nat.ne_of_lt (Array.getElem?_eq_some_iff.mp hProduction).choose
      refine ⟨production, ?_, rfl, List.prefix_rfl⟩
      rw [Array.getElem?_push, if_neg hOld, hProduction]
  | stored hProduction hHead hNew =>
      exact ⟨List.prefix_append .., fun hProduction => ⟨_, hProduction, rfl, List.prefix_rfl⟩⟩
  | grown handle alternatives => exact growsTo_grow draft handle alternatives

theorem Sound.change {start : Letter} (hDraft : Sound start draft) (hChange : Change draft next) :
    Sound start next := by
  have hGrows := hChange.growsTo
  refine ⟨hDraft.toKeyed.continues hChange.continues, ?_, ?_⟩
  · intro handle production hProduction
    cases hChange with
    | nothing => exact hDraft.distinct hProduction
    | made letter alternatives =>
        rw [Array.getElem?_push] at hProduction
        split at hProduction
        · cases hProduction
          exact nodup_addAlternatives List.nodup_nil alternatives
        · exact hDraft.distinct hProduction
    | stored => exact hDraft.distinct hProduction
    | grown target alternatives =>
        rw [getElem?_grow] at hProduction
        split at hProduction
        · obtain ⟨old, hOld, rfl⟩ := Option.map_eq_some_iff.mp hProduction
          exact nodup_addAlternatives (hDraft.distinct hOld) alternatives
        · exact hDraft.distinct hProduction
  · intro head handle hEntry
    have hKept (hOld : (head, handle) ∈ draft.heads) :
        ∃ production, next.productions[handle]? = some production ∧
          production.lhs = some head := by
      obtain ⟨old, hProduction, hHead⟩ := hDraft.stored hOld
      obtain ⟨grown, hGrown, hLeft, -⟩ := hGrows.productions hProduction
      exact ⟨grown, hGrown, hLeft.trans hHead⟩
    cases hChange with
    | @stored _ _ production hProduction hHead hNew =>
        rcases List.mem_append.mp hEntry with hOld | hLast
        · exact hKept hOld
        · cases List.mem_singleton.mp hLast
          exact ⟨production, hProduction, hHead⟩
    | nothing | made | grown => exact hKept hEntry

section Grammar

variable {start : Letter} (hDraft : Sound start draft)
include hDraft

/-- A production of a left side is stored exactly if it is the one that stands for it. -/
theorem Sound.handle_eq_iff {otherHead : Char} (hStored : draft.heads.lookup head = some handle)
    (hEntry : (otherHead, other) ∈ draft.heads) : handle = other ↔ otherHead = head := by
  have hMem : (head, handle) ∈ draft.heads := hDraft.lookup_eq_some_iff.mp hStored
  constructor
  · rintro rfl
    obtain ⟨production, hProduction, hHead⟩ := hDraft.stored hMem
    obtain ⟨same, hSame, hOther⟩ := hDraft.stored hEntry
    rw [hProduction] at hSame
    cases hSame
    exact Option.some.inj (hOther.symm.trans hHead)
  · rintro rfl
    rw [hDraft.lookup_eq_some_iff.mpr hEntry] at hStored
    exact (Option.some.inj hStored).symm

/-- The grammar has the alternatives of the stored productions. -/
theorem Sound.alternatives?_grammar (head : Char) : draft.grammar.alternatives? head =
    (draft.heads.lookup head).bind fun handle =>
      draft.productions[handle]?.map Production.alternatives := by
  have hFound : ∀ entries ⊆ draft.heads, (entries.filterMap fun entry =>
      (draft.productions[entry.2]?).map fun production => (entry.1, production.alternatives)).lookup
        head = (entries.lookup head).bind fun handle =>
          draft.productions[handle]?.map Production.alternatives := by
    intro entries hEntries
    induction entries with
    | nil => rfl
    | cons entry entries ih =>
        obtain ⟨hEntry, hRest⟩ := List.cons_subset.mp hEntries
        obtain ⟨other, handle⟩ := entry
        obtain ⟨production, hProduction, -⟩ := hDraft.stored hEntry
        by_cases hSame : head = other
        · simp [hSame, hProduction]
        · simp [List.lookup_cons, hProduction, beq_eq_false_iff_ne.mpr hSame, ih hRest]
  exact hFound draft.heads (List.Subset.refl _)

theorem Sound.defines_grammar (head : Char) :
    draft.grammar.defines (some head) = (draft.heads.lookup head).isSome := by
  rw [Grammar.defines, hDraft.alternatives?_grammar]
  cases hStored : draft.heads.lookup head with
  | none => rfl
  | some handle =>
      obtain ⟨production, hProduction, -⟩ := hDraft.stored (hDraft.lookup_eq_some_iff.mp hStored)
      simp [hProduction]

/-- What a stored production gets, the grammar gets. -/
theorem Sound.grammar_grow (hStored : draft.heads.lookup head = some handle) (added : List Form) :
    (draft.grow handle added).grammar = draft.grammar.extend head added := by
  have hDefined : draft.grammar.defines (some head) = true := by
    rw [hDraft.defines_grammar, hStored]
    rfl
  rw [Grammar.extend, if_pos hDefined]
  simp only [grammar, List.map_filterMap]
  congr 1
  refine List.filterMap_congr fun entry hEntry => ?_
  have hSame := hDraft.handle_eq_iff hStored hEntry
  rw [getElem?_grow]
  by_cases hHead : entry.1 = head
  · simp [hSame.mpr hHead, hHead, Function.comp_def]
  · simp [mt hSame.mp hHead, hHead, Function.comp_def]

end Grammar

/-- What a production gets that is not stored does not reach the grammar. -/
theorem grammar_grow_of_unstored (hUnstored : ∀ head, (head, handle) ∉ draft.heads)
    (added : List Form) : (draft.grow handle added).grammar = draft.grammar := by
  simp only [grammar]
  congr 1
  refine List.filterMap_congr fun entry hEntry => ?_
  have hOther : handle ≠ entry.2 := by
    rintro rfl
    exact hUnstored entry.1 hEntry
  rw [getElem?_grow, if_neg hOther]

/-- The target takes over the alternatives of the source, one by one from an index on. Each is read
when its turn comes, from what the source is then. -/
inductive Absorbs (source target : Nat) : Nat → Draft → Draft → Prop where
  | done {index : Nat} {draft : Draft} {production : Production}
      (hSource : draft.productions[source]? = some production)
      (hEnd : production.alternatives.length ≤ index) : Absorbs source target index draft draft
  | next {index : Nat} {draft last : Draft} {production : Production} {alternative : Form}
      (hSource : draft.productions[source]? = some production)
      (hTurn : production.alternatives[index]? = some alternative)
      (hRest : Absorbs source target (index + 1) (draft.grow target [alternative]) last) :
      Absorbs source target index draft last

/-- A production is not changed by what is taken over from it, not even if it takes it over
itself. -/
theorem getElem?_grow_of_subset {added : List Form}
    (hProduction : draft.productions[handle]? = some production)
    (hAdded : added ⊆ production.alternatives) (target : Nat) :
    (draft.grow target added).productions[handle]? = some production := by
  by_cases hSelf : target = handle
  · subst hSelf
    rw [grow_eq_self hProduction hAdded, hProduction]
  · rw [getElem?_grow, if_neg hSelf, hProduction]

/-- Taking the alternatives over one by one is the same as taking over those that were there. The
induction is on those that are still to come. -/
theorem absorbs_grow {target : Nat} {grown : Production}
    (hProduction : draft.productions[handle]? = some production)
    (hTarget : draft.productions[target]? = some grown) :
    Absorbs handle target 0 draft (draft.grow target production.alternatives) := by
  have hRemaining : ∀ rest added : List Form, production.alternatives = added ++ rest →
      ∀ current : Draft, current = draft.grow target added → Absorbs handle target added.length
        current (draft.grow target production.alternatives) := by
    intro rest
    induction rest with
    | nil =>
        rintro added hSplit current rfl
        rw [List.append_nil] at hSplit
        subst hSplit
        exact .done (getElem?_grow_of_subset hProduction (List.Subset.refl _) target)
          (Nat.le_refl _)
    | cons alternative rest ih =>
        rintro added hSplit current rfl
        have hAdded : added ⊆ production.alternatives := by
          rw [hSplit]
          exact List.subset_append_left ..
        have hTurn : production.alternatives[added.length]? = some alternative := by
          simp [hSplit]
        have hRest := ih (added ++ [alternative]) (by simp [hSplit]) _
          (grow_append draft target added [alternative]).symm
        rw [List.length_append, List.length_singleton] at hRest
        exact .next (getElem?_grow_of_subset hProduction hAdded target) hTurn hRest
  exact hRemaining production.alternatives [] rfl draft
    (grow_eq_self hTarget (List.nil_subset _)).symm

theorem production_of_none (hUnknown : draft.productions[handle]? = none) :
    draft.production handle = .error (.misuse .unknownHandle) := by
  rw [Draft.production, hUnknown]

section Perform

variable (hProduction : draft.productions[handle]? = some production)
include hProduction

theorem perform_addAlternative (alternative : Form) :
    draft.perform (.addAlternative handle alternative) = .ok (draft.grow handle [alternative]) := by
  rw [perform, Draft.addAlternative, bind_of_eq_ok (production_eq_ok_iff.mpr hProduction)]
  rfl

theorem perform_add_of_unnamed (hUnnamed : production.lhs = none) :
    draft.perform (.add handle) = .error .emptyLeftSide := by
  rw [perform, Draft.add, bind_of_eq_ok (production_eq_ok_iff.mpr hProduction), hUnnamed]

variable (hHead : production.lhs = some head)
include hHead

theorem perform_add_of_new (hNew : draft.heads.lookup head = none) :
    draft.perform (.add handle) =
      .ok { draft with heads := draft.heads ++ [(head, handle)] } := by
  rw [perform, Draft.add, bind_of_eq_ok (production_eq_ok_iff.mpr hProduction)]
  simp only [hHead, hNew]
  rfl

theorem perform_add_of_present (hPresent : draft.heads.lookup head = some present) :
    draft.perform (.add handle) = .ok (draft.grow present production.alternatives) := by
  rw [perform, Draft.add, bind_of_eq_ok (production_eq_ok_iff.mpr hProduction)]
  simp only [hHead, hPresent]
  rfl

end Perform

/-- The operations that are refused, and why. -/
inductive Refuses (draft : Draft) : Operation → Error → Prop where
  | terminal (letter : Letter) (alternatives : List Form) :
      Refuses draft (.create (.terminal letter) alternatives) (.misuse .terminalLeftSide)
  | unnamed {handle : Nat} {production : Production}
      (hProduction : draft.productions[handle]? = some production)
      (hUnnamed : production.lhs = none) : Refuses draft (.add handle) .emptyLeftSide
  | notAdded {handle : Nat} (hUnknown : draft.productions[handle]? = none) :
      Refuses draft (.add handle) (.misuse .unknownHandle)
  | notGrown {handle : Nat} (hUnknown : draft.productions[handle]? = none) (alternative : Form) :
      Refuses draft (.addAlternative handle alternative) (.misuse .unknownHandle)

theorem perform_eq_error_of_refuses (hRefuses : draft.Refuses operation error) :
    draft.perform operation = .error error := by
  cases hRefuses with
  | terminal letter alternatives => rfl
  | unnamed hProduction hUnnamed => exact perform_add_of_unnamed hProduction hUnnamed
  | notAdded hUnknown =>
      rw [perform, Draft.add, production_of_none hUnknown]
      rfl
  | notGrown hUnknown alternative =>
      rw [perform, Draft.addAlternative, production_of_none hUnknown]
      rfl

/-- An operation is carried out, or there is a reason to refuse it. -/
theorem perform_cases (draft : Draft) (operation : Operation) :
    (∃ next, draft.perform operation = .ok next) ∨ ∃ error, draft.Refuses operation error := by
  cases operation with
  | create lhs alternatives =>
      cases lhs with
      | terminal letter => exact Or.inr ⟨_, .terminal letter alternatives⟩
      | nonterminal letter => exact Or.inl ⟨_, rfl⟩
  | add handle =>
      cases hProduction : draft.productions[handle]? with
      | none => exact Or.inr ⟨_, .notAdded hProduction⟩
      | some production =>
          cases hHead : production.lhs with
          | none => exact Or.inr ⟨_, .unnamed hProduction hHead⟩
          | some head =>
              cases hPresent : draft.heads.lookup head with
              | none => exact Or.inl ⟨_, perform_add_of_new hProduction hHead hPresent⟩
              | some present => exact Or.inl ⟨_, perform_add_of_present hProduction hHead hPresent⟩
  | addAlternative handle alternative =>
      cases hProduction : draft.productions[handle]? with
      | none => exact Or.inr ⟨_, .notGrown hProduction alternative⟩
      | some production => exact Or.inl ⟨_, perform_addAlternative hProduction alternative⟩

theorem perform_eq_error_iff :
    draft.perform operation = .error error ↔ draft.Refuses operation error := by
  refine ⟨fun hPerform => ?_, perform_eq_error_of_refuses⟩
  rcases perform_cases draft operation with ⟨next, hOther⟩ | ⟨reason, hRefuses⟩
  · rw [hPerform] at hOther
    cases hOther
  · have hSame := perform_eq_error_of_refuses hRefuses
    rw [hPerform] at hSame
    cases hSame
    exact hRefuses

/-- What adding a production of a left side does to a draft. The grammar takes over its
alternatives. The first production that was added for the left side is the stored one, and no other
production changes, not even the one that is added. -/
structure Adds (draft : Draft) (handle : Nat) (head : Char) (production : Production)
    (next : Draft) : Prop where
  grammar_eq : next.grammar = draft.grammar.extend head production.alternatives
  stored : next.heads.lookup head = some ((draft.heads.lookup head).getD handle)
  contained : ∃ grown, next.productions[(draft.heads.lookup head).getD handle]? = some grown ∧
    production.alternatives ⊆ grown.alternatives
  unchanged : ∀ other : Nat, draft.heads.lookup head ≠ some other →
    next.productions[other]? = draft.productions[other]?
  absorbs : ∀ present, draft.heads.lookup head = some present →
    Absorbs handle present 0 draft next

variable {start : Letter}

theorem Sound.adds (hDraft : Sound start draft)
    (hProduction : draft.productions[handle]? = some production)
    (hHead : production.lhs = some head) :
    ∃ next, draft.perform (.add handle) = .ok next ∧ draft.Adds handle head production next := by
  cases hPresent : draft.heads.lookup head with
  | none =>
      have hNew : draft.grammar.defines (some head) = false := by
        rw [hDraft.defines_grammar, hPresent]
        rfl
      have hOnce := addAlternatives_nil (hDraft.distinct hProduction)
      refine ⟨_, perform_add_of_new hProduction hHead hPresent, ?_, ?_, ?_, fun _ _ => rfl, ?_⟩
      · rw [Grammar.extend, if_neg (by simp [hNew]), hOnce]
        simp [grammar, hProduction]
      · simp [hPresent, List.lookup_append]
      · exact ⟨production, by rw [hPresent]; exact hProduction, List.Subset.refl _⟩
      · intro present hStored
        rw [hPresent] at hStored
        cases hStored
  | some present =>
      obtain ⟨old, hOld, -⟩ := hDraft.stored (hDraft.lookup_eq_some_iff.mp hPresent)
      refine ⟨_, perform_add_of_present hProduction hHead hPresent, ?_, ?_, ?_, ?_, ?_⟩
      · exact hDraft.grammar_grow hPresent production.alternatives
      · simp [grow, hPresent]
      · refine ⟨{ old with
          alternatives := addAlternatives old.alternatives production.alternatives }, ?_, ?_⟩
        · simp [getElem?_grow, hPresent, hOld]
        · intro alternative hMem
          exact mem_addAlternatives_iff.mpr (Or.inr hMem)
      · intro other hOther
        rw [getElem?_grow, if_neg]
        rintro rfl
        exact hOther hPresent
      · intro stored hStored
        rw [hPresent] at hStored
        cases hStored
        exact absorbs_grow hProduction hOld

/-- Later operations keep what a draft is and has. -/
theorem Sound.foldl_attempt_growsTo (hDraft : Sound start draft) (operations : List Operation) :
    Sound start (operations.foldl attempt draft) ∧
      draft.GrowsTo (operations.foldl attempt draft) := by
  induction operations generalizing draft with
  | nil => exact ⟨hDraft, GrowsTo.refl draft⟩
  | cons first rest ih =>
      have hChange := change_attempt draft first
      obtain ⟨hLast, hGrows⟩ := ih (hDraft.change hChange)
      exact ⟨hLast, hChange.growsTo.trans hGrows⟩

/-- A production is never stored once another one is stored for its left side. -/
theorem Sound.notMem_heads (hNext : Sound start next) (hGrows : draft.GrowsTo next)
    (hProduction : draft.productions[handle]? = some production)
    (hHead : production.lhs = some head) (hStored : draft.heads.lookup head = some present)
    (hOther : handle ≠ present) (otherHead : Char) : (otherHead, handle) ∉ next.heads := by
  intro hEntry
  obtain ⟨grown, hGrown, hLeft, -⟩ := hGrows.productions hProduction
  obtain ⟨same, hSame, hSameHead⟩ := hNext.stored hEntry
  rw [hGrown] at hSame
  cases hSame
  rw [hLeft, hHead] at hSameHead
  cases hSameHead
  have hPresent := hGrows.heads.lookup_eq_some hStored
  rw [hNext.lookup_eq_some_iff.mpr hEntry] at hPresent
  exact hOther (Option.some.inj hPresent)

/-- What is asked of a draft shows in its grammar as follows, now and after any later operations. -/
structure Shares (draft : Draft) : Prop where
  /-- Nothing is taken away or reordered. -/
  grows : ∀ more : List Operation, draft.GrowsTo (more.foldl attempt draft)
  adds : ∀ {handle : Nat} {head : Char} {production : Production},
    draft.productions[handle]? = some production → production.lhs = some head →
      draft.Adds handle head production (draft.attempt (.add handle))
  /-- What a stored production gets, the grammar gets. -/
  linked : ∀ {head : Char} {handle : Nat}, draft.heads.lookup head = some handle →
    ∀ (more : List Operation) (alternative : Form),
      ((more.foldl attempt draft).attempt (.addAlternative handle alternative)).grammar =
        (more.foldl attempt draft).grammar.extend head [alternative]
  /-- What a production gets does not reach the grammar if another one stands for its left side. -/
  unlinked : ∀ {handle present : Nat} {head : Char} {production : Production},
    draft.productions[handle]? = some production → production.lhs = some head →
      draft.heads.lookup head = some present → handle ≠ present →
        ∀ (more : List Operation) (alternative : Form),
          ((more.foldl attempt draft).attempt (.addAlternative handle alternative)).grammar =
            (more.foldl attempt draft).grammar
  /-- A production that is as it was when it was added has nothing new for the grammar. -/
  again : ∀ (handle : Nat) (more : List Operation),
    ((.add handle :: more).foldl attempt draft).productions[handle]? = draft.productions[handle]? →
      ((.add handle :: more).foldl attempt draft).attempt (.add handle) =
        (.add handle :: more).foldl attempt draft
  refused : ∀ {operation : Operation} {error : Error},
    (draft.perform operation = .error error ↔ draft.Refuses operation error) ∧
      (draft.Refuses operation error → draft.attempt operation = draft)

theorem Sound.attempt_again (hDraft : Sound start draft) (handle : Nat) (more : List Operation)
    (hSame : ((.add handle :: more).foldl attempt draft).productions[handle]? =
      draft.productions[handle]?) :
    ((.add handle :: more).foldl attempt draft).attempt (.add handle) =
      (.add handle :: more).foldl attempt draft := by
  cases hProduction : draft.productions[handle]? with
  | none =>
      rw [hProduction] at hSame
      exact attempt_of_error (perform_eq_error_of_refuses (.notAdded hSame))
  | some production =>
      rw [hProduction] at hSame
      cases hHead : production.lhs with
      | none => exact attempt_of_error (perform_add_of_unnamed hSame hHead)
      | some head =>
          obtain ⟨next, hPerform, hAdds⟩ := hDraft.adds hProduction hHead
          have hNext : Sound start next := hDraft.change (change_of_perform hPerform)
          rw [List.foldl_cons, attempt_of_ok hPerform] at hSame ⊢
          have hGrows := (hNext.foldl_attempt_growsTo more).2
          obtain ⟨grown, hGrown, hContained⟩ := hAdds.contained
          obtain ⟨last, hLast, -, hPrefix⟩ := hGrows.productions hGrown
          have hStored := hGrows.heads.lookup_eq_some hAdds.stored
          rw [attempt_of_ok (perform_add_of_present hSame hHead hStored)]
          exact grow_eq_self hLast fun _ hMem => hPrefix.subset (hContained hMem)

theorem Sound.shares (hDraft : Sound start draft) : draft.Shares where
  grows more := (hDraft.foldl_attempt_growsTo more).2
  adds hProduction hHead := by
    obtain ⟨next, hPerform, hAdds⟩ := hDraft.adds hProduction hHead
    rwa [attempt_of_ok hPerform]
  linked hStored more alternative := by
    obtain ⟨hLater, hGrows⟩ := hDraft.foldl_attempt_growsTo more
    have hLaterStored := hGrows.heads.lookup_eq_some hStored
    obtain ⟨production, hProduction, -⟩ :=
      hLater.stored (hLater.lookup_eq_some_iff.mp hLaterStored)
    rw [attempt_of_ok (perform_addAlternative hProduction alternative)]
    exact hLater.grammar_grow hLaterStored [alternative]
  unlinked hProduction hHead hStored hOther more alternative := by
    obtain ⟨hLater, hGrows⟩ := hDraft.foldl_attempt_growsTo more
    obtain ⟨grown, hGrown, -⟩ := hGrows.productions hProduction
    rw [attempt_of_ok (perform_addAlternative hGrown alternative)]
    exact grammar_grow_of_unstored (hLater.notMem_heads hGrows hProduction hHead hStored hOther)
      [alternative]
  again := hDraft.attempt_again
  refused := ⟨perform_eq_error_iff, fun hRefuses =>
    attempt_of_error (perform_eq_error_of_refuses hRefuses)⟩

theorem sound_afterAll (start : Letter) (operations : List Operation) :
    Sound start (afterAll start operations) := by
  have hEmpty : Sound start ⟨start, #[], []⟩ :=
    ⟨⟨rfl, List.nodup_nil, by simp⟩, by simp, by simp⟩
  exact (hEmpty.foldl_attempt_growsTo operations).1

/-- Whatever was done to productions and grammar, and whatever was refused, every stored production
is the one of its left side and has each alternative once, and the grammar takes part in the changes
of the stored productions only. -/
theorem afterAll_shares (start : Letter) (operations : List Operation) :
    Sound start (afterAll start operations) ∧ (afterAll start operations).Shares :=
  ⟨sound_afterAll start operations, (sound_afterAll start operations).shares⟩

/-- Two productions of one left side. The second is merged into the first, and extended later. A
third production has no left side to stand under. -/
def merging : List Operation :=
  [.create (.nonterminal (some 'S')) [[.terminal (some 'a')], [.terminal (some 'a')]],
    .create (.nonterminal (some 'S')) [[.nonterminal (some 'S')]], .create (.nonterminal none) [],
    .add 0, .add 1, .addAlternative 1 []]

theorem afterAll_shares_merging :
    let draft := afterAll (some 'S') merging
    draft.grammar.entries = [('S', [[.terminal (some 'a')], [.nonterminal (some 'S')]])] ∧
      draft.productions[1]? = some ⟨some 'S', [[.nonterminal (some 'S')], []]⟩ ∧
      draft.heads.lookup 'S' = some 0 ∧
      (∀ alternative, (draft.attempt (.addAlternative 1 alternative)).grammar = draft.grammar) ∧
      (∀ alternative, (draft.attempt (.addAlternative 0 alternative)).grammar =
        draft.grammar.extend 'S' [alternative]) ∧
      draft.Adds 1 'S' ⟨some 'S', [[.nonterminal (some 'S')], []]⟩ (draft.attempt (.add 1)) ∧
      (draft.attempt (.add 1)).attempt (.add 1) = draft.attempt (.add 1) ∧
      draft.Refuses (.add 2) .emptyLeftSide ∧ draft.attempt (.add 2) = draft := by
  intro draft
  obtain ⟨-, hShares⟩ := afterAll_shares (some 'S') merging
  have hStored : draft.heads.lookup 'S' = some 0 := by decide
  have hSecond : draft.productions[1]? = some ⟨some 'S', [[.nonterminal (some 'S')], []]⟩ := by
    decide
  have hThird : draft.productions[2]? = some ⟨none, []⟩ := by decide
  have hRefused : draft.Refuses (.add 2) .emptyLeftSide := .unnamed hThird rfl
  exact ⟨by decide, hSecond, hStored, hShares.unlinked hSecond rfl hStored (by decide) [],
    hShares.linked hStored [], hShares.adds hSecond rfl, hShares.again 1 [] (by decide), hRefused,
    hShares.refused.2 hRefused⟩

end Draft

end Earley
