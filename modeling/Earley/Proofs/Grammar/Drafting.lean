import Earley.Grammar.Draft
import Earley.Proofs.Chart.Contents
import Mathlib.Data.List.Basic

/-! Drafts under arbitrary operations, those that are refused included. Productions may be shared
and may grow after they were added, but a left side never stands for two of them. -/
namespace Earley

namespace Draft

/-- What a caller asks of a draft. There need not be a production with the handle. -/
inductive Operation where
  | create (lhs : Symbol) (alternatives : List Form)
  | add (handle : Nat)
  | addAlternative (handle : Nat) (alternative : Form)

variable {draft next : Draft} {operation : Operation}

/-- The draft after an operation. -/
def perform (draft : Draft) : Operation → Except Error Draft
  | .create lhs alternatives => do return (← draft.create lhs alternatives).1
  | .add handle => draft.add handle
  | .addAlternative handle alternative => do return (← draft.addAlternative handle alternative).1

/-- The draft after an operation was tried. It stays as it is if the operation is refused, for
operations refuse what they are asked for before they change anything. -/
def attempt (draft : Draft) (operation : Operation) : Draft :=
  match draft.perform operation with
  | .ok next => next
  | .error _ => draft

theorem attempt_of_ok (hPerform : draft.perform operation = .ok next) :
    draft.attempt operation = next := by
  rw [attempt, hPerform]

theorem attempt_of_error {error : Error} (hPerform : draft.perform operation = .error error) :
    draft.attempt operation = draft := by
  rw [attempt, hPerform]

/-- The draft after operations were tried one after the other, from a draft without productions. -/
def afterAll (start : Letter) (operations : List Operation) : Draft :=
  operations.foldl attempt ⟨start, #[], []⟩

theorem afterAll_append (start : Letter) (operations more : List Operation) :
    afterAll start (operations ++ more) = more.foldl attempt (afterAll start operations) :=
  List.foldl_append

/-- The production with a handle, if there is one. -/
theorem production_eq_ok_iff {handle : Nat} {production : Production} :
    draft.production handle = .ok production ↔ draft.productions[handle]? = some production := by
  rw [Draft.production]
  cases draft.productions[handle]? <;> simp

/-- Everything that an operation can do to a draft. -/
inductive Change (draft : Draft) : Draft → Prop where
  | nothing : Change draft draft
  | made (letter : Letter) (alternatives : List Form) :
      Change draft { draft with
        productions := draft.productions.push (.ofAlternatives letter alternatives) }
  | stored {handle : Nat} {head : Char} {production : Production}
      (hProduction : draft.productions[handle]? = some production)
      (hHead : production.lhs = some head) (hNew : draft.heads.lookup head = none) :
      Change draft { draft with heads := draft.heads ++ [(head, handle)] }
  | grown (handle : Nat) (alternatives : List Form) : Change draft (draft.grow handle alternatives)

theorem change_of_perform (hPerform : draft.perform operation = .ok next) : Change draft next := by
  cases operation with
  | create lhs alternatives =>
      obtain ⟨⟨created, handle⟩, hCreate, hNext⟩ := bind_eq_ok_iff.mp hPerform
      obtain ⟨production, hProduction, hCreate⟩ := bind_eq_ok_iff.mp hCreate
      cases hCreate
      cases hNext
      cases lhs with
      | terminal letter => cases hProduction
      | nonterminal letter =>
          cases hProduction
          exact .made letter alternatives
  | add handle =>
      obtain ⟨production, hProduction, hAdd⟩ := bind_eq_ok_iff.mp hPerform
      split at hAdd
      · cases hAdd
      · next head hHead =>
        split at hAdd
        · next hNew =>
          cases hAdd
          exact .stored (production_eq_ok_iff.mp hProduction) hHead hNew
        · next present _ =>
          cases hAdd
          exact .grown present production.alternatives
  | addAlternative handle alternative =>
      obtain ⟨⟨grown, isNew⟩, hGrow, hNext⟩ := bind_eq_ok_iff.mp hPerform
      obtain ⟨production, _, hGrow⟩ := bind_eq_ok_iff.mp hGrow
      cases hGrow
      cases hNext
      exact .grown handle [alternative]

theorem change_attempt (draft : Draft) (operation : Operation) :
    Change draft (draft.attempt operation) := by
  rw [attempt]
  split
  · next hPerform => exact change_of_perform hPerform
  · exact .nothing

/-- No operation takes a production or a left side away, or moves it. At most one left side is
added, at the end, for a production that is there. -/
structure Continues (draft next : Draft) : Prop where
  start : next.start = draft.start
  productions : draft.productions.size ≤ next.productions.size
  heads : next.heads = draft.heads ∨ ∃ head handle, draft.heads.lookup head = none ∧
    handle < draft.productions.size ∧ next.heads = draft.heads ++ [(head, handle)]

theorem Change.continues (hChange : Change draft next) : Continues draft next := by
  cases hChange with
  | nothing => exact ⟨rfl, Nat.le_refl _, Or.inl rfl⟩
  | made letter alternatives => exact ⟨rfl, by simp, Or.inl rfl⟩
  | @stored handle head production hProduction hHead hNew =>
      have hHandle : handle < draft.productions.size :=
        (Array.getElem?_eq_some_iff.mp hProduction).choose
      exact ⟨rfl, Nat.le_refl _, Or.inr ⟨head, handle, hNew, hHandle, rfl⟩⟩
  | grown handle alternatives => exact ⟨rfl, by simp [grow], Or.inl rfl⟩

/-- The start symbol is the given one, and each left side stands for one production, which is
there. -/
structure Keyed (start : Letter) (draft : Draft) : Prop where
  start_eq : draft.start = start
  nodup : (draft.heads.map Prod.fst).Nodup
  present : ∀ entry ∈ draft.heads, entry.2 < draft.productions.size

section Keyed

variable {start : Letter} (hDraft : Keyed start draft)
include hDraft

theorem Keyed.continues (hContinues : Continues draft next) : Keyed start next := by
  refine ⟨hContinues.start.trans hDraft.start_eq, ?_, ?_⟩
  · rcases hContinues.heads with hSame | ⟨head, handle, hNew, _, hHeads⟩
    · rw [hSame]
      exact hDraft.nodup
    · rw [hHeads, List.map_append, List.nodup_append]
      refine ⟨hDraft.nodup, by simp, ?_⟩
      intro other hOther last hLast hSame
      obtain ⟨entry, hEntry, rfl⟩ := List.mem_map.mp hOther
      have hDiffers := List.lookup_eq_none_iff.mp hNew entry hEntry
      simp [hSame, List.mem_singleton.mp hLast] at hDiffers
  · intro entry hEntry
    refine Nat.lt_of_lt_of_le ?_ hContinues.productions
    rcases hContinues.heads with hSame | ⟨head, handle, _, hHandle, hHeads⟩
    · rw [hSame] at hEntry
      exact hDraft.present entry hEntry
    · rw [hHeads, List.mem_append, List.mem_singleton] at hEntry
      rcases hEntry with hOld | rfl
      · exact hDraft.present entry hOld
      · exact hHandle

theorem Keyed.lookup_eq_some_iff {head : Char} {handle : Nat} :
    draft.heads.lookup head = some handle ↔ (head, handle) ∈ draft.heads :=
  ⟨mem_of_lookup_eq_some, lookup_eq_some_of_mem hDraft.nodup⟩

/-- The grammar has the left sides of the draft, in their order. -/
theorem Keyed.heads_grammar : draft.grammar.heads = draft.heads.map Prod.fst := by
  rw [Grammar.heads, grammar, List.map_filterMap, ← List.filterMap_eq_map]
  refine List.filterMap_congr fun entry hEntry => ?_
  simp [Array.getElem?_eq_getElem (hDraft.present entry hEntry)]

theorem Keyed.nodup_heads_grammar : draft.grammar.heads.Nodup := by
  rw [hDraft.heads_grammar]
  exact hDraft.nodup

/-- Later operations add left sides behind those that are there. -/
theorem Keyed.foldl_attempt (operations : List Operation) :
    Keyed start (operations.foldl attempt draft) ∧
      draft.heads <+: (operations.foldl attempt draft).heads := by
  induction operations generalizing draft with
  | nil => exact ⟨hDraft, List.prefix_rfl⟩
  | cons first rest ih =>
      have hContinues := (change_attempt draft first).continues
      obtain ⟨hKeyed, hLater⟩ := ih (hDraft.continues hContinues)
      refine ⟨hKeyed, List.IsPrefix.trans ?_ hLater⟩
      rcases hContinues.heads with hSame | ⟨head, handle, _, _, hHeads⟩
      · exact hSame ▸ List.prefix_rfl
      · exact ⟨_, hHeads.symm⟩

end Keyed

theorem keyed_afterAll (start : Letter) (operations : List Operation) :
    Keyed start (afterAll start operations) := by
  have hEmpty : Keyed start ⟨start, #[], []⟩ := ⟨rfl, List.nodup_nil, by simp⟩
  exact (hEmpty.foldl_attempt operations).1

/-- The left sides of the grammar stand in the order in which they were added. -/
theorem heads_afterAll_isPrefix (start : Letter) (operations more : List Operation) :
    (afterAll start operations).grammar.heads <+:
      (afterAll start (operations ++ more)).grammar.heads := by
  have hKeyed := keyed_afterAll start operations
  rw [hKeyed.heads_grammar, (keyed_afterAll start (operations ++ more)).heads_grammar,
    afterAll_append]
  exact (hKeyed.foldl_attempt more).2.map Prod.fst

end Draft

end Earley
