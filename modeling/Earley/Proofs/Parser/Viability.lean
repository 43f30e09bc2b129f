import Earley.Proofs.Grammar.Validity
import Earley.Proofs.Parser.Inference
import Earley.Parser.Charting

/-! Soundness of the chart: a state stands at a position only if its recognized part derives the
word between its origin and the position, and its left side is expected at the origin. -/
namespace Earley

/-- The part of a word between two positions. -/
def slice (word : List Char) (first last : Nat) : List Char := (word.take last).drop first

theorem slice_zero (word : List Char) (last : Nat) : slice word 0 last = word.take last := rfl

theorem slice_self (word : List Char) (position : Nat) : slice word position position = [] := by
  rw [slice, List.drop_eq_nil_iff]
  exact List.length_take_le _ _

theorem slice_append (word : List Char) {first middle last : Nat} (hFirst : first ≤ middle)
    (hLast : middle ≤ last) :
    slice word first middle ++ slice word middle last = slice word first last := by
  have hTake : word.take middle = (word.take last).take middle := by
    rw [List.take_take, Nat.min_eq_left hLast]
  have hDrop : (word.take last).drop middle = (word.take last).drop (first + (middle - first)) := by
    rw [Nat.add_sub_cancel' hFirst]
  rw [slice, slice, slice, hTake, hDrop, List.drop_take]
  exact List.drop_take_append_drop _ _ _

theorem slice_succ {word : List Char} {position : Nat} {c : Char}
    (hWord : word[position]? = some c) : slice word position (position + 1) = [c] := by
  obtain ⟨hPosition, hChar⟩ := List.getElem?_eq_some_iff.mp hWord
  rw [slice, List.drop_take, List.drop_eq_getElem_cons hPosition, hChar]
  simp

@[simp] theorem Form.ofWord_append (first second : List Char) :
    Form.ofWord (first ++ second) = Form.ofWord first ++ Form.ofWord second :=
  List.map_append

namespace Grammar

/-- The rules that a chart is made of: those of the grammar, and one above the start symbol. -/
inductive HasRule (g : Grammar) : Symbol → Form → Prop where
  | start : HasRule g augmentedStart [.nonterminal g.start]
  | rule {head : Char} {alternative : Form} (hRule : g.Produces head alternative) :
      HasRule g (.nonterminal (some head)) alternative

/-- Some form derived from the start symbol has the left side right after the first characters of
the word. Above the start symbol there is nothing in front. -/
inductive Expects (g : Grammar) (word : List Char) : Nat → Symbol → Prop where
  | start : Expects g word 0 augmentedStart
  | within {origin : Nat} {head : Char} (after : Form)
      (hForm : g.Derives [.nonterminal g.start]
        (Form.ofWord (word.take origin) ++ .nonterminal (some head) :: after)) :
      Expects g word origin (.nonterminal (some head))

variable {g : Grammar} {word : List Char}

theorem HasRule.derives {lhs : Symbol} {alternative : Form} (hRule : g.HasRule lhs alternative)
    {origin : Nat} (hExpects : g.Expects word origin lhs) :
    ∃ after, g.Derives [.nonterminal g.start]
      (Form.ofWord (word.take origin) ++ alternative ++ after) := by
  cases hRule with
  | start =>
      cases hExpects with
      | start => exact ⟨[], Derives.refl _⟩
  | rule hRule =>
      cases hExpects with
      | within after hForm =>
          refine ⟨after, hForm.trans ?_⟩
          simpa using hRule.derives.within (Form.ofWord (word.take origin)) after

theorem HasRule.isTerminal_lhs {lhs : Symbol} {alternative : Form}
    (hRule : g.HasRule lhs alternative) : lhs.isTerminal = false := by
  cases hRule <;> rfl

theorem HasRule.eq_of_augmentedStart {alternative : Form}
    (hRule : g.HasRule augmentedStart alternative) : alternative = [.nonterminal g.start] := by
  generalize hLhs : augmentedStart = lhs at hRule
  cases hRule with
  | start => rfl
  | rule _ => simp [augmentedStart] at hLhs

theorem HasRule.produces {lhs : Symbol} {alternative : Form} (hRule : g.HasRule lhs alternative)
    (hLhs : lhs ≠ augmentedStart) :
    ∃ head, lhs = .nonterminal (some head) ∧ g.Produces head alternative := by
  cases hRule with
  | start => exact absurd rfl hLhs
  | @rule head _ hRule => exact ⟨head, rfl, hRule⟩

theorem HasRule.augmentedStart_notMem (hValid : g.Valid) {lhs : Symbol} {alternative : Form}
    (hRule : g.HasRule lhs alternative) : augmentedStart ∉ alternative := by
  intro hMem
  cases hRule with
  | start =>
      obtain ⟨head, hStart, _⟩ := hValid.start
      simp [hStart, augmentedStart] at hMem
  | rule hRule => exact hValid.named hRule _ hMem rfl

end Grammar

namespace Parser

/-- The completed seed, which stands at the end of exactly those words that match. -/
def completedSeed (g : Grammar) : State := ⟨0, augmentedStart, [.nonterminal g.start], []⟩

/-- What a state at a position means. -/
def Viable (g : Grammar) (word : List Char) (position : Nat) (state : State) : Prop :=
  ∃ origin : Nat, state.origin = origin ∧ origin ≤ position ∧
    g.HasRule state.lhs state.alternative ∧
    g.Derives state.before (Form.ofWord (slice word origin position)) ∧
    g.Expects word origin state.lhs

theorem viable_nonterminal_iff {g : Grammar} {word : List Char} {position : Nat} {origin : Int}
    {head : Char} {before after : Form} :
    Viable g word position ⟨origin, .nonterminal (some head), before, after⟩ ↔
      ∃ first : Nat, origin = first ∧ first ≤ position ∧ g.Produces head (before ++ after) ∧
        g.Derives before (Form.ofWord (slice word first position)) ∧
        ∃ others, g.Derives [.nonterminal g.start]
          (Form.ofWord (word.take first) ++ .nonterminal (some head) :: others) := by
  constructor
  · intro ⟨first, hOrigin, hFirst, hRule, hBefore, hExpects⟩
    cases hRule with
    | rule hRule =>
        cases hExpects with
        | within others hForm => exact ⟨first, hOrigin, hFirst, hRule, hBefore, others, hForm⟩
  · intro ⟨first, hOrigin, hFirst, hRule, hBefore, others, hForm⟩
    exact ⟨first, hOrigin, hFirst, .rule hRule, hBefore, .within others hForm⟩

theorem viable_augmentedStart_iff {g : Grammar} {word : List Char} {position : Nat}
    (hPosition : position ≤ word.length) {state : State} (hLhs : state.lhs = augmentedStart) :
    Viable g word position state ↔
      (position = 0 ∧ state = seed g) ∨
      (state = completedSeed g ∧
        g.Derives [.nonterminal g.start] (Form.ofWord (word.take position))) := by
  obtain ⟨origin, lhs, before, after⟩ := state
  obtain rfl : lhs = augmentedStart := hLhs
  constructor
  · intro ⟨first, hOrigin, hFirst, hRule, hBefore, hExpects⟩
    obtain rfl : origin = first := hOrigin
    cases hExpects
    rcases List.append_eq_singleton_iff.mp hRule.eq_of_augmentedStart with ⟨rfl, rfl⟩ | ⟨rfl, rfl⟩
    · left
      have hLength := congrArg List.length hBefore.eq_nil
      rw [slice_zero] at hLength
      simp only [Form.ofWord, List.length_map, List.length_take, List.length_nil] at hLength
      exact ⟨by omega, rfl⟩
    · right
      exact ⟨rfl, hBefore⟩
  · rintro (⟨rfl, hState⟩ | ⟨hState, hForm⟩)
    · rw [hState]
      exact ⟨0, rfl, Nat.le_refl _, .start, Grammar.Derives.refl _, .start⟩
    · cases hState
      exact ⟨0, rfl, Nat.zero_le _, .start, hForm, .start⟩

/-- A well-formed chart all of whose states mean something. -/
structure Sound (g : Grammar) (chart : Chart) : Prop where
  wellFormed : chart.WellFormed
  viable : ∀ {position id state}, chart.At position id state →
    Viable g chart.word position state

variable {g : Grammar} {chart : Chart}

theorem Viable.predict {word : List Char} {position : Nat} {origin : Int} {lhs : Symbol}
    {before rest : Form} {head : Char} {alternative : Form}
    (hViable : Viable g word position ⟨origin, lhs, before, .nonterminal (some head) :: rest⟩)
    (hRule : g.Produces head alternative) :
    Viable g word position ⟨position, .nonterminal (some head), [], alternative⟩ := by
  obtain ⟨start, _, hStart, hAbove, hBefore, hExpects⟩ := hViable
  obtain ⟨after, hForm⟩ := hAbove.derives hExpects
  refine ⟨position, rfl, Nat.le_refl _, .rule hRule, ?_, .within (rest ++ after) ?_⟩
  · rw [slice_self]
    exact Grammar.Derives.refl _
  · have hFront : g.Derives (Form.ofWord (word.take start) ++ before)
        (Form.ofWord (word.take position)) := by
      rw [← slice_zero, ← slice_zero, ← slice_append word (Nat.zero_le _) hStart,
        Form.ofWord_append]
      exact (Grammar.Derives.refl _).append hBefore
    have hWithin := hFront.within [] (.nonterminal (some head) :: rest ++ after)
    apply hForm.trans
    simpa [State.alternative] using hWithin

theorem Viable.complete (hValid : g.Valid) {word : List Char} {position origin : Nat} {outer : Int}
    {lhs above : Symbol} {body before rest : Form}
    (hViable : Viable g word position ⟨origin, lhs, body, []⟩)
    (hWaiting : Viable g word origin ⟨outer, above, before, lhs :: rest⟩) :
    Viable g word position ⟨outer, above, before ++ [lhs], rest⟩ := by
  obtain ⟨middle, hMiddle, hLast, hRule, hBody, _⟩ := hViable
  obtain rfl : origin = middle := Int.ofNat.inj hMiddle
  obtain ⟨start, hOuter, hStart, hAbove, hBefore, hExpects⟩ := hWaiting
  have hLhs : g.Derives [lhs] body := by
    simp only [State.alternative, List.append_nil] at hRule
    cases hRule with
    | start =>
        have hAbsent := hAbove.augmentedStart_notMem hValid
        simp [State.alternative] at hAbsent
    | rule hRule => exact hRule.derives
  refine ⟨start, hOuter, hStart.trans hLast, ?_, ?_, hExpects⟩
  · simpa [State.alternative] using hAbove
  · rw [← slice_append word hStart hLast, Form.ofWord_append]
    exact hBefore.append (hLhs.trans hBody)

theorem Viable.scan {word : List Char} {position : Nat} {origin : Int} {lhs : Symbol}
    {before rest : Form} {c : Char}
    (hViable : Viable g word position ⟨origin, lhs, before, .terminal (some c) :: rest⟩)
    (hWord : word[position]? = some c) :
    Viable g word (position + 1) ⟨origin, lhs, before ++ [.terminal (some c)], rest⟩ := by
  obtain ⟨start, hOrigin, hStart, hRule, hBefore, hExpects⟩ := hViable
  refine ⟨start, hOrigin, Nat.le_succ_of_le hStart, ?_, ?_, hExpects⟩
  · simpa [State.alternative] using hRule
  · rw [← slice_append word hStart (Nat.le_succ _), slice_succ hWord, Form.ofWord_append]
    exact hBefore.append (Grammar.Derives.refl _)

/-- Each rule leads from meaningful states to a meaningful state. -/
theorem Infers.viable (hValid : g.Valid) (hSound : Sound g chart) {position id target : Nat}
    {state : State} (hInfers : Infers g chart position id target state) :
    Viable g chart.word target state := by
  cases hInfers with
  | predict hAt hRule => exact (hSound.viable hAt).predict hRule
  | complete hAt hWaiting => exact (hSound.viable hAt).complete hValid (hSound.viable hWaiting)
  | scan hAt hWord => exact (hSound.viable hAt).scan hWord

theorem Sound.hasRule (hSound : Sound g chart) {id : Nat} {state : State}
    (hState : chart.state? id = some state) : g.HasRule state.lhs state.alternative := by
  obtain ⟨position, other, hAt⟩ :=
    hSound.wellFormed.exists_at (Chart.lt_size_of_state? hState)
  obtain rfl : state = other := Option.some.inj (hState.symm.trans hAt.2)
  obtain ⟨_, _, _, hRule, _⟩ := hSound.viable hAt
  exact hRule

theorem Inserts.sound (hValid : g.Valid) {target : Nat} {next : Chart}
    (hStep : Inserts g target chart next) (hSound : Sound g chart) : Sound g next := by
  refine ⟨hStep.wellFormed hSound.wellFormed, ?_⟩
  obtain ⟨hTarget, position, id, state, hInfers, rfl⟩ := hStep
  intro other found foundState hAt
  rw [Chart.word_put]
  rcases (hSound.wellFormed.at_put_iff hTarget).mp hAt with hOld | ⟨rfl, rfl, _⟩
  · exact hSound.viable hOld
  · exact hInfers.viable hValid hSound

theorem Grows.sound (hValid : g.Valid) {target : Nat} {next : Chart}
    (hGrows : Grows g target chart next) (hSound : Sound g chart) : Sound g next := by
  induction hGrows with
  | refl => exact hSound
  | tail _ hLast ih => exact hLast.sound hValid ih

theorem Sound.origin_le (hSound : Sound g chart) {position id : Nat} {state : State}
    (hAt : chart.At position id state) : state.origin ≤ position := by
  obtain ⟨origin, hOrigin, hLe, _⟩ := hSound.viable hAt
  omega

end Parser

end Earley
