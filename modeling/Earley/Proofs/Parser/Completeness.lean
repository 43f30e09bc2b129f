import Earley.Proofs.Parser.Charting

/-! Completeness of the chart: every meaningful state is there, and a derivation of its recognized
part can be retraced from right to left along back-pointers. -/
namespace Earley

/-- One step back along a back-pointer, with a form that is rewritten on the way. An entry of a
complete state replaces the last occurrence of its left side; other entries leave the form. -/
inductive Chart.Retraces (chart : Chart) : Nat × Form → Nat × Form → Prop where
  | replace {id source : Nat} {origin : Int} {lhs : Symbol} {alternative left right : Form}
      (hPointer : source ∈ chart.pointers id)
      (hState : chart.state? source = some ⟨origin, lhs, alternative, []⟩)
      (hNonterminal : lhs.isTerminal = false) (hLast : lhs ∉ right) :
      Retraces chart (id, left ++ lhs :: right) (source, left ++ alternative ++ right)
  | pass {id source : Nat} {origin : Int} {lhs symbol : Symbol} {before rest form : Form}
      (hPointer : source ∈ chart.pointers id)
      (hState : chart.state? source = some ⟨origin, lhs, before, symbol :: rest⟩) :
      Retraces chart (id, form) (source, form)

theorem Form.nonterminal_notMem_ofWord (letter : Letter) (word : List Char) :
    .nonterminal letter ∉ Form.ofWord word := by
  simp [Form.ofWord]

theorem Form.ofWord_eq_append_iff {word : List Char} {first second : Form} :
    Form.ofWord word = first ++ second ↔
      ∃ front back, word = front ++ back ∧ Form.ofWord front = first ∧ Form.ofWord back = second :=
  List.map_eq_append_iff

namespace Parser

variable {g : Grammar} {chart : Chart} {word : List Char}

theorem Charted.derived_of_infers (hCharted : Charted g word (word.length + 1) chart)
    {position id target : Nat} {state : State}
    (hInfers : Infers g chart position id target state) : chart.Derived target state id := by
  obtain ⟨source, hAt⟩ := hInfers.exists_at
  have hPosition := hCharted.sound.wellFormed.position_le hAt.1
  rw [hCharted.word] at hPosition
  exact hCharted.saturated position target (Nat.lt_succ_of_le hPosition) hInfers

theorem Charted.scan (hCharted : Charted g word (word.length + 1) chart) {first id : Nat}
    {origin : Int} {lhs : Symbol} {before after : Form} {c : Char} {rest : List Char}
    (hAt : chart.At first id ⟨origin, lhs, before, .terminal (some c) :: after⟩)
    (hWord : word.drop first = c :: rest) :
    word.drop (first + 1) = rest ∧
      chart.Derived (first + 1) ⟨origin, lhs, before ++ [.terminal (some c)], after⟩ id := by
  have hChar : word[first]? = some c := by
    rw [← List.head?_drop, hWord]
    rfl
  have hTail : word.drop (first + 1) = rest := by
    rw [← List.tail_drop, hWord]
    rfl
  have hInfers := Infers.scan (g := g) hAt (by rw [hCharted.word]; exact hChar)
  exact ⟨hTail, hCharted.derived_of_infers hInfers⟩

/-- What is derived from the expected symbols can be recognized, and from where that ends, the
derivation can be retraced to where it began: the siblings to the right come first, then the
alternative, and last the prediction. The symbols to the right of the recognized ones are terminals
by then, so each replacement hits the occurrence that it is meant for. -/
theorem Charted.advance (hCharted : Charted g word (word.length + 1) chart)
    {form result : Form} (hExpands : g.Expands form result) {first id : Nat} {origin : Int}
    {lhs : Symbol} {before after : Form} {part rest : List Char}
    (hAt : chart.At first id ⟨origin, lhs, before, form ++ after⟩)
    (hResult : Form.ofWord part = result) (hWord : word.drop first = part ++ rest) :
    ∃ last, chart.At (first + part.length) last ⟨origin, lhs, before ++ form, after⟩ ∧
      ∀ left right, Relation.ReflTransGen chart.Retraces
        (last, left ++ form ++ Form.ofWord right) (id, left ++ result ++ Form.ofWord right) := by
  induction hExpands generalizing first id origin lhs before after part rest with
  | nil =>
      obtain rfl : part = [] := List.map_eq_nil_iff.mp hResult
      exact ⟨id, by simpa using hAt, fun left right => Relation.ReflTransGen.refl⟩
  | keep symbol _ ih =>
      cases part with
      | nil => simp [Form.ofWord] at hResult
      | cons c part =>
          obtain ⟨rfl, hPart⟩ := List.cons_eq_cons.mp hResult
          obtain ⟨hTail, middle, hMiddle, hPointer⟩ := hCharted.scan hAt hWord
          obtain ⟨last, hLast, hBack⟩ := ih hMiddle hPart hTail
          refine ⟨last, ?_, ?_⟩
          · rw [List.append_assoc, Nat.add_assoc, Nat.add_comm 1] at hLast
            exact hLast
          · intro left right
            have hPath := hBack (left ++ [.terminal (some c)]) right
            simp only [List.append_assoc, List.singleton_append] at hPath
            simp only [List.append_assoc, List.cons_append]
            exact Relation.ReflTransGen.tail hPath (.pass hPointer hAt.2)
  | @rule head alternative _ _ _ hRule _ _ ihAlternative ihRest =>
      obtain ⟨front, back, rfl, hFront, hBack⟩ := Form.ofWord_eq_append_iff.mp hResult
      have hTail : word.drop (first + front.length) = back ++ rest := by
        rw [← List.drop_drop, hWord, List.append_assoc, List.drop_left]
      rw [List.append_assoc] at hWord
      have hPredict := Infers.predict (g := g) hAt hRule
      obtain ⟨inner, hInner, hInnerPointer⟩ := hCharted.derived_of_infers hPredict
      rw [← List.append_nil alternative] at hInner
      obtain ⟨done, hDone, hInnerPath⟩ := ihAlternative hInner hFront hWord
      have hComplete := Infers.complete (g := g) hDone hAt
      obtain ⟨middle, hMiddle, hPointer⟩ := hCharted.derived_of_infers hComplete
      obtain ⟨last, hLast, hPath⟩ := ihRest hMiddle hBack hTail
      refine ⟨last, ?_, ?_⟩
      · simpa [Nat.add_assoc] using hLast
      · intro left right
        have hSiblings := hPath (left ++ [.nonterminal (some head)]) right
        have hReplace : chart.Retraces
            (middle, left ++ .nonterminal (some head) :: Form.ofWord (back ++ right))
            (done, left ++ alternative ++ Form.ofWord (back ++ right)) :=
          .replace hPointer hDone.2 rfl (Form.nonterminal_notMem_ofWord _ _)
        have hAlternative := hInnerPath left (back ++ right)
        have hPass : chart.Retraces (inner, left ++ Form.ofWord (front ++ back ++ right))
            (id, left ++ Form.ofWord (front ++ back ++ right)) := .pass hInnerPointer hAt.2
        subst hFront hBack
        simp only [Form.ofWord_append, List.append_assoc, List.cons_append, List.nil_append]
          at hSiblings hReplace hAlternative hPass ⊢
        exact ((hSiblings.tail hReplace).trans hAlternative).tail hPass

/-- A nonterminal that may follow the front of what is derived from the expected symbols is itself
expected, in the same rule or in one that was predicted meanwhile. -/
theorem Charted.expects (hCharted : Charted g word (word.length + 1) chart)
    {form result : Form} (hExpands : g.Expands form result) {first id : Nat} {origin : Int}
    {lhs : Symbol} {before after : Form} {head : Char} {part rest : List Char} {others : Form}
    (hAt : chart.At first id ⟨origin, lhs, before, form ++ after⟩)
    (hResult : result = Form.ofWord part ++ .nonterminal (some head) :: others)
    (hWord : word.drop first = part ++ rest) :
    ∃ found outer above front back, chart.At (first + part.length) found
      ⟨outer, above, front, .nonterminal (some head) :: back⟩ := by
  induction hExpands generalizing first id origin lhs before after part rest others with
  | nil => simp at hResult
  | keep symbol _ ih =>
      cases part with
      | nil =>
          obtain ⟨rfl, _⟩ := List.cons_eq_cons.mp hResult
          exact ⟨id, origin, lhs, before, _, hAt⟩
      | cons c part =>
          obtain ⟨rfl, hTail⟩ := List.cons_eq_cons.mp hResult
          obtain ⟨hRest, middle, hMiddle, _⟩ := hCharted.scan hAt hWord
          rw [List.length_cons, Nat.add_comm part.length, ← Nat.add_assoc]
          exact ih hMiddle hTail hRest
  | @rule head alternative _ _ _ hRule hAlternative _ ihAlternative ihRest =>
      rcases exists_of_append_eq_append_cons hResult with
        ⟨middle, hFront, hBack⟩ | ⟨middle, hFront, _⟩
      · obtain ⟨front, back, rfl, hFirst, rfl⟩ := Form.ofWord_eq_append_iff.mp hFront
        have hHead := Grammar.Expands.rule hRule hAlternative .nil
        rw [List.append_nil] at hHead
        rw [List.append_assoc] at hWord
        rw [← List.singleton_append, List.append_assoc] at hAt
        obtain ⟨next, hNext, _⟩ := hCharted.advance hHead hAt hFirst hWord
        have hTail : word.drop (first + front.length) = back ++ rest := by
          rw [← List.drop_drop, hWord, List.drop_left]
        rw [List.length_append, ← Nat.add_assoc]
        exact ihRest hNext hBack hTail
      · have hPredict := Infers.predict (g := g) hAt hRule
        obtain ⟨inner, hInner, _⟩ := hCharted.derived_of_infers hPredict
        rw [← List.append_nil alternative] at hInner
        exact ihAlternative hInner hFront hWord

theorem Charted.exists_initial (hCharted : Charted g word (word.length + 1) chart) {origin : Nat}
    {lhs : Symbol} {alternative : Form} (hRule : g.HasRule lhs alternative)
    (hExpects : g.Expects word origin lhs) (hOrigin : origin ≤ word.length) :
    ∃ id, chart.At origin id ⟨origin, lhs, [], alternative⟩ := by
  cases hRule with
  | start =>
      cases hExpects with
      | start => exact ⟨0, hCharted.seed⟩
  | rule hRule =>
      cases hExpects with
      | within others hForm =>
          have hWord : word.drop 0 = word.take origin ++ word.drop origin :=
            (List.take_append_drop origin word).symm
          have hSeed : chart.At 0 0 ⟨0, augmentedStart, [], [.nonterminal g.start] ++ []⟩ :=
            hCharted.seed
          obtain ⟨id, _, _, _, _, hAt⟩ := hCharted.expects hForm.expands hSeed rfl hWord
          rw [List.length_take_of_le hOrigin, Nat.zero_add] at hAt
          obtain ⟨found, hFound, _⟩ := hCharted.derived_of_infers (Infers.predict (g := g) hAt hRule)
          exact ⟨found, hFound⟩

/-- The states of a position are exactly the meaningful ones. -/
theorem Charted.holds_iff_viable (hCharted : Charted g word (word.length + 1) chart)
    {position : Nat} (hPosition : position ≤ word.length) {state : State} :
    chart.Holds position state ↔ Viable g word position state := by
  constructor
  · rintro ⟨id, hAt⟩
    have hViable := hCharted.sound.viable hAt
    rwa [hCharted.word] at hViable
  · obtain ⟨start, lhs, before, after⟩ := state
    rintro ⟨origin, rfl, hOrigin, hRule, hBefore, hExpects⟩
    obtain ⟨id, hAt⟩ := hCharted.exists_initial hRule hExpects (Nat.le_trans hOrigin hPosition)
    have hWord : word.drop origin =
        slice word origin position ++ slice word position word.length := by
      rw [slice_append word hOrigin hPosition, slice, List.take_length]
    obtain ⟨last, hLast, _⟩ := hCharted.advance hBefore.expands hAt rfl hWord
    have hLength : origin + (slice word origin position).length = position := by
      simp only [slice, List.length_drop, List.length_take]
      omega
    rw [hLength] at hLast
    exact ⟨last, hLast⟩

/-- The chart of every word is built, and its positions hold exactly the states that are due. A
rule of the grammar stands at a position if the symbols before its dot derive the word from the
origin to the position, and if some form derived from the start symbol has the left side right
after the word up to the origin. Above the start symbol there are only the seed at the first
position, and the completed seed wherever the start symbol derives the word so far. -/
theorem makeChart_holds_iff (hValid : g.validate = .ok ()) (limit : Int) (trace : Bool)
    (word : List Char) :
    ∃ progress, makeChart ⟨g, limit, trace⟩ word = .ok progress ∧
      ∀ position ≤ word.length,
        (∀ origin head before after,
          progress.chart.Holds position ⟨origin, .nonterminal (some head), before, after⟩ ↔
            ∃ first : Nat, origin = first ∧ first ≤ position ∧ g.Produces head (before ++ after) ∧
              g.Derives before (Form.ofWord (slice word first position)) ∧
              ∃ others, g.Derives [.nonterminal g.start]
                (Form.ofWord (word.take first) ++ .nonterminal (some head) :: others)) ∧
        (∀ state, state.lhs = augmentedStart →
          (progress.chart.Holds position state ↔
            (position = 0 ∧ state = seed g) ∨
            (state = completedSeed g ∧
              g.Derives [.nonterminal g.start] (Form.ofWord (word.take position))))) ∧
        ∀ state, progress.chart.Holds position state → state.lhs.isTerminal = false := by
  obtain ⟨progress, hChart, hCharted⟩ :=
    @makeChart_eq_ok ⟨g, limit, trace⟩ (Grammar.valid_of_validate hValid) word
  refine ⟨progress, hChart, ?_⟩
  intro position hPosition
  refine ⟨?_, ?_, ?_⟩
  · intro origin head before after
    exact (hCharted.holds_iff_viable hPosition).trans viable_nonterminal_iff
  · intro state hLhs
    exact (hCharted.holds_iff_viable hPosition).trans (viable_augmentedStart_iff hPosition hLhs)
  · intro state hHolds
    obtain ⟨_, _, _, hRule, _⟩ := (hCharted.holds_iff_viable hPosition).mp hHolds
    exact hRule.isTerminal_lhs

theorem makeChart_holds_doubling :
    Grammar.doubling.validate = .ok () ∧
      ∃ progress, makeChart ⟨Grammar.doubling, 0, false⟩ ['a', 'a'] = .ok progress ∧
        progress.chart.Holds 1
          ⟨1, .nonterminal (some 'S'), [.nonterminal (some 'S')], [.nonterminal (some 'S')]⟩ ∧
        ¬ progress.chart.Holds 1 ⟨2, .nonterminal (some 'S'), [], [.terminal (some 'a')]⟩ := by
  have hDouble := Grammar.produces_doubling_iff.mpr (Or.inl rfl)
  have hLetter := Grammar.produces_doubling_iff.mpr (Or.inr (Or.inl rfl))
  have hEmpty := Grammar.produces_doubling_iff.mpr (Or.inr (Or.inr rfl))
  obtain ⟨progress, hChart, hHolds⟩ :=
    makeChart_holds_iff Grammar.validate_doubling 0 false ['a', 'a']
  obtain ⟨hRules, _, _⟩ := hHolds 1 (by decide)
  refine ⟨rfl, progress, hChart, ?_, ?_⟩
  · apply (hRules _ _ _ _).mpr
    refine ⟨1, rfl, Nat.le_refl _, hDouble, hEmpty.derives, [], ?_⟩
    exact hDouble.derives.trans (hLetter.derives.within [] [.nonterminal (some 'S')])
  · intro hHolds
    obtain ⟨first, hOrigin, hFirst, _⟩ := (hRules _ _ _ _).mp hHolds
    omega

end Parser

end Earley
