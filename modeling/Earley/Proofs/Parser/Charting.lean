import Earley.Proofs.Parser.Saturation

/-! The chart of a word is built without error, and in the end all of its positions are saturated:
growth at a later position allows no new inference from an earlier one. -/
namespace Earley.Parser

variable {g : Grammar} {chart : Chart} {position : Nat}

theorem infers_scan_iff {id : Nat} {state next : State} {c : Char}
    (hAt : chart.At position id state) (hWord : chart.word[position]? = some c) :
    Infers g chart position id (position + 1) next ↔
      state.next? = some (.terminal (some c)) ∧ state.advance? = some next := by
  constructor
  · intro hInfers
    cases hInfers with
    | scan hSame hOther =>
        obtain rfl := hAt.unique hSame
        obtain rfl := Option.some.inj (hWord.symm.trans hOther)
        exact ⟨rfl, rfl⟩
  · obtain ⟨origin, lhs, before, after⟩ := state
    rintro ⟨hNext, hAdvance⟩
    obtain ⟨rest, rfl⟩ := List.head?_eq_some_iff.mp hNext
    obtain rfl := Option.some.inj hAdvance
    exact Infers.scan hAt hWord

/-- The states of a list that expect the character are all carried over it. -/
theorem scanStates_eq_ok (g : Grammar) {c : Char} {states : List (Nat × State)}
    (hChart : chart.WellFormed) (hWord : chart.word[position]? = some c)
    (hStates : ∀ id state, (id, state) ∈ states → chart.At position id state) :
    ∃ next, scanStates c position states chart = .ok next ∧ Grows g (position + 1) chart next ∧
      ∀ id state, (id, state) ∈ states → ∀ {found},
        Infers g chart position id (position + 1) found → next.Derived (position + 1) found id := by
  have hPosition : position + 1 ≤ chart.word.length := (List.getElem?_eq_some_iff.mp hWord).choose
  induction states generalizing chart with
  | nil => exact ⟨chart, rfl, Relation.ReflTransGen.refl, by simp⟩
  | cons first rest ih =>
      obtain ⟨id, state⟩ := first
      have hAt := hStates id state (List.mem_cons_self ..)
      have hTail (other : Nat) (found : State) (hMem : (other, found) ∈ rest) :
          chart.At position other found := hStates other found (List.mem_cons_of_mem _ hMem)
      by_cases hNext : state.next? = some (.terminal (some c))
      · obtain ⟨found, hAdvance⟩ : ∃ found, state.advance? = some found := by
          obtain ⟨rest, hAfter⟩ := List.head?_eq_some_iff.mp hNext
          exact ⟨_, by rw [State.advance?, hAfter]⟩
        have hInfers : Infers g chart position id (position + 1) found :=
          (infers_scan_iff hAt hWord).mpr ⟨hNext, hAdvance⟩
        have hStep := hInfers.grows_put hPosition
        have hExtends := hStep.extends hChart
        have hMiddle := hStep.wellFormed hChart
        obtain ⟨next, hRest, hGrows, hDerived⟩ := ih hMiddle (by rw [hExtends.word]; exact hWord)
          (fun other found hMem => hExtends.at_mono (hTail other found hMem))
          (by rw [hExtends.word]; exact hPosition)
        refine ⟨next, ?_, Relation.ReflTransGen.trans hStep hGrows, ?_⟩
        · have hAdvanced : state.advance = .ok found := by rw [State.advance, hAdvance]
          have hInsert : chart.insert found (position + 1) [(id : Int)] =
              .ok (chart.put found (position + 1) [id]) :=
            Chart.insert_eq_put hPosition hInfers.lt_size
          rw [scanStates, if_pos hNext, bind_of_eq_ok hAdvanced, bind_of_eq_ok hInsert]
          exact hRest
        · intro other otherState hMem goal hGoal
          rcases List.mem_cons.mp hMem with hSame | hMem
          · cases hSame
            obtain rfl : found = goal := by
              have hOther := ((infers_scan_iff hAt hWord).mp hGoal).2
              exact Option.some.inj (hAdvance.symm.trans hOther)
            apply (hGrows.extends hMiddle).derived_mono
            exact hInfers.derived_put hChart hPosition
          · exact hDerived other otherState hMem (hGoal.mono hExtends)
      · obtain ⟨next, hRest, hGrows, hDerived⟩ := ih hChart hWord hTail hPosition
        refine ⟨next, by rw [scanStates, if_neg hNext]; exact hRest, hGrows, ?_⟩
        intro other found hMem goal hInfers
        rcases List.mem_cons.mp hMem with hSame | hMem
        · cases hSame
          exact absurd ((infers_scan_iff hAt hWord).mp hInfers).1 hNext
        · exact hDerived other found hMem hInfers

theorem scan_eq_ok (g : Grammar) (position : Nat) (hChart : chart.WellFormed) :
    ∃ next, scan position chart = .ok next ∧ Grows g (position + 1) chart next ∧
      Saturated g next position (position + 1) := by
  cases hWord : chart.word[position]? with
  | none =>
      refine ⟨chart, by rw [scan, hWord], Relation.ReflTransGen.refl, ?_⟩
      intro id state hInfers
      cases hInfers with
      | scan _ hOther => simp [hWord] at hOther
  | some c =>
      have hPosition := (List.getElem?_eq_some_iff.mp hWord).choose
      obtain ⟨states, hStates, hMem⟩ := Chart.statesAt_eq_ok (Nat.le_of_lt hPosition)
      obtain ⟨next, hScan, hGrows, hDerived⟩ :=
        scanStates_eq_ok g hChart hWord fun id state hState => (hMem id state).mp hState
      have hExtends := hGrows.extends hChart
      refine ⟨next, by rw [scan, hWord]; exact (bind_of_eq_ok hStates).trans hScan, hGrows, ?_⟩
      intro id found hInfers
      obtain ⟨state, hAt⟩ := hInfers.exists_at
      have hBefore := hExtends.at_frame (Nat.ne_of_lt (Nat.lt_succ_self position)) hAt
      rw [infers_scan_iff hAt (by rw [hExtends.word]; exact hWord)] at hInfers
      exact hDerived id state ((hMem id state).mpr hBefore)
        ((infers_scan_iff hBefore hWord).mpr hInfers)

theorem Saturated.of_grows {target goal : Nat} {next : Chart}
    (hSaturated : Saturated g chart position goal) (hSound : Sound g chart)
    (hGrows : Grows g target chart next) (hEarlier : position < target) :
    Saturated g next position goal := by
  have hExtends := hGrows.extends hSound.wellFormed
  intro id state hInfers
  exact hExtends.derived_mono (hSaturated (hInfers.of_extends hExtends hEarlier hSound.origin_le))

theorem Saturated.of_closed (hClosed : Saturated g chart position position)
    (hScanned : Saturated g chart position (position + 1)) {target : Nat} :
    Saturated g chart position target := by
  intro id state hInfers
  cases hInfers with
  | predict hAt hRule => exact hClosed (Infers.predict hAt hRule)
  | complete hAt hWaiting => exact hClosed (Infers.complete hAt hWaiting)
  | scan hAt hWord => exact hScanned (Infers.scan hAt hWord)

/-- The chart of a word with nothing but the seed. -/
def seeded (g : Grammar) (word : List Char) : Chart := ((Chart.empty word).put (seed g) 0 []).1

theorem at_seeded_iff {word : List Char} {id : Nat} {state : State} :
    (seeded g word).At position id state ↔ position = 0 ∧ state = seed g ∧ id = 0 := by
  have hFind : (Chart.empty word).find? (seed g) 0 = none := by simp [Chart.find?]
  have hSize : (Chart.empty word).size = 0 := rfl
  rw [seeded, (Chart.wellFormed_empty word).at_put_iff (Nat.zero_le _), hFind, hSize]
  simp [Chart.At]

theorem sound_seeded (g : Grammar) (word : List Char) : Sound g (seeded g word) := by
  refine ⟨(Chart.wellFormed_empty word).put (Nat.zero_le _) (by simp), ?_⟩
  intro position id state hAt
  obtain ⟨rfl, rfl, rfl⟩ := at_seeded_iff.mp hAt
  exact ⟨0, rfl, Nat.le_refl _, .start, Grammar.Derives.refl _, .start⟩

/-- The chart grew out of the seed of the word, by insertions that the rules allow. Each of the
charts that a parser has in hand while it works on the word is one of these. -/
def Reached (g : Grammar) (word : List Char) : Chart → Prop :=
  Relation.ReflTransGen (fun before after => ∃ target, Inserts g target before after)
    (seeded g word)

theorem Reached.grows {word : List Char} {target : Nat} {next : Chart}
    (hReached : Reached g word chart) (hGrows : Grows g target chart next) : Reached g word next := by
  induction hGrows with
  | refl => exact hReached
  | tail _ hLast ih => exact Relation.ReflTransGen.tail ih ⟨target, hLast⟩

theorem Reached.wellFormed {word : List Char} (hReached : Reached g word chart) :
    chart.WellFormed := by
  induction hReached with
  | refl => exact (sound_seeded g word).wellFormed
  | tail _ hLast ih =>
      obtain ⟨_, hStep⟩ := hLast
      exact hStep.wellFormed ih

theorem Reached.word_eq {word : List Char} (hReached : Reached g word chart) :
    chart.word = word := by
  induction hReached with
  | refl => exact Chart.word_put
  | tail hPrior hLast ih =>
      obtain ⟨_, hStep⟩ := hLast
      exact (hStep.extends (Reached.wellFormed hPrior)).word.trans ih

theorem Reached.sound (hValid : g.Valid) {word : List Char} (hReached : Reached g word chart) :
    Sound g chart := by
  induction hReached with
  | refl => exact sound_seeded g word
  | tail _ hLast ih =>
      obtain ⟨_, hStep⟩ := hLast
      exact hStep.sound hValid ih

/-- A chart of the word whose positions before `count` are finished. -/
structure Charted (g : Grammar) (word : List Char) (count : Nat) (chart : Chart) : Prop where
  sound : Sound g chart
  reached : Reached g word chart
  word : chart.word = word
  seed : chart.At 0 0 (seed g)
  saturated : ∀ position target, position < count → Saturated g chart position target

theorem visit_eq_ok {parser : Parser} (hValid : parser.grammar.Valid) {word : List Char}
    {progress : Progress} (hCharted : Charted parser.grammar word position progress.chart)
    (hPosition : position ≤ word.length) :
    ∃ next, parser.visit progress position = .ok next ∧
      Charted parser.grammar word (position + 1) next.chart := by
  have hInside : position ≤ progress.chart.word.length := by
    rw [hCharted.word]
    exact hPosition
  obtain ⟨middle, hClose, hClosing, hClosed⟩ := close_eq_ok hValid hCharted.sound hInside
  have hMiddle := hClosing.sound hValid hCharted.sound
  obtain ⟨next, hScan, hScanning, hScanned⟩ :=
    scan_eq_ok parser.grammar position hMiddle.wellFormed
  have hFirst := hClosing.extends hCharted.sound.wellFormed
  have hSecond := hScanning.extends hMiddle.wellFormed
  refine ⟨⟨next, parser.record (.closed position middle.chart) middle.log⟩, ?_, ?_, ?_, ?_, ?_, ?_⟩
  · rw [visit, bind_of_eq_ok hClose]
    exact bind_of_eq_ok hScan
  · exact hScanning.sound hValid hMiddle
  · exact (hCharted.reached.grows hClosing).grows hScanning
  · exact hSecond.word.trans (hFirst.word.trans hCharted.word)
  · exact hSecond.at_mono (hFirst.at_mono hCharted.seed)
  · intro other target hOther
    rcases Nat.lt_succ_iff_lt_or_eq.mp hOther with hEarlier | rfl
    · have hBefore := hCharted.saturated other target hEarlier
      have hBetween := hBefore.of_grows hCharted.sound hClosing hEarlier
      exact hBetween.of_grows hMiddle hScanning hOther
    · exact Saturated.of_closed (hClosed.of_grows hMiddle hScanning hOther) hScanned

theorem charted_zero (g : Grammar) (word : List Char) : Charted g word 0 (seeded g word) :=
  ⟨sound_seeded g word, Relation.ReflTransGen.refl, Chart.word_put,
    at_seeded_iff.mpr ⟨rfl, rfl, rfl⟩, by simp⟩

/-- The progress on a word after its first positions were visited. -/
def visited (parser : Parser) (word : List Char) (count : Nat) : Except Error Progress :=
  (List.range count).foldlM parser.visit ⟨seeded parser.grammar word, #[]⟩

theorem visited_succ (parser : Parser) (word : List Char) (count : Nat) :
    parser.visited word (count + 1) =
      parser.visited word count >>= fun progress => parser.visit progress count := by
  rw [visited, List.range_succ, List.foldlM_append]
  simp [visited]

theorem makeChart_eq_visited (parser : Parser) (word : List Char) :
    parser.makeChart word = parser.visited word (word.length + 1) := by
  have hInsert : (Chart.empty word).insert (seed parser.grammar) 0 [] =
      .ok ((Chart.empty word).put (seed parser.grammar) 0 []) := by
    rw [Chart.insert_eq, if_neg (by omega), if_neg (by omega), if_pos (by simp)]
    rfl
  rw [makeChart, bind_of_eq_ok hInsert]
  rfl

theorem visited_eq_ok {parser : Parser} (hValid : parser.grammar.Valid) {word : List Char}
    {count : Nat} (hCount : count ≤ word.length + 1) :
    ∃ progress, parser.visited word count = .ok progress ∧
      Charted parser.grammar word count progress.chart := by
  induction count with
  | zero => exact ⟨_, rfl, charted_zero parser.grammar word⟩
  | succ count ih =>
      obtain ⟨progress, hPrior, hCharted⟩ := ih (Nat.le_of_succ_le hCount)
      obtain ⟨next, hVisit, hNext⟩ := visit_eq_ok hValid hCharted (Nat.le_of_lt_succ hCount)
      refine ⟨next, ?_, hNext⟩
      rw [visited_succ, bind_of_eq_ok hPrior]
      exact hVisit

/-- The chart of every word is built without error. -/
theorem makeChart_eq_ok {parser : Parser} (hValid : parser.grammar.Valid) (word : List Char) :
    ∃ progress, parser.makeChart word = .ok progress ∧
      Charted parser.grammar word (word.length + 1) progress.chart := by
  rw [makeChart_eq_visited]
  exact visited_eq_ok hValid (Nat.le_refl _)

end Earley.Parser
