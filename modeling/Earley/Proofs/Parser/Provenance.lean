import Earley.Proofs.Parser.Completeness

/-! Where back-pointers come from. Only the three rules add pointers, and a finished chart lacks
none that a rule allows. So the pointers of a state are the entries that a rule infers it from. -/
namespace Earley.Parser

variable {g : Grammar} {chart : Chart} {word : List Char} {position id : Nat}

/-- Every back-pointer is due to a rule, and the first entry is the only one that may have none. -/
structure Traced (g : Grammar) (chart : Chart) : Prop where
  inferred : ∀ {position state source}, chart.Derived position state source →
    ∃ place, Infers g chart place source position state
  rooted : ∀ {position id state}, chart.At position id state →
    id = 0 ∨ ∃ source, source ∈ chart.pointers id

theorem not_derived_seeded {state : State} {source : Nat} :
    ¬ (seeded g word).Derived position state source := by
  intro hDerived
  rcases ((Chart.wellFormed_empty word).derived_put_iff (Nat.zero_le _) (by simp)).mp hDerived with
    ⟨_, hAt, _⟩ | ⟨_, _, hSource⟩
  · exact Nat.not_lt_zero _ hAt.lt_size
  · cases hSource

theorem traced_seeded (g : Grammar) (word : List Char) : Traced g (seeded g word) :=
  ⟨fun hDerived => absurd hDerived not_derived_seeded,
    fun hAt => Or.inl (at_seeded_iff.mp hAt).2.2⟩

theorem Inserts.traced {target : Nat} {next : Chart} (hStep : Inserts g target chart next)
    (hChart : chart.WellFormed) (hTraced : Traced g chart) : Traced g next := by
  have hExtends := hStep.extends hChart
  obtain ⟨hTarget, place, source, state, hInfers, rfl⟩ := hStep
  refine ⟨?_, ?_⟩
  · intro other found pointer hDerived
    rcases (hChart.derived_put_iff hTarget hInfers.sources_lt).mp hDerived with
      hOld | ⟨rfl, rfl, hNew⟩
    · obtain ⟨origin, hOrigin⟩ := hTraced.inferred hOld
      exact ⟨origin, hOrigin.mono hExtends⟩
    · rw [List.mem_singleton.mp hNew]
      exact ⟨place, hInfers.mono hExtends⟩
  · intro other id found hAt
    rcases (hChart.at_put_iff hTarget).mp hAt with hOld | ⟨rfl, rfl, _⟩
    · rcases hTraced.rooted hOld with hFirst | ⟨pointer, hPointer⟩
      · exact Or.inl hFirst
      · exact Or.inr ⟨pointer, (hChart.mem_pointers_put_iff hTarget).mpr (Or.inl hPointer)⟩
    · exact Or.inr ⟨source, (hChart.mem_pointers_put_iff hTarget).mpr
        (Or.inr ⟨List.mem_singleton_self _, hAt⟩)⟩

theorem Reached.traced (hReached : Reached g word chart) : Traced g chart := by
  induction hReached with
  | refl => exact traced_seeded g word
  | tail hPrior hLast ih =>
      obtain ⟨_, hStep⟩ := hLast
      exact hStep.traced (Reached.wellFormed hPrior) ih

/-- In a finished chart, the back-pointers of a state are the entries that a rule infers it from. -/
theorem Charted.mem_pointers_iff (hCharted : Charted g word (word.length + 1) chart)
    {state : State} (hAt : chart.At position id state) {source : Nat} :
    source ∈ chart.pointers id ↔ ∃ place, Infers g chart place source position state := by
  constructor
  · intro hSource
    exact hCharted.reached.traced.inferred ⟨id, hAt, hSource⟩
  · rintro ⟨place, hInfers⟩
    obtain ⟨other, hOther, hSource⟩ := hCharted.derived_of_infers hInfers
    rwa [hCharted.sound.wellFormed.distinct hOther hAt] at hSource

theorem infers_initial_iff {place source : Nat} {origin : Int} {lhs : Symbol} {after : Form} :
    Infers g chart place source position ⟨origin, lhs, [], after⟩ ↔
      place = position ∧ origin = position ∧
        (∃ head, lhs = .nonterminal (some head) ∧ g.Produces head after) ∧
        ∃ state, chart.At position source state ∧ state.next? = some lhs := by
  constructor
  · intro hInfers
    generalize hState : State.mk origin lhs [] after = state at hInfers
    cases hInfers with
    | predict hAt hRule =>
        cases hState
        exact ⟨rfl, rfl, ⟨_, rfl, hRule⟩, _, hAt, rfl⟩
    | complete _ _ => simp at hState
    | scan _ _ => simp at hState
  · rintro ⟨rfl, rfl, ⟨head, rfl, hRule⟩, ⟨outer, above, front, back⟩, hAt, hNext⟩
    obtain ⟨rest, rfl⟩ := List.head?_eq_some_iff.mp hNext
    exact Infers.predict hAt hRule

/-- A state with a symbol before its dot is inferred by moving the dot over that symbol. -/
theorem infers_advanced_iff {place source : Nat} {origin : Int} {lhs symbol : Symbol}
    {front after : Form} :
    Infers g chart place source position ⟨origin, lhs, front ++ [symbol], after⟩ ↔
      (∃ c, symbol = .terminal (some c) ∧ position = place + 1 ∧ chart.word[place]? = some c ∧
        chart.At place source ⟨origin, lhs, front, symbol :: after⟩) ∨
      (place = position ∧ ∃ (inner : Nat) (body : Form),
        chart.At position source ⟨inner, symbol, body, []⟩ ∧
        chart.Holds inner ⟨origin, lhs, front, symbol :: after⟩) := by
  constructor
  · intro hInfers
    generalize hState : State.mk origin lhs (front ++ [symbol]) after = state at hInfers
    cases hInfers with
    | predict _ _ => simp at hState
    | complete hAt hWaiting =>
        obtain ⟨rfl, rfl, hBefore, rfl⟩ := State.mk.inj hState
        obtain ⟨rfl, hSymbol⟩ := List.append_inj' hBefore rfl
        cases hSymbol
        exact Or.inr ⟨rfl, _, _, hAt, _, hWaiting⟩
    | scan hAt hWord =>
        obtain ⟨rfl, rfl, hBefore, rfl⟩ := State.mk.inj hState
        obtain ⟨rfl, hSymbol⟩ := List.append_inj' hBefore rfl
        cases hSymbol
        exact Or.inl ⟨_, rfl, rfl, hWord, hAt⟩
  · rintro (⟨c, rfl, rfl, hWord, hAt⟩ | ⟨rfl, inner, body, hAt, waitingId, hWaiting⟩)
    · exact Infers.scan hAt hWord
    · exact Infers.complete hAt hWaiting

theorem Charted.exists_infers (hCharted : Charted g word (word.length + 1) chart) {state : State}
    (hAt : chart.At position id state) (hId : id ≠ 0) :
    ∃ source ∈ chart.pointers id, ∃ place, Infers g chart place source position state := by
  rcases hCharted.reached.traced.rooted hAt with hFirst | ⟨source, hSource⟩
  · exact absurd hFirst hId
  · exact ⟨source, hSource, (hCharted.mem_pointers_iff hAt).mp hSource⟩

/-- The first entry is the seed, so an entry that moved its dot is another one. -/
theorem Charted.ne_zero (hCharted : Charted g word (word.length + 1) chart) {origin : Int}
    {lhs symbol : Symbol} {front after : Form}
    (hAt : chart.At position id ⟨origin, lhs, front ++ [symbol], after⟩) : id ≠ 0 := by
  rintro rfl
  have hSeed := congrArg State.before (hAt.unique hCharted.seed)
  simp [Parser.seed, State.initial] at hSeed

theorem Charted.pointers_seed (hCharted : Charted g word (word.length + 1) chart) :
    chart.pointers 0 = [] := by
  apply List.eq_nil_iff_forall_not_mem.mpr
  intro source hSource
  obtain ⟨_, hInfers⟩ := (hCharted.mem_pointers_iff hCharted.seed).mp hSource
  obtain ⟨_, _, ⟨head, hLhs, _⟩, _⟩ := infers_initial_iff.mp hInfers
  cases hLhs

/-- A rule that was predicted begins where it was predicted, and points to all entries there that
expect its left side. -/
theorem Charted.mem_pointers_initial_iff (hCharted : Charted g word (word.length + 1) chart)
    {origin : Int} {lhs : Symbol} {after : Form} (hId : id ≠ 0)
    (hAt : chart.At position id ⟨origin, lhs, [], after⟩) :
    origin = position ∧ ∀ source, source ∈ chart.pointers id ↔
      ∃ state, chart.At position source state ∧ state.next? = some lhs := by
  obtain ⟨_, _, _, hInfers⟩ := hCharted.exists_infers hAt hId
  obtain ⟨_, hOrigin, hRule, _⟩ := infers_initial_iff.mp hInfers
  refine ⟨hOrigin, ?_⟩
  intro source
  rw [hCharted.mem_pointers_iff hAt]
  constructor
  · rintro ⟨_, hInfers⟩
    exact (infers_initial_iff.mp hInfers).2.2.2
  · intro hExpects
    exact ⟨position, infers_initial_iff.mpr ⟨rfl, hOrigin, hRule, hExpects⟩⟩

/-- A dot that moved over a terminal leaves one pointer, to the state before the move. No state has
a terminal on its left side, so nothing but scanning can have moved the dot. -/
theorem Charted.mem_pointers_terminal_iff (hCharted : Charted g word (word.length + 1) chart)
    {origin : Int} {lhs : Symbol} {letter : Letter} {front after : Form}
    (hAt : chart.At position id ⟨origin, lhs, front ++ [.terminal letter], after⟩) :
    ∃ place c only, position = place + 1 ∧ letter = some c ∧ word[place]? = some c ∧
      chart.At place only ⟨origin, lhs, front, .terminal letter :: after⟩ ∧
      ∀ source, source ∈ chart.pointers id ↔ source = only := by
  have hScanned {place source : Nat} (hInfers : Infers g chart place source position
      ⟨origin, lhs, front ++ [.terminal letter], after⟩) :
      ∃ c, letter = some c ∧ position = place + 1 ∧ chart.word[place]? = some c ∧
        chart.At place source ⟨origin, lhs, front, .terminal letter :: after⟩ := by
    rcases infers_advanced_iff.mp hInfers with
      ⟨c, hLetter, hPlace⟩ | ⟨_, inner, body, hCompleted, _⟩
    · cases hLetter
      exact ⟨c, rfl, hPlace⟩
    · have hLhs := (hCharted.sound.hasRule hCompleted.2).isTerminal_lhs
      cases hLhs
  obtain ⟨only, _, place, hInfers⟩ := hCharted.exists_infers hAt (hCharted.ne_zero hAt)
  obtain ⟨c, hLetter, hPosition, hWord, hOnly⟩ := hScanned hInfers
  refine ⟨place, c, only, hPosition, hLetter, hCharted.word ▸ hWord, hOnly, ?_⟩
  intro source
  rw [hCharted.mem_pointers_iff hAt]
  constructor
  · rintro ⟨other, hOther⟩
    obtain ⟨_, _, hSame, _, hSource⟩ := hScanned hOther
    obtain rfl : place = other := Nat.succ.inj (hPosition.symm.trans hSame)
    exact hCharted.sound.wellFormed.distinct hSource hOnly
  · rintro rfl
    exact ⟨place, hInfers⟩

/-- A dot that moved over a nonterminal leaves pointers to all entries at the position that
complete the nonterminal from a place where it was waited for. -/
theorem Charted.mem_pointers_nonterminal_iff (hCharted : Charted g word (word.length + 1) chart)
    {origin : Int} {lhs : Symbol} {letter : Letter} {front after : Form}
    (hAt : chart.At position id ⟨origin, lhs, front ++ [.nonterminal letter], after⟩)
    (source : Nat) :
    source ∈ chart.pointers id ↔ ∃ (inner : Nat) (body : Form),
      chart.At position source ⟨inner, .nonterminal letter, body, []⟩ ∧
      chart.Holds inner ⟨origin, lhs, front, .nonterminal letter :: after⟩ := by
  rw [hCharted.mem_pointers_iff hAt]
  constructor
  · rintro ⟨_, hInfers⟩
    rcases infers_advanced_iff.mp hInfers with ⟨_, hLetter, _⟩ | ⟨_, hCompleted⟩
    · cases hLetter
    · exact hCompleted
  · intro hCompleted
    exact ⟨position, infers_advanced_iff.mpr (Or.inr ⟨rfl, hCompleted⟩)⟩

/-- The back-pointers in the chart of a word, exactly. The seed has none. Any other state with the
dot in front points to all entries of its position that expect its left side. After a terminal,
the word has that terminal, and the only pointer is to the state before it. After a nonterminal,
the pointers are to all complete entries of the position for that nonterminal, from wherever the
state before it stands. -/
theorem makeChart_pointers_iff (hValid : g.validate = .ok ()) (limit : Int) (trace : Bool)
    (word : List Char) :
    ∃ progress, makeChart ⟨g, limit, trace⟩ word = .ok progress ∧
      (∀ id < progress.chart.size, ∃ position ≤ word.length, ∃ state,
        progress.chart.At position id state) ∧
      progress.chart.At 0 0 (seed g) ∧ progress.chart.pointers 0 = [] ∧
      ∀ position id origin lhs after,
        (id ≠ 0 → progress.chart.At position id ⟨origin, lhs, [], after⟩ →
          origin = position ∧ ∀ source, source ∈ progress.chart.pointers id ↔
            ∃ state, progress.chart.At position source state ∧ state.next? = some lhs) ∧
        (∀ front letter,
          progress.chart.At position id ⟨origin, lhs, front ++ [.terminal letter], after⟩ →
          ∃ place c only, position = place + 1 ∧ letter = some c ∧ word[place]? = some c ∧
            progress.chart.At place only ⟨origin, lhs, front, .terminal letter :: after⟩ ∧
            ∀ source, source ∈ progress.chart.pointers id ↔ source = only) ∧
        ∀ front letter,
          progress.chart.At position id ⟨origin, lhs, front ++ [.nonterminal letter], after⟩ →
          ∀ source, source ∈ progress.chart.pointers id ↔ ∃ (inner : Nat) (body : Form),
            progress.chart.At position source ⟨inner, .nonterminal letter, body, []⟩ ∧
            progress.chart.Holds inner ⟨origin, lhs, front, .nonterminal letter :: after⟩ := by
  obtain ⟨progress, hChart, hCharted⟩ :=
    @makeChart_eq_ok ⟨g, limit, trace⟩ (Grammar.valid_of_validate hValid) word
  refine ⟨progress, hChart, ?_, hCharted.seed, hCharted.pointers_seed, ?_⟩
  · intro id hId
    obtain ⟨position, state, hAt⟩ := hCharted.sound.wellFormed.exists_at hId
    have hPosition := hCharted.sound.wellFormed.position_le hAt.1
    rw [hCharted.word] at hPosition
    exact ⟨position, hPosition, state, hAt⟩
  · intro position id origin lhs after
    refine ⟨fun hId hAt => hCharted.mem_pointers_initial_iff hId hAt, ?_, ?_⟩
    · intro front letter hAt
      exact hCharted.mem_pointers_terminal_iff hAt
    · intro front letter hAt
      exact hCharted.mem_pointers_nonterminal_iff hAt

theorem makeChart_pointers_doubling :
    Grammar.doubling.validate = .ok () ∧
      ∃ progress, makeChart ⟨Grammar.doubling, 0, false⟩ ['a'] = .ok progress ∧
        progress.chart.At 1 7 ⟨0, .nonterminal (some 'S'), [.terminal (some 'a')], []⟩ ∧
        ∃ only, (∀ source, source ∈ progress.chart.pointers 7 ↔ source = only) ∧
          progress.chart.At 0 only ⟨0, .nonterminal (some 'S'), [], [.terminal (some 'a')]⟩ := by
  obtain ⟨progress, hChart, _, _, _, hPointers⟩ :=
    makeChart_pointers_iff Grammar.validate_doubling 0 false ['a']
  have hAt : progress.chart.At 1 7 ⟨0, .nonterminal (some 'S'), [.terminal (some 'a')], []⟩ := by
    have hComputed : (makeChart ⟨Grammar.doubling, 0, false⟩ ['a']).toOption.all (fun progress =>
        progress.chart.At 1 7 ⟨0, .nonterminal (some 'S'), [.terminal (some 'a')], []⟩) := by
      decide +kernel
    rw [hChart] at hComputed
    exact of_decide_eq_true hComputed
  obtain ⟨place, c, only, hPlace, _, _, hOnly, hSame⟩ :=
    (hPointers 1 7 0 (.nonterminal (some 'S')) []).2.1 [] (some 'a') hAt
  obtain rfl : place = 0 := by omega
  exact ⟨rfl, progress, hChart, hAt, only, hSame, hOnly⟩

end Earley.Parser
