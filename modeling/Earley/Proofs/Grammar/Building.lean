import Earley.Proofs.Grammar.Sharing

/-! Grammars that are built from a list of productions at once: when there is one, what it is, and
which names are reported if that is all that is wrong. -/
namespace Earley

namespace Grammar

variable {g : Grammar} {start : StartChoice} {productions : List Production}
  {letter other : Letter}

/-- The start symbol that a choice means. There is none for a name of several characters, for a
terminal, and for the first left side of no productions. -/
inductive StartChoice.Means (productions : List Production) : StartChoice → Letter → Prop where
  | first {production : Production} {rest : List Production}
      (hProductions : productions = production :: rest) : Means productions .first production.lhs
  | named (letter : Letter) : Means productions (.named letter.toList) letter
  | given (letter : Letter) : Means productions (.given (.nonterminal letter)) letter

/-- One production for each left side, in the order in which the left sides occur first, with all
their alternatives, each where it occurs first. -/
def merged (productions : List Production) : List Production :=
  (productions.map Production.lhs).eraseDups.map fun lhs => ⟨lhs, ((productions.filter
    fun production => production.lhs = lhs).flatMap Production.alternatives).eraseDups⟩

theorem eraseDups_map {α β : Type} [BEq α] [LawfulBEq α] [BEq β] [LawfulBEq β] {f : α → β}
    (hInjective : Function.Injective f) (values : List α) :
    (values.map f).eraseDups = values.eraseDups.map f := by
  induction values using List.reverseRecOn with
  | nil => rfl
  | append_singleton values value ih =>
      by_cases hMem : value ∈ values
      · rw [List.map_append, List.map_singleton, eraseDups_append_of_mem hMem,
          eraseDups_append_of_mem (List.mem_map_of_mem hMem), ih]
      · have hNew : f value ∉ values.map f := by simpa [hInjective.eq_iff] using hMem
        rw [List.map_append, List.map_singleton, eraseDups_append_of_notMem hMem,
          eraseDups_append_of_notMem hNew, ih, List.map_append, List.map_singleton]

theorem map_ofEntry_collect (added : List (Char × List Form)) :
    (collect added).map ofEntry = merged (added.map ofEntry) := by
  have hHeads : ((added.map ofEntry).map Production.lhs).eraseDups =
      (added.map Prod.fst).eraseDups.map some := by
    have hSome : Function.Injective (some : Char → Letter) := fun _ _ => Option.some.inj
    rw [← eraseDups_map hSome, List.map_map, List.map_map]
    rfl
  rw [merged, hHeads, collect, List.map_map, List.map_map]
  refine List.map_congr_left fun head _ => ?_
  simp [ofEntry, alternativesOf, List.filter_map, List.flatMap_map, Function.comp_def]

theorem foldlM_add (g : Grammar) (added : List (Char × List Form)) :
    (added.map ofEntry).foldlM add g = .ok (g.extendAll added) := by
  induction added generalizing g with
  | nil => rfl
  | cons entry rest ih => exact ih (g.extend entry.1 entry.2)

/-- A production without a name for its left side cannot be added, and the first one ends the
building. -/
theorem foldlM_add_of_unnamed {production : Production} (hMem : production ∈ productions)
    (hUnnamed : production.lhs = none) (g : Grammar) :
    productions.foldlM add g = .error .emptyLeftSide := by
  induction productions generalizing g with
  | nil => cases hMem
  | cons first rest ih =>
      rw [List.foldlM_cons, add]
      cases hFirst : first.lhs with
      | none => rfl
      | some head =>
          rcases List.mem_cons.mp hMem with rfl | hRest
          · rw [hFirst] at hUnnamed
            cases hUnnamed
          · exact ih hRest _

theorem exists_added (hHeads : ∀ production ∈ productions, production.lhs ≠ none) :
    ∃ added : List (Char × List Form), productions = added.map ofEntry := by
  induction productions with
  | nil => exact ⟨[], rfl⟩
  | cons first rest ih =>
      obtain ⟨added, rfl⟩ := ih fun production hMem =>
        hHeads production (List.mem_cons_of_mem _ hMem)
      obtain ⟨head, hHead⟩ := Option.ne_none_iff_exists'.mp (hHeads first (List.mem_cons_self ..))
      refine ⟨(head, first.alternatives) :: added, ?_⟩
      rw [List.map_cons, ofEntry, ← hHead]

theorem ofName_eq_ok_iff {name : List Char} :
    Letter.ofName name = .ok letter ↔ name = letter.toList := by
  fun_cases Letter.ofList? name <;> cases letter <;> simp_all [Letter.ofName, Letter.ofList?]

theorem resolve_eq_ok_iff :
    start.resolve productions = .ok (.nonterminal letter) ↔ start.Means productions letter := by
  constructor
  · intro hStart
    cases start with
    | first =>
        cases productions with
        | nil => cases hStart
        | cons production rest =>
            cases hStart
            exact .first rfl
    | named name =>
        rw [StartChoice.resolve] at hStart
        cases hName : Letter.ofName name with
        | error error =>
            rw [hName] at hStart
            cases hStart
        | ok other =>
            rw [hName] at hStart
            cases hStart
            rw [ofName_eq_ok_iff.mp hName]
            exact .named letter
    | given symbol =>
        cases hStart
        exact .given letter
  · intro hMeans
    cases hMeans with
    | first hProductions =>
        subst hProductions
        rfl
    | named letter =>
        rw [StartChoice.resolve, ofName_eq_ok_iff.mpr rfl]
        rfl
    | given letter => rfl

/-- What building comes to once the start symbol is known and every left side has a name. -/
theorem build_eq {added : List (Char × List Form)}
    (hStart : start.Means (added.map ofEntry) letter) :
    build start (added.map ofEntry) =
      (Grammar.mk letter (collect added)).validate.map fun _ => ⟨letter, collect added⟩ := by
  have hEmpty : ofStart (.nonterminal letter) = .ok (empty letter) := rfl
  rw [build, bind_of_eq_ok (resolve_eq_ok_iff.mpr hStart), bind_of_eq_ok hEmpty,
    bind_of_eq_ok (foldlM_add (empty letter) added), extendAll_empty]
  cases (Grammar.mk letter (collect added)).validate <;> rfl

/-- The productions make a grammar with the start symbol. -/
structure Builds (start : StartChoice) (productions : List Production) (letter : Letter) :
    Prop where
  means : start.Means productions letter
  named : Named productions
  complete : ∀ other, ¬ Lacks letter productions other

/-- A grammar that was built has a start symbol, and all its left sides have names. -/
theorem exists_of_build (hBuild : build start productions = .ok g) :
    ∃ (letter : Letter) (added : List (Char × List Form)),
      start.Means productions letter ∧ productions = added.map ofEntry := by
  obtain ⟨symbol, hStart, hBuild⟩ := bind_eq_ok_iff.mp hBuild
  obtain ⟨initial, hInitial, hBuild⟩ := bind_eq_ok_iff.mp hBuild
  obtain ⟨grammar, hAdded, -⟩ := bind_eq_ok_iff.mp hBuild
  cases symbol with
  | terminal letter => cases hInitial
  | nonterminal letter =>
      have hHeads : ∀ production ∈ productions, production.lhs ≠ none := by
        intro production hMem hUnnamed
        rw [foldlM_add_of_unnamed hMem hUnnamed] at hAdded
        cases hAdded
      obtain ⟨added, hSame⟩ := exists_added hHeads
      exact ⟨letter, added, resolve_eq_ok_iff.mp hStart, hSame⟩

theorem builds_of_build (hBuild : build start productions = .ok g) :
    Builds start productions g.start ∧ g.productions = merged productions := by
  obtain ⟨letter, added, hMeans, rfl⟩ := exists_of_build hBuild
  rw [build_eq hMeans] at hBuild
  cases hValid : (Grammar.mk letter (collect added)).validate with
  | error error =>
      rw [hValid] at hBuild
      cases hBuild
  | ok valid =>
      rw [hValid] at hBuild
      cases hBuild
      obtain ⟨hNamed, hComplete⟩ := (validate_collected_iff rfl).mp hValid
      exact ⟨⟨hMeans, hNamed, hComplete⟩, map_ofEntry_collect added⟩

theorem exists_build_iff :
    (∃ g, build start productions = .ok g) ↔ ∃ letter, Builds start productions letter := by
  constructor
  · rintro ⟨g, hBuild⟩
    exact ⟨g.start, (builds_of_build hBuild).1⟩
  · rintro ⟨letter, hBuilds⟩
    obtain ⟨added, rfl⟩ := exists_added hBuilds.named.heads
    have hValid : (Grammar.mk letter (collect added)).validate = .ok () :=
      (validate_collected_iff rfl).mpr ⟨hBuilds.named, hBuilds.complete⟩
    exact ⟨⟨letter, collect added⟩, by rw [build_eq hBuilds.means, hValid]; rfl⟩

/-- If nothing else is wrong, the names that lack a production are reported, ascending. -/
theorem build_eq_undefined (hMeans : start.Means productions letter) (hNamed : Named productions)
    (hLacks : Lacks letter productions other) :
    ∃ names, build start productions = .error (.undefined names) ∧ names.Pairwise (· < ·) ∧
      ∀ name, name ∈ names ↔
        ∃ missing : Letter, Lacks letter productions missing ∧ name = missing.toList := by
  obtain ⟨added, rfl⟩ := exists_added hNamed.heads
  let g : Grammar := ⟨letter, collect added⟩
  have hEntries : g.entries = collect added := rfl
  have hReported {name : List Char} : name ∈ g.undefined ↔
      ∃ missing : Letter, Lacks letter (added.map ofEntry) missing ∧ name = missing.toList := by
    simp only [mem_undefined_iff, used_and_undefined_iff hEntries]
    rfl
  have hMissing : g.undefined ≠ [] := List.ne_nil_of_mem (hReported.mpr ⟨other, hLacks, rfl⟩)
  obtain ⟨hAscending, hSame⟩ := foldr_insertAscending g.undefined
  refine ⟨_, ?_, hAscending, fun name => (hSame name).trans hReported⟩
  rw [build_eq hMeans, validate_eq_error ((named_collected_iff hEntries).mpr hNamed) hMissing]
  rfl

end Grammar

namespace Draft

variable {store : Array Production} {letter : Letter} {draft next : Draft}

/-- A draft made from the productions of a store: only the stored ones may have grown. -/
structure Keeps (letter : Letter) (store : Array Production) (draft : Draft) : Prop where
  sound : Sound letter draft
  grows : GrowsTo ⟨letter, store, []⟩ draft
  unstored : ∀ {handle : Nat}, (∀ head, (head, handle) ∉ draft.heads) →
    draft.productions[handle]? = store[handle]?

theorem keeps_initial (hDistinct : ∀ production ∈ store, production.alternatives.Nodup) :
    Keeps letter store ⟨letter, store, []⟩ where
  sound := ⟨⟨rfl, List.nodup_nil, by simp⟩,
    fun hProduction => hDistinct _ (Array.mem_of_getElem? hProduction), by simp⟩
  grows := GrowsTo.refl _
  unstored _ := rfl

section Keeps

variable (hDraft : Keeps letter store draft) {handle : Nat} {head : Char} {production : Production}
  (hProduction : store[handle]? = some production)
include hDraft hProduction

/-- What a production has grown by is in the grammar already, so that adding it means to add what
it was at first. -/
theorem Keeps.add_of_named (hHead : production.lhs = some head) :
    ∃ next, draft.add handle = .ok next ∧ Keeps letter store next ∧
      next.grammar = draft.grammar.extend head production.alternatives := by
  obtain ⟨current, hCurrent, hLeft, hPrefix⟩ := hDraft.grows.productions hProduction
  obtain ⟨next, hPerform, hAdds⟩ := hDraft.sound.adds hCurrent (hLeft.trans hHead)
  have hChange : Change draft next := change_of_perform hPerform
  have hUnstored {other : Nat} (hOther : ∀ head, (head, other) ∉ next.heads) :
      next.productions[other]? = store[other]? := by
    have hOld : ∀ head, (head, other) ∉ draft.heads := fun head hMem =>
      hOther head (hChange.growsTo.heads.subset hMem)
    rw [hAdds.unchanged other fun hStored => hOld head (hDraft.sound.lookup_eq_some_iff.mp hStored)]
    exact hDraft.unstored hOld
  have hKeeps : Keeps letter store next :=
    ⟨hDraft.sound.change hChange, hDraft.grows.trans hChange.growsTo, hUnstored⟩
  refine ⟨next, hPerform, hKeeps, ?_⟩
  rw [hAdds.grammar_eq]
  by_cases hStored : draft.heads.lookup head = some handle
  · rw [← hDraft.sound.grammar_grow hStored, ← hDraft.sound.grammar_grow hStored,
      grow_eq_self hCurrent (List.Subset.refl _), grow_eq_self hCurrent hPrefix.subset]
  · have hNowhere : ∀ other, (other, handle) ∉ draft.heads := by
      intro other hEntry
      obtain ⟨same, hSame, hOther⟩ := hDraft.sound.stored hEntry
      rw [hCurrent] at hSame
      cases hSame
      rw [hLeft, hHead] at hOther
      cases hOther
      exact hStored (hDraft.sound.lookup_eq_some_iff.mpr hEntry)
    have hSame := hDraft.unstored hNowhere
    rw [hCurrent, hProduction] at hSame
    cases hSame
    rfl

theorem Keeps.add_of_unnamed (hUnnamed : production.lhs = none) :
    draft.add handle = .error .emptyLeftSide := by
  obtain ⟨current, hCurrent, hLeft, -⟩ := hDraft.grows.productions hProduction
  exact perform_add_of_unnamed hCurrent (hLeft.trans hUnnamed)

end Keeps

/-- It makes no difference for the grammar that productions grow while they are added. -/
theorem Keeps.foldlM_add (hDraft : Keeps letter store draft) (handles : List (Fin store.size)) :
    (handles.foldlM (fun (draft : Draft) (handle : Fin _) => draft.add handle) draft).map grammar =
      (listed store handles).foldlM Grammar.add draft.grammar := by
  induction handles generalizing draft with
  | nil => rfl
  | cons handle rest ih =>
      have hProduction : store[handle.val]? = some store[handle] := by simp
      rw [List.foldlM_cons, listed, List.map_cons, List.foldlM_cons, Grammar.add]
      cases hHead : store[handle].lhs with
      | none =>
          rw [hDraft.add_of_unnamed hProduction hHead]
          rfl
      | some head =>
          obtain ⟨next, hAdd, hNext, hGrammar⟩ := hDraft.add_of_named hProduction hHead
          rw [bind_of_eq_ok hAdd, ih hNext, hGrammar]
          rfl

/-- What two computations have in common stays so if they go on alike. -/
theorem map_bind_eq {ε α β γ δ : Type} {x : Except ε α} {y : Except ε β} {f : α → β}
    {k : α → Except ε γ} {l : β → Except ε δ} {g : γ → δ} (hSame : x.map f = y)
    (hRest : ∀ value, (k value).map g = l (f value)) : (x >>= k).map g = y >>= l := by
  subst hSame
  cases x with
  | error error => rfl
  | ok value => exact hRest value

/-- A grammar is built from shared productions as it is from what they are before. -/
theorem map_grammar_build (start : Grammar.StartChoice)
    (hDistinct : ∀ production ∈ store, production.alternatives.Nodup)
    (handles : List (Fin store.size)) : (build start store handles).map grammar =
      Grammar.build start (listed store handles) := by
  rw [build, Grammar.build]
  cases start.resolve (listed store handles) with
  | error error => rfl
  | ok symbol =>
      cases symbol with
      | terminal letter => rfl
      | nonterminal letter =>
          have hInitial : Keeps letter store ⟨letter, store, []⟩ := keeps_initial hDistinct
          have hStart : ofStart (.nonterminal letter) = .ok ⟨letter, #[], []⟩ := rfl
          have hEmpty : Grammar.ofStart (.nonterminal letter) = .ok (.empty letter) := rfl
          rw [bind_of_eq_ok rfl, bind_of_eq_ok rfl, bind_of_eq_ok hStart, bind_of_eq_ok hEmpty]
          refine map_bind_eq (hInitial.foldlM_add handles) fun draft => ?_
          cases draft.grammar.validate <;> rfl

/-- Productions of a store are built into a grammar exactly if the start symbol is known, every
symbol has a name, and no production is lacking. The same production may be listed again and again,
and the first of a left side grows while the others are added. Still the grammar is what the
productions, as they are before, merge into. -/
theorem build_merged (start : Grammar.StartChoice)
    (hDistinct : ∀ production ∈ store, production.alternatives.Nodup)
    (handles : List (Fin store.size)) :
    let productions := listed store handles
    ((∃ draft, build start store handles = .ok draft) ↔
      ∃ letter, Grammar.Builds start productions letter) ∧
    (∀ draft, build start store handles = .ok draft →
      Grammar.Builds start productions draft.grammar.start ∧
        draft.grammar.productions = Grammar.merged productions) ∧
    ∀ letter, start.Means productions letter → Grammar.Named productions →
      (∃ other, Grammar.Lacks letter productions other) →
        ∃ names, build start store handles = .error (.undefined names) ∧
          names.Pairwise (· < ·) ∧ ∀ name, name ∈ names ↔
            ∃ missing : Letter,
              Grammar.Lacks letter productions missing ∧ name = missing.toList := by
  intro productions
  have hSame := map_grammar_build start hDistinct handles
  refine ⟨?_, ?_, ?_⟩
  · rw [← Grammar.exists_build_iff, ← hSame]
    cases build start store handles <;> simp [Except.map]
  · intro draft hBuild
    rw [hBuild] at hSame
    exact Grammar.builds_of_build hSame.symm
  · intro letter hMeans hNamed hLacks
    obtain ⟨other, hOther⟩ := hLacks
    obtain ⟨names, hBuild, hNames⟩ := Grammar.build_eq_undefined hMeans hNamed hOther
    rw [← hSame] at hBuild
    cases hDraft : build start store handles with
    | ok draft =>
        rw [hDraft] at hBuild
        cases hBuild
    | error error =>
        rw [hDraft] at hBuild
        cases hBuild
        exact ⟨names, rfl, hNames⟩

/-- Two productions of one left side, and one of another. -/
def halves : Array Production :=
  #[⟨some 'S', [[.nonterminal (some 'A')], []]⟩, ⟨some 'A', [[.terminal (some 'a')]]⟩,
    ⟨some 'S', [[], [.nonterminal (some 'S'), .nonterminal (some 'A')]]⟩]

/-- All of them, the first one twice. -/
def allHalves : List (Fin halves.size) :=
  [⟨0, by decide⟩, ⟨1, by decide⟩, ⟨2, by decide⟩, ⟨0, by decide⟩]

/-- Those of the one left side, the last one twice. -/
def lastHalves : List (Fin halves.size) := [⟨2, by decide⟩, ⟨2, by decide⟩, ⟨0, by decide⟩]

theorem build_merged_halves :
    (∃ draft, build .first halves allHalves = .ok draft ∧ draft.grammar.productions =
      [⟨some 'S', [[.nonterminal (some 'A')], [], [.nonterminal (some 'S'),
        .nonterminal (some 'A')]]⟩, ⟨some 'A', [[.terminal (some 'a')]]⟩]) ∧
    ∃ names, build (.named ['B']) halves lastHalves = .error (.undefined names) ∧
      names.Pairwise (· < ·) ∧ ∀ name, name ∈ names ↔ name = ['A'] ∨ name = ['B'] := by
  have hDistinct : ∀ production ∈ halves, production.alternatives.Nodup := by decide
  obtain ⟨hBuilt, hMerged, -⟩ := build_merged .first hDistinct allHalves
  obtain ⟨-, -, hUndefined⟩ := build_merged (.named ['B']) hDistinct lastHalves
  constructor
  · obtain ⟨draft, hBuild⟩ := hBuilt.mpr ⟨some 'S', .first rfl, ⟨by decide, by decide⟩, by
      simp [Grammar.Lacks, listed, halves, allHalves]⟩
    exact ⟨draft, hBuild, (hMerged draft hBuild).2⟩
  · have hLacks {letter : Letter} : Grammar.Lacks (some 'B') (listed halves lastHalves) letter ↔
        letter = some 'A' ∨ letter = some 'B' := by
      cases letter with
      | none => simp [Grammar.Lacks, listed, lastHalves, halves]
      | some name =>
          simp [Grammar.Lacks, listed, lastHalves, halves]
          grind
    obtain ⟨names, hBuild, hAscending, hNames⟩ := hUndefined (some 'B') (.named (some 'B'))
      ⟨by decide, by decide⟩ ⟨some 'A', hLacks.mpr (Or.inl rfl)⟩
    refine ⟨names, hBuild, hAscending, fun name => (hNames name).trans ?_⟩
    simp only [hLacks, or_and_right, exists_or, exists_eq_left, Option.toList_some]

end Draft

end Earley
