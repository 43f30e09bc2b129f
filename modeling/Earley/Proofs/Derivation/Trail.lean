import Earley.Proofs.Chart.Contents
import Mathlib.Data.List.Chain
import Mathlib.Data.List.Nodup
import Mathlib.Data.Set.Card

/-! Paths of back-pointers and their order. A path is given by its first identifier and its trail,
the identifiers after the first. Nothing here refers to a search: trails are told apart from other
lists by what they are, and they are ordered by length and by the places of their back-pointers. -/
namespace Earley

theorem mem_map_fst_iff {α β : Type} {first : α} {pairs : List (α × β)} :
    first ∈ pairs.map Prod.fst ↔ ∃ second, (first, second) ∈ pairs := by
  simp

/-- The form after one more state of a path. A complete state replaces the last occurrence of its
left side, which must be a nonterminal of the form. Other states leave the form as it is. -/
def State.rewrite? (state : State) (form : Form) : Option Form :=
  if state.isComplete then
    if state.lhs ∈ Form.nonterminals form then form.replaceLast? state.lhs state.alternative
    else none
  else some form

namespace Chart

variable {chart : Chart} {id : Nat} {form : Form} {trail : List Nat}

/-- The form after the states of a trail. There is none if a complete state among them does not
apply. -/
def formAfter? (chart : Chart) (form : Form) : List Nat → Option Form
  | [] => some form
  | id :: rest => do
    let state ← chart.state? id
    let next ← state.rewrite? form
    chart.formAfter? next rest

theorem formAfter?_cons (chart : Chart) (form : Form) (next : Nat) (rest : List Nat) :
    chart.formAfter? form (next :: rest) =
      ((chart.state? next).bind fun state => state.rewrite? form).bind fun result =>
        chart.formAfter? result rest := by
  rw [Option.bind_assoc]
  rfl

theorem formAfter?_append (chart : Chart) (form : Form) (front rest : List Nat) :
    chart.formAfter? form (front ++ rest) =
      (chart.formAfter? form front).bind fun next => chart.formAfter? next rest := by
  induction front generalizing form with
  | nil => rfl
  | cons id front ih => simp [formAfter?_cons, ih, Option.bind_assoc]

/-- A trail that a search for the word may take from an identifier with the given form: it follows
back-pointers, every complete state on it applies, and no shorter part of it has the word as form
already. -/
structure Admissible (chart : Chart) (id : Nat) (form : Form) (trail : List Nat) : Prop where
  ne_nil : trail ≠ []
  linked : (id :: trail).IsChain fun later earlier => earlier ∈ chart.pointers later
  applies : (chart.formAfter? form trail).isSome
  early : ∀ front rest, trail = front ++ rest → front ≠ [] → rest ≠ [] →
    chart.formAfter? form front ≠ some (Form.ofWord chart.word)

/-- The form after the trail is the word. -/
def Reaches (chart : Chart) (form : Form) (trail : List Nat) : Prop :=
  chart.formAfter? form trail = some (Form.ofWord chart.word)

/-- The places of a trail's identifiers among the back-pointers of those before them. -/
def places (chart : Chart) : Nat → List Nat → List Nat
  | _, [] => []
  | id, next :: rest => (chart.pointers id).idxOf next :: chart.places next rest

/-- Shorter trails come first, and trails of one length are in the lexicographic order of their
places. -/
def Precedes (chart : Chart) (id : Nat) (first second : List Nat) : Prop :=
  first.length < second.length ∨
    first.length = second.length ∧ chart.places id first < chart.places id second

theorem Precedes.asymm {first second : List Nat} (hFirst : chart.Precedes id first second) :
    ¬ chart.Precedes id second first := by
  rintro (hShorter | ⟨_, hPlaces⟩)
  · rcases hFirst with hOther | ⟨hLength, _⟩ <;> omega
  · rcases hFirst with hOther | ⟨_, hOther⟩
    · omega
    · exact List.lt_asymm hOther hPlaces

/-- The admissible trails that come before the given one. -/
def ahead (chart : Chart) (id : Nat) (form : Form) (goal : List Nat) : Set (List Nat) :=
  { trail | chart.Admissible id form trail ∧ chart.Precedes id trail goal }

/-- The first admissible trail that reaches the word. -/
structure IsFirst (chart : Chart) (id : Nat) (form : Form) (goal : List Nat) : Prop where
  admissible : chart.Admissible id form goal
  reaches : chart.Reaches form goal
  precedes : ∀ {trail}, chart.Admissible id form trail → chart.Reaches form trail →
    trail ≠ goal → chart.Precedes id goal trail

theorem IsFirst.unique {first second : List Nat} (hFirst : chart.IsFirst id form first)
    (hSecond : chart.IsFirst id form second) : first = second := by
  by_contra hOther
  have hBefore := hFirst.precedes hSecond.admissible hSecond.reaches (Ne.symm hOther)
  exact hBefore.asymm (hSecond.precedes hFirst.admissible hFirst.reaches hOther)

/-- All trails of one length that follow back-pointers. -/
def walks (chart : Chart) : Nat → Nat → List (List Nat)
  | 0, _ => [[]]
  | n + 1, id =>
    (chart.pointers id).flatMap fun next => (chart.walks n next).map fun rest => next :: rest

theorem mem_walks_iff {n : Nat} : trail ∈ chart.walks n id ↔ trail.length = n ∧
    (id :: trail).IsChain fun later earlier => earlier ∈ chart.pointers later := by
  induction n generalizing id trail with
  | zero => cases trail <;> simp [walks]
  | succ n ih =>
      cases trail with
      | nil => simp [walks]
      | cons next rest => simp [walks, ih, List.isChain_cons_cons]; tauto

theorem pairwise_idxOf {ids : List Nat} (hNodup : ids.Nodup) :
    ids.Pairwise fun first second => ids.idxOf first < ids.idxOf second := by
  rw [List.pairwise_iff_getElem]
  intro i j hi hj hLess
  rwa [hNodup.idxOf_getElem, hNodup.idxOf_getElem]

/-- The trails of one length are enumerated in their order. -/
theorem pairwise_walks (hNodup : ∀ id, (chart.pointers id).Nodup) (n id : Nat) :
    (chart.walks n id).Pairwise fun first second =>
      chart.places id first < chart.places id second := by
  induction n generalizing id with
  | zero => exact List.pairwise_singleton _ _
  | succ n ih =>
      rw [walks, List.pairwise_flatMap]
      constructor
      · intro next _
        rw [List.pairwise_map]
        refine (ih next).imp fun hLess => ?_
        exact List.cons_lt_cons_iff.mpr (Or.inr ⟨rfl, hLess⟩)
      · refine (pairwise_idxOf (hNodup id)).imp fun hLess first hFirst second hSecond => ?_
        obtain ⟨_, _, rfl⟩ := List.mem_map.mp hFirst
        obtain ⟨_, _, rfl⟩ := List.mem_map.mp hSecond
        exact List.cons_lt_cons_iff.mpr (Or.inl hLess)

/-- The trails of one length on which every complete state applies, with the forms after them. -/
def trails (chart : Chart) (id : Nat) (form : Form) (n : Nat) : List (List Nat × Form) :=
  (chart.walks n id).filterMap fun trail =>
    (chart.formAfter? form trail).map fun result => (trail, result)

theorem mem_trails_iff {n : Nat} {result : Form} :
    (trail, result) ∈ chart.trails id form n ↔ trail.length = n ∧
      ((id :: trail).IsChain fun later earlier => earlier ∈ chart.pointers later) ∧
      chart.formAfter? form trail = some result := by
  simp [trails, mem_walks_iff, and_assoc]

/-- Trails are built from the front: by a back-pointer whose state applies, and a trail from there. -/
theorem trails_succ (chart : Chart) (id : Nat) (form : Form) (n : Nat) :
    chart.trails id form (n + 1) = (chart.pointers id).flatMap fun next =>
      ((chart.state? next).bind fun state => state.rewrite? form).toList.flatMap fun result =>
        (chart.trails next result n).map fun entry => (next :: entry.1, entry.2) := by
  rw [trails, walks, List.filterMap_flatMap]
  congr 1
  funext next
  rw [List.filterMap_map]
  cases hNext : (chart.state? next).bind fun state => state.rewrite? form with
  | none => simp [formAfter?_cons, hNext]
  | some result => simp [Function.comp_def, formAfter?_cons, hNext, trails, List.map_filterMap]

/-- Every front part of a trail is a trail. -/
theorem exists_take_mem_trails {n length : Nat} {result : Form}
    (hMem : (trail, result) ∈ chart.trails id form n) (hLength : length ≤ n) :
    ∃ other, (trail.take length, other) ∈ chart.trails id form length := by
  obtain ⟨rfl, hLinked, hResult⟩ := mem_trails_iff.mp hMem
  rw [← List.take_append_drop length trail] at hLinked hResult
  rw [formAfter?_append] at hResult
  obtain ⟨other, hOther, _⟩ := Option.bind_eq_some_iff.mp hResult
  rw [← List.cons_append] at hLinked
  exact ⟨other, mem_trails_iff.mpr ⟨by simpa using hLength, hLinked.left_of_append, hOther⟩⟩

theorem pairwise_trails (hNodup : ∀ id, (chart.pointers id).Nodup) (id : Nat) (form : Form)
    (n : Nat) : (chart.trails id form n).Pairwise fun first second =>
      chart.places id first.1 < chart.places id second.1 := by
  rw [trails, List.pairwise_filterMap]
  refine (pairwise_walks hNodup n id).imp fun hLess first hFirst second hSecond => ?_
  obtain ⟨_, _, rfl⟩ := Option.map_eq_some_iff.mp hFirst
  obtain ⟨_, _, rfl⟩ := Option.map_eq_some_iff.mp hSecond
  exact hLess

theorem Admissible.exists_mem (hTrail : chart.Admissible id form trail) :
    ∃ result, (trail, result) ∈ chart.trails id form trail.length := by
  obtain ⟨result, hResult⟩ := Option.isSome_iff_exists.mp hTrail.applies
  exact ⟨result, mem_trails_iff.mpr ⟨rfl, hTrail.linked, hResult⟩⟩

theorem Admissible.length_pos (hTrail : chart.Admissible id form trail) : 0 < trail.length :=
  List.length_pos_iff.mpr hTrail.ne_nil

/-- No trail of at most the given length reaches the word. -/
def NoneReaches (chart : Chart) (id : Nat) (form : Form) (n : Nat) : Prop :=
  ∀ {length}, 0 < length → length ≤ n → ∀ entry ∈ chart.trails id form length,
    entry.2 ≠ Form.ofWord chart.word

/-- As long as no trail reaches the word, all of them are admissible. -/
theorem NoneReaches.admissible {n length : Nat} (hNone : chart.NoneReaches id form n)
    {result : Form} (hMem : (trail, result) ∈ chart.trails id form length) (hPos : 0 < length)
    (hLength : length ≤ n + 1) : chart.Admissible id form trail := by
  obtain ⟨rfl, hLinked, hResult⟩ := mem_trails_iff.mp hMem
  refine ⟨List.length_pos_iff.mp hPos, hLinked, by simp [hResult], ?_⟩
  rintro front rest rfl hFront hRest hWord
  have hFrontPos := List.length_pos_iff.mpr hFront
  have hRestPos := List.length_pos_iff.mpr hRest
  rw [List.length_append] at hLength
  rw [← List.cons_append] at hLinked
  have hEntry := mem_trails_iff.mpr ⟨rfl, hLinked.left_of_append, hWord⟩
  exact hNone hFrontPos (by omega) _ hEntry rfl

theorem NoneReaches.length_lt {n : Nat} (hNone : chart.NoneReaches id form n)
    (hTrail : chart.Admissible id form trail) (hReaches : chart.Reaches form trail) :
    n < trail.length := by
  by_contra hShort
  have hEntry := mem_trails_iff.mpr ⟨rfl, hTrail.linked, hReaches⟩
  exact hNone hTrail.length_pos (by omega) _ hEntry rfl

/-- The trails of at most the given length, in their order. -/
def shorter (chart : Chart) (id : Nat) (form : Form) (n : Nat) : List (List Nat) :=
  (List.range n).flatMap fun length => (chart.trails id form (length + 1)).map Prod.fst

theorem shorter_succ (chart : Chart) (id : Nat) (form : Form) (n : Nat) :
    chart.shorter id form (n + 1) =
      chart.shorter id form n ++ (chart.trails id form (n + 1)).map Prod.fst := by
  simp [shorter, List.range_succ]

theorem mem_shorter_iff {n : Nat} : trail ∈ chart.shorter id form n ↔
    0 < trail.length ∧ trail.length ≤ n ∧
      ∃ result, (trail, result) ∈ chart.trails id form trail.length := by
  simp only [shorter, List.mem_flatMap, List.mem_range, mem_map_fst_iff]
  constructor
  · rintro ⟨length, hLength, result, hMem⟩
    obtain ⟨hSame, _⟩ := mem_trails_iff.mp hMem
    rw [← hSame] at hMem
    exact ⟨by omega, by omega, result, hMem⟩
  · rintro ⟨hPos, hLength, result, hMem⟩
    refine ⟨trail.length - 1, by omega, result, ?_⟩
    rwa [Nat.sub_add_cancel hPos]

theorem nodup_trails (hNodup : ∀ id, (chart.pointers id).Nodup) (id : Nat) (form : Form)
    (n : Nat) : ((chart.trails id form n).map Prod.fst).Nodup := by
  rw [List.Nodup, List.pairwise_map]
  refine (pairwise_trails hNodup id form n).imp fun hLess hSame => ?_
  rw [hSame] at hLess
  exact List.lt_irrefl _ hLess

theorem nodup_shorter (hNodup : ∀ id, (chart.pointers id).Nodup) (id : Nat) (form : Form)
    (n : Nat) : (chart.shorter id form n).Nodup := by
  induction n with
  | zero => exact List.nodup_nil
  | succ n ih =>
      rw [shorter_succ]
      refine List.nodup_append.mpr ⟨ih, nodup_trails hNodup id form (n + 1), ?_⟩
      rintro trail hShorter _ hLonger rfl
      obtain ⟨result, hMem⟩ := mem_map_fst_iff.mp hLonger
      have hLength := (mem_trails_iff.mp hMem).1
      have hLess := (mem_shorter_iff.mp hShorter).2.1
      omega

theorem encard_setOf_mem {α : Type} [DecidableEq α] {list : List α} (hNodup : list.Nodup) :
    { item | item ∈ list }.encard = list.length := by
  rw [← List.coe_toFinset, Set.encard_coe_eq_coe_finsetCard, List.toFinset_card_of_nodup hNodup]

/-- The trails up to some point of the enumeration. -/
theorem encard_passed (hNodup : ∀ id, (chart.pointers id).Nodup) {n : Nat}
    {before after : List (List Nat × Form)}
    (hTrails : chart.trails id form (n + 1) = before ++ after) :
    { trail | trail ∈ chart.shorter id form n ++ before.map Prod.fst }.encard =
      ((chart.shorter id form n).length + before.length : Nat) := by
  have hAll := nodup_shorter hNodup id form (n + 1)
  rw [shorter_succ, hTrails, List.map_append, ← List.append_assoc] at hAll
  rw [encard_setOf_mem (List.nodup_append.mp hAll).1]
  simp

theorem NoneReaches.admissible_of_passed {n : Nat} (hNone : chart.NoneReaches id form n)
    {before after : List (List Nat × Form)}
    (hTrails : chart.trails id form (n + 1) = before ++ after)
    (hPassed : trail ∈ chart.shorter id form n ++ before.map Prod.fst) :
    chart.Admissible id form trail := by
  rcases List.mem_append.mp hPassed with hShorter | hBefore
  · obtain ⟨hPos, hLength, result, hMem⟩ := mem_shorter_iff.mp hShorter
    exact hNone.admissible hMem hPos (by omega)
  · obtain ⟨result, hMem⟩ := mem_map_fst_iff.mp hBefore
    have hEntry : (trail, result) ∈ chart.trails id form (n + 1) := by simp [hTrails, hMem]
    exact hNone.admissible hEntry (Nat.succ_pos n) (Nat.le_refl _)

/-- What was enumerated before comes first in the order. -/
theorem precedes_of_passed (hNodup : ∀ id, (chart.pointers id).Nodup) {n : Nat}
    {before after : List (List Nat × Form)}
    (hTrails : chart.trails id form (n + 1) = before ++ after)
    (hPassed : trail ∈ chart.shorter id form n ++ before.map Prod.fst) {goal : List Nat}
    (hGoal : n + 1 < goal.length ∨ goal ∈ after.map Prod.fst) :
    chart.Precedes id trail goal := by
  have hLength {other : List Nat} {result : Form} (hMem : (other, result) ∈ before ++ after) :
      other.length = n + 1 := by
    rw [← hTrails] at hMem
    exact (mem_trails_iff.mp hMem).1
  rcases List.mem_append.mp hPassed with hShorter | hBefore
  · have hTrail := (mem_shorter_iff.mp hShorter).2.1
    left
    rcases hGoal with hLonger | hAfter
    · omega
    · obtain ⟨result, hMem⟩ := mem_map_fst_iff.mp hAfter
      have hSame := hLength (List.mem_append_right before hMem)
      omega
  · obtain ⟨result, hMem⟩ := mem_map_fst_iff.mp hBefore
    have hTrail := hLength (List.mem_append_left after hMem)
    rcases hGoal with hLonger | hAfter
    · left
      omega
    · obtain ⟨other, hOther⟩ := mem_map_fst_iff.mp hAfter
      have hSame := hLength (List.mem_append_right before hOther)
      have hOrder := pairwise_trails hNodup id form (n + 1)
      rw [hTrails] at hOrder
      exact Or.inr ⟨by omega, (List.pairwise_append.mp hOrder).2.2 _ hMem _ hOther⟩

theorem Admissible.passed_or_later (hTrail : chart.Admissible id form trail) {n : Nat}
    {before after : List (List Nat × Form)}
    (hTrails : chart.trails id form (n + 1) = before ++ after) :
    trail ∈ chart.shorter id form n ++ before.map Prod.fst ∨ n + 1 < trail.length ∨
      trail ∈ after.map Prod.fst := by
  obtain ⟨result, hMem⟩ := hTrail.exists_mem
  rcases Nat.lt_trichotomy trail.length (n + 1) with hShort | hSame | hLong
  · left
    have hShorter := mem_shorter_iff.mpr ⟨hTrail.length_pos, Nat.le_of_lt_succ hShort, result, hMem⟩
    exact List.mem_append_left _ hShorter
  · rw [hSame, hTrails] at hMem
    rcases List.mem_append.mp hMem with hBefore | hAfter
    · exact Or.inl (List.mem_append_right _ (mem_map_fst_iff.mpr ⟨result, hBefore⟩))
    · exact Or.inr (Or.inr (mem_map_fst_iff.mpr ⟨result, hAfter⟩))
  · exact Or.inr (Or.inl hLong)

/-- If there is no trail of some length, there is none that is longer. -/
theorem Admissible.mem_shorter (hTrail : chart.Admissible id form trail) {n : Nat}
    (hTrails : chart.trails id form (n + 1) = []) : trail ∈ chart.shorter id form n := by
  have hParts : chart.trails id form (n + 1) = [] ++ [] := by simpa using hTrails
  rcases hTrail.passed_or_later hParts with hShort | hLong | hOther
  · simpa using hShort
  · obtain ⟨result, hMem⟩ := hTrail.exists_mem
    obtain ⟨other, hFront⟩ := exists_take_mem_trails hMem (Nat.le_of_lt hLong)
    simp [hTrails] at hFront
  · simp at hOther

theorem NoneReaches.notMem_passed {n : Nat} (hNone : chart.NoneReaches id form n)
    {before after : List (List Nat × Form)}
    (hTrails : chart.trails id form (n + 1) = before ++ after)
    (hBefore : ∀ entry ∈ before, entry.2 ≠ Form.ofWord chart.word)
    (hTrail : chart.Admissible id form trail) (hReaches : chart.Reaches form trail) :
    trail ∉ chart.shorter id form n ++ before.map Prod.fst := by
  intro hPassed
  rcases List.mem_append.mp hPassed with hShorter | hMem
  · have hLength := hNone.length_lt hTrail hReaches
    have hShort := (mem_shorter_iff.mp hShorter).2.1
    omega
  · obtain ⟨result, hMem⟩ := mem_map_fst_iff.mp hMem
    have hEntry : (trail, result) ∈ chart.trails id form (n + 1) := by simp [hTrails, hMem]
    have hResult := (mem_trails_iff.mp hEntry).2.2
    exact hBefore _ hMem (Option.some.inj (hResult.symm.trans hReaches))

/-- Where the first trail that reaches the word is met, and what was passed until then. -/
theorem NoneReaches.isFirst (hNodup : ∀ id, (chart.pointers id).Nodup) {n : Nat}
    (hNone : chart.NoneReaches id form n) {before after : List (List Nat × Form)} {goal : List Nat}
    (hTrails : chart.trails id form (n + 1) =
      before ++ (goal, Form.ofWord chart.word) :: after)
    (hBefore : ∀ entry ∈ before, entry.2 ≠ Form.ofWord chart.word) :
    chart.IsFirst id form goal ∧ chart.ahead id form goal =
      { trail | trail ∈ chart.shorter id form n ++ before.map Prod.fst } := by
  have hSplit : chart.trails id form (n + 1) =
      (before ++ [(goal, Form.ofWord chart.word)]) ++ after := by simp [hTrails]
  have hGoal : (goal, Form.ofWord chart.word) ∈ chart.trails id form (n + 1) := by simp [hTrails]
  have hAdmissible := hNone.admissible hGoal (Nat.succ_pos n) (Nat.le_refl _)
  have hPassed : goal ∈ chart.shorter id form n ++
      (before ++ [(goal, Form.ofWord chart.word)]).map Prod.fst := by simp
  have hLater {trail : List Nat} (hTrail : n + 1 < trail.length ∨ trail ∈ after.map Prod.fst) :
      chart.Precedes id goal trail := precedes_of_passed hNodup hSplit hPassed hTrail
  refine ⟨⟨hAdmissible, (mem_trails_iff.mp hGoal).2.2, ?_⟩, ?_⟩
  · intro trail hTrail hReaches hOther
    rcases hTrail.passed_or_later hSplit with hEarlier | hTrailLater
    · have hNew := hNone.notMem_passed hTrails hBefore hTrail hReaches
      have hOld : trail ∈ chart.shorter id form n ++ before.map Prod.fst := by
        simpa [hOther] using hEarlier
      exact absurd hOld hNew
    · exact hLater hTrailLater
  · ext trail
    constructor
    · rintro ⟨hTrail, hPrecedes⟩
      rcases hTrail.passed_or_later hSplit with hEarlier | hTrailLater
      · have hOther : trail ≠ goal := by
          rintro rfl
          exact hPrecedes.asymm hPrecedes
        simpa [hOther] using hEarlier
      · exact absurd hPrecedes (hLater hTrailLater).asymm
    · intro hMem
      refine ⟨hNone.admissible_of_passed hTrails hMem, ?_⟩
      exact precedes_of_passed hNodup hTrails hMem (Or.inr (by simp))

/-- If any admissible trail reaches the word, one of them is the first. -/
theorem exists_isFirst (hNodup : ∀ id, (chart.pointers id).Nodup)
    (hTrail : chart.Admissible id form trail) (hReaches : chart.Reaches form trail) :
    ∃ goal, chart.IsFirst id form goal := by
  classical
  let Met (n : Nat) : Prop :=
    ∃ entry ∈ chart.trails id form (n + 1), entry.2 = Form.ofWord chart.word
  have hSome : ∃ n, Met n := by
    refine ⟨trail.length - 1, (trail, _), mem_trails_iff.mpr ⟨?_, hTrail.linked, hReaches⟩, rfl⟩
    rw [Nat.sub_add_cancel hTrail.length_pos]
  obtain ⟨entry, hEntry, hWord⟩ := Nat.find_spec hSome
  have hNone : chart.NoneReaches id form (Nat.find hSome) := by
    intro length hPos hLength other hOther hReached
    refine Nat.find_min hSome (m := length - 1) (by omega) ⟨other, ?_, hReached⟩
    rwa [Nat.sub_add_cancel hPos]
  have hFound : ((chart.trails id form (Nat.find hSome + 1)).find? fun entry =>
      decide (entry.2 = Form.ofWord chart.word)).isSome :=
    List.find?_isSome.mpr ⟨entry, hEntry, decide_eq_true hWord⟩
  obtain ⟨⟨goal, result⟩, hGoal⟩ := Option.isSome_iff_exists.mp hFound
  obtain ⟨hResult, before, after, hTrails, hBefore⟩ := List.find?_eq_some_iff_append.mp hGoal
  obtain rfl : result = Form.ofWord chart.word := of_decide_eq_true hResult
  exact ⟨goal, (hNone.isFirst hNodup hTrails (by simpa using hBefore)).1⟩

end Chart

end Earley
