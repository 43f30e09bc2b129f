import Earley.Proofs.Grammar.Rows
import Earley.Proofs.Source.Report

/-! Which sources are grammars, and where the error about any other source points. -/
namespace Earley.Grammar

open Text

variable {source : List Char}

/-- A row in which the reader finds nothing wrong but in its alternatives. -/
def Readable (text : List Char) : Prop :=
  Silent text ∨ ∃ before head arrow after, Led text before head arrow after

/-- An alternative of a production in a source, and the position at which it begins. -/
inductive AlternativeAt (source : List Char) : Nat → List Char → Prop where
  | intro {start position : Nat} {line : Line} {before arrow after field : List Char} {head : Char}
      (hRow : (start, line) ∈ rowsOf source) (hSays : ¬ Silent line.content)
      (hLed : Led line.content before head arrow after)
      (hField : (position, field) ∈
        alternativesFrom (start + before.length + arrow.length) after) :
      AlternativeAt source position field

/-- The sign for the empty form stands beside another character that is no blank. -/
def Mixed (field : List Char) : Prop :=
  ∃ front back, field = front ++ epsilon :: back ∧ ¬ AllBlank (front ++ back)

/-- The sources that are grammars. -/
structure Conforms (source : List Char) : Prop where
  production : ∃ row ∈ rowsOf source, ¬ Silent row.2.content
  readable : ∀ row ∈ rowsOf source, Readable row.2.content
  unmixed : ∀ {position field}, AlternativeAt source position field → ¬ Mixed field

/-- The place that is at fault in a source that is no grammar: the first row that cannot be read,
or else the first alternative that mixes the sign for the empty form with other characters. It is
the beginning of a source that says nothing. -/
inductive AtFault (source : List Char) : Nat → Prop where
  | row {start position : Nat} {line : Line} (hRow : (start, line) ∈ rowsOf source)
      (hBad : ¬ Readable line.content)
      (hFirst : ∀ other ∈ rowsOf source, ¬ Readable other.2.content → start ≤ other.1)
      (hLower : start ≤ position) (hUpper : position < start + line.content.length) :
      AtFault source position
  | alternative {position : Nat} {field : List Char}
      (hRows : ∀ row ∈ rowsOf source, Readable row.2.content)
      (hField : AlternativeAt source position field) (hMixed : Mixed field)
      (hFirst : ∀ {other second}, AlternativeAt source other second → Mixed second →
        position ≤ other) : AtFault source position
  | nothing (hSilent : ∀ row ∈ rowsOf source, Silent row.2.content) : AtFault source 0

theorem mixed_iff {field : List Char} :
    Mixed field ↔ removeBlanks field ≠ [epsilon] ∧ epsilon ∈ removeBlanks field := by
  have hVisible : isBlank epsilon = false := by decide
  constructor
  · rintro ⟨front, back, rfl, hOther⟩
    rw [removeBlanks_append, removeBlanks_cons hVisible]
    refine ⟨fun hAlone => hOther ?_, by simp⟩
    rw [← removeBlanks_eq_nil_iff, removeBlanks_append]
    have hLength := congrArg List.length hAlone
    simp only [List.length_append, List.length_cons, List.length_nil] at hLength
    exact List.eq_nil_of_length_eq_zero (by rw [List.length_append]; omega)
  · rintro ⟨hOther, hMem⟩
    obtain ⟨front, back, rfl⟩ := List.append_of_mem (List.mem_filter.mp hMem).1
    refine ⟨front, back, rfl, fun hBlank => hOther ?_⟩
    obtain ⟨hFront, hBack⟩ := allBlank_append.mp hBlank
    rw [removeBlanks_append, removeBlanks_cons hVisible, removeBlanks_eq_nil_iff.mpr hFront,
      removeBlanks_eq_nil_iff.mpr hBack]
    rfl

theorem Mixed.read_eq {heads field : List Char} {position : Nat} (hMixed : Mixed field) :
    Cell.read heads ⟨position, removeBlanks field⟩ = .error ⟨position, none, .mixedEpsilon⟩ := by
  rw [Cell.read_eq, if_pos (mixed_iff.mp hMixed)]

theorem mixed_of_read_eq_error {heads field : List Char} {position : Nat} {flaw : Flaw}
    (hRead : Cell.read heads ⟨position, removeBlanks field⟩ = .error flaw) :
    Mixed field ∧ flaw = ⟨position, none, .mixedEpsilon⟩ := by
  rw [Cell.read_eq] at hRead
  split at hRead
  · next hMixed => exact ⟨mixed_iff.mpr hMixed, (Except.error.inj hRead).symm⟩
  · simp at hRead

theorem readable_of_read_eq_ok {position : Nat} {text : List Char} {row : Option Row}
    (hRead : Row.read position text = .ok row) : Readable text := by
  have hReads := Row.reads position text
  rw [hRead] at hReads
  cases hReads with
  | silent hSilent => exact Or.inl hSilent
  | production _ hLed => exact Or.inr ⟨_, _, _, _, hLed⟩

theorem spoken?_eq_some_iff {row : Nat × Line} {spoken : Row} :
    spoken? row = some spoken ↔ Row.read row.1 row.2.content = .ok (some spoken) := by
  unfold spoken?
  cases Row.read row.1 row.2.content <;> simp [Except.toOption]

theorem spoken?_iff_led {start : Nat} {line : Line} {row : Row} :
    spoken? (start, line) = some row ↔ ¬ Silent line.content ∧
      ∃ before arrow after, Led line.content before row.head arrow after ∧
        row.cells = (alternativesFrom (start + before.length + arrow.length) after).map
          fun cell => ⟨cell.1, removeBlanks cell.2⟩ := by
  rw [spoken?_eq_some_iff]
  constructor
  · intro hRead
    have hReads := Row.reads start line.content
    rw [hRead] at hReads
    cases hReads with
    | production hSays hLed => exact ⟨hSays, _, _, _, hLed, ofFields_eq _ _⟩
  · rintro ⟨hSays, before, arrow, after, hLed, hCells⟩
    rw [Row.read_of_led start hSays hLed, ofFields_eq]
    cases row
    simp_all [alternativesFrom]

/-- The productions of a source, as far as its rows can be read. -/
def spokenRows (source : List Char) : List Row := (rowsOf source).filterMap spoken?

/-- The cells that are read are the alternatives of the source. -/
theorem mem_cells_iff {cell : Cell} : cell ∈ (spokenRows source).flatMap Row.cells ↔
    ∃ position field, AlternativeAt source position field ∧
      cell = ⟨position, removeBlanks field⟩ := by
  constructor
  · intro hMem
    obtain ⟨row, hRow, hCell⟩ := List.mem_flatMap.mp hMem
    obtain ⟨⟨start, line⟩, hLine, hSpoken⟩ := List.mem_filterMap.mp hRow
    obtain ⟨hSays, before, arrow, after, hLed, hCells⟩ := spoken?_iff_led.mp hSpoken
    rw [hCells] at hCell
    obtain ⟨⟨position, field⟩, hField, rfl⟩ := List.mem_map.mp hCell
    exact ⟨position, field, ⟨hLine, hSays, hLed, hField⟩, rfl⟩
  · rintro ⟨position, field, hAlternative, rfl⟩
    cases hAlternative with
    | @intro start _ line before arrow after field head hLine hSays hLed hField =>
        have hSpoken : spoken? (start, line) = some ⟨head, _⟩ :=
          spoken?_iff_led.mpr ⟨hSays, before, arrow, after, hLed, rfl⟩
        exact List.mem_flatMap.mpr
          ⟨_, List.mem_filterMap.mpr ⟨_, hLine, hSpoken⟩, List.mem_map_of_mem hField⟩

theorem Led.le_of_mem_alternatives {text before arrow after field : List Char} {head : Char}
    {start position : Nat} (hLed : Led text before head arrow after) (hField : (position, field) ∈
      alternativesFrom (start + before.length + arrow.length) after) :
    start ≤ position ∧ position + field.length ≤ start + text.length := by
  have hBounds := le_of_mem_alternativesFrom hField
  have hLength := congrArg List.length hLed.arrow.split
  simp only [List.length_append] at hLength
  omega

theorem AlternativeAt.le_length {position : Nat} {field : List Char}
    (hField : AlternativeAt source position field) : position + field.length ≤ source.length := by
  cases hField with
  | intro hRow _ hLed hField =>
      have hBounds := hLed.le_of_mem_alternatives hField
      obtain ⟨front, back, hSource, rfl⟩ := exists_of_mem_rowsOf hRow
      have hLength := congrArg List.length hSource
      simp only [List.length_append] at hLength
      omega

theorem position_of_mem_cells {start : Nat} {line : Line} {row : Row} {cell : Cell}
    (hSpoken : spoken? (start, line) = some row) (hCell : cell ∈ row.cells) :
    start ≤ cell.position ∧ cell.position ≤ start + line.width := by
  obtain ⟨_, before, arrow, after, hLed, hCells⟩ := spoken?_iff_led.mp hSpoken
  rw [hCells] at hCell
  obtain ⟨⟨position, field⟩, hField, rfl⟩ := List.mem_map.mp hCell
  have hBounds := hLed.le_of_mem_alternatives hField
  simp only [Line.width]
  omega

/-- Alternatives are read in the order in which they stand in the source. -/
theorem pairwise_cells (source : List Char) : ((spokenRows source).flatMap Row.cells).Pairwise
    fun front back => front.position ≤ back.position := by
  refine List.pairwise_flatMap.mpr ⟨?_, ?_⟩
  · intro row hRow
    obtain ⟨⟨start, line⟩, _, hSpoken⟩ := List.mem_filterMap.mp hRow
    obtain ⟨_, _, _, _, _, hCells⟩ := spoken?_iff_led.mp hSpoken
    rw [hCells, List.pairwise_map]
    exact (pairwise_placed _ _ _).imp fun hOrder => Nat.le_trans (Nat.le_add_right _ _) hOrder
  · refine List.pairwise_filterMap.mpr ((pairwise_placed _ _ _).imp ?_)
    intro front back hOrder row hRow other hOther cell hCell second hSecond
    have hFront := position_of_mem_cells hRow hCell
    have hBack := position_of_mem_cells hOther hSecond
    omega

/-- A flaw that can be reported, and lies where the source is at fault. -/
structure Flaw.Justified (flaw : Flaw) (source : List Char) : Prop where
  atFault : AtFault source flaw.position
  position_le : flaw.position ≤ source.length
  stop_le : ∀ stop, flaw.stop = some stop → flaw.position ≤ stop ∧ stop ≤ source.length

/-- A source that conforms is nowhere at fault. -/
theorem Conforms.not_atFault {position : Nat} (hConforms : Conforms source) :
    ¬ AtFault source position := by
  intro hFault
  cases hFault with
  | row hRow hBad => exact hBad (hConforms.readable _ hRow)
  | alternative _ hField hMixed => exact hConforms.unmixed hField hMixed
  | nothing hSilent =>
      obtain ⟨row, hRow, hSays⟩ := hConforms.production
      exact hSays (hSilent row hRow)

/-- The flaw of the first row that cannot be read lies in this row. -/
theorem justified_of_row {start : Nat} {line : Line} {flaw : Flaw}
    {earlier later : List (Nat × Line)} (hSplit : rowsOf source = earlier ++ (start, line) :: later)
    (hEarlier : ∀ row ∈ earlier, Readable row.2.content)
    (hRead : Row.read start line.content = .error flaw) : flaw.Justified source := by
  have hRow : (start, line) ∈ rowsOf source := by simp [hSplit]
  obtain ⟨front, back, hSource, rfl⟩ := exists_of_mem_rowsOf hRow
  have hInside : front.length + line.content.length ≤ source.length := by
    rw [hSource]
    simp only [List.length_append]
    omega
  have hReads := Row.reads front.length line.content
  rw [hRead] at hReads
  cases hReads with
  | flawed hSays hBad hLower hUpper hStop =>
      have hUnreadable : ¬ Readable line.content := by
        rintro (hSilent | ⟨before, head, arrow, after, hLed⟩)
        · exact hSays hSilent
        · exact hBad before head arrow after hLed
      have hFirst : ∀ other ∈ rowsOf source, ¬ Readable other.2.content →
          front.length ≤ other.1 := by
        intro other hOther hOtherBad
        have hNew : other ∉ earlier := fun hMem => hOtherBad (hEarlier other hMem)
        rcases eq_or_rel_of_notMem (pairwise_placed _ _ _) hSplit hOther hNew with rfl | hLater
        · exact Nat.le_refl _
        · exact Nat.le_trans (Nat.le_add_right _ _) hLater
      refine ⟨.row hRow hUnreadable hFirst hLower hUpper, by omega, ?_⟩
      intro stop hSome
      have hRange := hStop stop hSome
      omega

/-- All rows are read, or the first one that cannot be read is at fault. -/
theorem readRows_cases (source : List Char) :
    ((∀ row ∈ rowsOf source, Readable row.2.content) ∧
      readRows 0 (Line.ofText source) = .ok (spokenRows source)) ∨
    ∃ flaw : Flaw, readRows 0 (Line.ofText source) = .error flaw ∧ flaw.Justified source := by
  have hTraversal : readRows 0 (Line.ofText source) =
      ((rowsOf source).mapM fun row => Row.read row.1 row.2.content).map (List.filterMap id) :=
    readRows_eq 0 _
  rcases mapM_cases (fun row : Nat × Line => Row.read row.1 row.2.content) (rowsOf source) with
    ⟨hAll, hRows⟩ | ⟨earlier, row, later, flaw, hSplit, hEarlier, hRead, hError⟩
  · refine Or.inl ⟨fun row hRow => ?_, ?_⟩
    · obtain ⟨spoken, hRead⟩ := hAll row hRow
      exact readable_of_read_eq_ok hRead
    · rw [hTraversal, hRows, Except.map, List.filterMap_filterMap]
      rfl
  · refine Or.inr ⟨flaw, by rw [hTraversal, hError]; rfl, justified_of_row hSplit ?_ hRead⟩
    intro other hOther
    obtain ⟨spoken, hSpoken⟩ := hEarlier other hOther
    exact readable_of_read_eq_ok hSpoken

/-- All alternatives are read, or the first one that mixes is at fault. -/
theorem mapM_cells_cases (heads : List Char)
    (hRows : ∀ row ∈ rowsOf source, Readable row.2.content) :
    ((∀ {position field}, AlternativeAt source position field → ¬ Mixed field) ∧
      ∃ forms, ((spokenRows source).flatMap Row.cells).mapM (Cell.read heads) = .ok forms) ∨
    ∃ flaw : Flaw, ((spokenRows source).flatMap Row.cells).mapM (Cell.read heads) = .error flaw ∧
      flaw.Justified source := by
  rcases mapM_cases (Cell.read heads) ((spokenRows source).flatMap Row.cells) with
    ⟨hAll, hForms⟩ | ⟨earlier, cell, later, flaw, hSplit, hEarlier, hRead, hError⟩
  · refine Or.inl ⟨?_, _, hForms⟩
    intro position field hField hMixed
    obtain ⟨form, hForm⟩ := hAll _ (mem_cells_iff.mpr ⟨position, field, hField, rfl⟩)
    simp [hMixed.read_eq] at hForm
  · have hCell : cell ∈ (spokenRows source).flatMap Row.cells := by simp [hSplit]
    obtain ⟨position, field, hField, rfl⟩ := mem_cells_iff.mp hCell
    obtain ⟨hMixed, rfl⟩ := mixed_of_read_eq_error hRead
    refine Or.inr ⟨_, hError, .alternative hRows hField hMixed ?_, ?_, by simp⟩
    · intro other second hOther hSecond
      have hMem := mem_cells_iff.mpr ⟨other, second, hOther, rfl⟩
      have hNew : ⟨other, removeBlanks second⟩ ∉ earlier := by
        intro hMem
        obtain ⟨form, hForm⟩ := hEarlier _ hMem
        simp [hSecond.read_eq] at hForm
      rcases eq_or_rel_of_notMem (pairwise_cells source) hSplit hMem hNew with hSame | hLater
      · exact (congrArg Cell.position hSame).ge
      · exact hLater
    · exact Nat.le_trans (Nat.le_add_right _ _) hField.le_length

theorem spokenRows_eq_nil_iff (hRows : ∀ row ∈ rowsOf source, Readable row.2.content) :
    spokenRows source = [] ↔ ∀ row ∈ rowsOf source, Silent row.2.content := by
  simp only [spokenRows, List.filterMap_eq_nil_iff]
  refine forall₂_congr fun row hRow => ⟨fun hNone => ?_, fun hSilent => ?_⟩
  · rcases hRows row hRow with hSilent | ⟨before, head, arrow, after, hLed⟩
    · exact hSilent
    · by_contra hSays
      have hSpoken : spoken? row = some ⟨head, _⟩ :=
        spoken?_iff_led.mpr ⟨hSays, before, arrow, after, hLed, rfl⟩
      simp [hSpoken] at hNone
  · simp [spoken?, Row.read_of_silent row.1 hSilent, Except.toOption]

/-- A source that conforms is a valid grammar, any other one has a flaw where it is at fault. -/
theorem ofSource_cases (source : List Char) :
    (Conforms source ∧ ∃ g, ofSource source = .ok g ∧ g.validate = .ok ()) ∨
    ∃ flaw : Flaw, ofSource source = .error flaw ∧ flaw.Justified source := by
  rcases readRows_cases source with ⟨hRows, hRead⟩ | ⟨flaw, hRead, hFlaw⟩
  · have hNone := spokenRows_eq_nil_iff hRows
    cases hSpoken : spokenRows source with
    | nil =>
        refine Or.inr ⟨⟨0, none, .noProduction⟩, ?_, .nothing (hNone.mp hSpoken), ?_, by simp⟩
        · simp only [ofSource, hRead, hSpoken]
          rfl
        · exact Nat.zero_le _
    | cons row rest =>
        have hSome : ∃ row ∈ rowsOf source, ¬ Silent row.2.content := by
          have hSays := mt hNone.mpr (by simp [hSpoken])
          simpa using hSays
        have hSource := ofSource_of_readRows (hSpoken ▸ hRead)
        rw [extendByRows_eq, ← hSpoken] at hSource
        rcases mapM_cells_cases ((spokenRows source).map Row.head) hRows with
          ⟨hUnmixed, forms, hForms⟩ | ⟨flaw, hError, hFlaw⟩
        · rw [hForms] at hSource
          refine Or.inl ⟨⟨hSome, hRows, hUnmixed⟩, _, hSource, ?_⟩
          rw [hSpoken]
          exact validate_extendAll row rest _ rfl
        · rw [hError] at hSource
          exact Or.inr ⟨flaw, hSource, hFlaw⟩
  · refine Or.inr ⟨flaw, ?_, hFlaw⟩
    rw [ofSource, hRead]
    rfl

/-- What a source says is valid, so that validation never refuses it. -/
theorem read_of_ofSource {g : Grammar} (hSource : ofSource source = .ok g) :
    read source = .ok g := by
  rcases ofSource_cases source with ⟨_, other, hOther, hValid⟩ | ⟨flaw, hFlaw, _⟩
  · obtain rfl : g = other := Except.ok.inj (hSource.symm.trans hOther)
    simp only [read, hSource, hValid]
    rfl
  · simp [hSource] at hFlaw

/-- The reader accepts exactly the sources that conform, and what it gives is a valid grammar. Any
other source has an error that points into the source, at what is first at fault. -/
theorem read_recognizes (source : List Char) :
    ((∃ g, read source = .ok g ∧ g.validate = .ok ()) ↔ Conforms source) ∧
    (¬ Conforms source → ∃ report, read source = .error (.malformedSource report) ∧
      report.Within source ∧ AtFault source report.position) := by
  rcases ofSource_cases source with ⟨hConforms, g, hSource, hValid⟩ | ⟨flaw, hSource, hFlaw⟩
  · have hRead := read_of_ofSource hSource
    exact ⟨⟨fun _ => hConforms, fun _ => ⟨g, hRead, hValid⟩⟩, absurd hConforms⟩
  · have hBad : ¬ Conforms source := fun hConforms => hConforms.not_atFault hFlaw.atFault
    obtain ⟨report, hReport, hPosition, hWithin⟩ :=
      Source.exists_report hFlaw.position_le hFlaw.stop_le flaw.fault.message.toList
    have hRead : read source = .error (.malformedSource report) := by
      simp only [read, hSource, Flaw.toError, hReport]
    refine ⟨⟨?_, fun hConforms => absurd hConforms hBad⟩, fun _ => ?_⟩
    · rintro ⟨g, hOther, _⟩
      rw [hRead] at hOther
      simp at hOther
    · exact ⟨report, hRead, hWithin, hPosition ▸ hFlaw.atFault⟩

end Earley.Grammar
