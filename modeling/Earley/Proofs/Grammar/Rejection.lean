import Earley.Proofs.Grammar.Recognition
import Earley.Proofs.Text.Layout

/-! How the report about a source that is no grammar names the row at fault. Every line break ends a
row, but reports count newlines only. -/
namespace Earley.Grammar

open Text Source

variable {source : List Char} {position offset : Nat} {earlier later : List Line} {line : Line}
  {report : Report}

/-- A position lies in the content of a row, which has other rows before and after it. -/
structure InRow (source : List Char) (position : Nat) (earlier : List Line) (line : Line)
    (later : List Line) (offset : Nat) : Prop where
  rows_eq : Line.ofText source = earlier ++ line :: later
  position_eq : position = (Line.toText earlier).length + offset
  offset_lt : offset < line.content.length

/-- What comes after the content of a row. -/
def behind (line : Line) (later : List Line) : List Char := line.ending ++ Line.toText later

namespace InRow

theorem source_eq (hRow : InRow source position earlier line later offset) :
    source = Line.toText earlier ++ (line.content ++ behind line later) := by
  rw [← Line.toText_ofText source, hRow.rows_eq]
  simp [Line.toText, behind]

theorem sound (hRow : InRow source position earlier line later offset) :
    (∀ other ∈ earlier, other.Sound) ∧ line.Sound := by
  have hAll : ∀ other ∈ earlier ++ line :: later, other.Sound := by
    rw [← hRow.rows_eq]
    exact fun other hMem => Line.sound_of_mem_ofText hMem
  rw [List.forall_mem_append, List.forall_mem_cons] at hAll
  exact ⟨hAll.1, hAll.2.1⟩

theorem newline_notMem (hRow : InRow source position earlier line later offset) :
    '\n' ∉ line.content := hRow.sound.2.notMem_content (by decide)

/-- The line that is reported for a position in a row counts the newlines that end earlier rows. -/
theorem lineOf_eq (hRow : InRow source position earlier line later offset) :
    lineOf source position = (Line.toText earlier).count '\n' + 1 := by
  have hTake : source.take position = Line.toText earlier ++ line.content.take offset := by
    rw [hRow.source_eq, hRow.position_eq, List.take_length_add_append,
      List.take_append_of_le_length (Nat.le_of_lt hRow.offset_lt)]
  have hPlain : '\n' ∉ line.content.take offset := fun hMem =>
    hRow.newline_notMem (List.mem_of_mem_take hMem)
  rw [lineOf, hTake, List.count_append, List.count_eq_zero.mpr hPlain]

/-- If all earlier rows end in newlines, a line of the source begins where the row begins. A newline
is always the last character of its break, also behind a carriage return. -/
theorem cut (hRow : InRow source position earlier line later offset)
    (hNewlines : ∀ other ∈ earlier, '\n' ∈ other.ending) :
    Cut source (Line.toText earlier) (line.content.take offset)
      (line.content.drop offset ++ (behind line later).takeWhile (· ≠ '\n'))
      ((behind line later).dropWhile (· ≠ '\n')) where
  source_eq := by
    conv_lhs => rw [hRow.source_eq, ← List.take_append_drop offset line.content,
      ← List.takeWhile_append_dropWhile (p := (· ≠ '\n')) (l := behind line later)]
    simp only [List.append_assoc]
  earlier_ended := by
    cases earlier using List.reverseRecOn with
    | nil => exact Or.inl rfl
    | append_singleton front last =>
        have hMem : last ∈ front ++ [last] := List.mem_append_right _ (List.mem_singleton_self last)
        rcases (hRow.sound.1 last hMem).ending_cases with ⟨start, hEnding, _⟩ | hNone
        · refine Or.inr ⟨Line.toText front ++ (last.content ++ start), ?_⟩
          simp [Line.toText, hEnding]
        · exact absurd (hNewlines last hMem) hNone
  left_unbroken hMem := hRow.newline_notMem (List.mem_of_mem_take hMem)
  right_unbroken hMem := by
    rcases List.mem_append.mp hMem with hContent | hBehind
    · exact hRow.newline_notMem (List.mem_of_mem_drop hContent)
    · simpa using List.mem_takeWhile_imp hBehind
  later_begins := by
    cases hRest : (behind line later).dropWhile (· ≠ '\n') with
    | nil => exact Or.inl rfl
    | cons c rest =>
        have hHead := List.head?_dropWhile_not (· ≠ '\n') (behind line later)
        rw [hRest] at hHead
        have hNewline : c = '\n' := by simpa using hHead
        exact Or.inr ⟨rest, by rw [hNewline]⟩

/-- A location names a row as the reader does exactly if every row before it ends in a newline, and
nothing but carriage returns comes between the row and the next newline. The first condition makes
the row begin where a line begins; the second one then decides about the text that is shown. -/
theorem location_iff (hRow : InRow source position earlier line later offset) {shown : List Char}
    (hShown : (shownLines source)[(Line.toText earlier).count '\n']? = some shown) :
    (lineOf source position = earlier.length + 1 ∧ columnOf source position = offset + 1 ∧
      shown = line.content) ↔
    (∀ other ∈ earlier, '\n' ∈ other.ending) ∧
      ∀ c ∈ (behind line later).takeWhile (· ≠ '\n'), c = '\r' := by
  have hLine : lineOf source position = earlier.length + 1 ↔
      ∀ other ∈ earlier, '\n' ∈ other.ending := by
    rw [hRow.lineOf_eq, Nat.add_right_cancel_iff]
    exact (Line.count_newline_toText hRow.sound.1).2
  rw [hLine]
  refine and_congr_right fun hNewlines => ?_
  have hCut := hRow.cut hNewlines
  have hColumn : columnOf source position = offset + 1 := by
    have hLength : (line.content.take offset).length = offset :=
      List.length_take_of_le (Nat.le_of_lt hRow.offset_lt)
    rw [hCut.columnOf_eq (hLength.symm ▸ hRow.position_eq), hLength]
  have hField : shown = dropReturns (line.content ++ (behind line later).takeWhile (· ≠ '\n')) := by
    have hHere := hCut.getElem?_shownLines
    rw [hShown, ← List.append_assoc, List.take_append_drop] at hHere
    exact Option.some.inj hHere
  have hReturns : '\r' ∉ line.content := hRow.sound.2.notMem_content (by decide)
  rw [hField, dropReturns_append_iff hReturns]
  exact and_iff_right hColumn

end InRow

theorem exists_inRow_of_mem {start : Nat} (hMem : (start, line) ∈ rowsOf source)
    (hLower : start ≤ position) (hUpper : position < start + line.content.length) :
    ∃ earlier later offset, InRow source position earlier line later offset := by
  obtain ⟨earlier, later, hRows, hStart⟩ := mem_placed_iff.mp hMem
  rw [Nat.zero_add, ← length_toText] at hStart
  exact ⟨earlier, later, position - start, hRows, by omega, by omega⟩

/-- Unless a source says nothing at all, the place at fault lies in a row. -/
theorem AtFault.exists_inRow (hFault : AtFault source position)
    (hSays : ∃ row ∈ rowsOf source, ¬ Silent row.2.content) :
    ∃ line earlier later offset, InRow source position earlier line later offset := by
  cases hFault with
  | @row _ _ line hMem _ _ hLower hUpper =>
      exact ⟨line, exists_inRow_of_mem hMem hLower hUpper⟩
  | alternative _ hField hMixed =>
      cases hField with
      | @intro _ _ line _ _ _ _ _ hMem _ hLed hField =>
          have hBounds := hLed.le_of_mem_alternatives hField
          obtain ⟨front, back, rfl, _⟩ := hMixed
          rw [List.length_append, List.length_cons] at hBounds
          exact ⟨line, exists_inRow_of_mem hMem hBounds.1 (by omega)⟩
  | nothing hSilent =>
      obtain ⟨row, hMem, hSpeaks⟩ := hSays
      exact absurd (hSilent row hMem) hSpeaks

/-- The report about a source that is no grammar is about the place at fault. -/
theorem report_of_read (hRead : read source = .error (.malformedSource report)) :
    AtFault source report.position ∧ report.location = locationOf source report.position := by
  rcases ofSource_cases source with ⟨_, g, hSource, _⟩ | ⟨flaw, hSource, hFlaw⟩
  · rw [read_of_ofSource hSource] at hRead
    cases hRead
  · have hMake := make?_eq_some hFlaw.position_le hFlaw.stop_le Error.sourceTitle
      flaw.fault.message.toList
    simp only [read, hSource, Flaw.toError, Error.ofSource, hMake] at hRead
    cases hRead
    exact ⟨hFlaw.atFault, rfl⟩

/-- A source that says something, but is no grammar, has a report that points into the row at fault.
The report gives the number of this row among all rows and the column in the row, and shows the row
above the marker, exactly if every earlier row ends in a newline, and nothing but carriage returns
comes between the row and the next newline. -/
theorem read_report_row (hRead : read source = .error (.malformedSource report))
    (hSays : ∃ row ∈ rowsOf source, ¬ Silent row.2.content) :
    ∃ earlier line later offset before shown after, AtFault source report.position ∧
      InRow source report.position earlier line later offset ∧
      report.excerpt = before ++ Report.numberedLine report.location.line shown ::
        report.marker :: after ∧
      ((report.location.line = earlier.length + 1 ∧ report.location.column = offset + 1 ∧
          shown = line.content) ↔
        (∀ other ∈ earlier, '\n' ∈ other.ending) ∧
          ∀ c ∈ (behind line later).takeWhile (· ≠ '\n'), c = '\r') := by
  obtain ⟨hFault, hLocation⟩ := report_of_read hRead
  obtain ⟨line, earlier, later, offset, hRow⟩ := hFault.exists_inRow hSays
  have hLine := hRow.lineOf_eq
  obtain ⟨shown, hShown⟩ :
      ∃ shown, (shownLines source)[(Line.toText earlier).count '\n']? = some shown := by
    have hLast := lineOf_le_length source report.position
    exact ⟨_, List.getElem?_eq_getElem (by omega)⟩
  obtain ⟨before, after, hExcerpt, _⟩ := Report.excerpt_split hLocation hLine hShown
  refine ⟨earlier, line, later, offset, before, shown, after, hFault, hRow, ?_, ?_⟩
  · rw [hExcerpt, ← hLine, hLocation]
    rfl
  · rw [hLocation]
    exact hRow.location_iff hShown

/-- The carriage return of a line break is not shown. -/
theorem read_report_row_return :
    ∃ report, read "X 1\r\n".toList = .error (.malformedSource report) ∧
      (∃ row ∈ rowsOf "X 1\r\n".toList, ¬ Silent row.2.content) ∧
      report.location.line = 1 ∧ report.location.column = report.position + 1 ∧
      ∃ before after, report.excerpt =
        before ++ Report.numberedLine 1 "X 1".toList :: report.marker :: after := by
  have hRead : read "X 1\r\n".toList = .error (.malformedSource _) := rfl
  have hSays : ∃ row ∈ rowsOf "X 1\r\n".toList, ¬ Silent row.2.content := by
    have hFlaw : Row.read 0 "X 1".toList = .error ⟨0, none, .missingArrow⟩ := rfl
    refine ⟨(0, ⟨"X 1".toList, ['\r', '\n']⟩), List.mem_singleton_self _, fun hSilent => ?_⟩
    rw [Row.read_of_silent 0 hSilent] at hFlaw
    cases hFlaw
  obtain ⟨earlier, line, later, offset, before, shown, after, _, hRow, hExcerpt, hSame⟩ :=
    read_report_row hRead hSays
  have hRows : [⟨"X 1".toList, ['\r', '\n']⟩] = earlier ++ line :: later := hRow.rows_eq
  obtain ⟨rfl, hLine⟩ : earlier = [] ∧ line :: later = [⟨"X 1".toList, ['\r', '\n']⟩] := by
    simpa using List.append_eq_singleton_iff.mp hRows.symm
  obtain ⟨rfl, rfl⟩ := List.cons.inj hLine
  obtain ⟨hNumber, hColumn, rfl⟩ := hSame.mpr ⟨by simp, by simp [behind, Line.toText]⟩
  rw [hNumber] at hExcerpt
  refine ⟨_, hRead, hSays, hNumber, ?_, before, after, hExcerpt⟩
  rw [hColumn, hRow.position_eq]
  simp [Line.toText]

/-- A carriage return on its own ends a row, but the report does not count it. -/
theorem read_report_row_merged :
    ∃ report, read "S -> a\rX 1".toList = .error (.malformedSource report) ∧
      InRow "S -> a\rX 1".toList report.position [⟨"S -> a".toList, ['\r']⟩]
        ⟨"X 1".toList, []⟩ [] 0 ∧
      report.location.line = 1 ∧ report.location.column = 8 ∧
      report.excerpt = [Report.numberedLine 1 "S -> a\rX 1".toList, report.marker] := by
  have hRead : read "S -> a\rX 1".toList = .error (.malformedSource _) := rfl
  exact ⟨_, hRead, ⟨by decide, rfl, by decide⟩, rfl, rfl, rfl⟩

end Earley.Grammar
