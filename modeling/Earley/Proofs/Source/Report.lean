import Earley.Error
import Earley.Proofs.Source.Location

/-! Reports about places that lie in their source, and the lines that their texts consist of. -/
namespace Earley.Source

variable {source : List Char}

/-- A report is about a place of the source, and its line is among those that it shows. -/
structure Report.Within (report : Report) (source : List Char) : Prop where
  position_le : report.position ≤ source.length
  shown : ∃ text, (report.location.line, text) ∈ report.location.context

/-- Where a position of a source is, with the context that reports show. -/
def locationOf (source : List Char) (position : Nat) : Location :=
  ⟨lineOf source position, columnOf source position, window source
    (lineOf source position - Report.contextLines) (lineOf source position + Report.contextLines)⟩

theorem exists_mem_context (source : List Char) (position : Nat) :
    ∃ text, (lineOf source position, text) ∈ (locationOf source position).context := by
  have hIndex : lineOf source position - 1 < (shownLines source).length := by
    have hLine := lineOf_le_length source position
    simp only [lineOf] at hLine ⊢
    omega
  refine ⟨(shownLines source)[lineOf source position - 1], mem_window_iff.mpr ⟨?_, ?_, ?_⟩⟩
  · simp only [Report.contextLines]
    omega
  · exact Nat.succ_pos _
  · exact List.getElem?_eq_getElem hIndex

/-- How many characters are marked: one at a position, or those of a range that starts there. -/
def markedWidth (source : List Char) (position : Nat) : Option Nat → Nat
  | none => 1
  | some last =>
    let line := lineOf source last
    max 1 (Report.markerEnd source (lineOf source position)
      ⟨line, columnOf source last, window source line line⟩ - columnOf source position)

theorem markedWidth_pos (source : List Char) (position : Nat) (stop : Option Nat) :
    0 < markedWidth source position stop := by
  cases stop with
  | none => exact Nat.one_pos
  | some last => exact Nat.le_max_left 1 _

/-- A range within a source can be reported. -/
theorem make?_eq_some {position : Nat} {stop : Option Nat} (hPosition : position ≤ source.length)
    (hStop : ∀ last, stop = some last → position ≤ last ∧ last ≤ source.length)
    (title message : List Char) :
    Report.make? source position (stop.map fun (n : Nat) => (n : Int)) title message =
      some ⟨title, position, locationOf source position, markedWidth source position stop,
        message⟩ := by
  have hLocation : locate? source position Report.contextLines Report.contextLines =
      some (locationOf source position) := by
    simp [locate?, hPosition, locationOf]
  cases stop with
  | none => simp [Report.make?, hLocation, markedWidth]
  | some last =>
      obtain ⟨hOrder, hLast⟩ := hStop last rfl
      have hStopLocation : locate? source last 0 0 = some ⟨lineOf source last,
          columnOf source last, window source (lineOf source last) (lineOf source last)⟩ := by
        simp [locate?, hLast]
      simp [Report.make?, hLocation, hStopLocation, hOrder, markedWidth, locationOf]

theorem exists_report {position : Nat} {stop : Option Nat} (hPosition : position ≤ source.length)
    (hStop : ∀ last, stop = some last → position ≤ last ∧ last ≤ source.length)
    (message : List Char) : ∃ report : Report,
      Error.ofSource source position (stop.map fun (n : Nat) => (n : Int)) message =
        .malformedSource report ∧
      report.position = position ∧ report.Within source := by
  have hMake := make?_eq_some hPosition hStop Error.sourceTitle message
  exact ⟨_, by rw [Error.ofSource, hMake], rfl, hPosition, exists_mem_context source position⟩

namespace Report

variable {report : Report} {position : Nat}

/-- What stands above the excerpt. -/
def heading (report : Report) : List Char :=
  report.title ++ " on line ".toList ++ Nat.toDigits 10 report.location.line
    ++ ':' :: Nat.toDigits 10 report.location.column

theorem isDigit_of_mem_zeroPadded {width n : Nat} {c : Char} (hMem : c ∈ Text.zeroPadded width n) :
    c.isDigit = true := by
  rcases List.mem_append.mp hMem with hZero | hDigit
  · rw [List.eq_of_mem_replicate hZero]
    rfl
  · exact Nat.isDigit_of_mem_toDigits (by decide) (by decide) hDigit

theorem length_zeroPadded (width n : Nat) :
    (Text.zeroPadded width n).length = max width (Nat.toDigits 10 n).length := by
  simp only [Text.zeroPadded, List.length_append, List.length_replicate]
  omega

/-- Shown lines begin with a digit. -/
theorem exists_numberedLine_eq (number : Nat) (line : List Char) :
    ∃ digit rest, digit.isDigit = true ∧ numberedLine number line = digit :: rest := by
  have hSome : Text.zeroPadded 3 number ≠ [] := by
    simp [Text.zeroPadded, Nat.toDigits_ne_nil]
  obtain ⟨digit, rest, hDigits⟩ := List.exists_cons_of_ne_nil hSome
  refine ⟨digit, rest ++ ':' :: ' ' :: line, ?_, by rw [numberedLine, hDigits]; rfl⟩
  exact isDigit_of_mem_zeroPadded (hDigits ▸ List.mem_cons_self ..)

theorem newline_notMem_numberedLine {number : Nat} {line : List Char} (hLine : '\n' ∉ line) :
    '\n' ∉ numberedLine number line := by
  have hDigits : '\n' ∉ Text.zeroPadded 3 number := fun hMem =>
    absurd (isDigit_of_mem_zeroPadded hMem) (by decide)
  simp [numberedLine, hDigits, hLine]

theorem newline_notMem_marker (report : Report) : '\n' ∉ report.marker := by
  simp [marker]

theorem context_split {index : Nat} {line : List Char} (hIndex : lineOf source position = index + 1)
    (hLine : (shownLines source)[index]? = some line) : ∃ before after,
      (locationOf source position).context = before ++ (index + 1, line) :: after ∧
      ∀ other ∈ before ++ after, other.1 ≠ index + 1 := by
  simp only [locationOf, hIndex]
  apply window_split hLine <;> simp only [contextLines] <;> omega

/-- Where a range goes on below its first line, the marker ends with what the context shows of the
line. -/
theorem exists_lookup_context {stop : Location} (hBelow : stop.line ≠ lineOf source position) :
    ∃ line, (locationOf source position).context.lookup (lineOf source position) = some line ∧
      markerEnd source (lineOf source position) stop = line.length + 1 := by
  obtain ⟨line, hMem⟩ := exists_mem_context source position
  obtain ⟨-, hPositive, hLine⟩ := mem_window_iff.mp hMem
  have hIndex : lineOf source position = lineOf source position - 1 + 1 :=
    (Nat.sub_add_cancel hPositive).symm
  obtain ⟨before, after, hContext, hOther⟩ := context_split hIndex hLine
  rw [← hIndex] at hContext hOther
  refine ⟨line, List.lookup_eq_some_iff.mpr ⟨before, after, hContext, fun other hMem => ?_⟩, ?_⟩
  · simpa using Ne.symm (hOther other (List.mem_append_left _ hMem))
  · rw [markerEnd, if_neg hBelow, hLine]
    rfl

/-- A line of the context as it is shown, with the marker if the report is about it. -/
def shownRows (report : Report) (shown : Nat × List Char) : List (List Char) :=
  if shown.1 = report.location.line then [numberedLine shown.1 shown.2, report.marker]
  else [numberedLine shown.1 shown.2]

theorem excerpt_eq (report : Report) :
    report.excerpt = report.location.context.flatMap report.shownRows := rfl

theorem flatMap_shownRows {shown : List (Nat × List Char)}
    (hShown : ∀ other ∈ shown, other.1 ≠ report.location.line) :
    shown.flatMap report.shownRows = shown.map fun other => numberedLine other.1 other.2 := by
  rw [← List.flatMap_pure_eq_map]
  apply List.flatMap_congr
  intro other hMem
  exact if_neg (hShown other hMem)

/-- The excerpt shows the line of the position with the marker below it, and else only lines of the
source. -/
theorem excerpt_split (hReport : report.location = locationOf source position) {index : Nat}
    {line : List Char} (hIndex : lineOf source position = index + 1)
    (hLine : (shownLines source)[index]? = some line) : ∃ before after,
      report.excerpt = before ++ numberedLine (index + 1) line :: report.marker :: after ∧
      ∀ other ∈ before ++ after, ∃ number text, other = numberedLine number text := by
  have hNumber : report.location.line = index + 1 := by
    rw [hReport]
    exact hIndex
  obtain ⟨before, after, hContext, hOther⟩ := context_split hIndex hLine
  rw [← hReport] at hContext
  simp only [← hNumber, List.mem_append] at hContext hOther ⊢
  have hBefore := flatMap_shownRows fun other hMem => hOther other (Or.inl hMem)
  have hAfter := flatMap_shownRows fun other hMem => hOther other (Or.inr hMem)
  refine ⟨before.flatMap report.shownRows, after.flatMap report.shownRows, ?_, ?_⟩
  · rw [excerpt_eq, hContext, List.flatMap_append, List.flatMap_cons, shownRows, if_pos rfl]
    rfl
  · intro other hMem
    rw [hBefore, hAfter, ← List.mem_append, ← List.map_append] at hMem
    obtain ⟨shown, _, rfl⟩ := List.mem_map.mp hMem
    exact ⟨shown.1, shown.2, rfl⟩

theorem newline_notMem_of_mem_excerpt (hReport : report.location = locationOf source position)
    {line : List Char} (hLine : line ∈ report.excerpt) : '\n' ∉ line := by
  rw [excerpt_eq, hReport] at hLine
  obtain ⟨⟨number, text⟩, hShown, hMem⟩ := List.mem_flatMap.mp hLine
  have hText : '\n' ∉ text :=
    newline_notMem_of_mem_shownLines (List.mem_of_getElem? (mem_window_iff.mp hShown).2.2)
  have hNumbered : '\n' ∉ numberedLine number text := newline_notMem_numberedLine hText
  rw [shownRows] at hMem
  split at hMem
  · rcases List.mem_pair.mp hMem with rfl | rfl
    · exact hNumbered
    · exact newline_notMem_marker report
  · rw [List.mem_singleton.mp hMem]
    exact hNumbered

/-- The lines of the text are those of the heading, of the excerpt and of the message, with an empty
line in between. -/
theorem fields_text (hReport : report.location = locationOf source position)
    (hSome : report.excerpt ≠ []) : Text.fields '\n' report.text =
      Text.fields '\n' report.heading ++ [] :: report.excerpt ++
        [] :: Text.fields '\n' report.message := by
  have hExcerpt : Text.fields '\n' (Text.join ['\n'] report.excerpt) = report.excerpt :=
    Text.fields_join '\n' hSome fun line hLine => newline_notMem_of_mem_excerpt hReport hLine
  have hText : report.text = report.heading ++ '\n' :: ([] ++ '\n' ::
      (Text.join ['\n'] report.excerpt ++ '\n' :: ([] ++ '\n' :: report.message))) := by
    have hGap : "\n\n".toList = ['\n', '\n'] := rfl
    simp [text, heading, hGap]
  simp only [hText, Text.fields_append_separator, hExcerpt]
  simp [Text.fields]

end Report

end Earley.Source
