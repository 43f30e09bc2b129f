import Earley.Proofs.Source.Report
import Mathlib.Order.Interval.Finset.Nat

/-! The marker below the line that a report is about: where it begins, and how far it reaches. -/
namespace Earley.Source

open Text

variable {source earlier left right later : List Char} {first last position : Nat}

/-- The positions of a range that no newline separates from its start. -/
def firstLine (source : List Char) (first last : Nat) : Finset Nat :=
  {position ∈ Finset.Ico first last | '\n' ∉ (source.take (position + 1)).drop first}

namespace Cut

theorem mem_firstLine_iff (hCut : Cut source earlier left right later)
    (hFirst : first = earlier.length + left.length) (hLast : last ≤ source.length) :
    position ∈ firstLine source first last ↔
      (first ≤ position ∧ position < last) ∧ position < first + right.length := by
  rw [firstLine, Finset.mem_filter, Finset.mem_Ico, and_congr_right_iff]
  rintro ⟨hLower, hUpper⟩
  have hRange : (source.take (position + 1)).drop first =
      (right ++ later).take (position + 1 - first) := by
    rw [List.drop_take, hCut.drop_eq hFirst]
  rw [hRange, List.take_append, List.mem_append]
  constructor
  · intro hUnbroken
    by_contra hBeyond
    obtain ⟨rest, rfl⟩ := hCut.exists_newline hFirst (by omega)
    obtain ⟨count, hCount⟩ := Nat.exists_eq_add_of_lt
      (show 0 < position + 1 - first - right.length by omega)
    apply hUnbroken
    rw [hCount]
    simp
  · intro hInside
    rintro (hRight | hLater)
    · exact hCut.right_unbroken (List.mem_of_mem_take hRight)
    · rw [show position + 1 - first - right.length = 0 by omega, List.take_zero] at hLater
      cases hLater

/-- A range that leaves its line is clipped to the line. -/
theorem card_firstLine (hCut : Cut source earlier left right later)
    (hFirst : first = earlier.length + left.length) (hLast : last ≤ source.length) :
    (firstLine source first last).card = min (last - first) right.length := by
  have hInterval :
      firstLine source first last = Finset.Ico first (min last (first + right.length)) := by
    ext position
    rw [hCut.mem_firstLine_iff hFirst hLast, Finset.mem_Ico]
    omega
  rw [hInterval, Nat.card_Ico]
  omega

/-- A position that is not in the rest of the line is on a later line. -/
theorem lineOf_lt_of_beyond (hCut : Cut source earlier left right later)
    (hFirst : first = earlier.length + left.length) (hLast : last ≤ source.length)
    (hBeyond : right.length < last - first) : lineOf source first < lineOf source last := by
  obtain ⟨rest, rfl⟩ := hCut.exists_newline hFirst (by omega)
  have hTake : (earlier ++ left ++ right ++ ['\n']) <+: source.take last := by
    refine List.prefix_take_iff.mpr ⟨⟨rest, ?_⟩, ?_⟩
    · rw [hCut.source_eq]
      simp
    · simp only [List.length_append, List.length_singleton]
      omega
  have hCount := hTake.sublist.count_le '\n'
  rw [hCut.lineOf_eq hFirst, lineOf]
  simp only [List.count_append, List.count_singleton_self] at hCount
  omega

/-- Without carriage returns, the marker covers the range as far as its first line goes. A range
that ends on the line is measured by cutting the line once more, where the range ends. -/
theorem markedWidth_eq (hCut : Cut source earlier left right later) (hReturns : '\r' ∉ source)
    (hFirst : first = earlier.length + left.length) (hOrder : first ≤ last)
    (hLast : last ≤ source.length) :
    markedWidth source first (some last) = max 1 (firstLine source first last).card := by
  have hColumn := hCut.columnOf_eq hFirst
  have hLine := hCut.lineOf_eq hFirst
  rw [hCut.card_firstLine hFirst hLast]
  simp only [markedWidth, Report.markerEnd]
  rcases Nat.lt_or_ge right.length (last - first) with hBeyond | hInside
  · have hBelow := hCut.lineOf_lt_of_beyond hFirst hLast hBeyond
    rw [if_neg (Nat.ne_of_gt hBelow), hLine, Nat.add_sub_cancel,
      hCut.getElem?_shownLines_of_plain hReturns, hColumn]
    simp only [Option.getD_some, List.length_append]
    omega
  · have hWidth : (left ++ right.take (last - first)).length = left.length + (last - first) := by
      rw [List.length_append, List.length_take_of_le hInside]
    have hStop : last = earlier.length + (left ++ right.take (last - first)).length := by
      omega
    have hStopLine := hCut.shift.lineOf_eq hStop
    have hStopColumn := hCut.shift.columnOf_eq hStop
    rw [if_pos (hStopLine.trans hLine.symm), hColumn, hStopColumn, hWidth]
    omega

/-- A report shows the line of its position, and the marker right below. -/
theorem exists_marked (hCut : Cut source earlier left right later) (hReturns : '\r' ∉ source)
    (hPosition : position = earlier.length + left.length) {stop : Option Nat}
    (hStop : ∀ last, stop = some last → position ≤ last ∧ last ≤ source.length)
    (title message : List Char) : ∃ report before after,
      Report.make? source position (stop.map fun (n : Nat) => (n : Int)) title message =
        some report ∧
      fields '\n' report.text =
        fields '\n' report.heading ++ [] :: report.excerpt ++ [] :: fields '\n' message ∧
      report.excerpt = before ++ Report.numberedLine (lineOf source position) (left ++ right) ::
        (List.replicate (left.length + 5) ' ' ++
          List.replicate (markedWidth source position stop) '^') :: after ∧
      ∀ other ∈ before ++ after, ∃ number text, other = Report.numberedLine number text := by
  have hInside : position ≤ source.length := by
    have hLength := hCut.length_eq hPosition
    omega
  have hLine := hCut.lineOf_eq hPosition
  have hColumn := hCut.columnOf_eq hPosition
  let report : Report :=
    ⟨title, position, locationOf source position, markedWidth source position stop, message⟩
  have hReport : report.location = locationOf source position := rfl
  obtain ⟨before, after, hExcerpt, hOther⟩ :=
    Report.excerpt_split hReport hLine (hCut.getElem?_shownLines_of_plain hReturns)
  refine ⟨report, before, after, make?_eq_some hInside hStop title message, ?_, ?_, hOther⟩
  · refine Report.fields_text hReport ?_
    rw [hExcerpt]
    exact List.append_ne_nil_of_right_ne_nil _ (List.cons_ne_nil _ _)
  · have hMarker : report.marker = List.replicate (columnOf source position + 4) ' ' ++
        List.replicate (markedWidth source position stop) '^' := rfl
    rw [hExcerpt, hLine, hMarker, hColumn]

end Cut

namespace Report

/-- A line of spaces with so many carets behind. -/
def IsMarker (width : Nat) (line : List Char) : Prop :=
  0 < width ∧ ∃ indent, line = List.replicate indent ' ' ++ List.replicate width '^'

theorem numberedLine_append (number : Nat) (front back : List Char) :
    numberedLine number (front ++ back) = numberedLine number front ++ back := by
  simp [numberedLine]

theorem not_isMarker_numberedLine (width number : Nat) (line : List Char) :
    ¬ IsMarker width (numberedLine number line) := by
  rintro ⟨hWidth, indent, hSame⟩
  obtain ⟨digit, rest, hDigit, hLine⟩ := exists_numberedLine_eq number line
  have hMem : digit ∈ List.replicate indent ' ' ++ List.replicate width '^' := by
    rw [← hSame, hLine]
    exact List.mem_cons_self ..
  rcases List.mem_append.mp hMem with hSpace | hCaret
  · rw [List.eq_of_mem_replicate hSpace] at hDigit
    exact absurd hDigit (by decide)
  · rw [List.eq_of_mem_replicate hCaret] at hDigit
    exact absurd hDigit (by decide)

/-- Every range of a source without carriage returns can be reported. One line of the excerpt is a
marker, and it has a caret for each position of the range that no newline separates from its start,
but at least one. -/
theorem marker_clips_range (hReturns : '\r' ∉ source) (hOrder : first ≤ last)
    (hLast : last ≤ source.length) (title message : List Char) :
    ∃ report before marker after,
      make? source first (some (last : Int)) title message = some report ∧
      fields '\n' report.text =
        fields '\n' report.heading ++ [] :: report.excerpt ++ [] :: fields '\n' message ∧
      report.excerpt = before ++ marker :: after ∧
      IsMarker (max 1 (firstLine source first last).card) marker ∧
      ∀ other ∈ before ++ after, ∀ width, ¬ IsMarker width other := by
  obtain ⟨earlier, left, right, later, hCut, hFirst⟩ := exists_cut (hOrder.trans hLast)
  have hStop : ∀ stop, some last = some stop → first ≤ stop ∧ stop ≤ source.length := by
    rintro stop ⟨⟩
    exact ⟨hOrder, hLast⟩
  obtain ⟨report, before, after, hMake, hText, hExcerpt, hOther⟩ :=
    hCut.exists_marked hReturns hFirst hStop title message
  rw [hCut.markedWidth_eq hReturns hFirst hOrder hLast] at hExcerpt
  rw [List.append_cons] at hExcerpt
  refine ⟨report, _, _, after, hMake, hText, hExcerpt, ⟨Nat.le_max_left 1 _, _, rfl⟩, ?_⟩
  intro other hMem width
  obtain ⟨number, text, rfl⟩ : ∃ number text, other = numberedLine number text := by
    rw [List.mem_append, List.mem_append, List.mem_singleton] at hMem
    rcases hMem with (hBefore | hShown) | hAfter
    · exact hOther other (List.mem_append_left _ hBefore)
    · exact ⟨_, left ++ right, hShown⟩
    · exact hOther other (List.mem_append_right _ hAfter)
  exact not_isMarker_numberedLine width number text

/-- The range goes on below the line, where the marker ends with the line. -/
theorem marker_clips_range_below :
    '\r' ∉ "abc\nd".toList ∧ 1 ≤ 5 ∧ 5 ≤ "abc\nd".toList.length ∧
      ∃ report before marker after,
        make? "abc\nd".toList 1 (some 5) "Error".toList "here".toList = some report ∧
        report.excerpt = before ++ marker :: after ∧ IsMarker 2 marker ∧
        ∀ other ∈ before ++ after, ∀ width, ¬ IsMarker width other := by
  have hReturns : '\r' ∉ "abc\nd".toList := by decide
  obtain ⟨report, before, marker, after, hMake, -, hExcerpt, hMarker, hOther⟩ :=
    marker_clips_range hReturns (show 1 ≤ 5 by decide) (by decide) "Error".toList "here".toList
  have hWidth : max 1 (firstLine "abc\nd".toList 1 5).card = 2 := by decide
  rw [hWidth] at hMarker
  exact ⟨hReturns, by decide, by decide, report, before, marker, after, hMake, hExcerpt, hMarker,
    hOther⟩

/-- The caret is below the character at the position exactly if the number of its line fits the
three digits that the marker leaves room for. -/
theorem caret_below_iff (hReturns : '\r' ∉ source) {c : Char}
    (hChar : source[position]? = some c) (hPlain : c ≠ '\n') {stop : Option Nat}
    (hStop : ∀ last, stop = some last → position ≤ last ∧ last ≤ source.length)
    (title message : List Char) :
    ∃ earlier front back later report before indent carets after,
      Cut source earlier front (c :: back) later ∧ position = earlier.length + front.length ∧
      make? source position (stop.map fun (n : Nat) => (n : Int)) title message = some report ∧
      fields '\n' report.text =
        fields '\n' report.heading ++ [] :: report.excerpt ++ [] :: fields '\n' message ∧
      report.excerpt = before ++ (numberedLine (lineOf source position) front ++ c :: back) ::
        (List.replicate indent ' ' ++ '^' :: carets) :: after ∧
      0 < indent ∧
      (indent = (numberedLine (lineOf source position) front).length ↔
        lineOf source position < 1000) := by
  obtain ⟨hInside, hGet⟩ := List.getElem?_eq_some_iff.mp hChar
  obtain ⟨earlier, front, right, later, hCut, hPosition⟩ := exists_cut (Nat.le_of_lt hInside)
  have hNext : c :: source.drop (position + 1) = right ++ later := by
    rw [← hCut.drop_eq hPosition, ← hGet, List.getElem_cons_drop]
  obtain ⟨back, rfl⟩ : ∃ back, right = c :: back := by
    cases right with
    | cons other back =>
        obtain ⟨rfl, -⟩ := List.cons.inj hNext
        exact ⟨back, rfl⟩
    | nil =>
        rcases hCut.later_begins with rfl | ⟨rest, rfl⟩
        · cases hNext
        · exact absurd (List.cons.inj hNext).1 hPlain
  obtain ⟨report, before, after, hMake, hText, hExcerpt, -⟩ :=
    hCut.exists_marked hReturns hPosition hStop title message
  obtain ⟨width, hWidth⟩ := Nat.exists_eq_succ_of_ne_zero
    (Nat.ne_of_gt (markedWidth_pos source position stop))
  rw [hWidth, List.replicate_succ (a := '^'), numberedLine_append] at hExcerpt
  refine ⟨earlier, front, back, later, report, before, _, _, after, hCut, hPosition, hMake, hText,
    hExcerpt, Nat.succ_pos _, ?_⟩
  have hDigits := Nat.length_toDigits_le_iff (b := 10) (k := 3) (n := lineOf source position)
    (by decide) (by decide)
  simp only [numberedLine, List.length_append, List.length_cons, length_zeroPadded]
  omega

theorem caret_below_iff_second_line :
    '\r' ∉ "a\nbcd".toList ∧ "a\nbcd".toList[3]? = some 'c' ∧ 'c' ≠ '\n' ∧
      (∀ last, some 5 = some last → 3 ≤ last ∧ last ≤ "a\nbcd".toList.length) ∧
      ∃ earlier front back later report before carets after,
        Cut "a\nbcd".toList earlier front ('c' :: back) later ∧
        3 = earlier.length + front.length ∧
        make? "a\nbcd".toList 3 (some 5) "Error".toList "here".toList = some report ∧
        report.excerpt = before ++ (numberedLine 2 front ++ 'c' :: back) ::
          (List.replicate (numberedLine 2 front).length ' ' ++ '^' :: carets) :: after := by
  have hReturns : '\r' ∉ "a\nbcd".toList := by decide
  have hChar : "a\nbcd".toList[3]? = some 'c' := by decide
  have hStop : ∀ last, some 5 = some last → 3 ≤ last ∧ last ≤ "a\nbcd".toList.length := by
    rintro last ⟨⟩
    decide
  obtain ⟨earlier, front, back, later, report, before, indent, carets, after, hCut, hPosition,
    hMake, -, hExcerpt, -, hIndent⟩ :=
    caret_below_iff hReturns hChar (by decide) hStop "Error".toList "here".toList
  have hLine : lineOf "a\nbcd".toList 3 = 2 := by decide
  rw [hLine] at hExcerpt hIndent
  rw [hIndent.mpr (by decide)] at hExcerpt
  exact ⟨hReturns, hChar, by decide, hStop, earlier, front, back, later, report, before, carets,
    after, hCut, hPosition, hMake, hExcerpt⟩

/-- A line number of four digits shifts the line, but not the marker. -/
theorem caret_before_character :
    '\r' ∉ List.replicate 999 '\n' ++ ['x'] ∧
      (List.replicate 999 '\n' ++ ['x'])[999]? = some 'x' ∧
      ∃ report above marker,
        make? (List.replicate 999 '\n' ++ ['x']) 999 none "Error".toList "here".toList =
          some report ∧
        report.excerpt = above ++ ["1000: x".toList, marker] ∧
        "1000: x".toList.idxOf 'x' = 6 ∧ marker.idxOf '^' = 5 := by
  refine ⟨by decide +kernel, by decide +kernel, ?_⟩
  have hExcerpt : (make? (List.replicate 999 '\n' ++ ['x']) 999 none "Error".toList
      "here".toList).map excerpt =
      some (["998: ".toList, "999: ".toList] ++ ["1000: x".toList, "     ^".toList]) := by
    decide +kernel
  obtain ⟨report, hMake, hReport⟩ := Option.map_eq_some_iff.mp hExcerpt
  exact ⟨report, _, _, hMake, hReport, by decide, by decide⟩

end Report

end Earley.Source
