import Earley.Proofs.Source.Location
import Mathlib.Data.Prod.Lex

/-! Lines and columns as coordinates. Every position of a source has its own line and column, every
column of a line belongs to a position, and the order of the positions is the one in which a source
is read. -/
namespace Earley.Source

variable {source : List Char} {position line column : Nat}

/-- How far it is from the start of a source to the line behind so many others: their characters,
and a newline for each. -/
def lineStart (source : List Char) (count : Nat) : Nat :=
  (((Text.fields '\n' source).take count).map List.length).sum + count

/-- The position that a line and a column stand for. Both count from one. -/
def positionOf (source : List Char) (line column : Nat) : Nat :=
  lineStart source (line - 1) + (column - 1)

/-- A line of a source, with its carriage returns, and a column of it. The end of the line is a
column as well. -/
def IsPlace (source : List Char) (line column : Nat) : Prop :=
  1 ≤ line ∧ 1 ≤ column ∧
    ∃ text, (Text.fields '\n' source)[line - 1]? = some text ∧ column ≤ text.length + 1

/-- The lines of a source from so many before a line to so many after it, from top to bottom. Each
is shown without the carriage returns at its end. -/
structure Shows (source : List Char) (line : Nat) (before after : Int)
    (context : List (Nat × List Char)) : Prop where
  ascending : context.Pairwise fun upper lower => upper.1 < lower.1
  numbers : ∀ number : Nat, number ∈ context.map Prod.fst ↔
    max 1 (line - before) ≤ number ∧
      number ≤ min ((Text.fields '\n' source).length : Int) (line + after)
  shown : ∀ {number text}, (number, text) ∈ context → ∃ returns,
    (Text.fields '\n' source)[number - 1]? = some (text ++ List.replicate returns '\r') ∧
      text.getLast? ≠ some '\r'

theorem lineStart_succ {count : Nat} {text : List Char}
    (hText : (Text.fields '\n' source)[count]? = some text) :
    lineStart source (count + 1) = lineStart source count + text.length + 1 := by
  simp only [lineStart, List.take_add_one, hText, Option.toList_some, List.map_append,
    List.sum_append, List.map_singleton, List.sum_singleton]
  omega

theorem lineStart_mono (source : List Char) : Monotone (lineStart source) := by
  apply monotone_nat_of_le_succ
  intro count
  cases hText : (Text.fields '\n' source)[count]? with
  | some text =>
      rw [lineStart_succ hText]
      omega
  | none =>
      simp [lineStart, List.take_add_one, hText]

/-- Behind the last line, a newline would have to follow. -/
theorem lineStart_length (source : List Char) :
    lineStart source (Text.fields '\n' source).length = source.length + 1 := by
  have hSum := Text.sum_length_fields '\n' source
  rw [lineStart, List.take_length, Text.length_fields]
  omega

/-- The lines before the line of a position end where the line begins. -/
theorem Cut.lineStart_eq {earlier left right later : List Char}
    (hCut : Cut source earlier left right later) :
    lineStart source (earlier.count '\n') = earlier.length := by
  rcases hCut.earlier_ended with rfl | ⟨front, rfl⟩
  · simp [lineStart]
  · have hCount : (front ++ ['\n']).count '\n' = (Text.fields '\n' front).length := by
      rw [Text.length_fields, List.count_append, List.count_singleton_self]
    have hFields : Text.fields '\n' source =
        Text.fields '\n' front ++ Text.fields '\n' (left ++ right ++ later) := by
      rw [hCut.source_eq, ← Text.fields_append_separator]
      simp
    have hStart := lineStart_length front
    rw [lineStart, List.take_length] at hStart
    rw [lineStart, hCount, hFields, List.take_left, hStart, List.length_append,
      List.length_singleton]

/-- The line and the column of a position are a place, and it is the position's. -/
theorem isPlace_of_le_length (hInside : position ≤ source.length) :
    IsPlace source (lineOf source position) (columnOf source position) ∧
      positionOf source (lineOf source position) (columnOf source position) = position := by
  obtain ⟨earlier, left, right, later, hCut, hPosition⟩ := exists_cut hInside
  rw [hCut.lineOf_eq hPosition, hCut.columnOf_eq hPosition]
  refine ⟨⟨Nat.le_add_left .., Nat.le_add_left .., left ++ right, hCut.getElem?_fields, ?_⟩, ?_⟩
  · simp
  · rw [positionOf, Nat.add_sub_cancel, Nat.add_sub_cancel, hCut.lineStart_eq, hPosition]

/-- A place lies before the next line. -/
theorem IsPlace.positionOf_lt_lineStart (hPlace : IsPlace source line column) :
    positionOf source line column < lineStart source line := by
  obtain ⟨hLine, hColumn, text, hText, hEnd⟩ := hPlace
  have hNext := lineStart_succ hText
  rw [Nat.sub_add_cancel hLine] at hNext
  rw [positionOf]
  omega

theorem IsPlace.positionOf_le_length (hPlace : IsPlace source line column) :
    positionOf source line column ≤ source.length := by
  have hNext := hPlace.positionOf_lt_lineStart
  obtain ⟨hLine, -, text, hText, -⟩ := hPlace
  obtain ⟨hIndex, -⟩ := List.getElem?_eq_some_iff.mp hText
  have hLast := lineStart_mono source (show line ≤ (Text.fields '\n' source).length by omega)
  rw [lineStart_length] at hLast
  omega

/-- Places on different lines are in the order of their lines. -/
theorem IsPlace.positionOf_lt_of_line_lt {other : Nat} (hPlace : IsPlace source line column)
    (hLine : line < other) (otherColumn : Nat) :
    positionOf source line column < positionOf source other otherColumn := by
  have hNext := hPlace.positionOf_lt_lineStart
  have hStart := lineStart_mono source (show line ≤ other - 1 by omega)
  rw [positionOf] at hNext ⊢
  rw [positionOf]
  omega

/-- Places are read line by line, and each line from left to right. -/
theorem IsPlace.positionOf_lt_iff {other otherColumn : Nat} (hPlace : IsPlace source line column)
    (hOther : IsPlace source other otherColumn) :
    positionOf source line column < positionOf source other otherColumn ↔
      toLex (line, column) < toLex (other, otherColumn) := by
  rw [Prod.Lex.toLex_lt_toLex]
  rcases Nat.lt_trichotomy line other with hBefore | rfl | hAfter
  · have hLess := hPlace.positionOf_lt_of_line_lt hBefore otherColumn
    simp [hBefore, hLess]
  · have hColumn := hPlace.2.1
    have hOtherColumn := hOther.2.1
    simp only [positionOf, lt_irrefl, false_or, true_and]
    omega
  · have hGreater := hOther.positionOf_lt_of_line_lt hAfter column
    omega

/-- Different places have different positions. -/
theorem IsPlace.eq_of_positionOf_eq {other otherColumn : Nat} (hPlace : IsPlace source line column)
    (hOther : IsPlace source other otherColumn)
    (hSame : positionOf source line column = positionOf source other otherColumn) :
    line = other ∧ column = otherColumn := by
  have hBelow := mt (hPlace.positionOf_lt_iff hOther).mpr (by omega)
  have hAbove := mt (hOther.positionOf_lt_iff hPlace).mpr (by omega)
  have hEqual : toLex (line, column) = toLex (other, otherColumn) :=
    le_antisymm (not_lt.mp hAbove) (not_lt.mp hBelow)
  exact Prod.mk.inj (toLex.injective hEqual)

/-- The locations of a source are those of its positions. -/
theorem locate?_eq_some_iff {location : Location} {target before after : Int} :
    locate? source target before after = some location ↔
      ∃ position : Nat, target = position ∧ position ≤ source.length ∧
        location = ⟨lineOf source position, columnOf source position, window source
          (lineOf source position - before) (lineOf source position + after)⟩ := by
  rw [locate?, Option.ite_none_right_eq_some]
  constructor
  · rintro ⟨⟨hLower, hUpper⟩, hSame⟩
    exact ⟨target.toNat, by omega, by omega, (Option.some.inj hSame).symm⟩
  · rintro ⟨position, rfl, hInside, rfl⟩
    simp [hInside]

theorem exists_returns (text : List Char) : ∃ returns,
    text = dropReturns text ++ List.replicate returns '\r' ∧
      (dropReturns text).getLast? ≠ some '\r' := by
  refine ⟨(text.rtakeWhile (· = '\r')).length, ?_, ?_⟩
  · have hReturns : text.rtakeWhile (· = '\r') =
        List.replicate (text.rtakeWhile (· = '\r')).length '\r' :=
      List.eq_replicate_of_mem fun c hMem => by simpa using List.mem_rtakeWhile_imp hMem
    rw [← hReturns]
    exact List.rdropWhile_append_rtakeWhile.symm
  · intro hLast
    obtain ⟨hSome, hReturn⟩ := List.mem_getLast?_eq_getLast hLast
    have hOther := List.rdropWhile_last_not (· = '\r') text hSome
    exact hOther (decide_eq_true hReturn.symm)

/-- The window around a line shows what the context of a location is to show. -/
theorem shows_window (source : List Char) (line : Nat) (before after : Int) :
    Shows source line before after (window source (line - before) (line + after)) where
  ascending := pairwise_window ..
  numbers number := by
    have hCount : (shownLines source).length = (Text.fields '\n' source).length := by
      simp [shownLines]
    constructor
    · intro hNumber
      obtain ⟨⟨_, text⟩, hMem, rfl⟩ := List.mem_map.mp hNumber
      obtain ⟨hInside, hPositive, hText⟩ := mem_window_iff.mp hMem
      obtain ⟨hIndex, -⟩ := List.getElem?_eq_some_iff.mp hText
      omega
    · intro hInside
      have hIndex : number - 1 < (shownLines source).length := by omega
      have hMem : (number, (shownLines source)[number - 1]) ∈
          window source (line - before) (line + after) :=
        mem_window_iff.mpr ⟨by omega, by omega, List.getElem?_eq_getElem hIndex⟩
      exact List.mem_map_of_mem hMem
  shown hMem := by
    obtain ⟨-, -, hText⟩ := mem_window_iff.mp hMem
    rw [shownLines, List.getElem?_map] at hText
    obtain ⟨full, hFull, rfl⟩ := Option.map_eq_some_iff.mp hText
    obtain ⟨returns, hReturns, hLast⟩ := exists_returns full
    exact ⟨returns, hReturns ▸ hFull, hLast⟩

/-- The lines and columns of two locations are in the order of their positions. -/
theorem lt_iff_of_locate? {first second before after beforeOther afterOther : Int}
    {upper lower : Location} (hFirst : locate? source first before after = some upper)
    (hSecond : locate? source second beforeOther afterOther = some lower) :
    first < second ↔ toLex (upper.line, upper.column) < toLex (lower.line, lower.column) := by
  obtain ⟨position, rfl, hInside, rfl⟩ := locate?_eq_some_iff.mp hFirst
  obtain ⟨other, rfl, hOtherInside, rfl⟩ := locate?_eq_some_iff.mp hSecond
  obtain ⟨hPlace, hPosition⟩ := isPlace_of_le_length hInside
  obtain ⟨hOther, hOtherPosition⟩ := isPlace_of_le_length hOtherInside
  rw [← hPlace.positionOf_lt_iff hOther, hPosition, hOtherPosition, Int.ofNat_lt]

/-- Positions and places correspond one to one and in the same order, however many lines of context
are asked for, and the context is the part of the source that was asked for. -/
theorem places_correspond (source : List Char) :
    (∀ position ≤ source.length, ∀ before after : Int, ∃ location,
      locate? source position before after = some location ∧
      IsPlace source location.line location.column ∧
      positionOf source location.line location.column = position ∧
      Shows source location.line before after location.context) ∧
    (∀ line column, IsPlace source line column → ∀ before after : Int, ∃ location,
      locate? source (positionOf source line column) before after = some location ∧
      location.line = line ∧ location.column = column) ∧
    ∀ {first second before after beforeOther afterOther : Int} {upper lower : Location},
      locate? source first before after = some upper →
      locate? source second beforeOther afterOther = some lower →
      (first < second ↔ toLex (upper.line, upper.column) < toLex (lower.line, lower.column)) := by
  refine ⟨?_, ?_, lt_iff_of_locate?⟩
  · intro position hInside before after
    obtain ⟨hPlace, hPosition⟩ := isPlace_of_le_length hInside
    refine ⟨_, locate?_eq_some_iff.mpr ⟨position, rfl, hInside, rfl⟩, hPlace, hPosition, ?_⟩
    exact shows_window source (lineOf source position) before after
  · intro line column hPlace before after
    have hInside := hPlace.positionOf_le_length
    obtain ⟨hOther, hPosition⟩ := isPlace_of_le_length hInside
    refine ⟨_, locate?_eq_some_iff.mpr ⟨_, rfl, hInside, rfl⟩, ?_⟩
    exact hOther.eq_of_positionOf_eq hPlace hPosition

/-- A line with a carriage return at its end, an empty line, and a line that no newline ends. -/
def ragged : List Char := "a\r\n\nbc".toList

/-- The end of the source, with two lines of context before its line and one line taken away, and
the empty line above. -/
theorem places_correspond_ragged :
    6 ≤ ragged.length ∧ IsPlace ragged 2 1 ∧ ∃ last above,
      locate? ragged (6 : Nat) 2 (-1) = some last ∧
      IsPlace ragged last.line last.column ∧ positionOf ragged last.line last.column = 6 ∧
      last.context = [(1, ['a']), (2, [])] ∧
      locate? ragged (3 : Nat) 0 0 = some above ∧ above.line = 2 ∧ above.column = 1 ∧
      toLex (above.line, above.column) < toLex (last.line, last.column) := by
  have hInside : 6 ≤ ragged.length := by decide
  have hEmpty : IsPlace ragged 2 1 := ⟨by decide, by decide, [], by decide, by decide⟩
  obtain ⟨hPlaces, hPositions, hOrder⟩ := places_correspond ragged
  obtain ⟨last, hLast, hPlace, hPosition, -⟩ := hPlaces 6 hInside 2 (-1)
  obtain ⟨above, hAbove, hLine, hColumn⟩ := hPositions 2 1 hEmpty 0 0
  have hStart : positionOf ragged 2 1 = 3 := by decide
  rw [hStart] at hAbove
  have hContext : (locate? ragged (6 : Nat) 2 (-1)).map Location.context =
      some [(1, ['a']), (2, [])] := by decide
  rw [hLast] at hContext
  exact ⟨hInside, hEmpty, last, above, hLast, hPlace, hPosition, Option.some.inj hContext, hAbove,
    hLine, hColumn, (hOrder hAbove hLast).mp (by decide)⟩

end Earley.Source
