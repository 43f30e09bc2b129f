import Earley.Proofs.Text.Layout
import Earley.Source.Location
import Mathlib.Data.List.DropRight
import Mathlib.Data.List.Sort

/-! Positions within their lines. A source is cut around the line of a position, and everything that
is said about the position can be read off the parts. -/
namespace Earley.Source

variable {source earlier left right later : List Char} {position : Nat}

/-- A source is cut around the line of a position: the lines before it, the line up to the position,
the rest of the line, and what comes after it, beginning with the newline that ends the line. -/
structure Cut (source earlier left right later : List Char) : Prop where
  source_eq : source = earlier ++ left ++ right ++ later
  earlier_ended : earlier = [] ∨ ∃ front, earlier = front ++ ['\n']
  left_unbroken : '\n' ∉ left
  right_unbroken : '\n' ∉ right
  later_begins : later = [] ∨ ∃ rest, later = '\n' :: rest

/-- The lines of a text that are complete, and the one that is not. -/
theorem exists_last_line (text : List Char) : ∃ earlier left, text = earlier ++ left ∧
    (earlier = [] ∨ ∃ front, earlier = front ++ ['\n']) ∧ '\n' ∉ left := by
  induction text using List.reverseRecOn with
  | nil => exact ⟨[], [], rfl, Or.inl rfl, by simp⟩
  | append_singleton text c ih =>
      by_cases hBreak : c = '\n'
      · exact ⟨text ++ [c], [], by simp, Or.inr ⟨text, by rw [hBreak]⟩, by simp⟩
      · obtain ⟨earlier, left, rfl, hEnded, hLeft⟩ := ih
        exact ⟨earlier, left ++ [c], by simp, hEnded, by simp [hLeft, Ne.symm hBreak]⟩

/-- The line that a text begins with, and what comes after it. -/
theorem exists_first_line (text : List Char) : ∃ right later, text = right ++ later ∧
    '\n' ∉ right ∧ (later = [] ∨ ∃ rest, later = '\n' :: rest) := by
  induction text with
  | nil => exact ⟨[], [], rfl, by simp, Or.inl rfl⟩
  | cons c text ih =>
      by_cases hBreak : c = '\n'
      · exact ⟨[], c :: text, rfl, by simp, Or.inr ⟨text, by rw [hBreak]⟩⟩
      · obtain ⟨right, later, rfl, hRight, hLater⟩ := ih
        exact ⟨c :: right, later, rfl, by simp [hRight, Ne.symm hBreak], hLater⟩

/-- Every position of a source lies in a line. -/
theorem exists_cut (hInside : position ≤ source.length) :
    ∃ earlier left right later, Cut source earlier left right later ∧
      position = earlier.length + left.length := by
  obtain ⟨earlier, left, hFront, hEnded, hLeft⟩ := exists_last_line (source.take position)
  obtain ⟨right, later, hBack, hRight, hLater⟩ := exists_first_line (source.drop position)
  refine ⟨earlier, left, right, later, ⟨?_, hEnded, hLeft, hRight, hLater⟩, ?_⟩
  · rw [← hFront, List.append_assoc, ← hBack, List.take_append_drop]
  · rw [← List.length_append, ← hFront, List.length_take_of_le hInside]

namespace Cut

/-- The same line is cut further to the right. -/
theorem shift {count : Nat} (hCut : Cut source earlier left right later) :
    Cut source earlier (left ++ right.take count) (right.drop count) later := by
  have hTake : '\n' ∉ right.take count := fun hMem =>
    hCut.right_unbroken (List.mem_of_mem_take hMem)
  have hDrop : '\n' ∉ right.drop count := fun hMem =>
    hCut.right_unbroken (List.mem_of_mem_drop hMem)
  refine ⟨?_, hCut.earlier_ended, ?_, hDrop, hCut.later_begins⟩
  · rw [hCut.source_eq]
    simp
  · simp [hCut.left_unbroken, hTake]

theorem take_eq (hCut : Cut source earlier left right later)
    (hPosition : position = earlier.length + left.length) :
    source.take position = earlier ++ left := by
  rw [hCut.source_eq, hPosition, List.append_assoc, ← List.length_append, List.take_left]

theorem drop_eq (hCut : Cut source earlier left right later)
    (hPosition : position = earlier.length + left.length) :
    source.drop position = right ++ later := by
  rw [hCut.source_eq, hPosition, List.append_assoc, ← List.length_append, List.drop_left]

theorem length_eq (hCut : Cut source earlier left right later)
    (hPosition : position = earlier.length + left.length) :
    source.length = position + right.length + later.length := by
  rw [hCut.source_eq, hPosition]
  simp only [List.length_append]

/-- A line that is not the last one ends in a newline. -/
theorem exists_newline (hCut : Cut source earlier left right later)
    (hPosition : position = earlier.length + left.length)
    (hBeyond : position + right.length < source.length) : ∃ rest, later = '\n' :: rest := by
  refine hCut.later_begins.resolve_left fun hEmpty => ?_
  have hLength := hCut.length_eq hPosition
  rw [hEmpty, List.length_nil] at hLength
  omega

theorem lineOf_eq (hCut : Cut source earlier left right later)
    (hPosition : position = earlier.length + left.length) :
    lineOf source position = earlier.count '\n' + 1 := by
  rw [lineOf, hCut.take_eq hPosition, List.count_append, List.count_eq_zero.mpr hCut.left_unbroken]

theorem columnOf_eq (hCut : Cut source earlier left right later)
    (hPosition : position = earlier.length + left.length) :
    columnOf source position = left.length + 1 := by
  have hLine : ∀ c ∈ left.reverse, decide (c ≠ '\n') = true := by
    intro c hMem
    refine decide_eq_true fun hBreak => hCut.left_unbroken ?_
    rwa [hBreak, List.mem_reverse] at hMem
  have hEnd : earlier.reverse.takeWhile (· ≠ '\n') = [] := by
    rcases hCut.earlier_ended with rfl | ⟨front, rfl⟩ <;> simp
  rw [columnOf, hCut.take_eq hPosition, List.reverse_append, List.takeWhile_append_of_pos hLine,
    hEnd]
  simp

/-- The line stands among the others after as many as there are newlines before it. -/
theorem getElem?_fields (hCut : Cut source earlier left right later) :
    (Text.fields '\n' source)[earlier.count '\n']? = some (left ++ right) := by
  have hLine : '\n' ∉ left ++ right := by
    simp [hCut.left_unbroken, hCut.right_unbroken]
  have hHere : Text.fields '\n' (left ++ right ++ later) =
      (left ++ right) :: (Text.fields '\n' later).tail := by
    rw [Text.fields_append hLine]
    rcases hCut.later_begins with rfl | ⟨rest, rfl⟩ <;> simp [Text.fields]
  rw [hCut.source_eq, List.append_assoc earlier, List.append_assoc earlier]
  rcases hCut.earlier_ended with rfl | ⟨front, rfl⟩
  · rw [List.nil_append, hHere]
    rfl
  · have hAbove : (Text.fields '\n' front).length = (front ++ ['\n']).count '\n' := by
      rw [Text.length_fields, List.count_append, List.count_singleton_self]
    rw [List.append_assoc, List.singleton_append, Text.fields_append_separator, hHere,
      ← hAbove, List.getElem?_append_right (Nat.le_refl _), Nat.sub_self]
    rfl

theorem getElem?_shownLines (hCut : Cut source earlier left right later) :
    (shownLines source)[earlier.count '\n']? = some (dropReturns (left ++ right)) := by
  rw [shownLines, List.getElem?_map, hCut.getElem?_fields]
  rfl

end Cut

/-- Every position of a source lies in one of its shown lines. -/
theorem lineOf_le_length (source : List Char) (position : Nat) :
    lineOf source position ≤ (shownLines source).length := by
  have hCount : (source.take position).count '\n' ≤ source.count '\n' :=
    (List.take_sublist position source).count_le '\n'
  simp only [lineOf, shownLines, List.length_map, Text.length_fields]
  omega

/-- Dropping carriage returns leaves a line without any exactly if nothing else was behind it. -/
theorem dropReturns_append_iff {line trailing : List Char} (hLine : '\r' ∉ line) :
    dropReturns (line ++ trailing) = line ↔ ∀ c ∈ trailing, c = '\r' := by
  constructor
  · intro hSame c hMem
    have hParts : (line ++ trailing).rdropWhile (· = '\r') ++
        (line ++ trailing).rtakeWhile (· = '\r') = line ++ trailing :=
      List.rdropWhile_append_rtakeWhile
    rw [List.rdropWhile, ← dropReturns, hSame] at hParts
    rw [← List.append_cancel_left hParts] at hMem
    simpa using List.mem_rtakeWhile_imp hMem
  · intro hAll
    have hLast : line.rdropWhile (· = '\r') = line := by
      rw [List.rdropWhile_eq_self_iff]
      intro hSome hReturn
      apply hLine
      rw [← of_decide_eq_true hReturn]
      exact List.getLast_mem hSome
    rw [dropReturns, List.reverse_append, List.dropWhile_append_of_pos]
    · exact hLast
    · intro c hMem
      exact decide_eq_true (hAll c (List.mem_reverse.mp hMem))

theorem dropReturns_eq_self {line : List Char} (hLine : '\r' ∉ line) : dropReturns line = line := by
  have hNone : ∀ c ∈ [], c = '\r' := by simp
  simpa using (dropReturns_append_iff hLine).mpr hNone

/-- A line without carriage returns is shown as it is. -/
theorem Cut.getElem?_shownLines_of_plain (hCut : Cut source earlier left right later)
    (hReturns : '\r' ∉ source) :
    (shownLines source)[earlier.count '\n']? = some (left ++ right) := by
  rw [hCut.getElem?_shownLines, dropReturns_eq_self]
  intro hMem
  rw [hCut.source_eq, List.append_assoc earlier] at hReturns
  exact hReturns (List.mem_append_left _ (List.mem_append_right _ hMem))

theorem newline_notMem_of_mem_shownLines {line : List Char} (hLine : line ∈ shownLines source) :
    '\n' ∉ line := by
  obtain ⟨field, hField, rfl⟩ := List.mem_map.mp hLine
  intro hMem
  rw [dropReturns, List.mem_reverse] at hMem
  have hInside := (List.dropWhile_sublist _).subset hMem
  exact Text.separator_notMem_of_mem_fields hField (List.mem_reverse.mp hInside)

/-- A window shows exactly the lines of its source whose numbers it includes. -/
theorem mem_window_iff {first last : Int} {number : Nat} {line : List Char} :
    (number, line) ∈ window source first last ↔ (first ≤ number ∧ number ≤ last) ∧
      1 ≤ number ∧ (shownLines source)[number - 1]? = some line := by
  rw [window, List.mem_filterMap]
  constructor
  · rintro ⟨⟨other, index⟩, hMem, hSome⟩
    rw [Option.ite_none_right_eq_some] at hSome
    obtain ⟨hInside, hSame⟩ := hSome
    obtain ⟨rfl, rfl⟩ := Prod.mk.inj (Option.some.inj hSame)
    exact ⟨hInside, List.mk_mem_zipIdx_iff_le_and_getElem?_sub.mp hMem⟩
  · rintro ⟨hInside, hLine⟩
    exact ⟨(line, number), List.mk_mem_zipIdx_iff_le_and_getElem?_sub.mpr hLine, if_pos hInside⟩

/-- Windows list their lines from top to bottom. -/
theorem pairwise_window (source : List Char) (first last : Int) :
    (window source first last).Pairwise fun upper lower => upper.1 < lower.1 := by
  have hNumbers : ((shownLines source).zipIdx 1).Pairwise fun upper lower => upper.2 < lower.2 := by
    rw [← List.pairwise_map (f := Prod.snd), List.zipIdx_map_snd]
    exact List.pairwise_lt_range'
  refine List.pairwise_filterMap.mpr (hNumbers.imp ?_)
  intro upper lower hOrder shown hShown other hOther
  rw [Option.ite_none_right_eq_some] at hShown hOther
  obtain rfl := Option.some.inj hShown.2
  obtain rfl := Option.some.inj hOther.2
  exact hOrder

/-- The indices from so many before a given one to so many after it, as far as there are entries.
As for windows, the counts may be negative. -/
def indicesAround (count index : Nat) (before after : Int) : List Nat :=
  let first := max 0 (index - before)
  let last := min (count - 1 : Int) (index + after)
  List.range' first.toNat (last + 1 - first).toNat

theorem mem_indicesAround_iff {count index other : Nat} {before after : Int} :
    other ∈ indicesAround count index before after ↔
      other < count ∧ index - before ≤ other ∧ other ≤ index + after := by
  rw [indicesAround, List.mem_range'_1]
  omega

theorem map_fst_window (source : List Char) (index : Nat) (before after : Int) :
    (window source ((index + 1 : Nat) - before) ((index + 1 : Nat) + after)).map Prod.fst =
      (indicesAround (shownLines source).length index before after).map Nat.succ := by
  have hWindow := List.pairwise_map.mpr
    (pairwise_window source ((index + 1 : Nat) - before) ((index + 1 : Nat) + after))
  have hIndices : ((indicesAround (shownLines source).length index before after).map
      Nat.succ).Pairwise (· < ·) :=
    List.pairwise_map.mpr (List.Pairwise.imp Nat.succ_lt_succ List.pairwise_lt_range')
  refine hWindow.eq_of_mem_iff hIndices fun number => ?_
  rw [List.mem_map, List.mem_map]
  constructor
  · rintro ⟨⟨_, line⟩, hMem, rfl⟩
    obtain ⟨hInside, hPositive, hLine⟩ := mem_window_iff.mp hMem
    obtain ⟨hIndex, -⟩ := List.getElem?_eq_some_iff.mp hLine
    dsimp only at hInside hPositive hIndex ⊢
    exact ⟨_, mem_indicesAround_iff.mpr ⟨hIndex, by omega⟩, Nat.sub_add_cancel hPositive⟩
  · rintro ⟨other, hOther, rfl⟩
    obtain ⟨hIndex, hInside⟩ := mem_indicesAround_iff.mp hOther
    refine ⟨(other + 1, (shownLines source)[other]), mem_window_iff.mpr ⟨?_, ?_, ?_⟩, rfl⟩
    · omega
    · exact Nat.succ_pos other
    · exact List.getElem?_eq_getElem hIndex

/-- A window takes its lines from the source by their indices. These go from the first to the last
one that is wanted and is there, so the source has a line for each of them. -/
theorem window_eq_indicesAround (source : List Char) (index : Nat) (before after : Int) :
    (window source ((index + 1 : Nat) - before) ((index + 1 : Nat) + after)).map
        (fun shown => (shown.1, some shown.2)) =
      (indicesAround (shownLines source).length index before after).map
        fun other => (other + 1, (shownLines source)[other]?) := by
  have hLines {shown : Nat × List Char}
      (hShown : shown ∈ window source ((index + 1 : Nat) - before) ((index + 1 : Nat) + after)) :
      (shown.1, some shown.2) = (shown.1, (shownLines source)[shown.1 - 1]?) := by
    rw [(mem_window_iff.mp hShown).2.2]
  rw [List.map_congr_left fun _ => hLines]
  have hNumbers := congrArg (List.map fun number => (number, (shownLines source)[number - 1]?))
    (map_fst_window source index before after)
  rw [List.map_map, List.map_map] at hNumbers
  exact hNumbers

/-- A window that reaches to a line shows it once. -/
theorem window_split {index : Nat} {line : List Char}
    (hLine : (shownLines source)[index]? = some line) {first last : Int}
    (hFirst : first ≤ (index + 1 : Nat)) (hLast : (index + 1 : Nat) ≤ last) :
    ∃ before after, window source first last = before ++ (index + 1, line) :: after ∧
      ∀ other ∈ before ++ after, other.1 ≠ index + 1 := by
  have hMem : (index + 1, line) ∈ window source first last :=
    mem_window_iff.mpr ⟨⟨hFirst, hLast⟩, Nat.le_add_left 1 index, hLine⟩
  obtain ⟨before, after, hSplit⟩ := List.append_of_mem hMem
  have hOrder := pairwise_window source first last
  rw [hSplit, List.pairwise_append, List.pairwise_cons] at hOrder
  obtain ⟨_, ⟨hBelow, _⟩, hAbove⟩ := hOrder
  refine ⟨before, after, hSplit, ?_⟩
  intro other hOther
  rcases List.mem_append.mp hOther with hBefore | hAfter
  · exact Nat.ne_of_lt (hAbove other hBefore _ (List.mem_cons_self ..))
  · exact Nat.ne_of_gt (hBelow other hAfter)

end Earley.Source
