import Earley.Proofs.Grammar.Collection
import Earley.Proofs.Grammar.Row
import Mathlib.Data.List.Basic

/-! The rows of a source and the alternatives of its productions, each at its position. Reading
stops at the first row that cannot be read, and otherwise at the first such alternative. -/
namespace Earley.Grammar

open Text

section Traversal

variable {α β ε : Type}

/-- A traversal gives all results, or the error of the first value that has one. -/
theorem mapM_cases (f : α → Except ε β) (values : List α) :
    ((∀ value ∈ values, ∃ result, f value = .ok result) ∧
      values.mapM f = .ok (values.filterMap fun value => (f value).toOption)) ∨
    ∃ earlier value later error, values = earlier ++ value :: later ∧
      (∀ other ∈ earlier, ∃ result, f other = .ok result) ∧
      f value = .error error ∧ values.mapM f = .error error := by
  induction values with
  | nil => exact Or.inl ⟨by simp, rfl⟩
  | cons value values ih =>
      cases hValue : f value with
      | error error =>
          refine Or.inr ⟨[], value, values, error, rfl, by simp, hValue, ?_⟩
          simp only [List.mapM_cons, hValue]
          rfl
      | ok result =>
          rcases ih with ⟨hAll, hResults⟩ | ⟨earlier, other, later, error, rfl, hAll, hOther, hError⟩
          · refine Or.inl ⟨by simpa [hValue] using hAll, ?_⟩
            simp only [List.mapM_cons, hValue, hResults, List.filterMap_cons, Except.toOption]
            rfl
          · refine Or.inr ⟨value :: earlier, other, later, error, rfl, ?_, hOther, ?_⟩
            · simpa [hValue] using hAll
            · simp only [List.mapM_cons, hValue, hError]
              rfl

theorem eq_or_rel_of_notMem {values earlier later : List α} {value other : α} {r : α → α → Prop}
    (hOrder : values.Pairwise r) (hSplit : values = earlier ++ value :: later)
    (hMem : other ∈ values) (hNew : other ∉ earlier) : other = value ∨ r value other := by
  subst hSplit
  have hBehind := (List.pairwise_cons.mp (List.pairwise_append.mp hOrder).2.1).1
  rcases List.mem_cons.mp ((List.mem_append.mp hMem).resolve_left hNew) with hSame | hLater
  · exact Or.inl hSame
  · exact Or.inr (hBehind other hLater)

/-- The width of pieces that stand one after the other. -/
def extent (width : α → Nat) : List α → Nat
  | [] => 0
  | piece :: rest => width piece + extent width rest

/-- Pieces one after the other from a position on, each with the position at which it begins. -/
def placed (width : α → Nat) (position : Nat) : List α → List (Nat × α)
  | [] => []
  | piece :: rest => (position, piece) :: placed width (position + width piece) rest

variable {width : α → Nat} {position start : Nat} {piece : α} {pieces : List α}

theorem extent_append (earlier later : List α) :
    extent width (earlier ++ later) = extent width earlier + extent width later := by
  induction earlier with
  | nil => simp [extent]
  | cons piece earlier ih => simp [extent, ih, Nat.add_assoc]

theorem mem_placed_iff : (start, piece) ∈ placed width position pieces ↔
    ∃ earlier later, pieces = earlier ++ piece :: later ∧
      start = position + extent width earlier := by
  induction pieces generalizing position with
  | nil => simp [placed]
  | cons head pieces ih =>
      rw [placed, List.mem_cons, ih]
      constructor
      · rintro (hHead | ⟨earlier, later, rfl, rfl⟩)
        · cases hHead
          exact ⟨[], pieces, rfl, rfl⟩
        · exact ⟨head :: earlier, later, rfl, by simp [extent, Nat.add_assoc]⟩
      · rintro ⟨earlier, later, hPieces, rfl⟩
        cases earlier with
        | nil => simp_all [extent]
        | cons other earlier =>
            obtain ⟨rfl, rfl⟩ := List.cons.inj hPieces
            exact Or.inr ⟨earlier, later, rfl, by simp [extent, Nat.add_assoc]⟩

theorem le_of_mem_placed (hMem : (start, piece) ∈ placed width position pieces) :
    position ≤ start := by
  obtain ⟨earlier, later, _, rfl⟩ := mem_placed_iff.mp hMem
  exact Nat.le_add_right _ _

theorem le_extent_of_mem_placed (hMem : (start, piece) ∈ placed width position pieces) :
    start + width piece ≤ position + extent width pieces := by
  obtain ⟨earlier, later, rfl, rfl⟩ := mem_placed_iff.mp hMem
  simp only [extent_append, extent]
  omega

theorem pairwise_placed (width : α → Nat) (position : Nat) (pieces : List α) :
    (placed width position pieces).Pairwise fun front back =>
      front.1 + width front.2 ≤ back.1 := by
  induction pieces generalizing position with
  | nil => exact List.Pairwise.nil
  | cons piece pieces ih =>
      exact List.pairwise_cons.mpr ⟨fun back hBack => le_of_mem_placed hBack, ih _⟩

end Traversal

/-- The rows of a source, each as a line with the position at which it begins. -/
def rowsOf (source : List Char) : List (Nat × Line) := placed Line.width 0 (Line.ofText source)

theorem length_toText (lines : List Line) :
    (Line.toText lines).length = extent Line.width lines := by
  induction lines with
  | nil => rfl
  | cons line lines ih =>
      rw [extent, ← ih, Line.width, ← List.length_append, ← List.length_append]
      rfl

/-- A row stands in its source where it is said to begin. -/
theorem exists_of_mem_rowsOf {source : List Char} {start : Nat} {line : Line}
    (hRow : (start, line) ∈ rowsOf source) : ∃ front back,
      source = front ++ line.content ++ line.ending ++ back ∧ start = front.length := by
  obtain ⟨earlier, later, hLines, rfl⟩ := mem_placed_iff.mp hRow
  refine ⟨Line.toText earlier, Line.toText later, ?_, ?_⟩
  · rw [← Line.toText_ofText source, hLines]
    simp [Line.toText]
  · rw [length_toText, Nat.zero_add]

/-- The alternatives of a right side that begins at a position. -/
def alternativesFrom (position : Nat) (rightSide : List Char) : List (Nat × List Char) :=
  placed (fun field => field.length + 1) position (fields alternativeSeparator rightSide)

theorem length_join (separator : Char) {pieces : List (List Char)} (hSome : pieces ≠ []) :
    (join [separator] pieces).length + 1 = extent (fun piece => piece.length + 1) pieces := by
  induction pieces with
  | nil => exact absurd rfl hSome
  | cons piece rest ih =>
      cases rest with
      | nil => rfl
      | cons other rest =>
          have hRest := ih (List.cons_ne_nil other rest)
          simp only [join, extent, List.length_append, List.length_singleton] at hRest ⊢
          omega

/-- An alternative lies in its right side. -/
theorem le_of_mem_alternativesFrom {position start : Nat} {rightSide field : List Char}
    (hField : (start, field) ∈ alternativesFrom position rightSide) :
    position ≤ start ∧ start + field.length ≤ position + rightSide.length := by
  have hExtent := le_extent_of_mem_placed hField
  have hLength := length_join alternativeSeparator
    (fields_ne_nil alternativeSeparator rightSide)
  rw [join_fields] at hLength
  exact ⟨le_of_mem_placed hField, by omega⟩

theorem ofFields_eq (position : Nat) (pieces : List (List Char)) :
    Cell.ofFields position pieces = (placed (fun field => field.length + 1) position pieces).map
      fun cell => ⟨cell.1, removeBlanks cell.2⟩ := by
  induction pieces generalizing position with
  | nil => rfl
  | cons field rest ih => simp [Cell.ofFields, placed, ih, Nat.add_assoc]

/-- The production that a row says, if it can be read. -/
def spoken? (row : Nat × Line) : Option Row := (Row.read row.1 row.2.content).toOption.join

/-- Reading rows is a traversal of them. -/
theorem readRows_eq (position : Nat) (lines : List Line) :
    readRows position lines =
      ((placed Line.width position lines).mapM fun row => Row.read row.1 row.2.content).map
        (List.filterMap id) := by
  induction lines generalizing position with
  | nil => rfl
  | cons line rest ih =>
      rw [readRows, placed, List.mapM_cons, ih]
      cases hRow : Row.read position line.content with
      | error flaw => rfl
      | ok row =>
          cases hRest : (placed Line.width (position + line.width) rest).mapM
              fun row => Row.read row.1 row.2.content with
          | error flaw => rfl
          | ok rows => cases row <;> rfl

/-- The form of a cell, if it can be read. -/
def Cell.form (heads : List Char) (cell : Cell) : Form :=
  if cell.letters = [epsilon] then []
  else cell.letters.map fun c =>
    if heads.contains c then Symbol.nonterminal (some c) else Symbol.terminal (some c)

theorem Cell.read_eq (heads : List Char) (cell : Cell) :
    cell.read heads =
      if cell.letters ≠ [epsilon] ∧ epsilon ∈ cell.letters then
        .error ⟨cell.position, none, .mixedEpsilon⟩
      else .ok (cell.form heads) := by
  by_cases hEmpty : cell.letters = [epsilon]
  · simp [Cell.read, Cell.form, hEmpty]
  · by_cases hMixed : epsilon ∈ cell.letters <;> simp [Cell.read, Cell.form, hEmpty, hMixed]

/-- The left side of a row with its alternatives. -/
def Row.production (heads : List Char) (row : Row) : Char × List Form :=
  (row.head, row.cells.map (Cell.form heads))

theorem Cell.form_of_read_eq_ok {heads : List Char} {cell : Cell} {form : Form}
    (hRead : cell.read heads = .ok form) : form = cell.form heads := by
  rw [Cell.read_eq] at hRead
  split at hRead
  · simp at hRead
  · exact (Except.ok.inj hRead).symm

theorem mapM_read_eq_ok {heads : List Char} {cells : List Cell} {forms : List Form}
    (hRead : cells.mapM (Cell.read heads) = .ok forms) : forms = cells.map (Cell.form heads) := by
  rcases mapM_cases (Cell.read heads) cells with ⟨hAll, hForms⟩ | ⟨_, _, _, flaw, _, _, _, hFlaw⟩
  · have hSame : cells.filterMap (fun cell => (cell.read heads).toOption) =
        cells.filterMap (fun cell => some (cell.form heads)) := by
      refine List.filterMap_congr fun cell hCell => ?_
      obtain ⟨form, hForm⟩ := hAll cell hCell
      simp [hForm, Cell.form_of_read_eq_ok hForm, Except.toOption]
    rw [hForms, hSame, List.filterMap_eq_map'] at hRead
    exact (Except.ok.inj hRead).symm
  · simp [hFlaw] at hRead

/-- The alternatives of all rows are read before any of them counts. -/
theorem extendByRows_eq (heads : List Char) (g : Grammar) (rows : List Row) :
    extendByRows heads g rows =
      ((rows.flatMap Row.cells).mapM (Cell.read heads)).map fun _ =>
        g.extendAll (rows.map (Row.production heads)) := by
  induction rows generalizing g with
  | nil => rfl
  | cons row rest ih =>
      rw [extendByRows, List.flatMap_cons, List.mapM_append]
      cases hRow : row.cells.mapM (Cell.read heads) with
      | error flaw => rfl
      | ok forms =>
          obtain rfl := mapM_read_eq_ok hRow
          change extendByRows heads (g.extend row.head _) rest = _
          rw [ih]
          cases hRest : (rest.flatMap Row.cells).mapM (Cell.read heads) <;> rfl

/-- The first production gives the start symbol, and every one a nonterminal. -/
theorem ofSource_of_readRows {source : List Char} {row : Row} {rest : List Row}
    (hRead : readRows 0 (Line.ofText source) = .ok (row :: rest)) :
    ofSource source =
      extendByRows ((row :: rest).map Row.head) (empty (some row.head)) (row :: rest) := by
  rw [ofSource, hRead]
  rfl

theorem Cell.mem_form {heads : List Char} {cell : Cell} {symbol : Symbol}
    (hMem : symbol ∈ cell.form heads) : ∃ c ∈ cell.letters,
      symbol = if c ∈ heads then .nonterminal (some c) else .terminal (some c) := by
  unfold Cell.form at hMem
  split at hMem
  · simp at hMem
  · obtain ⟨c, hLetter, rfl⟩ := List.mem_map.mp hMem
    exact ⟨c, hLetter, by simp⟩

/-- Whatever rows say, once they are read, is a valid grammar. -/
theorem validate_extendAll (row : Row) (rest : List Row) (heads : List Char)
    (hHeads : heads = (row :: rest).map Row.head) :
    ((empty (some row.head)).extendAll
      ((row :: rest).map (Row.production heads))).validate = .ok () := by
  have hLeft : ((row :: rest).map (Row.production heads)).map Prod.fst = heads := by
    rw [List.map_map, hHeads]
    rfl
  have hCell {production : Char × List Form} {alternative : Form} {symbol : Symbol}
      (hProduction : production ∈ (row :: rest).map (Row.production heads))
      (hAlternative : alternative ∈ production.2) (hSymbol : symbol ∈ alternative) :
      ∃ c, symbol = if c ∈ heads then .nonterminal (some c) else .terminal (some c) := by
    obtain ⟨source, _, rfl⟩ := List.mem_map.mp hProduction
    obtain ⟨cell, _, rfl⟩ := List.mem_map.mp hAlternative
    obtain ⟨c, _, hSame⟩ := Cell.mem_form hSymbol
    exact ⟨c, hSame⟩
  apply validate_of_collect (start_extendAll _ _) _ (entries_extendAll _ _)
  · intro production hProduction alternative hAlternative symbol hSymbol
    obtain ⟨c, rfl⟩ := hCell hProduction hAlternative hSymbol
    split <;> simp [Symbol.letter]
  · intro production hProduction alternative hAlternative letter hLetter
    obtain ⟨c, hSame⟩ := hCell hProduction hAlternative hLetter
    rw [hLeft]
    split at hSame
    · next hHead => exact ⟨c, hHead, Symbol.nonterminal.inj hSame⟩
    · simp at hSame
  · rw [hLeft, hHeads]
    exact List.mem_cons_self ..

end Earley.Grammar
