import Earley.Text.Blank
import Earley.Text.Line
import Mathlib.Data.List.TakeWhile
import Mathlib.Tactic.Common

/-! What trimming and dropping blanks do to a text, told by where its blanks stand. -/
namespace Earley.Text

variable {text left right rest : List Char} {c first : Char}

/-- There is nothing but blanks. -/
def AllBlank (text : List Char) : Prop := ∀ c ∈ text, isBlank c = true

instance : DecidablePred AllBlank := fun text => List.decidableBAll _ text

@[simp] theorem allBlank_nil : AllBlank [] := fun _ hMem => absurd hMem List.not_mem_nil

@[simp] theorem allBlank_cons : AllBlank (c :: text) ↔ isBlank c = true ∧ AllBlank text := by
  simp [AllBlank]

@[simp] theorem allBlank_append : AllBlank (left ++ right) ↔ AllBlank left ∧ AllBlank right := by
  simp [AllBlank, or_imp, forall_and]

@[simp] theorem allBlank_reverse : AllBlank text.reverse ↔ AllBlank text := by
  simp [AllBlank]

/-- Every line break is a blank. -/
theorem isBlank_of_isLineBreak (hBreak : isLineBreak c = true) : isBlank c = true := by
  simp only [isLineBreak, isBlank, inRanges, blankRanges, List.any_cons, List.any_nil,
    Bool.or_false, Bool.or_eq_true, Bool.and_eq_true, decide_eq_true_eq] at hBreak ⊢
  omega

theorem trimLeft_append (hLeft : AllBlank left) : trimLeft (left ++ text) = trimLeft text :=
  List.dropWhile_append_of_pos hLeft

theorem trimLeft_cons (hFirst : isBlank first = false) : trimLeft (first :: rest) = first :: rest :=
  List.dropWhile_cons_of_neg (by simp [hFirst])

/-- Every text is its blanks in front, and either nothing or a character that is no blank. -/
theorem trimLeft_cases (text : List Char) : AllBlank text ∨ ∃ left first rest,
    text = left ++ first :: rest ∧ AllBlank left ∧ isBlank first = false := by
  induction text with
  | nil => exact Or.inl allBlank_nil
  | cons c text ih =>
      cases hBlank : isBlank c with
      | false => exact Or.inr ⟨[], c, text, rfl, allBlank_nil, hBlank⟩
      | true =>
          rcases ih with hAll | ⟨left, first, rest, rfl, hLeft, hFirst⟩
          · exact Or.inl (allBlank_cons.mpr ⟨hBlank, hAll⟩)
          · exact Or.inr ⟨c :: left, first, rest, rfl, allBlank_cons.mpr ⟨hBlank, hLeft⟩, hFirst⟩

theorem trimLeft_of_allBlank (hText : AllBlank text) : trimLeft text = [] :=
  List.dropWhile_eq_nil_iff.mpr hText

/-- What a text is trimmed to: nothing, a single character, or a longer part that begins and ends
with characters that are no blanks. -/
inductive Trimmed : List Char → List Char → Prop where
  | nothing {text : List Char} (hText : AllBlank text) : Trimmed text []
  | single {left right : List Char} {head : Char} (hLeft : AllBlank left) (hRight : AllBlank right)
      (hHead : isBlank head = false) : Trimmed (left ++ head :: right) [head]
  | wide {left inner right : List Char} {first last : Char} (hLeft : AllBlank left)
      (hRight : AllBlank right) (hFirst : isBlank first = false) (hLast : isBlank last = false) :
      Trimmed (left ++ first :: (inner ++ last :: right)) (first :: (inner ++ [last]))

theorem trim_of_allBlank (hText : AllBlank text) : trim text = [] := by
  rw [trim, trimLeft_of_allBlank hText]
  rfl

theorem trim_single (hLeft : AllBlank left) (hRight : AllBlank right)
    (hFirst : isBlank first = false) : trim (left ++ first :: right) = [first] := by
  rw [trim, trimLeft_append hLeft, trimLeft_cons hFirst, List.reverse_cons,
    trimLeft_append (allBlank_reverse.mpr hRight), trimLeft_cons hFirst]
  rfl

theorem trim_wide {inner : List Char} {last : Char} (hLeft : AllBlank left)
    (hRight : AllBlank right) (hFirst : isBlank first = false) (hLast : isBlank last = false) :
    trim (left ++ first :: (inner ++ last :: right)) = first :: (inner ++ [last]) := by
  have hReverse : (first :: (inner ++ last :: right)).reverse =
      right.reverse ++ last :: (inner.reverse ++ [first]) := by simp
  rw [trim, trimLeft_append hLeft, trimLeft_cons hFirst, hReverse,
    trimLeft_append (allBlank_reverse.mpr hRight), trimLeft_cons hLast]
  simp

theorem trimmed_trim (text : List Char) : Trimmed text (trim text) := by
  rcases trimLeft_cases text with hAll | ⟨left, first, rest, rfl, hLeft, hFirst⟩
  · rw [trim_of_allBlank hAll]
    exact .nothing hAll
  · rcases trimLeft_cases rest.reverse with hRest | ⟨right, last, inner, hRest, hRight, hLast⟩
    · have hRight := allBlank_reverse.mp hRest
      rw [trim_single hLeft hRight hFirst]
      exact .single hLeft hRight hFirst
    · obtain rfl : rest = inner.reverse ++ last :: right.reverse := by
        rw [← List.reverse_reverse rest, hRest]
        simp
      have hRight := allBlank_reverse.mpr hRight
      rw [trim_wide hLeft hRight hFirst hLast]
      exact .wide hLeft hRight hFirst hLast

theorem allBlank_of_trim_eq_nil (hTrim : trim text = []) : AllBlank text := by
  have hTrimmed := trimmed_trim text
  rw [hTrim] at hTrimmed
  cases hTrimmed with
  | nothing hText => exact hText

/-- A trimmed text begins where the text has its first character that is no blank. -/
theorem exists_of_trim_eq_cons {tail : List Char} (hTrim : trim text = first :: tail) :
    ∃ left rest, text = left ++ first :: rest ∧ AllBlank left ∧ isBlank first = false := by
  have hTrimmed := trimmed_trim text
  rw [hTrim] at hTrimmed
  cases hTrimmed with
  | single hLeft _ hHead => exact ⟨_, _, rfl, hLeft, hHead⟩
  | wide hLeft _ hFirst _ => exact ⟨_, _, rfl, hLeft, hFirst⟩

theorem takeWhile_isBlank (hLeft : AllBlank left) (hFirst : isBlank first = false) :
    (left ++ first :: rest).takeWhile isBlank = left := by
  rw [List.takeWhile_append_of_pos hLeft]
  simp [hFirst]

/-- A text has at most one first character that is no blank. -/
theorem first_visible_unique {left' rest' : List Char} {first' : Char}
    (hSame : left ++ first :: rest = left' ++ first' :: rest')
    (hLeft : AllBlank left) (hLeft' : AllBlank left')
    (hFirst : isBlank first = false) (hFirst' : isBlank first' = false) :
    left = left' ∧ first = first' ∧ rest = rest' := by
  have hBlanks : left = left' :=
    calc left = (left ++ first :: rest).takeWhile isBlank := (takeWhile_isBlank hLeft hFirst).symm
      _ = left' := by rw [hSame, takeWhile_isBlank hLeft' hFirst']
  subst hBlanks
  simpa using hSame

theorem removeBlanks_eq_nil_iff : removeBlanks text = [] ↔ AllBlank text := by
  simp [removeBlanks, AllBlank]

theorem removeBlanks_append (front back : List Char) :
    removeBlanks (front ++ back) = removeBlanks front ++ removeBlanks back :=
  List.filter_append ..

theorem removeBlanks_cons (hFirst : isBlank first = false) :
    removeBlanks (first :: rest) = first :: removeBlanks rest :=
  List.filter_cons_of_pos (by simp [hFirst])

end Earley.Text
