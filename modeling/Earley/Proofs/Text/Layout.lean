import Earley.Text.Field
import Earley.Proofs.Text.Trimming
import Mathlib.Algebra.GroupWithZero.Nat
import Mathlib.Data.List.Induction

/-! Texts that are put together from parts. The parts are found again when the text is cut. -/
namespace Earley.Text

variable {text rest row ending letters : List Char} {rows : List (List Char)} {c : Char}

theorem fields_append {separator : Char} {piece : List Char} (hPiece : separator ∉ piece)
    (text : List Char) : fields separator (piece ++ text) =
      (piece ++ (fields separator text).headD []) :: (fields separator text).tail := by
  induction piece with
  | nil =>
      obtain ⟨field, others, hFields⟩ := List.exists_cons_of_ne_nil (fields_ne_nil separator text)
      simp [hFields]
  | cons c piece ih =>
      obtain ⟨hHead, hRest⟩ := not_or.mp (mt List.mem_cons.mpr hPiece)
      simp [fields, Ne.symm hHead, ih hRest]

theorem length_fields (separator : Char) (text : List Char) :
    (fields separator text).length = text.count separator + 1 := by
  induction text with
  | nil => rfl
  | cons c rest ih =>
      obtain ⟨field, others, hFields⟩ :=
        List.exists_cons_of_ne_nil (fields_ne_nil separator rest)
      rw [hFields] at ih
      by_cases hSame : c = separator
      · simp [fields, hSame, hFields, ← ih]
      · simp [fields, hSame, hFields, ← ih]

/-- Between its fields, a text has nothing but separators. -/
theorem sum_length_fields (separator : Char) (text : List Char) :
    ((fields separator text).map List.length).sum + text.count separator = text.length := by
  induction text with
  | nil => rfl
  | cons c rest ih =>
      obtain ⟨field, others, hFields⟩ :=
        List.exists_cons_of_ne_nil (fields_ne_nil separator rest)
      simp only [hFields, List.map_cons, List.sum_cons] at ih
      by_cases hSame : c = separator
      · simp only [fields, hSame, if_true, hFields, List.map_cons, List.sum_cons, List.length_nil,
          List.count_cons_self, List.length_cons]
        omega
      · simp only [fields, hSame, if_false, hFields, List.map_cons, List.sum_cons,
          List.count_cons_of_ne hSame, List.length_cons]
        omega

/-- A text is cut on both sides of a separator on its own. -/
theorem fields_append_separator (separator : Char) (front back : List Char) :
    fields separator (front ++ separator :: back) =
      fields separator front ++ fields separator back := by
  induction front with
  | nil => simp [fields]
  | cons c front ih =>
      obtain ⟨field, others, hFields⟩ :=
        List.exists_cons_of_ne_nil (fields_ne_nil separator front)
      rw [hFields] at ih
      by_cases hSame : c = separator
      · simp [fields, hSame, ih, hFields]
      · simp [fields, hSame, ih, hFields]

theorem separator_notMem_of_mem_fields {separator : Char} {text field : List Char}
    (hField : field ∈ fields separator text) : separator ∉ field := by
  induction text generalizing field with
  | nil => simp_all [fields]
  | cons c rest ih =>
      obtain ⟨first, others, hFields⟩ :=
        List.exists_cons_of_ne_nil (fields_ne_nil separator rest)
      rw [hFields, List.forall_mem_cons] at ih
      by_cases hSame : c = separator
      · simp only [fields, hSame, if_true, hFields, List.mem_cons] at hField
        rcases hField with rfl | rfl | hOther
        · simp
        · exact ih.1
        · exact ih.2 _ hOther
      · simp only [fields, hSame, if_false, hFields, List.mem_cons] at hField
        rcases hField with rfl | hOther
        · simp [Ne.symm hSame, ih.1]
        · exact ih.2 _ hOther

/-- A cut at the separators gives back the fields that were joined. -/
theorem fields_join (separator : Char) {pieces : List (List Char)} (hSome : pieces ≠ [])
    (hFree : ∀ piece ∈ pieces, separator ∉ piece) :
    fields separator (join [separator] pieces) = pieces := by
  induction pieces with
  | nil => exact absurd rfl hSome
  | cons piece pieces ih =>
      have hPiece := hFree piece (List.mem_cons_self ..)
      cases pieces with
      | nil => simpa [join, fields] using fields_append hPiece []
      | cons other pieces =>
          have hRest := ih (List.cons_ne_nil other pieces) fun piece hMem =>
            hFree piece (List.mem_cons_of_mem _ hMem)
          have hTail : fields separator (separator :: join [separator] (other :: pieces)) =
              [] :: other :: pieces := by
            simp [fields, hRest]
          simp [join, fields_append hPiece, hTail]

/-- Characters that are no blanks, with blanks anywhere between, before and after them. -/
inductive Spaced : List Char → List Char → Prop where
  | nil : Spaced [] []
  | blank {text letters : List Char} {c : Char} (hBlank : isBlank c = true)
      (hRest : Spaced text letters) : Spaced (c :: text) letters
  | letter {text letters : List Char} {c : Char} (hLetter : isBlank c = false)
      (hRest : Spaced text letters) : Spaced (c :: text) (c :: letters)

theorem spaced_iff : Spaced text letters ↔ removeBlanks text = letters := by
  constructor
  · intro hSpaced
    induction hSpaced with
    | nil => rfl
    | blank hBlank _ ih => simpa [removeBlanks, hBlank] using ih
    | letter hLetter _ ih => rw [removeBlanks_cons hLetter, ih]
  · rintro rfl
    induction text with
    | nil => exact .nil
    | cons c text ih =>
        cases hBlank : isBlank c with
        | true =>
            have hSame : removeBlanks (c :: text) = removeBlanks text := by
              simp [removeBlanks, hBlank]
            exact hSame ▸ .blank hBlank ih
        | false => exact removeBlanks_cons hBlank ▸ .letter hBlank ih

theorem Spaced.mem_letters (hSpaced : Spaced text letters) (hMem : c ∈ text)
    (hVisible : isBlank c = false) : c ∈ letters := by
  rw [← spaced_iff.mp hSpaced]
  exact List.mem_filter.mpr ⟨hMem, by simp [hVisible]⟩

theorem spaced_self (hLetters : ∀ c ∈ letters, isBlank c = false) : Spaced letters letters :=
  spaced_iff.mpr (List.filter_eq_self.mpr fun c hMem => by simp [hLetters c hMem])

/-- There is no line break in a text. -/
def Unbroken (text : List Char) : Prop := ∀ c ∈ text, isLineBreak c = false

instance : DecidablePred Unbroken := fun text => List.decidableBAll _ text

/-- What ends a line. -/
inductive IsBreak : List Char → Prop where
  | pair : IsBreak ['\r', '\n']
  | single {c : Char} (hBreak : isLineBreak c = true) : IsBreak [c]

/-- A text made of rows, each ended by a break. The last row may lack it. -/
inductive Stacked : List Char → List (List Char) → Prop where
  | nil : Stacked [] []
  | last {row : List Char} (hRow : Unbroken row) : Stacked row [row]
  | row {row ending text : List Char} {rows : List (List Char)} (hRow : Unbroken row)
      (hBreak : IsBreak ending) (hRest : Stacked text rows) :
      Stacked (row ++ ending ++ text) (row :: rows)

/-- Rows that are joined by newlines. -/
theorem stacked_intercalate (hRows : ∀ row ∈ rows, Unbroken row) :
    Stacked (['\n'].intercalate rows) rows := by
  induction rows with
  | nil => exact .nil
  | cons row rows ih =>
      have hRow := hRows row (List.mem_cons_self ..)
      have hRest := ih fun other hMem => hRows other (List.mem_cons_of_mem _ hMem)
      cases rows with
      | nil => simpa [List.intercalate_singleton] using Stacked.last hRow
      | cons other rows =>
          rw [List.intercalate_cons_cons]
          exact .row hRow (.single (by decide)) hRest

theorem Line.ofText_cons (hPlain : isLineBreak c = false) (rest : List Char) :
    Line.ofText (c :: rest) = Line.extend c (Line.ofText rest) := by
  have hReturn : c ≠ '\r' := by
    rintro rfl
    exact absurd hPlain (by decide)
  rw [Line.ofText]
  · simp [hPlain]
  · intro tail hSame
    exact absurd hSame hReturn

theorem Line.ofText_append (hRow : Unbroken row) (rest : List Char) :
    Line.ofText (row ++ rest) = row.foldr Line.extend (Line.ofText rest) := by
  induction row with
  | nil => rfl
  | cons c row ih =>
      have hOthers : Unbroken row := fun other hMem => hRow other (List.mem_cons_of_mem _ hMem)
      rw [List.cons_append, Line.ofText_cons (hRow c (List.mem_cons_self ..)), ih hOthers]
      rfl

theorem Line.foldr_extend (row : List Char) (line : Line) (lines : List Line) :
    row.foldr Line.extend (line :: lines) = ⟨row ++ line.content, line.ending⟩ :: lines := by
  induction row with
  | nil => rfl
  | cons c row ih => simp [ih, Line.extend]

theorem Line.ofText_of_unbroken (hRow : Unbroken row) :
    Line.ofText row = if row = [] then [] else [⟨row, []⟩] := by
  have hAll := Line.ofText_append hRow []
  rw [List.append_nil] at hAll
  rw [hAll]
  cases row using List.reverseRecOn with
  | nil => rfl
  | append_singleton row c =>
      rw [List.foldr_append, if_neg (by simp)]
      exact Line.foldr_extend row ⟨[c], []⟩ []

/-- A row and its break make a line. A carriage return also takes a newline that comes after. -/
theorem Line.ofText_break (hRow : Unbroken row) (hBreak : IsBreak ending) (rest : List Char) :
    Line.ofText (row ++ ending ++ rest) = ⟨row, ending⟩ :: Line.ofText rest ∨
    ∃ tail, ending = ['\r'] ∧ rest = '\n' :: tail ∧
      Line.ofText (row ++ ending ++ rest) = ⟨row, ['\r', '\n']⟩ :: Line.ofText tail := by
  have hLine {line : Line} {lines : List Line} (hContent : line.content = [])
      (hOfText : Line.ofText (ending ++ rest) = line :: lines) :
      Line.ofText (row ++ ending ++ rest) = ⟨row, line.ending⟩ :: lines := by
    rw [List.append_assoc, Line.ofText_append hRow, hOfText, Line.foldr_extend, hContent,
      List.append_nil]
  cases hBreak with
  | pair => exact Or.inl (hLine rfl rfl)
  | @single c hBreak =>
      by_cases hPair : c = '\r' ∧ ∃ tail, rest = '\n' :: tail
      · obtain ⟨rfl, tail, rfl⟩ := hPair
        exact Or.inr ⟨tail, rfl, rfl, hLine rfl rfl⟩
      · have hOfText : Line.ofText (c :: rest) = ⟨[], [c]⟩ :: Line.ofText rest := by
          rw [Line.ofText]
          · simp [hBreak]
          · intro tail hReturn hNewline
            exact hPair ⟨hReturn, tail, hNewline⟩
        exact Or.inl (hLine rfl hOfText)

/-- A line without breaks inside, that ends in one break or where its text ends. -/
structure Line.Sound (line : Line) : Prop where
  unbroken : Unbroken line.content
  ended : line.ending = [] ∨ IsBreak line.ending

theorem Line.sound_of_mem_ofText {line : Line} (hLine : line ∈ Line.ofText text) : line.Sound := by
  have hEmpty : Unbroken [] := by decide
  fun_induction Line.ofText text generalizing line with
  | case1 => cases hLine
  | case2 rest ih =>
      rcases List.mem_cons.mp hLine with rfl | hRest
      · exact ⟨hEmpty, Or.inr .pair⟩
      · exact ih hRest
  | case3 c rest _ hBreak ih =>
      rcases List.mem_cons.mp hLine with rfl | hRest
      · exact ⟨hEmpty, Or.inr (.single hBreak)⟩
      · exact ih hRest
  | case4 c rest _ hBreak ih =>
      have hPlain : isLineBreak c = false := by simpa using hBreak
      cases hLines : Line.ofText rest with
      | nil =>
          rw [hLines] at hLine
          rw [List.mem_singleton.mp hLine]
          exact ⟨List.forall_mem_cons.mpr ⟨hPlain, hEmpty⟩, Or.inl rfl⟩
      | cons first others =>
          simp only [hLines, Line.extend, List.forall_mem_cons] at hLine ih
          rcases List.mem_cons.mp hLine with rfl | hOther
          · exact ⟨List.forall_mem_cons.mpr ⟨hPlain, ih.1.unbroken⟩, ih.1.ended⟩
          · exact ih.2 _ hOther

/-- A line ends in at most one newline, and then nothing comes after. -/
theorem Line.Sound.ending_cases {line : Line} (hSound : line.Sound) :
    (∃ front, line.ending = front ++ ['\n'] ∧ '\n' ∉ front) ∨ '\n' ∉ line.ending := by
  rcases hSound.ended with hEmpty | hBreak
  · exact Or.inr (by simp [hEmpty])
  · generalize line.ending = ending at hBreak
    cases hBreak with
    | pair => exact Or.inl ⟨['\r'], rfl, by decide⟩
    | @single c _ =>
        by_cases hNewline : c = '\n'
        · exact Or.inl ⟨[], by rw [hNewline]; rfl, by simp⟩
        · exact Or.inr (by simp [Ne.symm hNewline])

theorem Line.Sound.notMem_content {line : Line} (hSound : line.Sound)
    (hBreak : isLineBreak c = true) : c ∉ line.content := by
  intro hMem
  have hPlain := hSound.unbroken c hMem
  rw [hBreak] at hPlain
  cases hPlain

/-- There are as many newlines as lines exactly if every line ends in one. -/
theorem Line.count_newline_toText {lines : List Line} (hSound : ∀ line ∈ lines, line.Sound) :
    (Line.toText lines).count '\n' ≤ lines.length ∧
      ((Line.toText lines).count '\n' = lines.length ↔ ∀ line ∈ lines, '\n' ∈ line.ending) := by
  induction lines with
  | nil => simp [Line.toText]
  | cons line lines ih =>
      obtain ⟨hLine, hRest⟩ := List.forall_mem_cons.mp hSound
      obtain ⟨hLe, hIff⟩ := ih hRest
      have hContent : line.content.count '\n' = 0 :=
        List.count_eq_zero.mpr (hLine.notMem_content (by decide))
      have hCount : (Line.toText (line :: lines)).count '\n' =
          line.ending.count '\n' + (Line.toText lines).count '\n' := by
        simp [Line.toText, hContent]
      rw [hCount, List.length_cons, List.forall_mem_cons]
      rcases hLine.ending_cases with ⟨front, hEnding, hFront⟩ | hNone
      · have hOne : line.ending.count '\n' = 1 := by
          rw [hEnding, List.count_append, List.count_eq_zero.mpr hFront, List.count_singleton_self]
        have hMem : '\n' ∈ line.ending := by simp [hEnding]
        simp only [hMem, true_and, ← hIff]
        omega
      · rw [List.count_eq_zero.mpr hNone]
        simp only [hNone, false_and, iff_false]
        omega

end Earley.Text
