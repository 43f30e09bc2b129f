import Earley.Grammar.Reader
import Earley.Proofs.Text.Trimming

/-! What a row of a source says. Rows are told apart by how they are written, without regard to
the order in which the reader examines them. -/
namespace Earley.Grammar

open Text

variable {text before arrow after : List Char}

/-- The two spellings of the arrow. -/
def IsArrow (arrow : List Char) : Prop := arrow = ['→'] ∨ arrow = ['-', '>']

theorem IsArrow.exists_visible (hArrow : IsArrow arrow) :
    ∃ first rest, arrow = first :: rest ∧ isBlank first = false := by
  rcases hArrow with rfl | rfl
  · exact ⟨'→', [], rfl, by decide⟩
  · exact ⟨'-', ['>'], rfl, by decide⟩

/-- The text is cut at the arrow that begins first. -/
structure FirstArrow (text before arrow after : List Char) : Prop where
  split : text = before ++ arrow ++ after
  isArrow : IsArrow arrow
  first : ∀ {front other rest}, IsArrow other → text = front ++ other ++ rest →
    before.length ≤ front.length

theorem FirstArrow.cons {c : Char} (hArrow : FirstArrow text before arrow after)
    (hHere : ∀ other rest, IsArrow other → c :: text ≠ other ++ rest) :
    FirstArrow (c :: text) (c :: before) arrow after := by
  refine ⟨by simp [hArrow.split], hArrow.isArrow, ?_⟩
  intro front other rest hOther hText
  cases front with
  | nil => exact absurd hText (hHere other rest hOther)
  | cons head front =>
      have hRest : text = front ++ other ++ rest := by simpa using (List.cons.inj hText).2
      simpa using hArrow.first hOther hRest

/-- No arrow begins at a character that is followed by none of the arrows' ends. -/
theorem ne_append_of_isArrow {c : Char} {text : List Char} (hWide : c ≠ '→')
    (hNarrow : ∀ rest, c = '-' → text ≠ '>' :: rest) (other rest : List Char)
    (hOther : IsArrow other) : c :: text ≠ other ++ rest := by
  rcases hOther with rfl | rfl
  · simp [hWide]
  · rintro hText
    obtain ⟨hHead, hRest⟩ := List.cons.inj hText
    exact hNarrow rest hHead hRest

theorem firstArrow_of_splitArrow? (hSplit : splitArrow? text = some (before, arrow, after)) :
    FirstArrow text before arrow after := by
  fun_induction splitArrow? text generalizing before with
  | case1 => simp at hSplit
  | case2 rest =>
      cases hSplit
      exact ⟨rfl, Or.inl rfl, fun _ _ => Nat.zero_le _⟩
  | case3 rest =>
      cases hSplit
      exact ⟨rfl, Or.inr rfl, fun _ _ => Nat.zero_le _⟩
  | case4 c rest hWide hNarrow ih =>
      obtain ⟨⟨front, _, _⟩, hRest, hSame⟩ := Option.map_eq_some_iff.mp hSplit
      cases hSame
      exact (ih hRest).cons (ne_append_of_isArrow hWide hNarrow)

theorem ne_of_splitArrow?_eq_none (hNone : splitArrow? text = none) (hArrow : IsArrow arrow) :
    text ≠ before ++ arrow ++ after := by
  fun_induction splitArrow? text generalizing before with
  | case1 => rcases hArrow with rfl | rfl <;> simp
  | case2 rest => simp at hNone
  | case3 rest => simp at hNone
  | case4 c rest hWide hNarrow ih =>
      intro hText
      cases before with
      | nil => exact ne_append_of_isArrow hWide hNarrow arrow after hArrow hText
      | cons head before =>
          have hRest : rest = before ++ arrow ++ after := by simpa using (List.cons.inj hText).2
          exact ih (Option.map_eq_none_iff.mp hNone) hRest

theorem FirstArrow.unique {front other rest : List Char}
    (hFirst : FirstArrow text before arrow after) (hSecond : FirstArrow text front other rest) :
    before = front ∧ arrow = other ∧ after = rest := by
  have hText : before ++ (arrow ++ after) = front ++ (other ++ rest) := by
    simpa using hFirst.split.symm.trans hSecond.split
  have hLength : before.length = front.length :=
    Nat.le_antisymm (hFirst.first hSecond.isArrow hSecond.split)
      (hSecond.first hFirst.isArrow hFirst.split)
  obtain ⟨rfl, hTail⟩ := List.append_inj hText hLength
  rcases hFirst.isArrow with rfl | rfl <;> rcases hSecond.isArrow with rfl | rfl <;>
    simp_all

/-- A row that says nothing: it is blank, a comment, or has nothing but blanks before an arrow. -/
inductive Silent : List Char → Prop where
  | blank {text : List Char} (hText : AllBlank text) : Silent text
  | comment {left rest : List Char} (hLeft : AllBlank left) : Silent (left ++ commentSign :: rest)
  | headless {left arrow rest : List Char} (hLeft : AllBlank left) (hArrow : IsArrow arrow) :
      Silent (left ++ arrow ++ rest)

/-- A row whose first arrow has exactly one character before it, apart from blanks, and this
character may be a left side. -/
structure Led (text before : List Char) (head : Char) (arrow after : List Char) : Prop where
  arrow : FirstArrow text before arrow after
  around : ∃ left right, before = left ++ head :: right ∧ AllBlank left ∧ AllBlank right
  visible : isBlank head = false
  ne_separator : head ≠ alternativeSeparator
  ne_epsilon : head ≠ epsilon

/-- The first character apart from blanks keeps a row from being silent, if it starts no comment
and no arrow begins before it or at it. -/
theorem not_silent {left rest : List Char} {first : Char} (hText : text = left ++ first :: rest)
    (hLeft : AllBlank left) (hFirst : isBlank first = false) (hSays : first ≠ commentSign)
    (hArrow : ∀ {front other tail}, IsArrow other → text = front ++ other ++ tail →
      left.length < front.length) : ¬ Silent text := by
  intro hSilent
  cases hSilent with
  | blank hAll => simp [hText, hFirst] at hAll
  | comment hOther =>
      exact hSays (first_visible_unique hText.symm hLeft hOther hFirst (by decide)).2.1
  | headless hOther hBegins =>
      obtain ⟨sign, tail, hSign, hVisible⟩ := hBegins.exists_visible
      rw [hSign, List.append_assoc, List.cons_append] at hText
      obtain ⟨rfl, _⟩ := first_visible_unique hText hOther hLeft hVisible hFirst
      exact absurd (hArrow hBegins rfl) (Nat.lt_irrefl _)

theorem FirstArrow.not_silent {left rest : List Char} {first : Char}
    (hArrow : FirstArrow text (left ++ first :: rest) arrow after) (hLeft : AllBlank left)
    (hFirst : isBlank first = false) (hSays : first ≠ commentSign) : ¬ Silent text := by
  have hText : text = left ++ first :: (rest ++ arrow ++ after) := by simp [hArrow.split]
  apply Grammar.not_silent hText hLeft hFirst hSays
  intro front other tail hOther hBegins
  have hEarlier := hArrow.first hOther hBegins
  simp only [List.length_append, List.length_cons] at hEarlier
  omega

/-- The first character of a row with an arrow is the first one before the arrow. -/
theorem FirstArrow.first_eq {left rest blanks other : List Char} {first visible : Char}
    (hArrow : FirstArrow text before arrow after) (hBefore : before = blanks ++ visible :: other)
    (hText : text = left ++ first :: rest) (hBlanks : AllBlank blanks) (hLeft : AllBlank left)
    (hVisible : isBlank visible = false) (hFirst : isBlank first = false) : visible = first := by
  have hSame : blanks ++ visible :: (other ++ arrow ++ after) = left ++ first :: rest := by
    rw [← hText, hArrow.split, hBefore]
    simp
  exact (first_visible_unique hSame hBlanks hLeft hVisible hFirst).2.1

/-- The character that leads a row is the first one before its arrow, and the only one. -/
theorem Led.head_eq {head first : Char} {front other tail left rest : List Char}
    (hLed : Led text front head other tail)
    (hArrow : FirstArrow text (left ++ first :: rest) arrow after) (hLeft : AllBlank left)
    (hFirst : isBlank first = false) : head = first ∧ AllBlank rest := by
  obtain ⟨blanks, right, hFront, hBlanks, hRight⟩ := hLed.around
  obtain ⟨hSame, _⟩ := hLed.arrow.unique hArrow
  rw [hFront] at hSame
  obtain ⟨_, rfl, rfl⟩ := first_visible_unique hSame hBlanks hLeft hLed.visible hFirst
  exact ⟨rfl, hRight⟩

theorem Led.unique {head first : Char} {front other tail : List Char}
    (hFirst : Led text before head arrow after) (hSecond : Led text front first other tail) :
    before = front ∧ head = first ∧ arrow = other ∧ after = tail := by
  obtain ⟨hBefore, hArrow, hAfter⟩ := hFirst.arrow.unique hSecond.arrow
  obtain ⟨left, right, rfl, hLeft, _⟩ := hSecond.around
  exact ⟨hBefore, (hFirst.head_eq hSecond.arrow hLeft hSecond.visible).1, hArrow, hAfter⟩

/-- What reading a row gives. The flaw of a row lies in the row. -/
inductive Row.Reads (position : Nat) (text : List Char) : Except Flaw (Option Row) → Prop where
  | silent (hSilent : Silent text) : Reads position text (.ok none)
  | production {before arrow after : List Char} {head : Char} (hSays : ¬ Silent text)
      (hLed : Led text before head arrow after) :
      Reads position text (.ok (some ⟨head, Cell.ofFields
        (position + before.length + arrow.length) (fields alternativeSeparator after)⟩))
  | flawed {flaw : Flaw} (hSays : ¬ Silent text)
      (hBad : ∀ before head arrow after, ¬ Led text before head arrow after)
      (hLower : position ≤ flaw.position) (hUpper : flaw.position < position + text.length)
      (hStop : ∀ stop, flaw.stop = some stop →
        flaw.position ≤ stop ∧ stop ≤ position + text.length) :
      Reads position text (.error flaw)

theorem Row.reads (position : Nat) (text : List Char) :
    Row.Reads position text (Row.read position text) := by
  unfold Row.read
  split
  · next hTrim => exact .silent (.blank (allBlank_of_trim_eq_nil hTrim))
  · next first _ hTrim =>
    obtain ⟨left, rest, hText, hLeft, hFirst⟩ := exists_of_trim_eq_cons hTrim
    split
    · next hComment => exact .silent (hText ▸ hComment ▸ .comment hLeft)
    · next hSays =>
      split
      · next hNone =>
        have hSome : 0 < text.length := by
          rw [hText, List.length_append, List.length_cons]
          omega
        refine .flawed ?_ ?_ (Nat.le_refl _) (Nat.lt_add_of_pos_right hSome) (by simp)
        · exact not_silent hText hLeft hFirst hSays fun hArrow hSame =>
            absurd hSame (ne_of_splitArrow?_eq_none hNone hArrow)
        · intro before head arrow after hLed
          exact ne_of_splitArrow?_eq_none hNone hLed.arrow.isArrow hLed.arrow.split
      · next before arrow after hSplit =>
        have hArrow := firstArrow_of_splitArrow? hSplit
        have hSpeaks {blanks other} {visible : Char} (hBefore : before = blanks ++ visible :: other)
            (hBlanks : AllBlank blanks) (hVisible : isBlank visible = false) : ¬ Silent text := by
          have hSame := hArrow.first_eq hBefore hText hBlanks hLeft hVisible hFirst
          exact (hBefore ▸ hArrow).not_silent hBlanks hVisible (hSame ▸ hSays)
        have hTrimmed := trimmed_trim before
        generalize trim before = side at hTrimmed
        cases hTrimmed with
        | nothing hBefore => exact .silent (hArrow.split ▸ .headless hBefore hArrow.isArrow)
        | single hBlanks hRight hVisible =>
            simp only [takeWhile_isBlank hBlanks hVisible]
            split
            · next hReserved =>
              refine .flawed (hSpeaks rfl hBlanks hVisible) ?_ (Nat.le_add_right _ _) ?_ (by simp)
              · intro front other sign tail hLed
                obtain ⟨rfl, _⟩ := hLed.head_eq hArrow hBlanks hVisible
                exact hReserved.elim hLed.ne_separator hLed.ne_epsilon
              · simp [hArrow.split]
            · next hFree =>
              obtain ⟨hSeparator, hEpsilon⟩ := not_or.mp hFree
              exact .production (hSpeaks rfl hBlanks hVisible)
                ⟨hArrow, ⟨_, _, rfl, hBlanks, hRight⟩, hVisible, hSeparator, hEpsilon⟩
        | @wide blanks inner right visible last hBlanks hRight hVisible hLast =>
            have hBad front head sign tail : ¬ Led text front head sign tail := by
              intro hLed
              simpa [hLast] using (hLed.head_eq hArrow hBlanks hVisible).2
            have hSome : inner ++ [last] ≠ [] := by simp
            obtain ⟨second, others, hOthers⟩ := List.exists_cons_of_ne_nil hSome
            have hWidth : inner.length = others.length := by
              simpa using congrArg List.length hOthers
            simp only [hOthers, takeWhile_isBlank hBlanks hVisible]
            refine .flawed (hSpeaks rfl hBlanks hVisible) hBad ?_ ?_ ?_
            · simp
            · simp [hArrow.split]
            · simp [hArrow.split]
              omega

theorem Row.read_of_silent (position : Nat) (hSilent : Silent text) :
    Row.read position text = .ok none := by
  have hReads := Row.reads position text
  generalize Row.read position text = result at hReads
  cases hReads with
  | silent _ => rfl
  | production hSays _ => exact absurd hSilent hSays
  | flawed hSays _ _ _ _ => exact absurd hSilent hSays

theorem Row.read_of_led {head : Char} (position : Nat) (hSays : ¬ Silent text)
    (hLed : Led text before head arrow after) :
    Row.read position text = .ok (some ⟨head, Cell.ofFields
      (position + before.length + arrow.length) (fields alternativeSeparator after)⟩) := by
  have hReads := Row.reads position text
  generalize Row.read position text = result at hReads
  cases hReads with
  | silent hSilent => exact absurd hSilent hSays
  | production _ hOther =>
      obtain ⟨rfl, rfl, rfl, rfl⟩ := hLed.unique hOther
      rfl
  | flawed _ hBad _ _ _ => exact absurd hLed (hBad before head arrow after)

end Earley.Grammar
