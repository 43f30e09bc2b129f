import Earley.Proofs.Grammar.Layout

/-! The display of a grammar is one of its layouts, and reading undoes them all. -/
namespace Earley.Grammar

open Text

variable {heads : List Char} {text field : List Char} {form : Form}
  {production : Char × List Form}

/-- A text without blanks other than spaces. -/
def Plain (text : List Char) : Prop := ∀ c ∈ text, isBlank c = true → c = ' '

instance : DecidablePred Plain := fun text => List.decidableBAll _ text

theorem plain_of_visible (hVisible : ∀ c ∈ text, isBlank c = false) : Plain text := by
  intro c hMem hBlank
  simp [hVisible c hMem] at hBlank

theorem Plain.unbroken (hPlain : Plain text) : Unbroken text := by
  intro c hMem
  cases hBreak : isLineBreak c with
  | false => rfl
  | true =>
      rw [hPlain c hMem (isBlank_of_isLineBreak hBreak)] at hBreak
      exact absurd hBreak (by decide)

theorem plain_append {front back : List Char} (hFront : Plain front) (hBack : Plain back) :
    Plain (front ++ back) := fun c hMem =>
  (List.mem_append.mp hMem).elim (hFront c) (hBack c)

theorem plain_intercalate {separator : List Char} {pieces : List (List Char)}
    (hSeparator : Plain separator) (hPieces : ∀ piece ∈ pieces, Plain piece) :
    Plain (separator.intercalate pieces) := by
  induction pieces with
  | nil => simp [Plain]
  | cons piece pieces ih =>
      have hPiece := hPieces piece (List.mem_cons_self ..)
      have hRest := ih fun other hMem => hPieces other (List.mem_cons_of_mem _ hMem)
      cases pieces with
      | nil => simpa [List.intercalate_singleton] using hPiece
      | cons other pieces =>
          rw [List.intercalate_cons_cons]
          exact plain_append (plain_append hPiece hSeparator) hRest

theorem Spells.pad {left right : List Char} (hSpells : Spells field form)
    (hLeft : AllBlank left) (hRight : AllBlank right) : Spells (left ++ field ++ right) form := by
  have hSame : removeBlanks (left ++ field ++ right) = removeBlanks field := by
    simp [removeBlanks_append, removeBlanks_eq_nil_iff.mpr hLeft,
      removeBlanks_eq_nil_iff.mpr hRight]
  cases hSpells with
  | symbols hField hForm =>
      exact .symbols (spaced_iff.mpr (hSame.trans (spaced_iff.mp hField))) hForm
  | sign hField => exact .sign (spaced_iff.mpr (hSame.trans (spaced_iff.mp hField)))

theorem toList_format_symbol (symbol : Symbol) :
    (symbol.format .plain).toList = symbol.letter.toList := by
  simp [Symbol.format]

/-- The display of a form spells it, without any blank. -/
theorem Writable.spells_format (hWritable : Writable heads production)
    (hForm : form ∈ production.2) : Spells (Form.format .plain form).toList form ∧
      ∀ c ∈ (Form.format .plain form).toList, isBlank c = false := by
  have hSymbols := hWritable.symbols form hForm
  cases form with
  | nil =>
      have hDisplay : (Form.format .plain []).toList = [epsilon] := by simp [Form.format]
      have hVisible : isBlank epsilon = false := by decide
      rw [hDisplay]
      exact ⟨.sign (.letter hVisible .nil), by simpa using hVisible⟩
  | cons first rest =>
      have hDisplay : (Form.format .plain (first :: rest)).toList =
          (first :: rest).filterMap Symbol.letter := by
        simp only [Form.format, List.isEmpty_cons, Bool.false_eq_true, if_false,
          String.toList_join, List.flatMap_map, toList_format_symbol,
          List.filterMap_eq_flatMap_toList]
      generalize first :: rest = form at hSymbols hDisplay
      have hVisible : ∀ c ∈ (Form.format .plain form).toList, isBlank c = false := by
        intro c hMem
        rw [hDisplay] at hMem
        obtain ⟨symbol, hSymbol, hLetter⟩ := List.mem_filterMap.mp hMem
        obtain ⟨other, hOther, hPlain, _⟩ := hSymbols symbol hSymbol
        rwa [Option.some.inj (hLetter.symm.trans hOther)]
      refine ⟨.symbols (spaced_self hVisible) ?_, hVisible⟩
      rw [hDisplay, List.map_filterMap, ← List.filterMap_eq_map]
      refine List.filterMap_congr fun symbol hSymbol => ?_
      obtain ⟨c, hLetter, _⟩ := hSymbols symbol hSymbol
      simp [hLetter]

/-- The display of alternatives spells them, with a space on each side of a separator. -/
theorem exists_pieces {forms : List Form} (hSome : forms ≠ [])
    (hSpells : ∀ form ∈ forms, Spells (Form.format .plain form).toList form) :
    ∃ pieces, List.Forall₂ Spells pieces forms ∧
      ' ' :: (" | ".intercalate (forms.map (Form.format .plain))).toList =
        join [alternativeSeparator] pieces := by
  induction forms with
  | nil => exact absurd rfl hSome
  | cons form forms ih =>
      have hBlank : AllBlank [' '] := by decide
      have hForm := hSpells form (List.mem_cons_self ..)
      cases forms with
      | nil =>
          refine ⟨[' ' :: (Form.format .plain form).toList], .cons ?_ .nil, ?_⟩
          · simpa using hForm.pad hBlank allBlank_nil
          · simp [join]
      | cons other forms =>
          obtain ⟨pieces, hPieces, hJoin⟩ := ih (List.cons_ne_nil _ _) fun form hMem =>
            hSpells form (List.mem_cons_of_mem _ hMem)
          refine ⟨([' '] ++ (Form.format .plain form).toList ++ [' ']) :: pieces,
            .cons (hForm.pad hBlank hBlank) hPieces, ?_⟩
          cases pieces with
          | nil => cases hPieces
          | cons piece pieces =>
              rw [join, ← hJoin]
              · simp [String.toList_intercalate, alternativeSeparator]
              · simp

/-- The display of a production is a row that says it. -/
theorem Writable.lays_format {head : Char} {alternatives : List Form}
    (hWritable : Writable heads (head, alternatives)) (hSome : alternatives ≠ []) :
    Lays (Production.format .plain ⟨some head, alternatives⟩).toList
      (some (head, alternatives)) := by
  obtain ⟨pieces, hPieces, hJoin⟩ :=
    exists_pieces hSome fun form hForm => (hWritable.spells_format hForm).1
  have hRow : (Production.format .plain ⟨some head, alternatives⟩).toList =
      [] ++ head :: [' '] ++ ['-', '>'] ++ join [alternativeSeparator] pieces := by
    rw [← hJoin]
    simp [Production.format, toList_format_symbol, Symbol.letter]
  exact hRow ▸ .production allBlank_nil (by decide) (Or.inr rfl) hSome hPieces

theorem Writable.unbroken_format {head : Char} {alternatives : List Form}
    (hWritable : Writable heads (head, alternatives)) :
    Unbroken (Production.format .plain ⟨some head, alternatives⟩).toList := by
  have hRow : (Production.format .plain ⟨some head, alternatives⟩).toList =
      [head] ++ " -> ".toList ++ " | ".toList.intercalate
        (alternatives.map fun form => (Form.format .plain form).toList) := by
    simp [Production.format, toList_format_symbol, Symbol.letter, String.toList_intercalate,
      Function.comp_def]
  have hHead : Plain [head] := plain_of_visible (by simpa using hWritable.visible)
  apply Plain.unbroken
  rw [hRow]
  apply plain_append (plain_append hHead (by decide)) (plain_intercalate (by decide) _)
  intro piece hPiece
  obtain ⟨form, hForm, rfl⟩ := List.mem_map.mp hPiece
  exact plain_of_visible (hWritable.spells_format hForm).2

/-- The display of the productions is a layout of the grammar. -/
theorem Spellable.laidOut_format {g : Grammar} (hSpell : g.Spellable) :
    LaidOut ("\n".intercalate (g.productions.map (Production.format .plain))).toList g.entries := by
  have hText : Stacked ("\n".intercalate (g.productions.map (Production.format .plain))).toList
      (g.entries.map fun entry => (Production.format .plain ⟨some entry.1, entry.2⟩).toList) := by
    rw [String.toList_intercalate, productions, List.map_map, List.map_map]
    apply stacked_intercalate
    intro row hRow
    obtain ⟨entry, hEntry, rfl⟩ := List.mem_map.mp hRow
    exact (hSpell.writable entry hEntry).unbroken_format
  have hRows : List.Forall₂ Lays
      (g.entries.map fun entry => (Production.format .plain ⟨some entry.1, entry.2⟩).toList)
      (g.entries.map some) := by
    rw [List.forall₂_map_left_iff, List.forall₂_map_right_iff, List.forall₂_same]
    intro entry hEntry
    exact (hSpell.writable entry hEntry).lays_format (hSpell.alternatives entry hEntry).1
  simpa [List.flatMap_map] using LaidOut.intro hText hRows

/-- Reading undoes every layout of a grammar, and so it does with the display of the productions. -/
theorem read_laidOut {g : Grammar} (hSpell : g.Spellable) :
    (∀ text productions, LaidOut text productions → collect productions = g.entries →
      read text = .ok g) ∧
    read ("\n".intercalate (g.productions.map (Production.format .plain))).toList = .ok g := by
  refine ⟨fun text productions hText hCollect => hSpell.read_of_laidOut hText hCollect, ?_⟩
  apply hSpell.read_of_laidOut hSpell.laidOut_format
  exact collect_eq_self hSpell.nodup_heads fun entry hEntry => (hSpell.alternatives entry hEntry).2

/-- A grammar whose nonterminals and terminals are also parts of arrows. -/
def dashed : Grammar :=
  ⟨some 'S', [('S', [[.terminal (some 'a'), .nonterminal (some '-')], []]),
    ('-', [[.terminal (some '>'), .terminal (some '→')]])]⟩

theorem spellable_dashed : dashed.Spellable where
  nonempty := by decide
  start := rfl
  nodup_heads := by decide
  alternatives := by decide
  writable := by
    have hHeads : ∀ entry ∈ dashed.entries, isBlank entry.1 = false ∧ entry.1 ≠ commentSign ∧
        entry.1 ≠ alternativeSeparator ∧ entry.1 ≠ epsilon ∧ entry.1 ≠ '→' := by decide
    have hSymbols : ∀ entry ∈ dashed.entries, ∀ form ∈ entry.2, ∀ symbol ∈ form,
        symbol ∈ [.terminal (some 'a'), .nonterminal (some '-'), .terminal (some '>'),
          .terminal (some '→')] := by decide
    intro entry hEntry
    obtain ⟨hVisible, hComment, hSeparator, hEpsilon, hArrow⟩ := hHeads entry hEntry
    refine ⟨hVisible, hComment, hSeparator, hEpsilon, hArrow, ?_⟩
    intro form hForm symbol hSymbol
    have hMem := hSymbols entry hEntry form hForm symbol hSymbol
    simp only [List.mem_cons, List.not_mem_nil, or_false] at hMem
    rcases hMem with rfl | rfl | rfl | rfl <;> exact ⟨_, rfl, by decide⟩

/-- Blanks stand between the symbols, one row is a comment, the arrow directly follows a dash, and
the last row says again what the first one said. -/
theorem read_dashed : dashed.Spellable ∧
    read " S→a - |\tε\r# S -> b\n-->>→\nS->".toList = .ok dashed := by
  refine ⟨spellable_dashed, (read_laidOut spellable_dashed).1 _
    [('S', [[.terminal (some 'a'), .nonterminal (some '-')], []]),
      ('-', [[.terminal (some '>'), .terminal (some '→')]]), ('S', [[]])] ?_ (by decide)⟩
  have hSymbols {field : List Char} {form : Form} (letters : List Char)
      (hField : removeBlanks field = letters) (hForm : form.map Symbol.letter = letters.map some) :
      Spells field form := .symbols (spaced_iff.mpr hField) hForm
  have hFirst : Lays ([' '] ++ 'S' :: [] ++ ['→'] ++ join [alternativeSeparator]
      ["a - ".toList, "\tε".toList])
      (some ('S', [[.terminal (some 'a'), .nonterminal (some '-')], []])) :=
    .production (by decide) (by decide) (Or.inl rfl) (by decide)
      (.cons (hSymbols ['a', '-'] (by decide) (by decide))
        (.cons (.sign (spaced_iff.mpr (by decide))) .nil))
  have hComment : Lays ([] ++ commentSign :: " S -> b".toList) none :=
    .silent (.comment (by decide))
  have hDash : Lays ([] ++ '-' :: [] ++ ['-', '>'] ++ join [alternativeSeparator] [">→".toList])
      (some ('-', [[.terminal (some '>'), .terminal (some '→')]])) :=
    .production (by decide) (by decide) (Or.inr rfl) (by decide)
      (.cons (hSymbols ['>', '→'] (by decide) (by decide)) .nil)
  have hAgain : Lays ([] ++ 'S' :: [] ++ ['-', '>'] ++ join [alternativeSeparator] [[]])
      (some ('S', [[]])) :=
    .production (by decide) (by decide) (Or.inr rfl) (by decide)
      (.cons (hSymbols [] (by decide) (by decide)) .nil)
  have hText : Stacked (" S→a - |\tε".toList ++ ['\r'] ++ ("# S -> b".toList ++ ['\n'] ++
      ("-->>→".toList ++ ['\n'] ++ "S->".toList)))
      [" S→a - |\tε".toList, "# S -> b".toList, "-->>→".toList, "S->".toList] :=
    .row (by decide) (.single (by decide)) (.row (by decide) (.single (by decide))
      (.row (by decide) (.single (by decide)) (.last (by decide))))
  exact .intro hText (.cons hFirst (.cons hComment (.cons hDash (.cons hAgain .nil))))

end Earley.Grammar
