import Earley.Proofs.Grammar.Recognition
import Earley.Proofs.Text.Layout
import Mathlib.Data.List.Forall2

/-! The texts that say a grammar. Reading undoes every layout, and the display of the productions
is one of them. -/
namespace Earley.Grammar

open Text

variable {heads : List Char} {text row field : List Char} {form : Form}
  {production : Char × List Form}

/-- A way to write an alternative. The empty form is written by its sign or by nothing. -/
inductive Spells : List Char → Form → Prop where
  | symbols {field letters : List Char} {form : Form} (hField : Spaced field letters)
      (hForm : form.map Symbol.letter = letters.map some) : Spells field form
  | sign {field : List Char} (hField : Spaced field [epsilon]) : Spells field []

/-- A way to write a row that says nothing, or one that says a production. -/
inductive Lays : List Char → Option (Char × List Form) → Prop where
  | silent {row : List Char} (hSilent : Silent row) : Lays row none
  | production {left right arrow : List Char} {pieces : List (List Char)} {head : Char}
      {alternatives : List Form} (hLeft : AllBlank left) (hRight : AllBlank right)
      (hArrow : IsArrow arrow) (hSome : alternatives ≠ [])
      (hPieces : List.Forall₂ Spells pieces alternatives) :
      Lays (left ++ head :: right ++ arrow ++ join [alternativeSeparator] pieces)
        (some (head, alternatives))

/-- A production whose characters have no other meaning in a row. Its symbols are nonterminals
exactly if they are left sides. -/
structure Writable (heads : List Char) (production : Char × List Form) : Prop where
  visible : isBlank production.1 = false
  ne_comment : production.1 ≠ commentSign
  ne_separator : production.1 ≠ alternativeSeparator
  ne_epsilon : production.1 ≠ epsilon
  ne_arrow : production.1 ≠ '→'
  symbols : ∀ alternative ∈ production.2, ∀ symbol ∈ alternative, ∃ c,
    symbol.letter = some c ∧ isBlank c = false ∧ c ≠ alternativeSeparator ∧ c ≠ epsilon ∧
      (symbol.isTerminal = false ↔ c ∈ heads)

/-- A grammar that can be written as a text. -/
structure Spellable (g : Grammar) : Prop where
  nonempty : g.entries ≠ []
  start : g.start = g.heads.head?
  nodup_heads : g.heads.Nodup
  alternatives : ∀ entry ∈ g.entries, entry.2 ≠ [] ∧ entry.2.Nodup
  writable : ∀ entry ∈ g.entries, Writable g.heads entry

/-- A text with the productions that its rows say. -/
inductive LaidOut : List Char → List (Char × List Form) → Prop where
  | intro {text : List Char} {rows : List (List Char)} {said : List (Option (Char × List Form))}
      (hText : Stacked text rows) (hRows : List.Forall₂ Lays rows said) :
      LaidOut text (said.flatMap Option.toList)

theorem Spells.mem_field (hSpells : Spells field form) {c : Char} (hMem : c ∈ field)
    (hVisible : isBlank c = false) :
    (∃ symbol ∈ form, symbol.letter = some c) ∨ c = epsilon := by
  cases hSpells with
  | symbols hField hForm =>
      have hLetter := List.mem_map_of_mem (f := some) (hField.mem_letters hMem hVisible)
      rw [← hForm] at hLetter
      exact Or.inl (List.mem_map.mp hLetter)
  | sign hField => exact Or.inr (by simpa using hField.mem_letters hMem hVisible)

/-- The separator stands only between the alternatives of a writable production. -/
theorem Writable.separator_notMem (hWritable : Writable heads production)
    (hForm : form ∈ production.2) (hSpells : Spells field form) :
    alternativeSeparator ∉ field := by
  intro hMem
  rcases hSpells.mem_field hMem (by decide) with ⟨symbol, hSymbol, hLetter⟩ | hEpsilon
  · obtain ⟨c, hName, _, hSeparator, _⟩ := hWritable.symbols form hForm symbol hSymbol
    rw [hLetter] at hName
    exact hSeparator (Option.some.inj hName).symm
  · exact absurd hEpsilon (by decide)

/-- The kind of a symbol is all that its letter does not tell. -/
theorem map_letters_eq {letters : List Char} {kind : Char → Symbol}
    (hSame : form.map Symbol.letter = letters.map some)
    (hKind : ∀ symbol ∈ form, ∀ c, symbol.letter = some c → kind c = symbol) :
    letters.map kind = form := by
  induction form generalizing letters with
  | nil => cases letters <;> simp_all
  | cons symbol form ih =>
      cases letters with
      | nil => simp at hSame
      | cons c letters =>
          obtain ⟨hHead, hRest⟩ := List.cons.inj hSame
          rw [List.map_cons, hKind symbol (List.mem_cons_self ..) c hHead,
            ih hRest fun other hMem => hKind other (List.mem_cons_of_mem _ hMem)]

/-- Reading an alternative gives back the form that was written. -/
theorem Writable.read_cell (hWritable : Writable heads production) (hForm : form ∈ production.2)
    (hSpells : Spells field form) (position : Nat) :
    Cell.read heads ⟨position, removeBlanks field⟩ = .ok form := by
  cases hSpells with
  | sign hField => simp [Cell.read, spaced_iff.mp hField]
  | @symbols letters _ hField hSame =>
      have hSymbols := hWritable.symbols form hForm
      have hEpsilon : epsilon ∉ letters := by
        intro hMem
        have hLetter := List.mem_map_of_mem (f := some) hMem
        rw [← hSame] at hLetter
        obtain ⟨symbol, hSymbol, hName⟩ := List.mem_map.mp hLetter
        obtain ⟨c, hOther, _, _, hPlain, _⟩ := hSymbols symbol hSymbol
        exact hPlain (Option.some.inj (hOther.symm.trans hName))
      have hAlone : letters ≠ [epsilon] := fun hSame => hEpsilon (by simp [hSame])
      have hForm : letters.map (fun c => if c ∈ heads then Symbol.nonterminal (some c)
          else Symbol.terminal (some c)) = form := by
        apply map_letters_eq hSame
        intro symbol hSymbol c hLetter
        obtain ⟨other, hOther, _, _, _, hKind⟩ := hSymbols symbol hSymbol
        obtain rfl : c = other := Option.some.inj (hLetter.symm.trans hOther)
        simp only [← hKind]
        cases symbol <;> simp_all [Symbol.letter, Symbol.isTerminal]
      simp [Cell.read, spaced_iff.mp hField, hEpsilon, hAlone, hForm]

/-- No arrow begins at a blank. -/
theorem FirstArrow.append_blanks {blanks before arrow after : List Char}
    (hArrow : FirstArrow text before arrow after) (hBlanks : AllBlank blanks) :
    FirstArrow (blanks ++ text) (blanks ++ before) arrow after := by
  induction blanks with
  | nil => exact hArrow
  | cons c blanks ih =>
      obtain ⟨hBlank, hRest⟩ := allBlank_cons.mp hBlanks
      refine (ih hRest).cons (ne_append_of_isArrow ?_ ?_)
      · rintro rfl
        exact absurd hBlank (by decide)
      · rintro _ rfl
        exact absurd hBlank (by decide)

theorem IsArrow.firstArrow {arrow : List Char} (hArrow : IsArrow arrow) (after : List Char) :
    FirstArrow (arrow ++ after) [] arrow after :=
  ⟨rfl, hArrow, fun _ _ => Nat.zero_le _⟩

/-- A left side is found again, also if it is the first character of an arrow. -/
theorem Writable.firstArrow {left right arrow : List Char}
    (hWritable : Writable heads production) (hLeft : AllBlank left) (hRight : AllBlank right)
    (hArrow : IsArrow arrow) (after : List Char) :
    FirstArrow (left ++ production.1 :: right ++ arrow ++ after) (left ++ production.1 :: right)
      arrow after := by
  have hNext (rest : List Char) : right ++ (arrow ++ after) ≠ '>' :: rest := by
    intro hSame
    cases right with
    | nil => rcases hArrow with rfl | rfl <;> simp at hSame
    | cons c right =>
        obtain ⟨rfl, _⟩ := List.cons.inj hSame
        exact absurd (allBlank_cons.mp hRight).1 (by decide)
  have hHead : FirstArrow (production.1 :: (right ++ (arrow ++ after)))
      (production.1 :: (right ++ [])) arrow after :=
    ((hArrow.firstArrow after).append_blanks hRight).cons
      (ne_append_of_isArrow hWritable.ne_arrow fun rest _ => hNext rest)
  simpa using hHead.append_blanks hLeft

/-- A row that was read as a production. -/
structure Row.Says (heads : List Char) (row : Row) (production : Char × List Form) : Prop where
  head : row.head = production.1
  cells : row.cells.mapM (Cell.read heads) = .ok production.2

theorem Writable.mapM_read (hWritable : Writable heads production) {pieces : List (List Char)}
    {forms : List Form} (hPieces : List.Forall₂ Spells pieces forms)
    (hForms : ∀ form ∈ forms, form ∈ production.2) (position : Nat) :
    (Cell.ofFields position pieces).mapM (Cell.read heads) = .ok forms := by
  induction hPieces generalizing position with
  | nil => rfl
  | cons hSpells _ ih =>
      have hRead := hWritable.read_cell (hForms _ (List.mem_cons_self ..)) hSpells position
      have hRest := ih (fun form hMem => hForms form (List.mem_cons_of_mem _ hMem))
      simp only [Cell.ofFields, List.mapM_cons, hRead, hRest]
      rfl

theorem exists_form_of_mem {pieces : List (List Char)} {forms : List Form} {piece : List Char}
    (hPieces : List.Forall₂ Spells pieces forms) (hMem : piece ∈ pieces) :
    ∃ form ∈ forms, Spells piece form := by
  induction hPieces with
  | nil => simp at hMem
  | cons hSpells _ ih =>
      rcases List.mem_cons.mp hMem with rfl | hRest
      · exact ⟨_, List.mem_cons_self .., hSpells⟩
      · obtain ⟨form, hForm, hOther⟩ := ih hRest
        exact ⟨form, List.mem_cons_of_mem _ hForm, hOther⟩

/-- Reading a row gives the production that was written. -/
theorem Writable.read_row (hWritable : Writable heads production)
    (hLays : Lays row (some production)) (position : Nat) :
    ∃ spoken, Row.read position row = .ok (some spoken) ∧ spoken.Says heads production := by
  cases hLays with
  | @production left right arrow pieces head alternatives hLeft hRight hArrow hSome hPieces =>
      have hFirst := hWritable.firstArrow hLeft hRight hArrow (join [alternativeSeparator] pieces)
      have hSays := hFirst.not_silent hLeft hWritable.visible hWritable.ne_comment
      have hLed : Led _ (left ++ head :: right) head arrow _ :=
        ⟨hFirst, ⟨left, right, rfl, hLeft, hRight⟩, hWritable.visible, hWritable.ne_separator,
          hWritable.ne_epsilon⟩
      have hPiecesSome : pieces ≠ [] := by
        rintro rfl
        cases hPieces
        exact hSome rfl
      have hFields : fields alternativeSeparator (join [alternativeSeparator] pieces) = pieces := by
        apply fields_join _ hPiecesSome
        intro piece hMem
        obtain ⟨form, hForm, hSpells⟩ := exists_form_of_mem hPieces hMem
        exact hWritable.separator_notMem hForm hSpells
      refine ⟨_, Row.read_of_led position hSays hLed, rfl, ?_⟩
      rw [hFields]
      exact hWritable.mapM_read hPieces (fun _ hForm => hForm) _

/-- The rows of a text that is put together are read one after the other. -/
theorem readRows_break {ending : List Char} (hRow : Unbroken row) (hBreak : IsBreak ending)
    (position : Nat) (rest : List Char) :
    readRows position (Line.ofText (row ++ ending ++ rest)) = do
      let spoken ← Row.read position row
      let others ← readRows (position + (row.length + ending.length)) (Line.ofText rest)
      return spoken.toList ++ others := by
  rcases Line.ofText_break hRow hBreak rest with hLines | ⟨tail, rfl, rfl, hLines⟩
  · rw [hLines]
    rfl
  · have hNewline : Line.ofText ('\n' :: tail) = ⟨[], ['\n']⟩ :: Line.ofText tail := by
      simp [Line.ofText, isLineBreak, inRanges]
    have hBlank (position : Nat) : readRows position (⟨[], ['\n']⟩ :: Line.ofText tail) =
        readRows (position + 1) (Line.ofText tail) := by
      show (do return [] ++ (← readRows (position + 1) (Line.ofText tail))) = _
      simp
    rw [hLines, hNewline, hBlank]
    rfl

theorem readRows_last (hRow : Unbroken row) (position : Nat) :
    readRows position (Line.ofText row) = (Row.read position row).map Option.toList := by
  rw [Line.ofText_of_unbroken hRow]
  split
  · next hEmpty =>
    subst hEmpty
    rfl
  · rw [readRows]
    cases Row.read position row <;> simp [readRows] <;> rfl

/-- Reading a row gives what was laid out in it. -/
theorem read_of_lays {said : Option (Char × List Form)} (hLays : Lays row said)
    (hWritable : ∀ production ∈ said.toList, Writable heads production) (position : Nat) :
    ∃ spoken, Row.read position row = .ok spoken ∧
      List.Forall₂ (Row.Says heads) spoken.toList said.toList := by
  cases said with
  | none =>
      cases hLays with
      | silent hSilent => exact ⟨none, Row.read_of_silent position hSilent, .nil⟩
  | some production =>
      obtain ⟨spoken, hRead, hSays⟩ :=
        (hWritable production (List.mem_singleton_self _)).read_row hLays position
      exact ⟨some spoken, hRead, .cons hSays .nil⟩

/-- Reading a text gives what was laid out in its rows. -/
theorem readRows_of_stacked {rows : List (List Char)} {said : List (Option (Char × List Form))}
    (hText : Stacked text rows) (hRows : List.Forall₂ Lays rows said)
    (hWritable : ∀ production ∈ said.flatMap Option.toList, Writable heads production)
    (position : Nat) : ∃ spoken, readRows position (Line.ofText text) = .ok spoken ∧
      List.Forall₂ (Row.Says heads) spoken (said.flatMap Option.toList) := by
  induction hText generalizing said position with
  | nil =>
      cases hRows
      exact ⟨[], rfl, .nil⟩
  | last hRow =>
      obtain _ | ⟨hLays, ⟨⟩⟩ := hRows
      rw [List.flatMap_singleton] at hWritable ⊢
      obtain ⟨spoken, hRead, hSays⟩ := read_of_lays hLays hWritable position
      rw [readRows_last hRow, hRead]
      exact ⟨spoken.toList, rfl, hSays⟩
  | @row row ending text rows hRow hBreak _ ih =>
      obtain _ | ⟨hLays, hOthers⟩ := hRows
      simp only [List.flatMap_cons, List.mem_append] at hWritable ⊢
      obtain ⟨spoken, hRead, hSays⟩ :=
        read_of_lays hLays (fun production hMem => hWritable production (Or.inl hMem)) position
      obtain ⟨others, hRest, hSaid⟩ :=
        ih hOthers (fun production hMem => hWritable production (Or.inr hMem))
          (position + (row.length + ending.length))
      rw [readRows_break hRow hBreak, hRead]
      simp only [hRest]
      exact ⟨spoken.toList ++ others, rfl, List.rel_append hSays hSaid⟩

theorem LaidOut.readRows {productions : List (Char × List Form)} (hText : LaidOut text productions)
    (hWritable : ∀ production ∈ productions, Writable heads production) (position : Nat) :
    ∃ spoken, Grammar.readRows position (Line.ofText text) = .ok spoken ∧
      List.Forall₂ (Row.Says heads) spoken productions := by
  cases hText with
  | intro hText hRows => exact readRows_of_stacked hText hRows hWritable position

theorem extendByRows_of_says {spoken : List Row} {productions : List (Char × List Form)}
    (hSays : List.Forall₂ (Row.Says heads) spoken productions) (g : Grammar) :
    extendByRows heads g spoken = .ok (g.extendAll productions) := by
  induction hSays generalizing g with
  | nil => rfl
  | @cons row production rest productions hRow _ ih =>
      simp only [extendByRows, hRow.cells, hRow.head]
      exact ih _

theorem map_head_of_says {spoken : List Row} {productions : List (Char × List Form)}
    (hSays : List.Forall₂ (Row.Says heads) spoken productions) :
    spoken.map Row.head = productions.map Prod.fst := by
  induction hSays with
  | nil => rfl
  | cons hRow _ ih => rw [List.map_cons, List.map_cons, hRow.head, ih]

/-- A part of a writable production is writable, and only the names of the left sides count. -/
theorem Writable.mono {entry : Char × List Form} {others : List Char}
    (hEntry : Writable heads entry) (hHead : entry.1 = production.1)
    (hPart : ∀ form ∈ production.2, form ∈ entry.2) (hHeads : ∀ c, c ∈ heads ↔ c ∈ others) :
    Writable others production where
  visible := hHead ▸ hEntry.visible
  ne_comment := hHead ▸ hEntry.ne_comment
  ne_separator := hHead ▸ hEntry.ne_separator
  ne_epsilon := hHead ▸ hEntry.ne_epsilon
  ne_arrow := hHead ▸ hEntry.ne_arrow
  symbols form hForm symbol hSymbol := by
    simpa only [hHeads] using hEntry.symbols form (hPart form hForm) symbol hSymbol

/-- Reading undoes every layout. -/
theorem Spellable.read_of_laidOut {g : Grammar} {productions : List (Char × List Form)}
    (hSpell : g.Spellable) (hText : LaidOut text productions)
    (hCollect : collect productions = g.entries) : read text = .ok g := by
  have hHeads : g.heads = (productions.map Prod.fst).eraseDups := by
    rw [heads, ← hCollect, heads_collect]
  have hWritable : ∀ production ∈ productions,
      Writable (productions.map Prod.fst) production := by
    intro production hMem
    obtain ⟨entry, hEntry, hHead, hPart⟩ := exists_collected hMem
    rw [hCollect] at hEntry
    exact (hSpell.writable entry hEntry).mono hHead hPart fun c => by
      rw [hHeads, List.mem_eraseDups]
  obtain ⟨spoken, hRead, hSays⟩ := hText.readRows hWritable 0
  have hNames := map_head_of_says hSays
  cases spoken with
  | nil =>
      rw [List.forall₂_nil_left_iff.mp hSays] at hCollect
      exact absurd hCollect.symm hSpell.nonempty
  | cons row rest =>
      have hStart : g.start = some row.head := by
        rw [hSpell.start, hHeads, ← hNames, List.map_cons, List.eraseDups_cons]
        rfl
      apply read_of_ofSource
      rw [ofSource_of_readRows hRead, hNames, extendByRows_of_says hSays, extendAll_empty,
        hCollect, ← hStart]

end Earley.Grammar
