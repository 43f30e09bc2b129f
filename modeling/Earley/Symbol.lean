import Earley.Text.Quoted

/-! Grammar symbols and the strings over them. A symbol is named by one character. -/
namespace Earley

/-- The name of a symbol: a character, or the empty name. The empty name belongs to no symbol of
a valid grammar; the parser keeps it for the symbol above the start symbol. -/
abbrev Letter := Option Char

/-- A name has at most one character. -/
def Letter.ofList? : List Char → Option Letter
  | [] => some none
  | [c] => some (some c)
  | _ => none

/-- A terminal is matched by its own character, a nonterminal stands for forms. The two kinds are
told apart by the tag alone, so both may have the same name. -/
inductive Symbol where
  | terminal (letter : Letter)
  | nonterminal (letter : Letter)
deriving DecidableEq

/-- How symbols are displayed: by their name only, or with nonterminals in parentheses. -/
inductive Style where
  | plain
  | marked
deriving DecidableEq

namespace Symbol

def letter : Symbol → Letter
  | .terminal letter => letter
  | .nonterminal letter => letter

def isTerminal : Symbol → Bool
  | .terminal _ => true
  | .nonterminal _ => false

/-- The name, within parentheses if it is a marked nonterminal. -/
def format (style : Style) (symbol : Symbol) : String :=
  let name := String.ofList symbol.letter.toList
  if style = .marked ∧ symbol.isTerminal = false then "(" ++ name ++ ")" else name

/-- The name and the kind, for diagnostics. -/
def inspect (symbol : Symbol) : String :=
  "Symbol[" ++ Text.quoted symbol.letter.toList ++ ", "
    ++ (if symbol.isTerminal then "terminal" else "non-terminal") ++ "]"

end Symbol

/-- A string of symbols: one alternative of a production, or a sentential form. -/
abbrev Form := List Symbol

/-- The sign for the empty form. -/
def epsilon : Char := 'ε'

namespace Form

/-- The form of a word: each character as a terminal. -/
def ofWord (word : List Char) : Form := word.map fun c => .terminal (some c)

/-- The nonterminals of a form, left to right, with repetitions. -/
def nonterminals (form : Form) : List Symbol := form.filter fun symbol => !symbol.isTerminal

/-- Put another form in place of the last occurrence of a symbol. There is no result if the
symbol does not occur. -/
def replaceLast? (form : Form) (symbol : Symbol) (replacement : Form) : Option Form :=
  match form with
  | [] => none
  | head :: rest =>
    match replaceLast? rest symbol replacement with
    | some replaced => some (head :: replaced)
    | none => if head = symbol then some (replacement ++ rest) else none

theorem replaceLast?_eq_none_iff {form : Form} {symbol : Symbol} {replacement : Form} :
    form.replaceLast? symbol replacement = none ↔ symbol ∉ form := by
  induction form with
  | nil => simp [replaceLast?]
  | cons head rest ih =>
    rw [replaceLast?]
    cases hRest : replaceLast? rest symbol replacement with
    | none =>
      have hAbsent := ih.mp hRest
      by_cases hHead : head = symbol
      · simp [hHead]
      · simp [hHead, Ne.symm hHead, hAbsent]
    | some replaced =>
      have hPresent : symbol ∈ rest := by
        apply Classical.byContradiction
        intro hAbsent
        rw [ih.mpr hAbsent] at hRest
        exact absurd hRest (by simp)
      simp [hPresent]

/-- The replaced occurrence is the last one: the symbol does not occur after it. -/
theorem exists_of_replaceLast?_eq_some {form : Form} {symbol : Symbol} {replacement result : Form}
    (hReplace : form.replaceLast? symbol replacement = some result) :
    ∃ before after : Form, form = before ++ symbol :: after ∧ symbol ∉ after ∧
      result = before ++ replacement ++ after := by
  induction form generalizing result with
  | nil => simp [replaceLast?] at hReplace
  | cons head rest ih =>
    rw [replaceLast?] at hReplace
    cases hRest : replaceLast? rest symbol replacement with
    | none =>
      rw [hRest] at hReplace
      by_cases hHead : head = symbol
      · subst hHead
        refine ⟨[], rest, rfl, replaceLast?_eq_none_iff.mp hRest, ?_⟩
        simpa using hReplace.symm
      · simp [hHead] at hReplace
    | some replaced =>
      rw [hRest] at hReplace
      obtain ⟨before, after, rfl, hAfter, rfl⟩ := ih hRest
      refine ⟨head :: before, after, rfl, hAfter, ?_⟩
      simpa using hReplace.symm

theorem replaceLast?_append_cons (left : Form) {right : Form} {symbol : Symbol}
    (hLast : symbol ∉ right) (replacement : Form) :
    replaceLast? (left ++ symbol :: right) symbol replacement =
      some (left ++ replacement ++ right) := by
  induction left with
  | nil =>
    rw [List.nil_append, replaceLast?, replaceLast?_eq_none_iff.mpr hLast]
    simp
  | cons head left ih =>
    rw [List.cons_append, replaceLast?, ih]
    rfl

/-- The displays of the symbols side by side, or a sign of its own for the empty form. -/
def format (style : Style) (form : Form) : String :=
  if form.isEmpty then String.singleton epsilon
  else String.join (form.map (Symbol.format style))

/-- The symbols with name and kind, for diagnostics. -/
def inspect (form : Form) : String :=
  "Alternative[" ++ " ".intercalate (form.map Symbol.inspect) ++ "]"

end Form

end Earley
