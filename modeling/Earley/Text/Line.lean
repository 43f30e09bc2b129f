import Earley.Text.Blank

/-! Lines of a text. Every kind of line break ends a line; the break itself is kept beside the
line, so that the lines of a text concatenate to it. -/
namespace Earley.Text

/-- Whether a character ends a line. A carriage return and the newline after it end one line. -/
def isLineBreak (c : Char) : Bool :=
  inRanges [(0x0A, 0x0D), (0x1C, 0x1E), (0x85, 0x85), (0x2028, 0x2029)] c

/-- A line without its break, and the break. The break is empty only where the text ends. -/
structure Line where
  content : List Char
  ending : List Char
deriving DecidableEq

/-- The number of characters a line takes up in its text, its break included. -/
def Line.width (line : Line) : Nat := line.content.length + line.ending.length

/-- Put a character that is no line break in front of the first line. -/
def Line.extend (c : Char) : List Line → List Line
  | [] => [⟨[c], []⟩]
  | line :: rest => { line with content := c :: line.content } :: rest

/-- Cut a text into its lines. A final break is followed by no further, empty line. -/
def Line.ofText : List Char → List Line
  | [] => []
  | '\r' :: '\n' :: rest => ⟨[], ['\r', '\n']⟩ :: Line.ofText rest
  | c :: rest =>
    if isLineBreak c then ⟨[], [c]⟩ :: Line.ofText rest
    else Line.extend c (Line.ofText rest)

/-- The text that lines were cut from. -/
def Line.toText (lines : List Line) : List Char :=
  lines.flatMap fun line => line.content ++ line.ending

theorem Line.toText_extend (c : Char) (lines : List Line) :
    Line.toText (Line.extend c lines) = c :: Line.toText lines := by
  cases lines <;> simp [Line.extend, Line.toText]

/-- Nothing is lost when a text is cut into lines. -/
theorem Line.toText_ofText (text : List Char) : Line.toText (Line.ofText text) = text := by
  fun_induction Line.ofText text with
  | case1 => rfl
  | case2 rest ih => simpa [Line.toText] using ih
  | case3 c rest _ hBreak ih => simpa [Line.toText] using ih
  | case4 c rest _ hBreak ih => rw [Line.toText_extend, ih]

/-- Turn each carriage return, together with a newline that follows it, into one newline. -/
def unifyNewlines : List Char → List Char
  | [] => []
  | '\r' :: '\n' :: rest => '\n' :: unifyNewlines rest
  | '\r' :: rest => '\n' :: unifyNewlines rest
  | c :: rest => c :: unifyNewlines rest

end Earley.Text
