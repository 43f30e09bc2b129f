/-! Blank characters. They may surround the parts of a row without changing what the row says. -/
namespace Earley.Text

/-- Whether a character lies in one of the given closed ranges of code points. -/
def inRanges (ranges : List (Nat × Nat)) (c : Char) : Bool :=
  ranges.any fun range => range.1 ≤ c.toNat && c.toNat ≤ range.2

/-- Tabulators, line breaks, the four information separators, and the spaces of every width.
Zero width characters are not blank. -/
def blankRanges : List (Nat × Nat) :=
  [(0x09, 0x0D), (0x1C, 0x20), (0x85, 0x85), (0xA0, 0xA0), (0x1680, 0x1680), (0x2000, 0x200A),
    (0x2028, 0x2029), (0x202F, 0x202F), (0x205F, 0x205F), (0x3000, 0x3000)]

/-- Whether a character may be left out between the parts of a row. -/
def isBlank (c : Char) : Bool := inRanges blankRanges c

/-- Drop the blanks in front. -/
def trimLeft (text : List Char) : List Char := text.dropWhile isBlank

/-- Drop the blanks at both ends, and none in between. -/
def trim (text : List Char) : List Char := (trimLeft (trimLeft text).reverse).reverse

/-- Drop every blank, also those between other characters. -/
def removeBlanks (text : List Char) : List Char := text.filter fun c => !isBlank c

end Earley.Text
