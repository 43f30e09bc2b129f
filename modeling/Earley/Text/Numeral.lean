import Earley.Text.Blank

/-! Decimal numerals: numbers in a column of fixed width, and integers as a person types them. -/
namespace Earley.Text

/-- A number in decimal, filled up with zeros to at least the given width. -/
def zeroPadded (width n : Nat) : List Char :=
  let digits := Nat.toDigits 10 n
  List.replicate (width - digits.length) '0' ++ digits

/-- The code points of the digits zero. The nine code points after each are the digits one to
nine of the same script or style. -/
def digitZeros : List Nat :=
  [0x30, 0x660, 0x6F0, 0x7C0, 0x966, 0x9E6, 0xA66, 0xAE6, 0xB66, 0xBE6, 0xC66, 0xCE6, 0xD66, 0xDE6,
    0xE50, 0xED0, 0xF20, 0x1040, 0x1090, 0x17E0, 0x1810, 0x1946, 0x19D0, 0x1A80, 0x1A90, 0x1B50,
    0x1BB0, 0x1C40, 0x1C50, 0xA620, 0xA8D0, 0xA900, 0xA9D0, 0xA9F0, 0xAA50, 0xABF0, 0xFF10,
    0x104A0, 0x10D30, 0x11066, 0x110F0, 0x11136, 0x111D0, 0x112F0, 0x11450, 0x114D0, 0x11650,
    0x116C0, 0x11730, 0x118E0, 0x11950, 0x11C50, 0x11D50, 0x11DA0, 0x16A60, 0x16AC0, 0x16B50,
    0x1D7CE, 0x1D7D8, 0x1D7E2, 0x1D7EC, 0x1D7F6, 0x1E140, 0x1E2F0, 0x1E950, 0x1FBF0]

/-- The value of a decimal digit of any script. -/
def digit? (c : Char) : Option Nat :=
  (digitZeros.find? fun z => z ≤ c.toNat && c.toNat < z + 10).map fun z =>
    c.toNat - z

/-- Read on after a digit. One underscore may stand between two digits. -/
def readDigits? (value : Nat) : List Char → Option Nat
  | [] => some value
  | '_' :: c :: rest => (digit? c).bind fun d => readDigits? (10 * value + d) rest
  | c :: rest => (digit? c).bind fun d => readDigits? (10 * value + d) rest

/-- The most digits a numeral may have, leading zeros counted. -/
def maxDigits : Nat := 4300

/-- Read an unsigned numeral. It starts and ends with a digit. -/
def readNatural? : List Char → Option Nat
  | [] => none
  | c :: rest =>
    if maxDigits < (c :: rest).countP fun d => (digit? d).isSome then none
    else (digit? c).bind fun d => readDigits? d rest

/-- Blanks allowed around an integer: all but the information separators. -/
def isIntegerBlank (c : Char) : Bool := isBlank c && !inRanges [(0x1C, 0x1F)] c

/-- Read an integer: blanks, at most one sign, a numeral, blanks. -/
def readInteger? (text : List Char) : Option Int :=
  match ((text.dropWhile isIntegerBlank).reverse.dropWhile isIntegerBlank).reverse with
  | '-' :: rest => (readNatural? rest).map fun n => -(n : Int)
  | '+' :: rest => (readNatural? rest).map fun n => (n : Int)
  | rest => (readNatural? rest).map fun n => (n : Int)

end Earley.Text
