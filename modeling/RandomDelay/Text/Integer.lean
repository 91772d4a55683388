import RandomDelay.Text.Blank
import RandomDelay.Text.DecimalDigit

/-!
# Written integers

An integer is written with an optional sign and decimal digits of any script. A single underscore
may stand between two digits, and padding around the whole. More than `digitLimit` digits are
refused.
-/

set_option autoImplicit false

namespace RandomDelay.Text

/-- Most digits of a written integer, leading zeros counted. -/
def digitLimit : Nat := 4300

/-- Blank characters except the four separators of files, groups, records and units. -/
def isPadding (c : Char) : Bool := isBlank c && !(0x1c ≤ c.toNat && c.toNat ≤ 0x1f)

/-- Text without padding on both sides. -/
def unpadded (text : List Char) : List Char :=
  ((text.dropWhile isPadding).reverse.dropWhile isPadding).reverse

/-- Digits of a row in which single underscores may stand between digits. -/
def ungrouped? : List Char → Option (List Char)
  | [] => none
  | [c] => if isDecimalDigit c then some [c] else none
  | c :: '_' :: rest => if isDecimalDigit c then (ungrouped? rest).map (c :: ·) else none
  | c :: d :: rest => if isDecimalDigit c then (ungrouped? (d :: rest)).map (c :: ·) else none

/-- Number of a row of digits that is not too long. -/
def natural? (text : List Char) : Option Nat := do
  let digits ← ungrouped? text
  if digits.length ≤ digitLimit then some (number digits) else none

/-- Integer of a text. -/
def integer? (text : List Char) : Option Int :=
  match unpadded text with
  | '-' :: rest => (natural? rest).map fun n => -(n : Int)
  | '+' :: rest => (natural? rest).map Int.ofNat
  | rest => (natural? rest).map Int.ofNat

end RandomDelay.Text
