/-!
# Written numerals

Natural numbers in decimal: `plain` without leading zeros, `padded` to a least width with them, and
`grouped` with a comma between groups of three digits. `signed` writes an integer with a minus sign
where it is negative. The value of a plain or padded numeral is the number again
(`value_plain`, `value_padded`).
-/

set_option autoImplicit false

namespace RandomDelay.Text

/-- Decimal digits without a leading zero, and `0` for zero. -/
def plain (n : Nat) : List Char := Nat.toDigits 10 n

/-- Decimal digits, with zeros before them up to the given width. -/
def padded (width n : Nat) : List Char :=
  List.replicate (width - (plain n).length) '0' ++ plain n

/-- Minus sign of a negative quantity. -/
def minus (negative : Bool) : List Char := if negative then ['-'] else []

/-- Integer in decimal. -/
def signed (n : Int) : List Char := minus (n < 0) ++ plain n.natAbs

/-- Groups of three digits with commas between them, of which the first one is not padded. -/
def groups (n : Nat) : List Char :=
  if n < 1000 then plain n else groups (n / 1000) ++ ',' :: padded 3 (n % 1000)

/-- Integer in decimal with a comma between groups of three digits. -/
def grouped (n : Int) : List Char := minus (n < 0) ++ groups n.natAbs

/-- Value of a row of decimal digits. -/
def value (digits : List Char) : Nat := Nat.ofDigitChars 10 digits 0

theorem value_plain (n : Nat) : value (plain n) = n :=
  Nat.ofDigitChars_toDigits (by decide) (by decide)

/-- Zeros in front do not count. -/
theorem value_zeros_append (k : Nat) (digits : List Char) :
    value (List.replicate k '0' ++ digits) = value digits := by
  induction k with
  | zero => rfl
  | succ k ih =>
    rw [List.replicate_succ, List.cons_append, ← ih]
    simp [value, Nat.ofDigitChars_eq_foldl]

theorem value_padded (width n : Nat) : value (padded width n) = n := by
  rw [padded, value_zeros_append, value_plain]

/-- A number of at most `width` digits is padded to exactly that width. -/
theorem length_padded {width n : Nat} (hw : 0 < width) (hn : n < Nat.pow 10 width) :
    (padded width n).length = width := by
  have : (plain n).length ≤ width := (Nat.length_toDigits_le_iff (by decide) hw).2 hn
  simp [padded]
  omega

end RandomDelay.Text
