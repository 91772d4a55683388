import RandomDelay.Binary64.FixedPlaces

/-!
# Shortest decimal text of a number

The text of a binary64 number has the fewest significant digits that read back as the number, and of
several such numerals the one nearest to it. A finite number is a whole multiple of `10 ^ -1074`, so
the search is exact: for one digit, two digits and so on it tries the two multiples of the last
digit's place on both sides of the number (`shortest?`). Seventeen digits are enough for every
number.

The text is positional from `0.0001` up to but not including `10 ^ 16`, with at least one digit on
both sides of the point. Outside that range it has a digit, the others after a point if there are
any, and the power of ten after an `e`, with its sign and at least two digits.
-/

set_option autoImplicit false

namespace RandomDelay.Binary64

/-- A positive decimal number: `coefficient` units of the place `10 ^ exponent`. -/
structure Decimal where
  coefficient : Nat
  exponent : Int

/-- Magnitude in the last of the decimal places that write every finite number exactly, as many as
the unit has binary places: a unit is `5 ^ 1074` times `10 ^ -1074`. -/
def exactDigits (x : Binary64) : Nat := x.magnitude * Nat.pow 5 unitPlaces

/-- Whether the magnitude of `n` exact decimal places has `x` as its nearest number. -/
def readsBack (x : Binary64) (n : Nat) : Bool :=
  nearest x.isNegative n (Nat.pow 10 unitPlaces) == x

/-- Numeral that reads back as `x` and is a multiple of `10 ^ dropped` exact places: the nearer
neighbour if it does, else the farther one. -/
def onGrid? (x : Binary64) (dropped : Nat) : Option Decimal :=
  let exact := x.exactDigits
  let step := Nat.pow 10 dropped
  let nearer := Rounding.halfEven exact step
  let farther := if nearer = exact / step then nearer + 1 else exact / step
  let written (n : Nat) : Decimal := ⟨n, (dropped : Int) - unitPlaces⟩
  if x.readsBack (nearer * step) then some (written nearer)
  else if x.readsBack (farther * step) then some (written farther)
  else none

/-- Numeral with the fewest digits, at most `most`, that reads back as `x`. -/
def shortest? (x : Binary64) (most : Nat) : Option Decimal :=
  let length := (Text.plain x.exactDigits).length
  (List.range most).findSome? fun n => x.onGrid? (length - (n + 1))

/-- Layout of a decimal number: positional, or with a power of ten. -/
def Decimal.text (d : Decimal) : List Char :=
  let all := Text.plain d.coefficient
  let digits := (all.reverse.dropWhile (· == '0')).reverse
  let point := d.exponent + all.length
  if -4 < point ∧ point ≤ 16 then
    if point ≤ 0 then "0.".toList ++ List.replicate point.natAbs '0' ++ digits
    else
      let whole := digits.take point.natAbs
      let rest := digits.drop point.natAbs
      whole ++ List.replicate (point.natAbs - whole.length) '0' ++ '.' ::
        (if rest.isEmpty then ['0'] else rest)
  else
    let power := point - 1
    let rest := digits.drop 1
    digits.take 1 ++ (if rest.isEmpty then [] else '.' :: rest) ++ 'e' ::
      (if power < 0 then '-' else '+') :: Text.padded 2 power.natAbs

/-- Shortest text of a number that reads back. -/
def shortestText (x : Binary64) : List Char :=
  x.wordText?.getD <|
    if x.isZero then Text.minus x.isNegative ++ "0.0".toList
    else match x.shortest? 17 with
      | some d => Text.minus x.isNegative ++ d.text
      | none => x.fixedPlaces unitPlaces

end RandomDelay.Binary64
