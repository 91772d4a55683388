import RandomDelay.Binary64
import RandomDelay.Text.Numeral

/-!
# Numbers to a fixed number of decimal places

`fixedPlaces` rounds the exact value of a binary64 number once, to a multiple of the last place with
ties to the even one, and writes all the places. A negative number keeps its sign where it rounds to
zero.
-/

set_option autoImplicit false

namespace RandomDelay.Binary64

/-- Text of the numbers that have no digits. -/
def wordText? : Binary64 → Option (List Char)
  | .nan => some "nan".toList
  | .infinity negative => some (Text.minus negative ++ "inf".toList)
  | .finite _ _ _ _ => none

/-- Whole number of units of the last of `places` decimal places, rounded from the exact
magnitude. -/
def lastPlaces (places : Nat) (x : Binary64) : Nat :=
  Rounding.halfEven (x.magnitude * Nat.pow 10 places) unitsPerOne

/-- Decimal text with exactly `places` digits after the point. -/
def fixedPlaces (places : Nat) (x : Binary64) : List Char :=
  x.wordText?.getD <|
    let scaled := x.lastPlaces places
    Text.minus x.isNegative ++ Text.plain (scaled / Nat.pow 10 places) ++ '.' ::
      Text.padded places (scaled % Nat.pow 10 places)

end RandomDelay.Binary64
