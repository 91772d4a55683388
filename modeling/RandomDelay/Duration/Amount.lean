import RandomDelay.Duration
import RandomDelay.Number
import RandomDelay.TimeUnit

/-!
# Durations from amounts of a unit

A whole amount of a unit is exact. An amount in binary64 is taken apart at the point: its integer
part gives whole units exactly, and only its fraction is multiplied by the unit in binary64. The
total is then rounded once to a whole number of microseconds, with ties to the even one.
-/

set_option autoImplicit false

namespace RandomDelay.Duration

/-- Whole microseconds in a binary64 amount of a unit. -/
def microsOfBinary64 (unit : TimeUnit) (amount : Binary64) : Except ArithmeticError Int := do
  let whole ← amount.truncate
  let part := (Binary64.ofInt unit.micros).mul amount.fraction
  -- the two terms are added exactly, in units of binary64
  return Rounding.halfEvenInt (whole * unit.micros * Binary64.unitsPerOne + part.units)
    Binary64.unitsPerOne

/-- Whole microseconds in an amount of a unit. -/
def microsOf (unit : TimeUnit) : Number → Except ArithmeticError Int
  | .whole n => .ok (n * unit.micros)
  | .float x => microsOfBinary64 unit x

/-- Duration of a number of microseconds; outside the range it overflows. -/
def ofMicros (micros : Int) : Except ArithmeticError Duration :=
  match ofMicros? micros with
  | some d => .ok d
  | none => .error .overflow

/-- Duration of an amount of a unit. -/
def ofAmount (unit : TimeUnit) (amount : Number) : Except ArithmeticError Duration := do
  ofMicros (← microsOf unit amount)

/-- Duration of a number of seconds. -/
def ofSeconds (seconds : Number) : Except ArithmeticError Duration := ofAmount .second seconds

end RandomDelay.Duration
