/-!
# Units of time

The units in which durations are written, with their symbols. Every unit is a whole number of
microseconds. No two units share a symbol (`ofSymbol?_symbol`).
-/

set_option autoImplicit false

namespace RandomDelay

/-- A unit of time. -/
inductive TimeUnit where
  | microsecond
  | millisecond
  | second
  | minute
  | hour
deriving DecidableEq

namespace TimeUnit

/-- Length of a unit in microseconds. -/
def micros : TimeUnit → Nat
  | .microsecond => 1
  | .millisecond => 1000
  | .second => 1000000
  | .minute => 60000000
  | .hour => 3600000000

/-- Symbol of a unit. -/
def symbol : TimeUnit → List Char
  | .microsecond => ['u', 's']
  | .millisecond => ['m', 's']
  | .second => ['s']
  | .minute => ['m']
  | .hour => ['h']

/-- Unit with the given symbol. -/
def ofSymbol? : List Char → Option TimeUnit
  | ['u', 's'] => some .microsecond
  | ['m', 's'] => some .millisecond
  | ['s'] => some .second
  | ['m'] => some .minute
  | ['h'] => some .hour
  | _ => none

theorem ofSymbol?_symbol (unit : TimeUnit) : ofSymbol? unit.symbol = some unit := by
  cases unit <;> rfl

end TimeUnit

end RandomDelay
