import RandomDelay.Interval.Sample

/-!
# Delays spread around a nominal one

A nominal delay in seconds is spread by a width to both sides, but never below a least delay. The
bounds of the spread are numbers of seconds, and the jitter above the lower one is a sample of the
interval that is as wide as their difference. A negative nominal delay counts as zero.
-/

set_option autoImplicit false

namespace RandomDelay

/-- Seconds of the width unless told otherwise. -/
def Spread.defaultWidth : Int := 2

/-- A nominal delay, the width of the spread to each side, and the least delay, all in seconds. -/
structure Spread where
  delay : Number := .whole 0
  width : Number := .whole Spread.defaultWidth
  minimum : Number := .whole 0
deriving DecidableEq

namespace Spread

/-- Nominal delay, zero if it is not positive. -/
def nominal (s : Spread) : Number := (Number.whole 0).larger s.delay

/-- Least and greatest bound of the spread. -/
def bounds (s : Spread) : Except ArithmeticError (Number × Number) := do
  -- the least delay is applied after the width is taken off, but before it is added
  let lower := s.minimum.larger (← s.nominal.sub s.width)
  let upper ← (s.minimum.larger s.nominal).add s.width
  return (lower, upper)

/-- Lower bound of the spread, and the interval of the jitter above it. -/
def interval (s : Spread) : Except Failure (Number × Interval) := do
  if !(Number.whole 0).lt s.width then throw (.nonpositiveWidth s.width)
  if !(Number.whole 0).le s.minimum then throw (.negativeMinimum s.minimum)
  let (lower, upper) ← s.bounds.mapError .arithmetic
  let span ← (upper.sub lower).mapError .arithmetic
  return (lower, ← Interval.ofSeconds (.whole 0) span)

/-- Delay in seconds drawn from a source. -/
def draw (s : Spread) (source : Source) : Drawn Binary64 :=
  match s.interval with
  | .error failure => (.error failure, source)
  | .ok (lower, interval) => interval.advanced lower source

end Spread

end RandomDelay
