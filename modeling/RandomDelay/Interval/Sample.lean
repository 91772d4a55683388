import RandomDelay.Instant
import RandomDelay.Interval
import RandomDelay.Source

/-!
# Samples of an interval

The sample of an interval for a drawn number `r` lies `r` of the width above the lower bound: the
product in binary64 is cut to whole microseconds and kept below the width, so the upper bound is
never drawn from `[0, 1)`. An interval without width has its lower bound as only sample and draws
nothing. A sample is added to a duration, to an instant, or to a clock reading in seconds.
-/

set_option autoImplicit false

namespace RandomDelay.Interval

/-- Microseconds above the lower bound for a drawn number. -/
def offset (i : Interval) (r : Binary64) : Except ArithmeticError Int := do
  let product ← ((Binary64.ofInt i.span.micros).mul r).truncate
  -- the product of a draw just below one may be rounded up to the span
  return min product (i.span.micros - 1)

/-- Sample for a drawn number. -/
def sampleAt (i : Interval) (r : Binary64) : Except ArithmeticError Duration := do
  let above ← Duration.ofMicros (← i.offset r)
  return i.lower.saturatingAdd above

/-- Sample drawn from a source. -/
def sample (i : Interval) (source : Source) : Drawn Duration :=
  if i.span.micros = 0 then (.ok i.lower, source)
  else
    let (r, source) := source.next
    ((i.sampleAt r).mapError .arithmetic, source)

/-- Duration lengthened by a sample. -/
def delayed (i : Interval) (d : Duration) (source : Source) : Drawn Duration :=
  (i.sample source).map (·.saturatingAdd d)

/-- Instant put off by a sample. -/
def deferred (i : Interval) (t : Instant) (source : Source) : Drawn Instant :=
  (i.sample source).map t.saturatingAdd

/-- Sum of a clock reading and a duration in binary64 seconds. -/
def reading (clock : Number) (d : Duration) : Except ArithmeticError Binary64 := do
  return (← clock.toBinary64).add d.seconds

/-- Clock reading in seconds put off by a sample. -/
def advanced (i : Interval) (clock : Number) (source : Source) : Drawn Binary64 :=
  (i.sample source).andThen fun d => (reading clock d).mapError .arithmetic

theorem sample_of_span_zero {i : Interval} (h : i.span.micros = 0) (source : Source) :
    i.sample source = (.ok i.lower, source) := if_pos h

theorem sample_of_span_pos {i : Interval} (h : 0 < i.span.micros) (source : Source) :
    i.sample source = ((i.sampleAt source.next.1).mapError .arithmetic, source.next.2) :=
  if_neg (Int.ne_of_gt h)

end RandomDelay.Interval
