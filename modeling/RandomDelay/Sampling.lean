import RandomDelay.Interval.Sample
import RandomDelay.Text.Table
import RandomDelay.Transcript

/-!
# The sampling tool

Draws a number of samples of an interval and prints them, one to a line, or prints a table with
their count, least, greatest and mean in their place. The samples come from a generator of their
own. The count is checked before the interval, and the mean needs the exact sum of the samples,
which can be too long for a duration.
-/

set_option autoImplicit false

namespace RandomDelay

/-- What to sample: the interval, the number of samples, the seed, and whether to summarize. -/
structure Sampling where
  lower : Duration := .zero
  span : Duration := .second
  count : Int := 10
  seed : Option Int := none
  summarize : Bool := false
deriving DecidableEq

namespace Sampling

/-- Number of samples unless told otherwise. -/
def defaultCount : Int := ({} : Sampling).count

/-- Sum of durations, added up from the first. -/
def total (samples : List Duration) : Except ArithmeticError Duration :=
  samples.foldlM (fun sum sample => Duration.ofMicros (sum.micros + sample.micros)) .zero

/-- Interval and samples. `fallback` is the seed where none was given. -/
def samples (s : Sampling) (fallback : Int) : Except Failure (Interval × List Duration) :=
  if s.count ≤ 0 then .error (.nonpositiveCount s.count)
  else do
    let interval ← Interval.ofBounds s.lower s.span
    let source := Source.ofSeed (s.seed.getD fallback)
    let samples ← (Drawn.repeated interval.sample s.count.toNat source).1
    return (interval, samples)

/-- Row of a summary. The least and the greatest sample are the ends of the samples in order. -/
def summary (interval : Interval) (samples : List Duration) :
    Except ArithmeticError (List (List Char)) := do
  let ordered := samples.mergeSort
  let sum ← total samples
  return [interval.text, Text.grouped samples.length, (ordered.head?.getD .zero).secondsText,
    (ordered.getLast?.getD .zero).secondsText, (sum.dividedBy samples.length).secondsText]

/-- Headings of a summary. -/
def headings : List (List Char) :=
  ["INTERVAL".toList, "COUNT".toList, "MIN".toList, "MAX".toList, "MEAN".toList]

/-- Lines to print. -/
def lines (s : Sampling) (fallback : Int) : Except Failure (List (List Char)) := do
  let (interval, samples) ← s.samples fallback
  if s.summarize then
    let row ← (summary interval samples).mapError .arithmetic
    return Text.table [headings, row]
  else return samples.map Duration.secondsText

/-- Run of the tool. -/
def run (s : Sampling) (fallback : Int) : Transcript :=
  match s.lines fallback with
  | .ok lines => { printed := lines }
  | .error failure => .stopped (.failure failure)

end Sampling

end RandomDelay
