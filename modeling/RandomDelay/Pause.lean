import RandomDelay.Interval.Sample
import RandomDelay.Transcript

/-!
# The pausing tool

Sleeps once, for a delay lengthened by a sample of an interval, and reports that it does. The sample
comes from a generator of its own. A sleep is the number of seconds that is asked for, and is taken
to come to its end.
-/

set_option autoImplicit false

namespace RandomDelay

/-- What to wait for: the nominal delay, the interval of the jitter, and the seed. -/
structure Pause where
  delay : Duration := .zero
  lower : Duration := .zero
  span : Duration := .second
  seed : Option Int := none
deriving DecidableEq

namespace Pause

/-- Interval of the jitter and the whole time to wait. `fallback` is the seed where none was
given. -/
def wait (p : Pause) (fallback : Int) : Except Failure (Interval × Duration) := do
  let interval ← Interval.ofBounds p.lower p.span
  let wait ← (interval.delayed p.delay (Source.ofSeed (p.seed.getD fallback))).1
  return (interval, wait)

/-- Report of a sleep. -/
def announcement (p : Pause) (interval : Interval) (wait : Duration) : Record where
  channel := .pause
  message := String.ofList ("Sleeping for ".toList ++ wait.secondsText ++ " (delay ".toList ++
    p.delay.clockText ++ " with jitter ".toList ++ interval.text ++ [')'])

/-- Run of the tool. -/
def run (p : Pause) (fallback : Int) : Transcript :=
  match p.wait fallback with
  | .ok (interval, wait) => { records := [p.announcement interval wait], slept := [wait.seconds] }
  | .error failure => .stopped (.failure failure)

end Pause

end RandomDelay
