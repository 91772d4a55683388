import RandomDelay.Duration
import RandomDelay.Number

/-!
# Failures

Everything that can be wrong with a request, as the cause and the value that was refused.
`Failure.message?` gives the wording, for the causes that have one.
-/

set_option autoImplicit false

namespace RandomDelay

/-- Cause of a failed request. -/
inductive Failure where
  /-- A number that is too large, or is none. -/
  | arithmetic (error : ArithmeticError)
  /-- An interval that begins before zero. -/
  | negativeLower (lower : Duration)
  /-- An interval that ends before it begins. -/
  | negativeSpan (span : Duration)
  /-- A spread around a delay that is not positive. -/
  | nonpositiveWidth (width : Number)
  /-- A least delay that is not zero or more. -/
  | negativeMinimum (minimum : Number)
  /-- A number of samples that is not positive. -/
  | nonpositiveCount (count : Int)
  /-- A cycle without values. -/
  | noValues
  /-- A text that is no written duration. -/
  | malformedDuration (text : String)
  /-- A name that no logging level has. -/
  | unknownLevel (name : String)
  /-- An assignment to a part of an interval. -/
  | readOnly
  /-- A setting that was left blank. -/
  | blankSetting
deriving DecidableEq

namespace Failure

/-- Wording of a failure. Failures of arithmetic, of level names, of assignments and of blank
settings are told by their kind alone. -/
def message? : Failure → Option String
  | .negativeLower lower => some ("Minimum jitter must be >= 0: " ++ String.ofList lower.clockText)
  | .negativeSpan span => some ("Jitter span must be >= 0: " ++ String.ofList span.clockText)
  | .nonpositiveWidth width => some ("Width must be > 0: " ++ String.ofList width.text)
  | .negativeMinimum minimum => some ("Minima must be >= 0: " ++ String.ofList minimum.text)
  | .nonpositiveCount count => some ("Count must be > 0: " ++ String.ofList (Text.signed count))
  | .noValues => some "No values given"
  | .malformedDuration text => some ("Could not parse duration: '" ++ text ++ "'")
  | .arithmetic _ | .unknownLevel _ | .readOnly | .blankSetting => none

end Failure

end RandomDelay
