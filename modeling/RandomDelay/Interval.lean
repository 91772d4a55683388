import RandomDelay.Duration.Amount
import RandomDelay.Failure

/-!
# Jitter intervals

An interval `[lower, lower + span)` of durations, from which the jitter of a delay is drawn. Neither
part is negative; the lower bound is checked first. The upper bound saturates at the longest
duration.
-/

set_option autoImplicit false

namespace RandomDelay

/-- An interval of durations, given by its lower bound and its width. -/
structure Interval where
  lower : Duration
  span : Duration
  lower_nonneg : 0 ≤ lower.micros
  span_nonneg : 0 ≤ span.micros
deriving DecidableEq

namespace Interval

/-- Interval with the given lower bound and width. -/
def ofBounds (lower span : Duration) : Except Failure Interval :=
  if hlower : 0 ≤ lower.micros then
    if hspan : 0 ≤ span.micros then .ok ⟨lower, span, hlower, hspan⟩
    else .error (.negativeSpan span)
  else .error (.negativeLower lower)

/-- Interval from zero up to a bound. -/
def upTo (bound : Duration) : Except Failure Interval := ofBounds .zero bound

/-- Interval with lower bound and width in seconds, converted in this order. -/
def ofSeconds (lower span : Number) : Except Failure Interval := do
  let lower ← (Duration.ofSeconds lower).mapError .arithmetic
  let span ← (Duration.ofSeconds span).mapError .arithmetic
  ofBounds lower span

/-- Interval without any jitter. -/
def noJitter : Interval := ⟨.zero, .zero, by decide, by decide⟩

/-- Upper bound, which does not belong to the interval. -/
def upper (i : Interval) : Duration := i.lower.saturatingAdd i.span

/-- Both bounds in the brackets of a half-open interval. -/
def text (i : Interval) : List Char :=
  '[' :: i.lower.clockText ++ ", ".toList ++ i.upper.clockText ++ [')']

theorem ofBounds_eq_ok {lower span : Duration} (hlower : 0 ≤ lower.micros)
    (hspan : 0 ≤ span.micros) : ofBounds lower span = .ok ⟨lower, span, hlower, hspan⟩ := by
  simp only [ofBounds, hlower, hspan, dif_pos]

theorem ofBounds_of_negativeLower {lower span : Duration} (h : lower.micros < 0) :
    ofBounds lower span = .error (.negativeLower lower) := dif_neg (Int.not_le.2 h)

/-- The width is looked at after the lower bound. -/
theorem ofBounds_of_negativeSpan {lower span : Duration} (hlower : 0 ≤ lower.micros)
    (h : span.micros < 0) : ofBounds lower span = .error (.negativeSpan span) := by
  rw [ofBounds, dif_pos hlower, dif_neg (Int.not_le.2 h)]

/-- Both numbers are converted before either bound is looked at. -/
theorem ofSeconds_of_ok {a b : Number} {lower span : Duration}
    (hlower : Duration.ofSeconds a = .ok lower)
    (hspan : Duration.ofSeconds b = .ok span) : ofSeconds a b = ofBounds lower span := by
  rw [ofSeconds, hlower, hspan]
  rfl

end Interval

end RandomDelay
