import RandomDelay.Binary64.FixedPlaces

/-!
# Durations

A duration is a whole number of microseconds, of either sign, of less than a thousand million days.
`saturatingAdd` gives the longest duration in place of a sum that is no duration, on either side of
the range, so that a sum never fails.

A duration has two texts. `secondsText` gives seconds with six decimal places, from the binary64
number nearest to the seconds. `clockText` gives whole days, if there are any, and the time of day
that is left over; since that time is never negative, the days of a negative duration are rounded
down.
-/

set_option autoImplicit false

namespace RandomDelay

/-- Numbers of microseconds that are a duration. -/
def Duration.Representable (micros : Int) : Prop :=
  -86399999913600000000 ≤ micros ∧ micros ≤ 86399999999999999999

instance (micros : Int) : Decidable (Duration.Representable micros) :=
  inferInstanceAs (Decidable (_ ∧ _))

/-- A length of time in microseconds. -/
structure Duration where
  micros : Int
  representable : Duration.Representable micros
deriving DecidableEq

namespace Duration

instance : LE Duration := ⟨fun a b => a.micros ≤ b.micros⟩

instance : LT Duration := ⟨fun a b => a.micros < b.micros⟩

instance (a b : Duration) : Decidable (a ≤ b) := inferInstanceAs (Decidable (a.micros ≤ b.micros))

instance (a b : Duration) : Decidable (a < b) := inferInstanceAs (Decidable (a.micros < b.micros))

/-- The duration of a number of microseconds, if there is one. -/
def ofMicros? (micros : Int) : Option Duration :=
  if h : Representable micros then some ⟨micros, h⟩ else none

/-- No time at all. -/
def zero : Duration := ⟨0, by decide⟩

/-- The longest duration. -/
def longest : Duration := ⟨86399999999999999999, by decide⟩

/-- Microseconds in a second. -/
def microsPerSecond : Nat := 1000000

/-- Microseconds in a day. -/
def microsPerDay : Nat := 86400000000

/-- One second. -/
def second : Duration := ⟨1000000, by decide⟩

/-- Sum of two durations, if it is one. -/
def add? (a b : Duration) : Option Duration := ofMicros? (a.micros + b.micros)

/-- Sum of two durations, or the longest duration if the sum is none. -/
def saturatingAdd (a b : Duration) : Duration := (a.add? b).getD longest

/-- Quotient by a count, to the nearest microsecond with ties to the even one. -/
def dividedBy (d : Duration) (count : Nat) : Duration :=
  ⟨Rounding.halfEvenInt d.micros count, by
    have hd := d.representable
    have := Rounding.halfEven_le_self d.micros.natAbs count
    unfold Representable Rounding.halfEvenInt at *
    split <;> omega⟩

/-- Seconds, as the nearest binary64 number. -/
def seconds (d : Duration) : Binary64 :=
  Binary64.nearest (d.micros < 0) d.micros.natAbs microsPerSecond

/-- Text in seconds with six decimal places and the letter `s`. -/
def secondsText (d : Duration) : List Char := d.seconds.fixedPlaces 6 ++ ['s']

/-- Text of whole days with the word for them, nothing if there are none. -/
def daysText (days : Int) : List Char :=
  if days = 0 then []
  else Text.signed days ++ (if days.natAbs = 1 then " day, " else " days, ").toList

/-- Text of a time of day: hours, minutes and seconds, and six places of microseconds if there are
any. -/
def timeText (micros : Nat) : List Char :=
  let seconds := micros / microsPerSecond
  let part := micros % microsPerSecond
  Text.plain (seconds / 3600) ++ ':' :: Text.padded 2 (seconds / 60 % 60) ++
    ':' :: Text.padded 2 (seconds % 60) ++ (if part = 0 then [] else '.' :: Text.padded 6 part)

/-- Text in days and the time of day. -/
def clockText (d : Duration) : List Char :=
  daysText (d.micros / microsPerDay) ++ timeText (d.micros % microsPerDay).toNat

theorem ofMicros?_of_representable {micros : Int} (h : Representable micros) :
    ofMicros? micros = some ⟨micros, h⟩ := dif_pos h

/-- A sum in the range is exact, any other is the longest duration. -/
theorem micros_saturatingAdd (a b : Duration) :
    (a.saturatingAdd b).micros =
      if Representable (a.micros + b.micros) then a.micros + b.micros else longest.micros := by
  unfold saturatingAdd add? ofMicros?
  split <;> rfl

end Duration

end RandomDelay
