import RandomDelay.Calendar
import RandomDelay.Duration

/-!
# Instants

An instant is a date and a time of day on a wall clock, with the clock's offset from universal time
if it is known, and a mark for the second of two passages of the same clock time. Its position is
the number of microseconds since the first midnight of year 1 on that clock, and durations are added
to the position (`saturatingAdd`): the offset is kept, the mark is not, and a position before the
first or after the last year gives the latest instant.
-/

set_option autoImplicit false

namespace RandomDelay

/-- Hours, minutes, seconds and microseconds that are a time of day. -/
def TimeOfDay.Valid (hour minute second micro : Nat) : Prop :=
  hour < 24 ∧ minute < 60 ∧ second < 60 ∧ micro < 1000000

instance (hour minute second micro : Nat) : Decidable (TimeOfDay.Valid hour minute second micro) :=
  inferInstanceAs (Decidable (_ ∧ _))

/-- A time of day. -/
structure TimeOfDay where
  hour : Nat
  minute : Nat
  second : Nat
  micro : Nat
  valid : TimeOfDay.Valid hour minute second micro
deriving DecidableEq

namespace TimeOfDay

/-- Microseconds since midnight. -/
def position (t : TimeOfDay) : Nat :=
  ((t.hour * 60 + t.minute) * 60 + t.second) * 1000000 + t.micro

/-- Time of day at a number of microseconds after midnight, less than a day. -/
def ofPosition (n : Nat) (h : n < Duration.microsPerDay) : TimeOfDay where
  hour := n / 3600000000
  minute := n / 60000000 % 60
  second := n / 1000000 % 60
  micro := n % 1000000
  valid := by
    unfold Duration.microsPerDay at h
    unfold Valid
    omega

theorem position_lt (t : TimeOfDay) : t.position < Duration.microsPerDay := by
  obtain ⟨hour, minute, second, micro, hhour, hminute, hsecond, hmicro⟩ := t
  simp only [position, Duration.microsPerDay]
  omega

theorem position_ofPosition (n : Nat) (h : n < Duration.microsPerDay) :
    (ofPosition n h).position = n := by
  simp only [position, ofPosition]
  omega

theorem ofPosition_position (t : TimeOfDay) : ofPosition t.position t.position_lt = t := by
  obtain ⟨hour, minute, second, micro, h⟩ := t
  obtain ⟨hhour, hminute, hsecond, hmicro⟩ := id h
  simp only [ofPosition, position, mk.injEq]
  omega

end TimeOfDay

/-- A point in time on a wall clock. `offset` is the clock's distance from universal time, and
`repeated` marks the second passage of a clock time that comes twice. -/
structure Instant where
  date : Date
  time : TimeOfDay
  offset : Option Duration
  repeated : Bool
deriving DecidableEq

namespace Instant

/-- Microseconds on the wall clock since the first midnight of year 1. -/
def position (t : Instant) : Nat := t.date.dayNumber * Duration.microsPerDay + t.time.position

/-- First passage of the instant at a position, on a clock with the given offset. -/
def ofPosition? (offset : Option Duration) (position : Int) : Option Instant :=
  if position < 0 then none
  else
    let n := position.toNat
    (Date.ofDayNumber? (n / Duration.microsPerDay)).map fun date =>
      { date, time := .ofPosition (n % Duration.microsPerDay) (Nat.mod_lt n (by decide)), offset,
        repeated := false }

/-- Last microsecond of year 9999. -/
def latest (offset : Option Duration) : Instant where
  date := ⟨9999, 12, 31, by decide⟩
  time := ⟨23, 59, 59, 999999, by decide⟩
  offset := offset
  repeated := false

/-- Instant a duration later, if there is one. -/
def add? (t : Instant) (d : Duration) : Option Instant :=
  ofPosition? t.offset (t.position + d.micros)

/-- Instant a duration later, or the latest instant if there is none. -/
def saturatingAdd (t : Instant) (d : Duration) : Instant := (t.add? d).getD (latest t.offset)

/-- The position of an instant leads back to its first passage. -/
theorem ofPosition?_position (t : Instant) :
    ofPosition? t.offset t.position = some { t with repeated := false } := by
  have hday : 0 < Duration.microsPerDay := by decide
  have htime := t.time.position_lt
  have hdiv : t.position / Duration.microsPerDay = t.date.dayNumber := by
    rw [position, Nat.mul_comm, Nat.mul_add_div hday, Nat.div_eq_of_lt htime, Nat.add_zero]
  have hmod : t.position % Duration.microsPerDay = t.time.position := by
    rw [position, Nat.mul_comm, Nat.mul_add_mod, Nat.mod_eq_of_lt htime]
  have hneg : ¬ (t.position : Int) < 0 := by omega
  simp only [ofPosition?, hneg, if_false, Int.toNat_natCast, hdiv, hmod,
    Date.ofDayNumber?_dayNumber, Option.map_some, TimeOfDay.ofPosition_position]

end Instant

end RandomDelay
