/-!
# Calendar dates

Dates of the Gregorian calendar, extended to all the years 1 to 9999, and their numbers: the count
of days since the first day of year 1. `ofDayNumber?` finds the date with a given number. It
estimates the year from the mean length of a year, which is never off by more than one, and takes
the months off what is left.
-/

set_option autoImplicit false

namespace RandomDelay

namespace Calendar

/-- Leap years: every fourth, but of the full centuries only every fourth. -/
def isLeap (year : Nat) : Bool := year % 4 == 0 && (year % 100 != 0 || year % 400 == 0)

/-- Days in the twelve months. -/
def monthLengths (leap : Bool) : List Nat :=
  [31, if leap then 29 else 28, 31, 30, 31, 30, 31, 31, 30, 31, 30, 31]

/-- Days from the first day of year 1 to the first day of the given year. -/
def daysBeforeYear (year : Nat) : Nat :=
  let past := year - 1
  past * 365 + past / 4 - past / 100 + past / 400

/-- Total of the first `count` lengths. -/
def before : List Nat → Nat → Nat
  | length :: rest, count + 1 => length + before rest count
  | _, _ => 0

/-- Days from the first day of the year to the first day of the given month. -/
def daysBeforeMonth (leap : Bool) (month : Nat) : Nat :=
  before (monthLengths leap) (month - 1)

/-- Days in a month of a year. -/
def daysInMonth (year month : Nat) : Nat := (monthLengths (isLeap year))[month - 1]?.getD 0

/-- Years, months and days that are a date. -/
def ValidDate (year month day : Nat) : Prop :=
  1 ≤ year ∧ year ≤ 9999 ∧ 1 ≤ month ∧ month ≤ 12 ∧ 1 ≤ day ∧ day ≤ daysInMonth year month

instance (year month day : Nat) : Decidable (ValidDate year month day) :=
  inferInstanceAs (Decidable (_ ∧ _))

/-- Year that has the day with the given number. -/
def yearOf (n : Nat) : Nat :=
  let estimate := n * 400 / 146097 + 1
  if n < daysBeforeYear estimate then estimate - 1
  else if daysBeforeYear (estimate + 1) ≤ n then estimate + 1
  else estimate

/-- Number of whole stretches of the given lengths before position `n`, and the position in the
stretch after them. -/
def stretchOf : List Nat → Nat → Nat × Nat
  | [], n => (0, n)
  | length :: rest, n =>
    if n < length then (0, n)
    else
      let (index, left) := stretchOf rest (n - length)
      (index + 1, left)

/-- A position inside a stretch is found again from the stretches before it. -/
theorem stretchOf_before (lengths : List Nat) (index : Nat) (h : index < lengths.length)
    (left : Nat) (hleft : left < lengths[index]) :
    stretchOf lengths (before lengths index + left) = (index, left) := by
  induction lengths generalizing index with
  | nil => simp at h
  | cons length rest ih =>
    cases index with
    | zero => simp_all [stretchOf, before]
    | succ k =>
      have hk : k < rest.length := by simpa using h
      have hlength : ¬ (length + before rest k + left < length) := by omega
      have hrest : length + before rest k + left - length = before rest k + left := by omega
      simp only [before, stretchOf, hlength, if_false, hrest]
      rw [ih k hk (by simpa using hleft)]

/-- A position inside a stretch is before the end of the last one. -/
theorem before_add_lt (lengths : List Nat) (index : Nat) (h : index < lengths.length)
    (left : Nat) (hleft : left < lengths[index]) :
    before lengths index + left < before lengths lengths.length := by
  induction lengths generalizing index with
  | nil => simp at h
  | cons length rest ih =>
    cases index with
    | zero =>
      simp only [List.getElem_cons_zero] at hleft
      simp only [before, List.length_cons]
      omega
    | succ k =>
      have hrest := ih k (by simpa using h) (by simpa using hleft)
      simp only [before, List.length_cons]
      omega

/-- The twelve months are as long as the year. -/
theorem before_monthLengths (leap : Bool) :
    before (monthLengths leap) (monthLengths leap).length = if leap then 366 else 365 := by
  cases leap <;> rfl

/-- The year after begins as many days later as the year is long. -/
theorem daysBeforeYear_succ {year : Nat} (h : 1 ≤ year) :
    daysBeforeYear (year + 1) = daysBeforeYear year + if isLeap year then 366 else 365 := by
  obtain ⟨past, rfl⟩ : ∃ past, year = past + 1 := ⟨year - 1, by omega⟩
  have hle : past / 100 ≤ past / 4 := Nat.div_le_div_left (by decide) (by decide)
  have hfour : (past + 1) / 4 = past / 4 + if (past + 1) % 4 = 0 then 1 else 0 := by split <;> omega
  have hcentury : (past + 1) / 100 = past / 100 + if (past + 1) % 100 = 0 then 1 else 0 := by
    split <;> omega
  have hcycle : (past + 1) / 400 = past / 400 + if (past + 1) % 400 = 0 then 1 else 0 := by
    split <;> omega
  have hcentury_four : (past + 1) % 100 = 0 → (past + 1) % 4 = 0 := by omega
  have hcycle_century : (past + 1) % 400 = 0 → (past + 1) % 100 = 0 := by omega
  simp only [daysBeforeYear, Nat.add_sub_cancel, hfour, hcentury, hcycle, isLeap]
  generalize past / 4 = fours at *
  generalize past / 100 = centuries at *
  generalize past / 400 = cycles
  by_cases h4 : (past + 1) % 4 = 0 <;> by_cases h100 : (past + 1) % 100 = 0 <;>
    by_cases h400 : (past + 1) % 400 = 0 <;> simp_all <;> omega

/-- The first day of a year is less than two days from where years of mean length would put it. -/
theorem daysBeforeYear_mean (past : Nat) :
    146097 * past ≤ 400 * daysBeforeYear (past + 1) + 699 ∧
      400 * daysBeforeYear (past + 1) ≤ 146097 * past + 396 := by
  simp only [daysBeforeYear, Nat.add_sub_cancel]
  omega

/-- A day is in the year that its number lies in. -/
theorem yearOf_eq {year n : Nat} (hyear : 1 ≤ year) (hlo : daysBeforeYear year ≤ n)
    (hhi : n < daysBeforeYear (year + 1)) : yearOf n = year := by
  obtain ⟨past, rfl⟩ : ∃ past, year = past + 1 := ⟨year - 1, by omega⟩
  have hmean := daysBeforeYear_mean past
  have hmean' := daysBeforeYear_mean (past + 1)
  have hestimate : n * 400 / 146097 + 1 = past ∨ n * 400 / 146097 = past ∨
      n * 400 / 146097 = past + 1 := by omega
  unfold yearOf
  rcases hestimate with h | h | h
  · have hpast : 1 ≤ past := by omega
    have := daysBeforeYear_succ hpast
    have hlow : ¬ n < daysBeforeYear past := by omega
    simp only [h, hlow, hlo, if_true, if_false]
  · have hlow : ¬ n < daysBeforeYear (past + 1) := by omega
    have hhigh : ¬ daysBeforeYear (past + 1 + 1) ≤ n := by omega
    simp only [h, hlow, hhigh, if_false]
  · simp only [h, hhi, if_true, Nat.add_sub_cancel]

end Calendar

/-- A date of the years 1 to 9999. -/
structure Date where
  year : Nat
  month : Nat
  day : Nat
  valid : Calendar.ValidDate year month day
deriving DecidableEq

namespace Date

open Calendar

/-- Number of days since the first day of year 1. -/
def dayNumber (d : Date) : Nat :=
  daysBeforeYear d.year + daysBeforeMonth (isLeap d.year) d.month + (d.day - 1)

/-- Date with the given number of days since the first day of year 1, up to the last day of year
9999. -/
def ofDayNumber? (n : Nat) : Option Date :=
  let year := yearOf n
  let (month, day) := stretchOf (monthLengths (isLeap year)) (n - daysBeforeYear year)
  if h : ValidDate year (month + 1) (day + 1) then some ⟨year, month + 1, day + 1, h⟩ else none

/-- A valid date lies in one of the months of its year, inside that month. -/
theorem exists_month (d : Date) : ∃ h : d.month - 1 < (monthLengths (isLeap d.year)).length,
    d.day - 1 < (monthLengths (isLeap d.year))[d.month - 1] := by
  obtain ⟨year, month, day, -, -, hm, hm', hd, hd'⟩ := d
  have hlen : month - 1 < (monthLengths (isLeap year)).length := by
    simp [monthLengths]
    omega
  have hday : day ≤ (monthLengths (isLeap year))[month - 1] := by
    simpa [daysInMonth, List.getElem?_eq_getElem hlen] using hd'
  exact ⟨hlen, Nat.sub_one_lt_of_le hd hday⟩

/-- A date comes before the first day of the year after. -/
theorem dayNumber_lt (d : Date) : d.dayNumber < daysBeforeYear (d.year + 1) := by
  obtain ⟨hlen, hday⟩ := d.exists_month
  have htotal := before_add_lt _ (d.month - 1) hlen (d.day - 1) hday
  rw [before_monthLengths] at htotal
  rw [daysBeforeYear_succ d.valid.1]
  simp only [dayNumber, daysBeforeMonth]
  omega

/-- The day number leads back to the date. -/
theorem ofDayNumber?_dayNumber (d : Date) : ofDayNumber? d.dayNumber = some d := by
  obtain ⟨hlen, hday⟩ := d.exists_month
  have hmonth := stretchOf_before _ (d.month - 1) hlen (d.day - 1) hday
  have hyear : yearOf d.dayNumber = d.year :=
    yearOf_eq d.valid.1 (by simp only [dayNumber]; omega) d.dayNumber_lt
  have hleft : d.dayNumber - daysBeforeYear d.year =
      daysBeforeMonth (isLeap d.year) d.month + (d.day - 1) := by
    simp only [dayNumber]
    omega
  have hback : d.month - 1 + 1 = d.month ∧ d.day - 1 + 1 = d.day := by
    obtain ⟨-, -, hm, -, hd, -⟩ := d.valid
    omega
  simp only [ofDayNumber?, hyear, hleft]
  simp only [daysBeforeMonth, hmonth, hback.1, hback.2]
  exact dif_pos d.valid

end Date

end RandomDelay
