import RandomDelay.Calendar

/-!
# Day numbers and dates

Every day number lies in the year that is computed for it (`Calendar.yearOf_spec`) and, within that
year, in one of its months (`Calendar.stretchOf_of_lt`). So every number before the first day of
year 10000 is the number of a date (`Date.exists_ofDayNumber?`), and the numbers from there on are
not (`Date.ofDayNumber?_of_le`). Dates with a smaller year, or month in one year, or day in one
month, have smaller numbers, and no others have (`Date.earlier_iff`).
-/

set_option autoImplicit false

namespace RandomDelay

namespace Calendar

/-! ## Years -/

theorem daysBeforeYear_le_succ (year : Nat) : daysBeforeYear year ≤ daysBeforeYear (year + 1) := by
  cases year with
  | zero => exact Nat.le_refl 0
  | succ past =>
    rw [daysBeforeYear_succ (Nat.succ_pos past)]
    exact Nat.le_add_right _ _

theorem daysBeforeYear_mono {year later : Nat} (h : year ≤ later) :
    daysBeforeYear year ≤ daysBeforeYear later := by
  induction h with
  | refl => exact Nat.le_refl _
  | @step later _ ih => exact Nat.le_trans ih (daysBeforeYear_le_succ later)

/-- Years of 365 days would all begin too early. -/
theorem le_daysBeforeYear (past : Nat) : past * 365 ≤ daysBeforeYear (past + 1) := by
  simp only [daysBeforeYear, Nat.add_sub_cancel]
  omega

theorem exists_year_of_lt (n last : Nat) (h : n < daysBeforeYear (last + 1)) :
    ∃ year, 1 ≤ year ∧ daysBeforeYear year ≤ n ∧ n < daysBeforeYear (year + 1) := by
  induction last with
  | zero => exact absurd h (Nat.not_lt_zero n)
  | succ last ih =>
    by_cases hfirst : daysBeforeYear (last + 1) ≤ n
    · exact ⟨last + 1, by omega, hfirst, h⟩
    · exact ih (by omega)

/-- Every day number lies between the first day of its year and that of the next. -/
theorem yearOf_spec (n : Nat) :
    1 ≤ yearOf n ∧ daysBeforeYear (yearOf n) ≤ n ∧ n < daysBeforeYear (yearOf n + 1) := by
  have hlast : n < daysBeforeYear (n + 1 + 1) := by
    have := le_daysBeforeYear (n + 1)
    omega
  obtain ⟨year, hyear, hlo, hhi⟩ := exists_year_of_lt n (n + 1) hlast
  rw [yearOf_eq hyear hlo hhi]
  exact ⟨hyear, hlo, hhi⟩

/-! ## Months -/

/-- A position before the end of the last stretch is in one of them, as far from its start as is
left. -/
theorem stretchOf_of_lt (lengths : List Nat) (n : Nat) (h : n < before lengths lengths.length) :
    ∃ index left, stretchOf lengths n = (index, left) ∧ before lengths index + left = n ∧
      ∃ hindex : index < lengths.length, left < lengths[index] := by
  induction lengths generalizing n with
  | nil => exact absurd h (Nat.not_lt_zero n)
  | cons length rest ih =>
    by_cases hn : n < length
    · refine ⟨0, n, ?_, ?_, ?_⟩
      · simp [stretchOf, hn]
      · simp [before]
      · exact ⟨Nat.zero_lt_succ _, hn⟩
    · simp only [before, List.length_cons] at h
      obtain ⟨index, left, hstretch, hbefore, hindex, hleft⟩ := ih (n - length) (by omega)
      refine ⟨index + 1, left, ?_, ?_, ?_⟩
      · simp [stretchOf, hn, hstretch]
      · simp only [before]
        omega
      · exact ⟨Nat.succ_lt_succ hindex, hleft⟩

/-- A position inside a stretch comes before all the later stretches. -/
theorem before_add_lt_before (lengths : List Nat) (index later : Nat) (hlater : index < later)
    (h : index < lengths.length) (left : Nat) (hleft : left < lengths[index]) :
    before lengths index + left < before lengths later := by
  -- stretches are taken off the front until the position is in the first one
  induction lengths generalizing index later with
  | nil => exact absurd h (Nat.not_lt_zero index)
  | cons length rest ih =>
    cases later with
    | zero => exact absurd hlater (Nat.not_lt_zero index)
    | succ next =>
      cases index with
      | zero =>
        simp only [List.getElem_cons_zero] at hleft
        simp only [before]
        omega
      | succ k =>
        have hrest :=
          ih k next (Nat.lt_of_succ_lt_succ hlater) (by simpa using h) (by simpa using hleft)
        simp only [before]
        omega

end Calendar

namespace Date

open Calendar

theorem dayNumber_lt_end (d : Date) : d.dayNumber < daysBeforeYear 10000 := by
  have hyear : d.year + 1 ≤ 10000 := Nat.succ_le_succ d.valid.2.1
  exact Nat.lt_of_lt_of_le d.dayNumber_lt (daysBeforeYear_mono hyear)

/-- Every day up to the last one of year 9999 has a date. -/
theorem exists_ofDayNumber? {n : Nat} (h : n < daysBeforeYear 10000) :
    ∃ d, ofDayNumber? n = some d ∧ d.dayNumber = n := by
  obtain ⟨hyear, hlo, hhi⟩ := yearOf_spec n
  have hlast : yearOf n ≤ 9999 := by
    apply Nat.le_of_not_lt
    intro hlt
    have hfirst : daysBeforeYear 10000 ≤ daysBeforeYear (yearOf n) := daysBeforeYear_mono hlt
    omega
  rw [daysBeforeYear_succ hyear] at hhi
  have hday : n - daysBeforeYear (yearOf n) <
      before (monthLengths (isLeap (yearOf n))) (monthLengths (isLeap (yearOf n))).length := by
    rw [before_monthLengths]
    omega
  obtain ⟨month, day, hstretch, hbefore, hmonth, hlength⟩ := stretchOf_of_lt _ _ hday
  have hmonths : (monthLengths (isLeap (yearOf n))).length = 12 := rfl
  have hvalid : ValidDate (yearOf n) (month + 1) (day + 1) := by
    refine ⟨hyear, hlast, by omega, by omega, by omega, ?_⟩
    simp only [daysInMonth, Nat.add_sub_cancel, List.getElem?_eq_getElem hmonth, Option.getD_some]
    omega
  refine ⟨⟨yearOf n, month + 1, day + 1, hvalid⟩, ?_, ?_⟩
  · simp only [ofDayNumber?, hstretch]
    exact dif_pos hvalid
  · simp only [dayNumber, daysBeforeMonth, Nat.add_sub_cancel]
    omega

/-- After year 9999 there are no dates. -/
theorem ofDayNumber?_of_le {n : Nat} (h : daysBeforeYear 10000 ≤ n) : ofDayNumber? n = none := by
  obtain ⟨-, -, hhi⟩ := yearOf_spec n
  have hlate : ¬ yearOf n ≤ 9999 := by
    intro hle
    have hend : daysBeforeYear (yearOf n + 1) ≤ daysBeforeYear 10000 :=
      daysBeforeYear_mono (Nat.succ_le_succ hle)
    omega
  simp only [ofDayNumber?]
  exact dif_neg fun hvalid => hlate hvalid.2.1

/-! ## Order -/

/-- The first of year, month and day in which the dates differ is smaller in `d`. -/
def Earlier (d e : Date) : Prop :=
  d.year < e.year ∨ d.year = e.year ∧ (d.month < e.month ∨ d.month = e.month ∧ d.day < e.day)

theorem earlier_trichotomy (d e : Date) : d.Earlier e ∨ d = e ∨ e.Earlier d := by
  by_cases heq : d = e
  · exact Or.inr (Or.inl heq)
  · have hdiffer : ¬ (d.year = e.year ∧ d.month = e.month ∧ d.day = e.day) := by
      cases d
      cases e
      rwa [mk.injEq] at heq
    simp only [Earlier]
    omega

theorem dayNumber_lt_dayNumber {d e : Date} (h : d.Earlier e) : d.dayNumber < e.dayNumber := by
  obtain ⟨hlen, hlength⟩ := d.exists_month
  obtain ⟨-, -, hmonthPos, -, hdayPos, -⟩ := d.valid
  rcases h with hyear | ⟨hyear, hmonth | ⟨hmonth, hday⟩⟩
  · -- every day of a year comes before the first one of the next
    have hnext : daysBeforeYear (d.year + 1) ≤ daysBeforeYear e.year := daysBeforeYear_mono hyear
    have hlast := d.dayNumber_lt
    simp only [dayNumber] at hlast ⊢
    omega
  · -- months are stretches of one year, and the year is leap for both or for neither
    have hbefore := before_add_lt_before _ (d.month - 1) (e.month - 1) (by omega) hlen _ hlength
    simp only [dayNumber, daysBeforeMonth, ← hyear]
    omega
  · simp only [dayNumber, hyear, hmonth]
    omega

/-- Dates are in the order of their numbers. -/
theorem earlier_iff {d e : Date} : d.Earlier e ↔ d.dayNumber < e.dayNumber := by
  constructor
  · exact dayNumber_lt_dayNumber
  · intro hlt
    rcases d.earlier_trichotomy e with h | rfl | h
    · exact h
    · exact absurd hlt (Nat.lt_irrefl _)
    · exact absurd hlt (Nat.lt_asymm (dayNumber_lt_dayNumber h))

theorem dayNumber_injective : Function.Injective dayNumber := by
  intro d e h
  have hback := congrArg ofDayNumber? h
  rw [ofDayNumber?_dayNumber, ofDayNumber?_dayNumber] at hback
  exact Option.some.inj hback

end Date

end RandomDelay
