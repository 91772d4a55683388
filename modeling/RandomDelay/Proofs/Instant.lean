import Mathlib.Tactic.Linarith
import RandomDelay.Instant
import RandomDelay.Proofs.Calendar

/-!
# Instants and their positions

The positions of instants are the natural numbers up to that of the latest one
(`Instant.position_le_latest`, `Instant.exists_ofPosition?`); no other number is the position of an
instant. A sum of an instant and a duration is therefore exact within these positions and the latest
instant outside, on either side (`Instant.position_saturatingAdd`), and it keeps the offset but not
the mark.
-/

set_option autoImplicit false

namespace RandomDelay.Instant

open Calendar

/-- The latest instant is one microsecond before year 10000. -/
theorem position_latest (offset : Option Duration) :
    (latest offset).position + 1 = daysBeforeYear 10000 * Duration.microsPerDay := by
  have hday : (latest offset).date.dayNumber + 1 = daysBeforeYear 10000 := by
    show Date.dayNumber ⟨9999, 12, 31, by decide⟩ + 1 = _
    decide
  have htime : (latest offset).time.position + 1 = Duration.microsPerDay := by
    show TimeOfDay.position ⟨23, 59, 59, 999999, by decide⟩ + 1 = _
    decide
  rw [position, ← hday, Nat.add_one_mul, Nat.add_assoc, htime]

theorem position_le_latest (t : Instant) (offset : Option Duration) :
    t.position ≤ (latest offset).position := by
  have hday : t.date.dayNumber + 1 ≤ daysBeforeYear 10000 := t.date.dayNumber_lt_end
  have htime := t.time.position_lt
  have hend := Nat.mul_le_mul_right Duration.microsPerDay hday
  rw [← position_latest offset, Nat.add_one_mul] at hend
  simp only [position] at hend ⊢
  omega

/-- Positions up to the latest one have an instant on every clock. -/
theorem exists_ofPosition? (offset : Option Duration) {n : ℕ} (h : n ≤ (latest offset).position) :
    ∃ u, ofPosition? offset n = some u ∧
      u.position = n ∧ u.offset = offset ∧ u.repeated = false := by
  have hpos : 0 < Duration.microsPerDay := by decide
  have hday : n / Duration.microsPerDay < daysBeforeYear 10000 := by
    rw [Nat.div_lt_iff_lt_mul hpos, ← position_latest offset]
    exact Nat.lt_succ_of_le h
  obtain ⟨date, hdate, hnumber⟩ := Date.exists_ofDayNumber? hday
  have hneg : ¬ (n : ℤ) < 0 := not_lt.2 (Int.natCast_nonneg n)
  refine ⟨⟨date, .ofPosition (n % Duration.microsPerDay) (Nat.mod_lt n hpos), offset, false⟩,
    ?_, ?_, rfl, rfl⟩
  · simp only [ofPosition?, hneg, if_false, Int.toNat_natCast, hdate, Option.map_some]
  · simp only [position, hnumber, TimeOfDay.position_ofPosition]
    exact Nat.div_add_mod' n Duration.microsPerDay

/-- Numbers that are not the position of an instant, before the first or after the latest. -/
theorem ofPosition?_eq_none (offset : Option Duration) {p : ℤ}
    (h : p < 0 ∨ ((latest offset).position : ℤ) < p) : ofPosition? offset p = none := by
  by_cases hneg : p < 0
  · simp only [ofPosition?, hneg, if_true]
  · obtain ⟨n, rfl⟩ := Int.eq_ofNat_of_zero_le (not_lt.1 hneg)
    have hlate : daysBeforeYear 10000 * Duration.microsPerDay ≤ n := by
      rw [← position_latest offset]
      omega
    have hday : daysBeforeYear 10000 ≤ n / Duration.microsPerDay :=
      (Nat.le_div_iff_mul_le (by decide)).2 hlate
    simp only [ofPosition?, hneg, if_false, Int.toNat_natCast, Date.ofDayNumber?_of_le hday,
      Option.map_none]

/-- A sum is where its exact position is, if an instant is there, and the latest instant if not. It
is on the same clock, in its first passage. -/
theorem position_saturatingAdd (t : Instant) (d : Duration) :
    ((t.saturatingAdd d).position : ℤ) =
        (if 0 ≤ t.position + d.micros ∧ t.position + d.micros ≤ (latest t.offset).position
          then t.position + d.micros else (latest t.offset).position) ∧
      (t.saturatingAdd d).offset = t.offset ∧ (t.saturatingAdd d).repeated = false := by
  rw [saturatingAdd, add?]
  by_cases h : 0 ≤ t.position + d.micros ∧ t.position + d.micros ≤ (latest t.offset).position
  · obtain ⟨n, hn⟩ := Int.eq_ofNat_of_zero_le h.1
    rw [if_pos h, hn]
    have hle : n ≤ (latest t.offset).position := by omega
    obtain ⟨u, hu, hposition, hoffset, hrepeated⟩ := exists_ofPosition? t.offset hle
    rw [hu]
    exact ⟨congrArg Nat.cast hposition, hoffset, hrepeated⟩
  · rw [if_neg h, ofPosition?_eq_none t.offset (by omega)]
    exact ⟨rfl, rfl, rfl⟩

/-- A sum that does not lead back before year 1 is cut at the latest instant. -/
theorem position_saturatingAdd_of_le (t : Instant) {d : Duration} (h : 0 ≤ t.position + d.micros) :
    ((t.saturatingAdd d).position : ℤ) =
      min (t.position + d.micros) (latest t.offset).position := by
  rw [(t.position_saturatingAdd d).1]
  split <;> omega

/-- Later by a duration that is not negative, up to the latest instant. -/
theorem position_saturatingAdd_of_nonneg (t : Instant) {d : Duration} (hd : 0 ≤ d.micros) :
    ((t.saturatingAdd d).position : ℤ) =
      min (t.position + d.micros) (latest t.offset).position :=
  t.position_saturatingAdd_of_le (add_nonneg (Int.natCast_nonneg t.position) hd)

/-- No time at all leads to the first passage of the same clock time. -/
theorem saturatingAdd_zero (t : Instant) :
    t.saturatingAdd .zero = { t with repeated := false } := by
  have hsum : (t.position : ℤ) + Duration.zero.micros = t.position := Int.add_zero _
  rw [saturatingAdd, add?, hsum, ofPosition?_position, Option.getD_some]

end RandomDelay.Instant
