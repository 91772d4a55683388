import RandomDelay.Duration.Amount
import RandomDelay.Proofs.Number

/-!
# Microseconds in an amount of a unit

A finite amount of a unit is converted with one rounding in binary64, of the fraction times the
unit, and one to a whole number of microseconds. `unrounded` is the number between the two, and
`microsOf_eq_ok` says that the conversion does not fail; whole amounts come out exactly by the same
rule.

The first rounding is off by the 54th binary place of the unit only (`abs_unrounded_sub_le`), so the
whole conversion is off by little more than half a microsecond (`abs_micros_sub_le`). The way back,
from a duration to seconds, rounds once (`toRat_seconds`).
-/

set_option autoImplicit false

namespace RandomDelay.Duration

open RandomDelay.Binary64 RandomDelay.Rounding

/-- Microseconds in an amount of a unit with only the fraction rounded, to binary64. -/
def unrounded (unit : TimeUnit) (q : ℚ) : ℚ :=
  towardZero q * unit.micros + rounded (unit.micros * (q - towardZero q))

theorem unit_micros_le (unit : TimeUnit) : (unit.micros : ℚ) ≤ 2 ^ (32 : ℤ) := by
  cases unit <;> norm_num [TimeUnit.micros]

/-- The fraction is less than one on both sides of zero. -/
theorem abs_sub_towardZero_lt_one (q : ℚ) : |q - towardZero q| < 1 := by
  rw [towardZero, abs_lt]
  split
  · have h0 := Int.floor_le q
    have h1 := Int.lt_floor_add_one q
    constructor <;> linarith
  · have h0 := Int.le_ceil q
    have h1 := Int.ceil_lt_add_one q
    constructor <;> linarith

theorem abs_micros_mul_fraction_le (unit : TimeUnit) (q : ℚ) :
    |(unit.micros : ℚ) * (q - towardZero q)| ≤ unit.micros := by
  rw [abs_mul, abs_of_nonneg (Nat.cast_nonneg (α := ℚ) unit.micros)]
  exact mul_le_of_le_one_right (Nat.cast_nonneg _) (abs_sub_towardZero_lt_one q).le

theorem toRat_ofInt_micros (unit : TimeUnit) :
    (ofInt unit.micros).IsFinite ∧ (ofInt unit.micros).toRat = unit.micros := by
  have hcast : ((unit.micros : ℤ) : ℚ) = unit.micros := Int.cast_natCast _
  have hval : rounded ((unit.micros : ℤ) : ℚ) = (unit.micros : ℤ) := by
    apply rounded_of_representable
    apply representable_intCast
    cases unit <;> decide
  have hlt : rounded |((unit.micros : ℤ) : ℚ)| < limit := by
    rw [hcast, abs_of_nonneg (Nat.cast_nonneg _)]
    exact rounded_lt_limit (by decide) (by decide) (unit_micros_le unit)
  obtain ⟨hfin, hrat⟩ := toRat_ofInt _ hlt
  rw [hval, hcast] at hrat
  exact ⟨hfin, hrat⟩

/-- A finite amount has a number of microseconds. -/
theorem microsOfBinary64_eq_ok (unit : TimeUnit) {x : Binary64} (hx : x.IsFinite) :
    microsOfBinary64 unit x = .ok (nearestInt (unrounded unit x.toRat)) := by
  obtain ⟨hufin, huval⟩ := toRat_ofInt_micros unit
  obtain ⟨hffin, hfval⟩ := toRat_fraction x
  have hlt : rounded |(ofInt unit.micros).toRat * x.fraction.toRat| < limit := by
    rw [huval, hfval]
    exact rounded_lt_limit (by decide) (by decide)
      ((abs_micros_mul_fraction_le unit _).trans (unit_micros_le unit))
  obtain ⟨-, hmul⟩ := toRat_mul hufin hffin hlt
  rw [huval, hfval] at hmul
  -- the sum is taken in units of the format, with one unit for all of it
  have hquot : (((towardZero x.toRat * unit.micros * unitsPerOne +
      ((ofInt unit.micros).mul x.fraction).units : ℤ) : ℚ)) / unitsPerOne =
      unrounded unit x.toRat := by
    rw [unrounded, ← hmul]
    push_cast
    rw [add_div, mul_div_cancel_right₀ _ unitsPerOne_cast_pos.ne']
    rfl
  rw [microsOfBinary64, truncate_of_isFinite hx, ← hquot,
    ← halfEvenInt_eq_nearestInt _ unitsPerOne_pos]
  rfl

/-- Whole amounts follow the rule of the others. -/
theorem microsOf_eq_ok (unit : TimeUnit) {a : Number} (ha : a.IsFinite) :
    microsOf unit a = .ok (nearestInt (unrounded unit a.toRat)) := by
  cases a with
  | float x => exact microsOfBinary64_eq_ok unit ha
  | whole n =>
    have hzero : towardZero (n : ℚ) = n := by
      rw [towardZero, Int.floor_intCast, Int.ceil_intCast, ite_self]
    have hunr : unrounded unit (n : ℚ) = ((n * unit.micros : ℤ) : ℚ) := by
      rw [unrounded, hzero, sub_self, mul_zero, rounded_zero, add_zero]
      push_cast
      rfl
    show Except.ok (n * (unit.micros : ℤ)) = .ok (nearestInt (unrounded unit (n : ℚ)))
    rw [hunr, nearestInt_intCast]

theorem abs_unrounded_sub_le {unit : TimeUnit} {k : ℤ} (hk : -1021 ≤ k)
    (hunit : (unit.micros : ℚ) ≤ 2 ^ k) (q : ℚ) :
    |unrounded unit q - q * unit.micros| ≤ 2 ^ (k - 54) := by
  have hsplit : unrounded unit q - q * unit.micros =
      rounded (unit.micros * (q - towardZero q)) - unit.micros * (q - towardZero q) := by
    rw [unrounded]
    ring
  rw [hsplit]
  exact abs_rounded_sub_le hk ((abs_micros_mul_fraction_le unit q).trans hunit)

/-- The conversion is off by half a microsecond and the 54th binary place of the unit. -/
theorem abs_micros_sub_le {unit : TimeUnit} {k : ℤ} (hk : -1021 ≤ k)
    (hunit : (unit.micros : ℚ) ≤ 2 ^ k) (q : ℚ) :
    |(nearestInt (unrounded unit q) : ℚ) - q * unit.micros| ≤ 1 / 2 + 2 ^ (k - 54) := by
  have hint := abs_nearestInt_sub_le (unrounded unit q)
  have hunr := abs_unrounded_sub_le hk hunit q
  calc |(nearestInt (unrounded unit q) : ℚ) - q * unit.micros| ≤
        |(nearestInt (unrounded unit q) : ℚ) - unrounded unit q| +
          |unrounded unit q - q * unit.micros| := abs_sub_le _ _ _
    _ ≤ 1 / 2 + 2 ^ (k - 54) := add_le_add hint hunr

theorem ofMicros_of_representable {micros : ℤ} (h : Representable micros) :
    ofMicros micros = .ok ⟨micros, h⟩ := by
  rw [ofMicros, ofMicros?_of_representable h]

theorem ofMicros_of_not_representable {micros : ℤ} (h : ¬ Representable micros) :
    ofMicros micros = .error .overflow := by
  rw [ofMicros, ofMicros?, dif_neg h]

theorem ofSeconds_eq_ok {a : Number} (ha : a.IsFinite)
    (h : Representable (nearestInt (unrounded .second a.toRat))) : ofSeconds a = .ok ⟨_, h⟩ := by
  rw [ofSeconds, ofAmount, microsOf_eq_ok .second ha]
  exact ofMicros_of_representable h

theorem abs_micros_div_le (d : Duration) : |(d.micros : ℚ) / 10 ^ 6| ≤ 2 ^ (47 : ℤ) := by
  obtain ⟨hlow, hhigh⟩ := d.representable
  have hlowq : (-86399999913600000000 : ℚ) ≤ d.micros := by exact_mod_cast hlow
  have hhighq : (d.micros : ℚ) ≤ 86399999999999999999 := by exact_mod_cast hhigh
  rw [abs_le]
  norm_num
  constructor <;> linarith

/-- Every duration has a number of seconds, the exact one rounded once. -/
theorem toRat_seconds (d : Duration) :
    d.seconds.IsFinite ∧ d.seconds.toRat = rounded (d.micros / 10 ^ 6) := by
  have hmicros : ((microsPerSecond : ℕ) : ℚ) = 10 ^ 6 := by norm_num [microsPerSecond]
  have hsize := d.abs_micros_div_le
  rw [← hmicros] at hsize
  have hspec :=
    toRat_nearest_natAbs d.micros (by decide) (rounded_lt_limit (by decide) (by decide) hsize)
  rwa [hmicros] at hspec

theorem abs_seconds_le (d : Duration) : |d.seconds.toRat| ≤ 2 ^ (47 : ℤ) := by
  rw [d.toRat_seconds.2]
  exact abs_rounded_le (representable_zpow (by decide)) d.abs_micros_div_le

end RandomDelay.Duration
