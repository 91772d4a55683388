import RandomDelay.Proofs.Duration.Amount

/-!
# The margin of a spread

The values that a spread goes through on its way to a delay, as rational numbers: its bounds, the
width of the jitter in whole microseconds, and the sum of the lower bound and the jitter. Five of
the steps round to binary64 and one to whole microseconds.

Up to `2 ^ 31` seconds a rounding to binary64 is off by at most `2 ^ -23` seconds. The width in
microseconds may be rounded up by half a microsecond, but the jitter stays a whole microsecond below
it; the other half is more than the three remaining roundings take (`delayValue_lt_upperValue`).
-/

set_option autoImplicit false

namespace RandomDelay.Spread

open RandomDelay.Binary64 RandomDelay.Rounding RandomDelay.Duration

/-- Lower bound of a spread with the least delay `m`, the nominal delay `d` and the width `w`. -/
def lowerValue (m d w : ℚ) : ℚ := max m (rounded (d - w))

/-- Upper bound of a spread. -/
def upperValue (m d w : ℚ) : ℚ := rounded (max m d + w)

/-- Distance of the bounds in seconds. -/
def distance (m d w : ℚ) : ℚ := rounded (upperValue m d w - lowerValue m d w)

/-- Width of the jitter in whole microseconds. -/
def jitterMicros (m d w : ℚ) : ℤ := nearestInt (unrounded .second (distance m d w))

/-- Delay with `k` microseconds of jitter. -/
def delayValue (m d w : ℚ) (k : ℤ) : ℚ := rounded (lowerValue m d w + rounded (k / 10 ^ 6))

/-- Spreads that end by `2 ^ 31` seconds and are wide enough for a microsecond. The bound on the
width leaves room for a millionth of a second in binary64, which is a little less than one. -/
structure Moderate (m d w : ℚ) : Prop where
  minimum_nonneg : 0 ≤ m
  minimum_representable : Representable m
  nominal_nonneg : 0 ≤ d
  nominal_representable : Representable d
  larger_le : max m d ≤ 2 ^ 31
  width_ge : 99 / 10 ^ 8 ≤ w
  width_le : w ≤ 2 ^ 31
  upper_le : upperValue m d w ≤ 2 ^ 31

variable {m d w : ℚ}

theorem representable_lowerValue (h : Moderate m d w) : Representable (lowerValue m d w) := by
  rw [lowerValue]
  rcases max_choice m (rounded (d - w)) with hm | hd
  · rw [hm]
    exact h.minimum_representable
  · rw [hd]
    exact representable_rounded _

theorem minimum_le_lowerValue (m d w : ℚ) : m ≤ lowerValue m d w := le_max_left _ _

theorem lowerValue_nonneg (h : Moderate m d w) : 0 ≤ lowerValue m d w :=
  h.minimum_nonneg.trans (minimum_le_lowerValue m d w)

/-- The lower bound lies below the greater of the two delays, rounded or not. -/
theorem lowerValue_le (h : Moderate m d w) : lowerValue m d w ≤ max m d := by
  have hw := h.width_ge
  apply max_le (le_max_left m d)
  calc rounded (d - w) ≤ d := rounded_le h.nominal_representable (by linarith)
    _ ≤ max m d := le_max_right m d

theorem upperValue_nonneg (h : Moderate m d w) : 0 ≤ upperValue m d w := by
  have hmax : 0 ≤ max m d := h.minimum_nonneg.trans (le_max_left m d)
  have hw := h.width_ge
  norm_num at hw
  exact rounded_nonneg (by linarith)

/-- Rounding to binary64 up to `2 ^ 31`. -/
theorem abs_rounded_sub_le_of_le {q : ℚ} (h0 : 0 ≤ q) (h : q ≤ 2 ^ 31) :
    |rounded q - q| ≤ 1 / 2 ^ 23 := by
  have hq : |q| ≤ 2 ^ (31 : ℤ) := by
    rw [abs_of_nonneg h0]
    exact_mod_cast h
  have herr := abs_rounded_sub_le (by norm_num) hq
  norm_num at herr ⊢
  exact herr

/-- The bounds stay almost a whole width apart. -/
theorem le_upperValue_sub_lowerValue (h : Moderate m d w) :
    w - 1 / 2 ^ 22 ≤ upperValue m d w - lowerValue m d w := by
  have hlow := lowerValue_le h
  have hlarger := h.larger_le
  have hwle := h.width_le
  have hwge := h.width_ge
  have hmax : 0 ≤ max m d := h.minimum_nonneg.trans (le_max_left m d)
  have hsum : |max m d + w| ≤ 2 ^ (32 : ℤ) := by
    rw [abs_of_nonneg (by linarith)]
    norm_num
    linarith
  have herr := abs_rounded_sub_le (by norm_num) hsum
  rw [abs_le] at herr
  have hupper : upperValue m d w = rounded (max m d + w) := rfl
  norm_num at herr ⊢
  linarith [herr.1]

/-- The distance is rounded once, and still more than half a microsecond. -/
theorem distance_bounds (h : Moderate m d w) :
    |distance m d w - (upperValue m d w - lowerValue m d w)| ≤ 1 / 2 ^ 23 ∧
      distance m d w ≤ 2 ^ 31 ∧ 6 / 10 ^ 7 ≤ distance m d w := by
  have hgap := le_upperValue_sub_lowerValue h
  have hwge := h.width_ge
  have hlow := lowerValue_nonneg h
  have hupper := h.upper_le
  have hpos : 0 ≤ upperValue m d w - lowerValue m d w := by
    norm_num at hgap hwge ⊢
    linarith
  have hle : upperValue m d w - lowerValue m d w ≤ 2 ^ 31 := by linarith
  have herr : |distance m d w - (upperValue m d w - lowerValue m d w)| ≤ 1 / 2 ^ 23 :=
    abs_rounded_sub_le_of_le hpos hle
  have hmax : Representable ((2 : ℚ) ^ 31) := by
    have := representable_zpow (k := 31) (by decide)
    exact_mod_cast this
  refine ⟨herr, rounded_le hmax hle, ?_⟩
  rw [abs_le] at herr
  norm_num at herr hgap hwge ⊢
  linarith [herr.1]

/-- The width in microseconds is off by little more than half a microsecond. -/
theorem abs_jitterMicros_sub_le (m d w : ℚ) :
    |(jitterMicros m d w : ℚ) - distance m d w * 10 ^ 6| ≤ 1 / 2 + 1 / 2 ^ 34 := by
  have hunit : ((TimeUnit.second.micros : ℕ) : ℚ) ≤ 2 ^ (20 : ℤ) := by norm_num [TimeUnit.micros]
  have herr := abs_micros_sub_le (by norm_num) hunit (distance m d w)
  norm_num [TimeUnit.micros] at herr ⊢
  exact herr

theorem jitterMicros_pos (h : Moderate m d w) : 0 < jitterMicros m d w := by
  obtain ⟨-, -, hdist⟩ := distance_bounds h
  have herr := (abs_le.1 (abs_jitterMicros_sub_le m d w)).1
  have hpos : (0 : ℚ) < jitterMicros m d w := by
    norm_num at herr hdist
    linarith
  exact_mod_cast hpos

theorem jitterMicros_le (h : Moderate m d w) : jitterMicros m d w ≤ 2147483648000001 := by
  obtain ⟨-, hdist, -⟩ := distance_bounds h
  have herr := (abs_le.1 (abs_jitterMicros_sub_le m d w)).2
  have hle : (jitterMicros m d w : ℚ) < 2147483648000001 + 1 := by
    norm_num at herr hdist ⊢
    linarith
  have : jitterMicros m d w < 2147483648000001 + 1 := by exact_mod_cast hle
  omega

variable {k : ℤ}

/-- Seconds of a jitter below the width, before and after rounding. -/
theorem jitter_bounds (h : Moderate m d w) (h0 : 0 ≤ k) (hk : k < jitterMicros m d w) :
    0 ≤ rounded ((k : ℚ) / 10 ^ 6) ∧
      rounded ((k : ℚ) / 10 ^ 6) ≤ distance m d w - 49 / 10 ^ 8 + 1 / 2 ^ 23 := by
  obtain ⟨-, hdist, -⟩ := distance_bounds h
  have herr := (abs_le.1 (abs_jitterMicros_sub_le m d w)).2
  have hkq : (k : ℚ) + 1 ≤ jitterMicros m d w := by exact_mod_cast hk
  have hk0 : (0 : ℚ) ≤ k := by exact_mod_cast h0
  have hbelow : (k : ℚ) / 10 ^ 6 ≤ distance m d w - 49 / 10 ^ 8 := by
    rw [div_le_iff₀ (by norm_num)]
    norm_num at herr ⊢
    linarith
  have hpos : 0 ≤ (k : ℚ) / 10 ^ 6 := by positivity
  have hround :=
    (abs_le.1 (abs_rounded_sub_le_of_le hpos (by norm_num at hbelow hdist ⊢; linarith))).2
  exact ⟨rounded_nonneg hpos, by linarith⟩

theorem lowerValue_le_delayValue (h : Moderate m d w) (h0 : 0 ≤ k) :
    lowerValue m d w ≤ delayValue m d w k := by
  have hk0 : (0 : ℚ) ≤ k := by exact_mod_cast h0
  have hjitter : 0 ≤ rounded ((k : ℚ) / 10 ^ 6) := rounded_nonneg (by positivity)
  exact le_rounded (representable_lowerValue h) (by linarith)

/-- The delay stays strictly below the upper bound. -/
theorem delayValue_lt_upperValue (h : Moderate m d w) (h0 : 0 ≤ k) (hk : k < jitterMicros m d w) :
    delayValue m d w k < upperValue m d w := by
  obtain ⟨hj0, hj⟩ := jitter_bounds h h0 hk
  have hdist := (abs_le.1 (distance_bounds h).1).2
  have hlow := lowerValue_nonneg h
  have hupper := h.upper_le
  have hpos : 0 ≤ lowerValue m d w + rounded ((k : ℚ) / 10 ^ 6) := add_nonneg hlow hj0
  -- two of the three roundings are spent before the last one
  have hsum : lowerValue m d w + rounded ((k : ℚ) / 10 ^ 6) ≤
      upperValue m d w - 49 / 10 ^ 8 + 2 / 2 ^ 23 := by
    norm_num at hj hdist ⊢
    linarith
  have hle : lowerValue m d w + rounded ((k : ℚ) / 10 ^ 6) ≤ 2 ^ 31 := by
    norm_num at hsum hupper ⊢
    linarith
  have hlast := (abs_le.1 (abs_rounded_sub_le_of_le hpos hle)).2
  have hdelay : delayValue m d w k = rounded (lowerValue m d w + rounded ((k : ℚ) / 10 ^ 6)) := rfl
  rw [hdelay]
  norm_num at hsum hlast ⊢
  linarith

end RandomDelay.Spread
