import RandomDelay.Proofs.Binary64.Value

/-!
# Values of the results of operations

Every operation on binary64 numbers has the exact result on the values, rounded once.
`toRat_nearest`, `toRat_ofInt`, `toRat_add`, `toRat_sub` and `toRat_mul` say so for results below
the limit of the format; a sum past it is infinite (`add_eq_infinity`).

A number is taken apart at the point without any rounding (`truncate_of_isFinite`,
`toRat_fraction`).
-/

set_option autoImplicit false

namespace RandomDelay.Binary64

theorem toRat_nearestUnits (negative : Bool) (n : ℕ) {d : ℕ} (hd : 0 < d)
    (h : rounded (n / d / unitsPerOne) < limit) :
    (nearestUnits negative n d).IsFinite ∧
      (nearestUnits negative n d).toRat = withSign negative (rounded (n / d / unitsPerOne)) := by
  obtain ⟨m, e, hc, heq, hval⟩ := nearestUnits_eq_finite negative n hd h
  rw [heq, toRat_finite, hval]
  exact ⟨isFinite_finite negative hc, rfl⟩

theorem cast_mul_unitsPerOne_div (n d : ℕ) :
    ((n * unitsPerOne : ℕ) : ℚ) / d / unitsPerOne = n / d := by
  rw [Nat.cast_mul, mul_div_right_comm, mul_div_cancel_right₀ _ unitsPerOne_cast_pos.ne']

theorem toRat_nearest (negative : Bool) (n : ℕ) {d : ℕ} (hd : 0 < d)
    (h : rounded (n / d) < limit) :
    (nearest negative n d).IsFinite ∧
      (nearest negative n d).toRat = withSign negative (rounded (n / d)) := by
  have hquot := cast_mul_unitsPerOne_div n d
  have hspec := toRat_nearestUnits negative (n * unitsPerOne) hd (by rwa [hquot])
  rwa [hquot] at hspec

theorem nearest_eq_infinity (negative : Bool) (n : ℕ) {d : ℕ} (hd : 0 < d)
    (h : limit ≤ rounded (n / d)) : nearest negative n d = .infinity negative :=
  nearestUnits_eq_infinity negative _ hd (by rwa [cast_mul_unitsPerOne_div])

/-- Rounding the magnitude and then setting the sign is rounding. -/
theorem withSign_rounded_abs {q : ℚ} {negative : Bool} (h : negative = true ↔ q < 0) :
    withSign negative (rounded |q|) = rounded q := by
  cases negative with
  | true =>
    have hneg : q < 0 := h.1 rfl
    rw [abs_of_neg hneg, rounded_neg]
    exact neg_neg _
  | false =>
    have hpos : 0 ≤ q := not_lt.1 fun hneg => Bool.false_ne_true (h.2 hneg)
    rw [abs_of_nonneg hpos]
    rfl

/-- The number nearest to a quotient of an integer has its rounded value. -/
theorem toRat_nearest_natAbs (s : ℤ) {d : ℕ} (hd : 0 < d) (h : rounded |(s : ℚ) / d| < limit) :
    (nearest (s < 0) s.natAbs d).IsFinite ∧
      (nearest (s < 0) s.natAbs d).toRat = rounded (s / d) := by
  have hdq : (0 : ℚ) < d := by exact_mod_cast hd
  have habs : ((s.natAbs : ℕ) : ℚ) / d = |(s : ℚ) / d| := by
    rw [abs_div, abs_of_pos hdq, Nat.cast_natAbs, Int.cast_abs]
  have hsign : decide (s < 0) = true ↔ (s : ℚ) / d < 0 := by
    rw [decide_eq_true_iff, div_lt_iff₀ hdq, zero_mul]
    exact_mod_cast Iff.rfl
  obtain ⟨hfin, hval⟩ := toRat_nearest (s < 0) s.natAbs hd (by rwa [habs])
  rw [habs, withSign_rounded_abs hsign] at hval
  exact ⟨hfin, hval⟩

theorem toRat_ofInt (n : ℤ) (h : rounded |(n : ℚ)| < limit) :
    (ofInt n).IsFinite ∧ (ofInt n).toRat = rounded n := by
  have hone : (n : ℚ) / (1 : ℕ) = n := by rw [Nat.cast_one, div_one]
  have hspec := toRat_nearest_natAbs n one_pos (by rwa [hone])
  rwa [hone] at hspec

theorem ofInt_eq_infinity {n : ℤ} (h : limit ≤ rounded |(n : ℚ)|) :
    ofInt n = .infinity (n < 0) := by
  have habs : ((n.natAbs : ℕ) : ℚ) / (1 : ℕ) = |(n : ℚ)| := by
    rw [Nat.cast_one, div_one, Nat.cast_natAbs, Int.cast_abs]
  exact nearest_eq_infinity _ _ one_pos (by rwa [habs])

/-! ## Sums -/

/-- Sign of a sum of two finite numbers. -/
def sumIsNegative (x y : Binary64) : Bool :=
  if x.units + y.units = 0 then x.isNegative && y.isNegative else decide (x.units + y.units < 0)

theorem sumIsNegative_of_pos {x y : Binary64} (h : 0 < x.toRat + y.toRat) :
    sumIsNegative x y = false := by
  rw [toRat, toRat, ← add_div, lt_div_iff₀ unitsPerOne_cast_pos, zero_mul] at h
  have hpos : 0 < x.units + y.units := by exact_mod_cast h
  rw [sumIsNegative, if_neg hpos.ne']
  exact decide_eq_false (not_lt.2 hpos.le)

theorem add_of_isFinite {x y : Binary64} (hx : x.IsFinite) (hy : y.IsFinite) :
    x.add y = nearestUnits (sumIsNegative x y) (x.units + y.units).natAbs 1 := by
  obtain ⟨s, m, e, hm, rfl⟩ := hx
  obtain ⟨t, k, f, hk, rfl⟩ := hy
  rfl

theorem abs_sum_units (x y : Binary64) :
    (((x.units + y.units).natAbs : ℕ) : ℚ) / (1 : ℕ) / unitsPerOne = |x.toRat + y.toRat| := by
  rw [Nat.cast_one, div_one, Nat.cast_natAbs, Int.cast_abs, toRat, toRat, ← add_div, abs_div,
    abs_of_pos unitsPerOne_cast_pos]
  push_cast
  rfl

theorem withSign_sum (x y : Binary64) :
    withSign (sumIsNegative x y) (rounded |x.toRat + y.toRat|) = rounded (x.toRat + y.toRat) := by
  have hsum : x.toRat + y.toRat = ((x.units + y.units : ℤ) : ℚ) / unitsPerOne := by
    rw [toRat, toRat, ← add_div]
    push_cast
    rfl
  rw [sumIsNegative]
  split
  · -- a zero sum may have either sign
    rename_i hzero
    rw [hsum, hzero, Int.cast_zero, zero_div, abs_zero, rounded_zero]
    cases x.isNegative && y.isNegative
    · rfl
    · exact neg_zero
  · apply withSign_rounded_abs
    rw [decide_eq_true_iff, hsum, div_lt_iff₀ unitsPerOne_cast_pos, zero_mul]
    exact_mod_cast Iff.rfl

/-- The sum of two finite numbers is the rounded sum of their values. -/
theorem toRat_add {x y : Binary64} (hx : x.IsFinite) (hy : y.IsFinite)
    (h : rounded |x.toRat + y.toRat| < limit) :
    (x.add y).IsFinite ∧ (x.add y).toRat = rounded (x.toRat + y.toRat) := by
  have habs := abs_sum_units x y
  have hspec := toRat_nearestUnits (sumIsNegative x y) (x.units + y.units).natAbs one_pos
    (by rwa [habs])
  rwa [habs, withSign_sum, ← add_of_isFinite hx hy] at hspec

theorem add_eq_infinity {x y : Binary64} (hx : x.IsFinite) (hy : y.IsFinite)
    (h : limit ≤ rounded |x.toRat + y.toRat|) :
    x.add y = .infinity (sumIsNegative x y) := by
  rw [add_of_isFinite hx hy]
  exact nearestUnits_eq_infinity _ _ one_pos (by rwa [abs_sum_units])

theorem toRat_sub {x y : Binary64} (hx : x.IsFinite) (hy : y.IsFinite)
    (h : rounded |x.toRat - y.toRat| < limit) :
    (x.sub y).IsFinite ∧ (x.sub y).toRat = rounded (x.toRat - y.toRat) := by
  have hneg : x.toRat + y.neg.toRat = x.toRat - y.toRat := by rw [toRat_neg, sub_eq_add_neg]
  have hspec := toRat_add hx (isFinite_neg hy) (by rwa [hneg])
  rwa [hneg] at hspec

/-! ## Products -/

theorem mul_of_isFinite {x y : Binary64} (hx : x.IsFinite) (hy : y.IsFinite) :
    x.mul y =
      nearestUnits (x.isNegative != y.isNegative) (x.magnitude * y.magnitude) unitsPerOne := by
  obtain ⟨s, m, e, hm, rfl⟩ := hx
  obtain ⟨t, k, f, hk, rfl⟩ := hy
  rfl

theorem withSign_mul (x y : Binary64) :
    withSign (x.isNegative != y.isNegative) (rounded (|x.toRat| * |y.toRat|)) =
      rounded (x.toRat * y.toRat) := by
  rw [abs_toRat, abs_toRat, toRat_eq_withSign x, toRat_eq_withSign y]
  cases x.isNegative <;> cases y.isNegative <;> simp [withSign, rounded_neg]

/-- The product of two finite numbers is the rounded product of their values. -/
theorem toRat_mul {x y : Binary64} (hx : x.IsFinite) (hy : y.IsFinite)
    (h : rounded |x.toRat * y.toRat| < limit) :
    (x.mul y).IsFinite ∧ (x.mul y).toRat = rounded (x.toRat * y.toRat) := by
  have habs : ((x.magnitude * y.magnitude : ℕ) : ℚ) / unitsPerOne / unitsPerOne =
      |x.toRat| * |y.toRat| := by
    rw [abs_toRat, abs_toRat, Nat.cast_mul]
    ring
  have hspec := toRat_nearestUnits (x.isNegative != y.isNegative) (x.magnitude * y.magnitude)
    unitsPerOne_pos (by rwa [habs, ← abs_mul])
  rwa [habs, withSign_mul, ← mul_of_isFinite hx hy] at hspec

/-! ## Integer part and fraction -/

theorem floor_abs_toRat (x : Binary64) :
    ⌊|x.toRat|⌋ = ((x.magnitude / unitsPerOne : ℕ) : ℤ) := by
  rw [abs_toRat, Rat.floor_natCast_div_natCast]
  rfl

theorem towardZero_neg (q : ℚ) : towardZero (-q) = -towardZero q := by
  unfold towardZero
  rcases lt_trichotomy q 0 with hneg | rfl | hpos
  · rw [if_pos (by linarith), if_neg (by linarith), Int.floor_neg]
  · simp
  · rw [if_neg (by linarith), if_pos hpos.le, Int.ceil_neg]

theorem towardZero_withSign (negative : Bool) {q : ℚ} (h : 0 ≤ q) :
    towardZero (withSign negative q) = if negative then -⌊q⌋ else ⌊q⌋ := by
  have hpos : towardZero q = ⌊q⌋ := if_pos h
  cases negative
  · exact hpos
  · show towardZero (-q) = -⌊q⌋
    rw [towardZero_neg, hpos]

theorem toRat_eq_withSign_abs (x : Binary64) : x.toRat = withSign x.isNegative |x.toRat| := by
  rw [abs_toRat]
  exact toRat_eq_withSign x

theorem towardZero_toRat (x : Binary64) :
    towardZero x.toRat = if x.isNegative then -⌊|x.toRat|⌋ else ⌊|x.toRat|⌋ := by
  have h := towardZero_withSign x.isNegative (abs_nonneg x.toRat)
  rwa [← toRat_eq_withSign_abs] at h

theorem truncate_of_isFinite {x : Binary64} (h : x.IsFinite) :
    x.truncate = .ok (towardZero x.toRat) := by
  rw [towardZero_toRat, floor_abs_toRat]
  obtain ⟨s, m, e, hc, rfl⟩ := h
  rfl

/-- What is left after the point has no more bits. -/
theorem representable_fract {q : ℚ} (h : Representable q) (hq : 0 ≤ q) :
    Representable (Int.fract q) := by
  obtain ⟨m, e, hm, hval⟩ := h
  rcases le_or_gt e unitPlaces with he | he
  · -- the integer part is a multiple of the same spacing, so only the significand shrinks
    obtain ⟨k, hk⟩ := Nat.exists_eq_add_of_le he
    have hone : (2 : ℚ) ^ k * spacing e = 1 := by
      rw [← spacing_add, ← hk, spacing_eq_zpow, sub_self, zpow_zero]
    have hfract : Int.fract q = ((m - ⌊q⌋ * 2 ^ k : ℤ) : ℚ) * spacing e := by
      rw [Int.fract]
      push_cast
      rw [sub_mul, mul_assoc, hone, mul_one, ← hval]
    refine ⟨m - ⌊q⌋ * 2 ^ k, e, ?_, hfract⟩
    have hlow : 0 ≤ m - ⌊q⌋ * 2 ^ k := by
      have h0 := Int.fract_nonneg q
      rw [hfract] at h0
      exact_mod_cast nonneg_of_mul_nonneg_left h0 (spacing_pos e)
    have hfloor : 0 ≤ ⌊q⌋ * 2 ^ k := mul_nonneg (Int.floor_nonneg.2 hq) (by positivity)
    rw [abs_of_nonneg hlow]
    linarith [le_abs_self m]
  · -- numbers this large are integers
    obtain ⟨k, hk⟩ := Nat.exists_eq_add_of_lt he
    have hint : q = ((m * 2 ^ (k + 1) : ℤ) : ℚ) := by
      have hspacing : spacing e = 2 ^ (k + 1) := by
        rw [spacing_eq_zpow, hk, ← zpow_natCast]
        congr 1
        push_cast
        ring
      rw [hval, hspacing]
      push_cast
      rfl
    rw [hint, Int.fract_intCast]
    exact ⟨0, 0, by norm_num, by simp⟩

/-- The fraction is what is left of the number without its integer part, exactly. -/
theorem toRat_fraction (x : Binary64) :
    x.fraction.IsFinite ∧ x.fraction.toRat = x.toRat - towardZero x.toRat := by
  have hquot : ((x.magnitude % unitsPerOne : ℕ) : ℚ) / (1 : ℕ) / unitsPerOne =
      Int.fract |x.toRat| := by
    rw [Int.fract, floor_abs_toRat, Int.cast_natCast, abs_toRat, Nat.cast_one, div_one,
      eq_sub_iff_add_eq, div_add' _ _ _ unitsPerOne_cast_pos.ne']
    congr 1
    have := Nat.mod_add_div x.magnitude unitsPerOne
    rw [mul_comm] at this
    exact_mod_cast this
  have hrep := (representable_toRat x).abs
  have hfract := rounded_of_representable (representable_fract hrep (abs_nonneg _))
  have hlt : rounded (Int.fract |x.toRat|) < limit :=
    rounded_lt_limit (k := 0) (by decide) (by decide) (by
      rw [zpow_zero]
      exact (Int.fract_lt_one _).le)
  have hspec := toRat_nearestUnits x.isNegative (x.magnitude % unitsPerOne) one_pos
    (by rwa [hquot])
  rw [hquot, hfract] at hspec
  refine ⟨hspec.1, ?_⟩
  rw [fraction, hspec.2, towardZero_toRat]
  -- the integer part is taken off the magnitude, and both keep the sign
  nth_rewrite 2 [toRat_eq_withSign_abs x]
  unfold withSign
  split
  · push_cast
    rw [Int.fract]
    ring
  · rw [Int.fract]

end RandomDelay.Binary64
