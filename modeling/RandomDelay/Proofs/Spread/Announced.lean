import RandomDelay.Proofs.Spread.Margin
import RandomDelay.Spread

/-!
# Announced bounds of a spread

The bounds of a spread are announced in terms of the delay as it was given (`announcedLower`,
`announcedUpper`); the computation has a nominal delay in its place that is never negative. Where
the announced upper bound is at most `greatestUpper`, all numbers of the spread are moderate and
their values are those of a `Moderate` spread (`facts_of_announcedUpper`). The announced lower bound
then exists and has the value that the computation has for it (`exists_announcedLower`).
-/

set_option autoImplicit false

namespace RandomDelay.Spread

open RandomDelay.Binary64 RandomDelay.Number

/-- Lower bound in terms of the delay as it was given. -/
def announcedLower (s : Spread) : Except ArithmeticError Number :=
  if s.delay.lt (.whole 0) then .ok s.minimum
  else do return s.minimum.larger (← s.delay.sub s.width)

/-- Upper bound in terms of the delay as it was given. -/
def announcedUpper (s : Spread) : Except ArithmeticError Number :=
  if s.delay.lt (.whole 0) then s.minimum.add s.width
  else (s.minimum.larger s.delay).add s.width

/-- A millionth of a second in binary64, which is a little less than one. -/
def leastWidth : Number := .float (.nearest false 1 1000000)

/-- Upper bound of the spreads that keep both of their bounds. -/
def greatestUpper : Number := .whole 2147483648

/-! ## Values of the bounds -/

theorem toRat_leastWidth : leastWidth.IsFinite ∧ 99 / 10 ^ 8 ≤ leastWidth.toRat := by
  have hlt : rounded (((1 : ℕ) : ℚ) / (1000000 : ℕ)) < limit :=
    rounded_lt_limit (k := 0) (by decide) (by decide) (by norm_num)
  obtain ⟨hfin, hval⟩ := toRat_nearest false 1 (d := 1000000) (by decide) hlt
  have hsize : |((1 : ℕ) : ℚ) / (1000000 : ℕ)| ≤ 2 ^ (0 : ℤ) := by norm_num
  have herr := (abs_le.1 (abs_rounded_sub_le (by decide) hsize)).1
  refine ⟨hfin, ?_⟩
  have htoRat : leastWidth.toRat = rounded (((1 : ℕ) : ℚ) / (1000000 : ℕ)) := hval
  rw [htoRat]
  norm_num at herr ⊢
  linarith

/-- A width of a millionth of a second is positive. -/
theorem zero_lt_of_leastWidth_le {w : Number} (h : leastWidth.le w = true) :
    (whole 0).lt w = true := by
  obtain ⟨hfin, hval⟩ := toRat_leastWidth
  have hpos : (whole 0).toRat < leastWidth.toRat := by
    have hzero : (whole 0).toRat = 0 := Int.cast_zero
    rw [hzero]
    exact (by norm_num : (0 : ℚ) < 99 / 10 ^ 8).trans_le hval
  exact lt_of_lt_of_le ((lt_iff (isFinite_whole 0) hfin).2 hpos) h

/-- Numbers up to the greatest upper bound are moderate. -/
theorem isModerate_of_le {a : Number} (ha : a.IsFinite) (h0 : 0 ≤ a.toRat) (h : a.toRat ≤ 2 ^ 31) :
    a.IsModerate := by
  refine ⟨ha, ?_⟩
  rw [abs_of_nonneg h0]
  exact h.trans (by norm_num)

/-- What the announced upper bound of a spread says about the numbers that the computation uses. -/
structure Facts (s : Spread) (upper : Number) : Prop where
  minimum_isModerate : s.minimum.IsModerate
  nominal_isModerate : s.nominal.IsModerate
  width_isModerate : s.width.IsModerate
  upper_isFinite : upper.IsFinite
  upper_eq : upper.toRat = upperValue s.minimum.toRat s.nominal.toRat s.width.toRat
  moderate : Moderate s.minimum.toRat s.nominal.toRat s.width.toRat

/-- The facts follow from the sizes of the terms of the upper bound. -/
theorem facts_of_larger {s : Spread} {upper larger : Number} (hmin : (whole 0).le s.minimum = true)
    (hwidth : leastWidth.le s.width = true) (hminfin : s.minimum.IsFinite)
    (hnomfin : s.nominal.IsFinite) (hwidthfin : s.width.IsFinite) (hnom0 : 0 ≤ s.nominal.toRat)
    (hlarger : larger.IsFinite) (hval : larger.toRat = max s.minimum.toRat s.nominal.toRat)
    (hlargerle : larger.toRat ≤ 2 ^ 31) (hwidthle : s.width.toRat ≤ 2 ^ 31)
    (hadd : larger.add s.width = .ok upper) (hle : upper.le greatestUpper = true) :
    Facts s upper := by
  obtain ⟨hleast, hleastval⟩ := toRat_leastWidth
  have hmin0 : 0 ≤ s.minimum.toRat := (zero_le_iff hminfin).1 hmin
  have hwidthge : 99 / 10 ^ 8 ≤ s.width.toRat :=
    hleastval.trans ((le_iff hleast hwidthfin).1 hwidth)
  have hminle : s.minimum.toRat ≤ 2 ^ 31 := (le_max_left _ _).trans (hval ▸ hlargerle)
  have hnomle : s.nominal.toRat ≤ 2 ^ 31 := (le_max_right _ _).trans (hval ▸ hlargerle)
  have hminmod := isModerate_of_le hminfin hmin0 hminle
  have hnommod := isModerate_of_le hnomfin hnom0 hnomle
  have hwidthmod :=
    isModerate_of_le hwidthfin ((by norm_num : (0 : ℚ) ≤ 99 / 10 ^ 8).trans hwidthge) hwidthle
  have hlarger0 : 0 ≤ larger.toRat := by
    rw [hval]
    exact hmin0.trans (le_max_left _ _)
  obtain ⟨c, hc, hcfin, hcval⟩ := exists_add (isModerate_of_le hlarger hlarger0 hlargerle) hwidthmod
  obtain rfl : upper = c := Except.ok.inj (hadd.symm.trans hc)
  rw [hval] at hcval
  have hgreatest : upper.toRat ≤ 2147483648 := by
    have h := (le_iff hcfin (isFinite_whole _)).1 hle
    exact_mod_cast h
  refine ⟨hminmod, hnommod, hwidthmod, hcfin, hcval, ?_⟩
  exact {
    minimum_nonneg := hmin0
    minimum_representable := representable_of_isModerate hminmod
    nominal_nonneg := hnom0
    nominal_representable := representable_of_isModerate hnommod
    larger_le := hval ▸ hlargerle
    width_ge := hwidthge
    width_le := hwidthle
    upper_le := by
      rw [upperValue, ← hcval]
      exact hgreatest.trans (by norm_num) }

theorem nominal_of_lt_zero {s : Spread} (h : s.delay.lt (.whole 0) = true) :
    s.nominal = .whole 0 := by
  rw [nominal, larger, lt_asymm h]
  rfl

theorem toRat_nominal {s : Spread} (hfin : s.delay.IsFinite) (h0 : (whole 0).le s.delay = true) :
    s.nominal.toRat = s.delay.toRat := by
  have hzero : (whole 0).toRat = 0 := Int.cast_zero
  rw [nominal, toRat_larger (isFinite_whole 0) hfin, hzero]
  exact max_eq_right ((zero_le_iff hfin).1 h0)

/-- A small announced upper bound makes all numbers of the spread moderate. -/
theorem facts_of_announcedUpper {s : Spread} {upper : Number} (hdelay : s.delay ≠ .float .nan)
    (hwidth : leastWidth.le s.width = true) (hmin : (whole 0).le s.minimum = true)
    (hupper : s.announcedUpper = .ok upper) (hle : upper.le greatestUpper = true) :
    Facts s upper := by
  have hwidth0 : (whole 0).le s.width = true := le_of_lt (zero_lt_of_leastWidth_le hwidth)
  have hbound : ((2147483648 : ℤ) : ℚ) = 2 ^ 31 := by norm_num
  by_cases hneg : s.delay.lt (.whole 0) = true
  · -- the least delay is the larger term, and only the sign of the delay is known
    rw [announcedUpper, if_pos hneg] at hupper
    obtain ⟨⟨hminfin, hminle⟩, ⟨hwidthfin, hwidthle⟩⟩ :=
      le_of_add_le hmin hwidth0 (by decide) (by decide) hupper hle
    rw [hbound] at hminle hwidthle
    have hnom := nominal_of_lt_zero hneg
    have hnomval : s.nominal.toRat = 0 := by
      rw [hnom]
      exact Int.cast_zero
    have hval : s.minimum.toRat = max s.minimum.toRat s.nominal.toRat := by
      rw [hnomval, max_eq_left ((zero_le_iff hminfin).1 hmin)]
    exact facts_of_larger hmin hwidth hminfin (hnom ▸ isFinite_whole 0) hwidthfin hnomval.ge hminfin
      hval hminle hwidthle hupper hle
  · rw [announcedUpper, if_neg hneg] at hupper
    have hdelay0 := zero_le_of_not_lt hdelay hneg
    obtain ⟨⟨hlargerfin, hlargerle⟩, ⟨hwidthfin, hwidthle⟩⟩ :=
      le_of_add_le (larger_nonneg hmin hdelay0) hwidth0 (by decide) (by decide) hupper hle
    rw [hbound] at hlargerle hwidthle
    obtain ⟨hminfin, hdelayfin⟩ := isFinite_of_isFinite_larger hmin hdelay0 hlargerfin
    have hnomfin : s.nominal.IsFinite := isFinite_larger (isFinite_whole 0) hdelayfin
    have hnomval := toRat_nominal hdelayfin hdelay0
    have hval : (s.minimum.larger s.delay).toRat = max s.minimum.toRat s.nominal.toRat := by
      rw [toRat_larger hminfin hdelayfin, hnomval]
    have hnom0 : 0 ≤ s.nominal.toRat := by
      rw [hnomval]
      exact (zero_le_iff hdelayfin).1 hdelay0
    exact facts_of_larger hmin hwidth hminfin hnomfin hwidthfin hnom0 hlargerfin hval hlargerle
      hwidthle hupper hle

/-- The announced lower bound has the value of the computed one. -/
theorem exists_announcedLower {s : Spread} {upper : Number} (h : Facts s upper)
    (hdelay : s.delay ≠ .float .nan) :
    ∃ lower, s.announcedLower = .ok lower ∧ lower.IsFinite ∧
      lower.toRat = lowerValue s.minimum.toRat s.nominal.toRat s.width.toRat := by
  by_cases hneg : s.delay.lt (.whole 0) = true
  · have hnomval : s.nominal.toRat = 0 := by
      rw [nominal_of_lt_zero hneg]
      exact Int.cast_zero
    refine ⟨s.minimum, if_pos hneg, h.minimum_isModerate.1, ?_⟩
    -- a delay before zero is not subtracted from, and no difference below zero is a lower bound
    have hmin0 := h.moderate.minimum_nonneg
    have hwidth := h.moderate.width_ge
    have hbelow : rounded (s.nominal.toRat - s.width.toRat) ≤ s.minimum.toRat := by
      apply rounded_le h.moderate.minimum_representable
      rw [hnomval]
      norm_num at hwidth
      linarith
    exact (max_eq_left hbelow).symm
  · have hdelay0 := zero_le_of_not_lt hdelay hneg
    obtain ⟨-, hdelayfin⟩ :=
      isFinite_of_isFinite_larger (by decide) hdelay0 h.nominal_isModerate.1
    have hnomval := toRat_nominal hdelayfin hdelay0
    have hdelaymod : s.delay.IsModerate := ⟨hdelayfin, hnomval ▸ h.nominal_isModerate.2⟩
    obtain ⟨below, hbelow, hbelowfin, hbelowval⟩ := exists_sub hdelaymod h.width_isModerate
    refine ⟨s.minimum.larger below, ?_, isFinite_larger h.minimum_isModerate.1 hbelowfin, ?_⟩
    · rw [announcedLower, if_neg hneg, hbelow]
      rfl
    · rw [toRat_larger h.minimum_isModerate.1 hbelowfin, hbelowval, hnomval]
      rfl

end RandomDelay.Spread
