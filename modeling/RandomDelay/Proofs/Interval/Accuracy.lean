import RandomDelay.Proofs.Binary64.Nearest
import RandomDelay.Proofs.Interval.Coverage

/-!
# Accuracy of samples

The offset of a sample is meant to be the span times the draw. Its way there has two roundings to
binary64, of the span and of the product, then the cut to a whole number of microseconds and the
bound below the span. The greatest draw is a 53rd binary place below one, and this leaves room for
the product of the two relative errors: together the roundings are off by at most the 52nd binary
place of the span (`Binary64.abs_rounded_mul_sub_le`). The cut adds less than one microsecond, and
the bound moves the offset only towards the exact product (`abs_offsetAt_sub_lt`).

A span of at most 53 bits is not rounded itself, and rounding the product does not pass a whole
number. So the offset is the whole part of the exact product or one more, and `offset_accuracy` puts
both statements together.
-/

set_option autoImplicit false

namespace RandomDelay

open RandomDelay.Binary64

namespace Binary64

/-- The greatest number of the format below one is a 53rd binary place away. -/
theorem InUnit.toRat_le {r : Binary64} (h : r.InUnit) : r.toRat ≤ 1 - 1 / 2 ^ 53 := by
  have hspacing : spacing 1021 = 1 / 2 ^ 53 := by
    rw [spacing_eq_zpow, unitPlaces]
    norm_num
  have hone : ((2 ^ 53 : ℤ) : ℚ) * spacing 1021 = 1 := by
    rw [hspacing]
    norm_num
  have hlt : r.toRat < ((2 ^ 53 : ℤ) : ℚ) * spacing 1021 := by
    rw [hone]
    exact h.2.2
  have hle := (representable_toRat r).le_sub_spacing (by norm_num) hlt
  rwa [sub_mul, hone, one_mul, hspacing] at hle

/-- The error that rounding adds on the first grid is far below one. -/
theorem spacing_zero_le : spacing 0 ≤ 1 / 2 ^ 110 := by
  have hpow : spacing 0 = 2 ^ (-1074 : ℤ) := spacing_eq_zpow 0
  rw [hpow, one_div, ← zpow_natCast, ← zpow_neg]
  exact zpow_le_zpow_right₀ (by norm_num) (by norm_num)

/-- Rounding a factor and then its product with a draw is off by at most the 52nd binary place of
the factor. -/
theorem abs_rounded_mul_sub_le {s r : ℚ} (hs : 1 ≤ s) (h0 : 0 ≤ r) (h1 : r ≤ 1 - 1 / 2 ^ 53) :
    |rounded (rounded s * r) - s * r| ≤ s / 2 ^ 52 := by
  have hunit := spacing_zero_le
  have hunit0 := spacing_pos 0
  have hfactor := abs_rounded_sub_le_add s
  have hproduct := abs_rounded_sub_le_add (rounded s * r)
  generalize spacing 0 = unit at hunit hunit0 hfactor hproduct
  rw [abs_of_nonneg (zero_le_one.trans hs)] at hfactor
  rw [abs_of_nonneg (mul_nonneg (rounded_nonneg (zero_le_one.trans hs)) h0)] at hproduct
  -- the error of the factor is scaled down by the draw
  have hscaled : |rounded s * r - s * r| ≤ s * r / 2 ^ 53 + unit / 2 := by
    rw [← sub_mul, abs_mul, abs_of_nonneg h0]
    have hpart : unit / 2 * r ≤ unit / 2 := mul_le_of_le_one_right (by linarith) (by linarith)
    calc |rounded s - s| * r ≤ (s / 2 ^ 53 + unit / 2) * r := mul_le_mul_of_nonneg_right hfactor h0
      _ = s * r / 2 ^ 53 + unit / 2 * r := by ring
      _ ≤ s * r / 2 ^ 53 + unit / 2 := by linarith
  have hexact : s * r ≤ s - s / 2 ^ 53 := by
    calc s * r ≤ s * (1 - 1 / 2 ^ 53) := mul_le_mul_of_nonneg_left h1 (by linarith)
      _ = s - s / 2 ^ 53 := by ring
  have hrounded := (abs_le.1 hscaled).2
  -- the draw leaves the factor a 53rd place of itself, which is more than both errors together take
  -- of the 106th
  calc |rounded (rounded s * r) - s * r| ≤
        |rounded (rounded s * r) - rounded s * r| + |rounded s * r - s * r| := abs_sub_le _ _ _
    _ ≤ s / 2 ^ 52 := by linarith

end Binary64

namespace Interval

variable {i : Interval} {r : Binary64}

/-- The offset is less than a microsecond and the 52nd binary place of the span away from the exact
product. -/
theorem abs_offsetAt_sub_lt (hspan : 1 ≤ i.span.micros) (hr : r.InUnit) :
    |(i.offsetAt r.toRat : ℚ) - i.span.micros * r.toRat| < 1 + i.span.micros / 2 ^ 52 := by
  have hs : (1 : ℚ) ≤ i.span.micros := by exact_mod_cast hspan
  have herror := abs_le.1 (abs_rounded_mul_sub_le hs hr.2.1 hr.toRat_le)
  rw [offsetAt]
  generalize rounded (rounded i.span.micros * r.toRat) = product at herror
  have hfloor := Int.floor_le product
  have hfloor' := Int.lt_floor_add_one product
  rcases min_cases ⌊product⌋ (i.span.micros - 1) with ⟨hmin, -⟩ | ⟨hmin, hless⟩
  · -- the whole part of the rounded product is less than one below it
    rw [hmin, abs_lt]
    constructor <;> linarith
  · -- the bound is less than one below the exact product, which is below the span, and the whole
    -- part is above it
    have hexact : (i.span.micros : ℚ) * r.toRat < i.span.micros :=
      mul_lt_of_lt_one_right (by linarith) hr.2.2
    have hcut : ((i.span.micros - 1 : ℤ) : ℚ) < ⌊product⌋ := by exact_mod_cast hless
    rw [hmin, abs_lt]
    push_cast at hcut ⊢
    constructor <;> linarith

/-- Rounding does not take the offset of a span of at most 53 bits past a whole number. -/
theorem offsetAt_le {m : ℤ} (hspan : i.span.micros ≤ 2 ^ 53) (hm : 0 ≤ m) (hsize : m ≤ 2 ^ 53)
    {q : ℚ} (h : i.span.micros * q ≤ m) : i.offsetAt q ≤ m := by
  have hrep : Representable (m : ℚ) := representable_intCast (by rwa [abs_of_nonneg hm])
  have hfloor : ⌊rounded (rounded i.span.micros * q)⌋ ≤ m := by
    have hle : rounded (i.span.micros * q) ≤ m := rounded_le hrep h
    rw [rounded_span hspan]
    exact_mod_cast (Int.floor_le _).trans hle
  exact (min_le_left _ _).trans hfloor

/-- The offset of a span of at most 53 bits is the whole part of the exact product, or one more. -/
theorem offsetAt_eq_floor_or (hspan : 1 ≤ i.span.micros) (hsize : i.span.micros ≤ 2 ^ 53)
    (hr : r.InUnit) :
    i.offsetAt r.toRat = ⌊(i.span.micros : ℚ) * r.toRat⌋ ∨
      i.offsetAt r.toRat = ⌊(i.span.micros : ℚ) * r.toRat⌋ + 1 := by
  have hs : (1 : ℚ) ≤ i.span.micros := by exact_mod_cast hspan
  have hnonneg : 0 ≤ (i.span.micros : ℚ) * r.toRat := mul_nonneg (by linarith) hr.2.1
  have hfloor := Int.floor_nonneg.2 hnonneg
  have hbelow : ⌊(i.span.micros : ℚ) * r.toRat⌋ < i.span.micros := by
    rw [Int.floor_lt]
    exact mul_lt_of_lt_one_right (by linarith) hr.2.2
  obtain ⟨m, hm⟩ := Int.eq_ofNat_of_zero_le hfloor
  have hlow : (m : ℤ) ≤ i.offsetAt r.toRat := by
    apply le_offsetAt hsize (by omega)
    have := Int.floor_le ((i.span.micros : ℚ) * r.toRat)
    rw [hm] at this
    exact_mod_cast this
  have hhigh : i.offsetAt r.toRat ≤ ⌊(i.span.micros : ℚ) * r.toRat⌋ + 1 := by
    apply offsetAt_le hsize (by omega) (by omega)
    push_cast
    exact (Int.lt_floor_add_one _).le
  omega

/-- A sample of a draw `r` of `[0, 1)` is the lower bound and an offset, cut at the longest
duration. The offset stays below the span, and is less than a microsecond and the 52nd binary place
of the span away from the span times `r`. If the span has at most 53 bits, the offset is the whole
part of this product or one more. -/
theorem offset_accuracy (i : Interval) (hspan : 1 ≤ i.span.micros) (source : Source)
    (hr : source.next.1.InUnit) :
    ∃ (k : ℤ) (v : Duration), i.offset source.next.1 = .ok k ∧ (i.sample source).1 = .ok v ∧
      v.micros = min Duration.longest.micros (i.lower.micros + k) ∧
      (0 ≤ k ∧ k ≤ i.span.micros - 1) ∧
      |(k : ℚ) - i.span.micros * source.next.1.toRat| < 1 + i.span.micros / 2 ^ 52 ∧
      (i.span.micros ≤ 2 ^ 53 →
        k = ⌊(i.span.micros : ℚ) * source.next.1.toRat⌋ ∨
          k = ⌊(i.span.micros : ℚ) * source.next.1.toRat⌋ + 1) := by
  obtain ⟨v, hv, -, hmicros⟩ := i.sample_eq_ok hr
  have hbelow := i.offsetAt_lt_span source.next.1.toRat
  refine ⟨i.offsetAt source.next.1.toRat, v, i.offset_eq_ok hr, hv, hmicros hspan, ⟨?_, ?_⟩, ?_, ?_⟩
  · exact offsetAt_nonneg hspan hr.2.1
  · omega
  · exact abs_offsetAt_sub_lt hspan hr
  · intro hsize
    exact offsetAt_eq_floor_or hspan hsize hr

/-- A third of three microseconds is rounded up to a whole one, although the exact product is
less. -/
theorem offset_accuracy_third :
    let i : Interval := ⟨.zero, ⟨3, by decide⟩, by decide, by decide⟩
    let r : Binary64 := nearest false 1 3
    r.InUnit ∧ i.offset r = .ok 1 ∧ ⌊(3 : ℚ) * r.toRat⌋ = 0 ∧
      |(1 : ℚ) - 3 * r.toRat| < 1 + 3 / 2 ^ 52 := by
  intro i r
  have hr : r.InUnit := by decide +kernel
  have hfloor : ⌊(3 : ℚ) * r.toRat⌋ = 0 := by decide +kernel
  have hoffset : i.offset r = .ok 1 := by decide +kernel
  have hspan : (i.span.micros : ℚ) = 3 := Int.cast_ofNat 3
  have hspec := offset_accuracy i (by decide) (.constant r) (by rwa [Source.next_constant])
  rw [Source.next_constant] at hspec
  obtain ⟨k, -, hk, -, -, -, herror, -⟩ := hspec
  obtain rfl : k = 1 := Except.ok.inj (hk.symm.trans hoffset)
  rw [hspan, Int.cast_one] at herror
  exact ⟨hr, hoffset, hfloor, herror⟩

end Interval

end RandomDelay
