import RandomDelay.Proofs.Binary64.Rounded

/-!
# Distances on the grid of binary64

Around a number that is not among the least ones the spacing of the grid is at most the 52nd binary
place of the number (`two_pow_mul_ulp_le_abs`), so rounding is off by at most the 53rd
(`abs_rounded_sub_le_add`), and by half a unit where the spacing is the least.

No number of the format is nearer than the rounded one (`abs_rounded_sub_le_abs_sub`); a number that
is rounded below another one of the format lies below the middle between the two
(`two_mul_le_of_rounded_lt`). From a power of two on, different numbers of the format are a spacing
apart (`Representable.add_spacing_le`), so of four numbers that are close together two are rounded
to the same (`rounded_eq_of_close`).
-/

set_option autoImplicit false

namespace RandomDelay.Binary64

open RandomDelay.Rounding

/-! ## Relative error -/

/-- A number that is not rounded on the first grid has 53 bits before the point of its own. -/
theorem two_pow_mul_ulp_le_abs {q : ℚ} (h : exponent q ≠ 0) : 2 ^ 52 * ulp q ≤ |q| := by
  obtain ⟨e, he⟩ : ∃ e, exponent q = e + 1 := Nat.exists_eq_succ_of_ne_zero h
  have hnot : ¬ exponent q ≤ e := by omega
  rw [exponent_le_iff, not_lt] at hnot
  calc 2 ^ 52 * ulp q = 2 ^ 53 * spacing e := by
        rw [ulp, he, spacing_add]
        ring
    _ ≤ |q| := hnot

/-- Rounding is off by at most the 53rd binary place of the number, or by half a unit. -/
theorem abs_rounded_sub_le_add (q : ℚ) : |rounded q - q| ≤ |q| / 2 ^ 53 + spacing 0 / 2 := by
  have herror := abs_rounded_sub_le_half_ulp q
  have hunit := spacing_pos 0
  by_cases h : exponent q = 0
  · have hulp : ulp q = spacing 0 := by rw [ulp, h]
    have hplace : 0 ≤ |q| / 2 ^ 53 := by positivity
    linarith
  · have hplace := two_pow_mul_ulp_le_abs h
    linarith

/-! ## Nearest numbers -/

/-- A number of the format is a multiple of a spacing, unless it comes before the grid with that
spacing begins. -/
theorem Representable.multiple_or_le {y : ℚ} (hy : Representable y) (e : ℕ) :
    (∃ n : ℤ, y = n * spacing e) ∨ (e ≠ 0 ∧ |y| ≤ 2 ^ 52 * spacing e) := by
  obtain ⟨m, f, hm, rfl⟩ := hy
  rcases le_or_gt e f with hle | hlt
  · -- a coarser grid is part of the finer one
    left
    obtain ⟨k, rfl⟩ := Nat.exists_eq_add_of_le hle
    refine ⟨m * 2 ^ k, ?_⟩
    rw [spacing_add]
    push_cast
    ring
  · right
    obtain ⟨k, rfl⟩ := Nat.exists_eq_add_of_lt hlt
    have hmq : |(m : ℚ)| ≤ 2 ^ 53 := by exact_mod_cast hm
    have hfine : spacing (f + 1) ≤ spacing (f + k + 1) := spacing_le_spacing (by omega)
    refine ⟨Nat.succ_ne_zero _, ?_⟩
    rw [abs_mul, abs_of_pos (spacing_pos f)]
    calc |(m : ℚ)| * spacing f ≤ 2 ^ 53 * spacing f :=
          mul_le_mul_of_nonneg_right hmq (spacing_pos f).le
      _ = 2 ^ 52 * spacing (f + 1) := by
          rw [spacing_add]
          ring
      _ ≤ 2 ^ 52 * spacing (f + k + 1) := mul_le_mul_of_nonneg_left hfine (by norm_num)

/-- No multiple of the spacing around a number is nearer than the rounded one. -/
theorem abs_rounded_sub_le_abs_mul_sub (q : ℚ) (n : ℤ) : |rounded q - q| ≤ |n * ulp q - q| := by
  have hscale : ∀ t : ℚ, t * ulp q - q = (t - q / ulp q) * ulp q := by
    intro t
    rw [sub_mul, div_mul_cancel₀ _ (ulp_pos q).ne']
  rw [rounded, hscale, hscale, abs_mul, abs_mul]
  exact mul_le_mul_of_nonneg_right (abs_nearestInt_sub_le_abs_sub _ n) (abs_nonneg _)

/-- No number of the format is nearer than the rounded one. -/
theorem abs_rounded_sub_le_abs_sub {q y : ℚ} (hy : Representable y) :
    |rounded q - q| ≤ |y - q| := by
  rcases hy.multiple_or_le (exponent q) with ⟨n, rfl⟩ | ⟨h0, hfine⟩
  · exact abs_rounded_sub_le_abs_mul_sub q n
  · -- the power of two where the grid of `q` begins lies between `y` and `q`
    have hcoarse : 2 ^ 52 * ulp q ≤ |q| := two_pow_mul_ulp_le_abs h0
    obtain ⟨n, hn⟩ : ∃ n : ℤ, |n * ulp q - q| = |q| - 2 ^ 52 * ulp q := by
      rcases le_total 0 q with hq | hq
      · rw [abs_of_nonneg hq] at hcoarse ⊢
        refine ⟨2 ^ 52, ?_⟩
        rw [abs_sub_comm, Int.cast_pow, Int.cast_ofNat, abs_of_nonneg (sub_nonneg.2 hcoarse)]
      · rw [abs_of_nonpos hq] at hcoarse ⊢
        refine ⟨-2 ^ 52, ?_⟩
        rw [Int.cast_neg, Int.cast_pow, Int.cast_ofNat, abs_of_nonneg (by linarith)]
        ring
    calc |rounded q - q| ≤ |n * ulp q - q| := abs_rounded_sub_le_abs_mul_sub q n
      _ = |q| - 2 ^ 52 * ulp q := hn
      _ ≤ |q| - |y| := sub_le_sub_left hfine _
      _ ≤ |q - y| := abs_sub_abs_le_abs_sub q y
      _ = |y - q| := abs_sub_comm q y

/-- What is rounded below a number of the format lies below the middle. -/
theorem two_mul_le_of_rounded_lt {q y : ℚ} (hy : Representable y) (h : rounded q < y) :
    2 * q ≤ rounded q + y := by
  have hle : q ≤ y := by
    by_contra hlt
    exact absurd (le_rounded hy (not_le.1 hlt).le) (not_le.2 h)
  have hnear := (abs_le.1 (abs_rounded_sub_le_abs_sub (q := q) hy)).1
  rw [abs_of_nonneg (sub_nonneg.2 hle)] at hnear
  linarith

/-- What is rounded above a number of the format lies above the middle. -/
theorem le_two_mul_of_lt_rounded {q y : ℚ} (hy : Representable y) (h : y < rounded q) :
    y + rounded q ≤ 2 * q := by
  have hneg : rounded (-q) < -y := by
    rw [rounded_neg]
    exact neg_lt_neg h
  have := two_mul_le_of_rounded_lt hy.neg hneg
  rw [rounded_neg] at this
  linarith

/-- From the power of two on where a grid begins, different numbers of the format are its spacing
apart. -/
theorem Representable.add_spacing_le {x y : ℚ} {e : ℕ} (hx : Representable x) (hy : Representable y)
    (hlow : 2 ^ 52 * spacing e ≤ x) (h : x < y) : x + spacing e ≤ y := by
  rcases hy.multiple_or_le e with ⟨n, rfl⟩ | ⟨-, hle⟩
  · have hn : (2 : ℚ) ^ 52 < n := lt_of_mul_lt_mul_right (hlow.trans_lt h) (spacing_pos e).le
    have hsub := hx.le_sub_spacing (by exact_mod_cast hn) h
    linarith
  · have habs := le_abs_self y
    linarith

/-- Of four numbers that are less than two spacings apart, two neighbours are rounded to the same
number. The outer ones lie beyond the middles of the numbers that all four would have to be rounded
to. -/
theorem rounded_eq_of_close {q₀ q₁ q₂ q₃ : ℚ} {e : ℕ} (h₁ : q₀ ≤ q₁) (h₂ : q₁ ≤ q₂) (h₃ : q₂ ≤ q₃)
    (hlow : 2 ^ 52 * spacing e ≤ q₀) (hclose : q₃ - q₀ < 2 * spacing e) :
    rounded q₀ = rounded q₁ ∨ rounded q₁ = rounded q₂ ∨ rounded q₂ = rounded q₃ := by
  by_contra hne
  obtain ⟨hne₁, hne₂, hne₃⟩ : rounded q₀ ≠ rounded q₁ ∧ rounded q₁ ≠ rounded q₂ ∧
      rounded q₂ ≠ rounded q₃ := by
    simpa only [not_or] using hne
  have hlt₁ := lt_of_le_of_ne (rounded_mono h₁) hne₁
  have hlt₂ := lt_of_le_of_ne (rounded_mono h₂) hne₂
  have hlt₃ := lt_of_le_of_ne (rounded_mono h₃) hne₃
  have hstart : 2 ^ 52 * spacing e ≤ rounded q₀ :=
    le_rounded ⟨2 ^ 52, e, by norm_num, by push_cast; rfl⟩ hlow
  have hgap₁ := (representable_rounded q₀).add_spacing_le (representable_rounded q₁) hstart hlt₁
  have hgap₂ := (representable_rounded q₁).add_spacing_le (representable_rounded q₂)
    (hstart.trans hlt₁.le) hlt₂
  have hgap₃ := (representable_rounded q₂).add_spacing_le (representable_rounded q₃)
    (hstart.trans (hlt₁.trans hlt₂).le) hlt₃
  have hfirst := two_mul_le_of_rounded_lt (representable_rounded q₁) hlt₁
  have hlast := le_two_mul_of_lt_rounded (representable_rounded q₂) hlt₃
  linarith

end RandomDelay.Binary64
