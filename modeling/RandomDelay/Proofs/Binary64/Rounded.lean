import Mathlib.Algebra.Order.Field.Power
import Mathlib.Tactic.FieldSimp
import Mathlib.Tactic.Positivity
import Mathlib.Tactic.Ring
import RandomDelay.Binary64
import RandomDelay.Proofs.Rounding

/-!
# Rounding a rational to binary64

`rounded q` is the number nearest to `q` on the grid of the binary64 format, as if the format had no
greatest exponent. The grid has the spacing `ulp q` around `q`, which is determined by the number of
bits of `q` in units (`exponent_le_iff`).

Rounding keeps the order (`rounded_mono`) and the numbers of the grid (`rounded_of_representable`),
and is off by at most half the spacing (`abs_rounded_sub_le_half_ulp`). `abs_rounded_sub_le` states
the last bound for all numbers up to a power of two.
-/

set_option autoImplicit false

namespace RandomDelay.Binary64

open RandomDelay.Rounding

/-- Distance of two neighbouring numbers with the exponent `e`. -/
def spacing (e : ℕ) : ℚ := 2 ^ e / unitsPerOne

theorem unitsPerOne_cast_pos : (0 : ℚ) < unitsPerOne := by exact_mod_cast unitsPerOne_pos

theorem spacing_pos (e : ℕ) : 0 < spacing e := div_pos (by positivity) unitsPerOne_cast_pos

theorem spacing_add (e k : ℕ) : spacing (e + k) = 2 ^ k * spacing e := by
  unfold spacing
  rw [pow_add]
  ring

theorem spacing_le_spacing {e f : ℕ} (h : e ≤ f) : spacing e ≤ spacing f := by
  unfold spacing
  have hpow : (2 : ℚ) ^ e ≤ 2 ^ f := pow_le_pow_right₀ (by norm_num) h
  exact div_le_div_of_nonneg_right hpow unitsPerOne_cast_pos.le

/-- The exponent counts the binary places above the unit. -/
theorem spacing_eq_zpow (e : ℕ) : spacing e = 2 ^ ((e : ℤ) - unitPlaces) := by
  have hunits : (unitsPerOne : ℚ) = 2 ^ unitPlaces := by
    rw [unitsPerOne, Nat.one_shiftLeft]
    push_cast
    rfl
  rw [spacing, hunits, zpow_sub₀ (by norm_num), zpow_natCast, zpow_natCast]

/-- Exponent of the grid around a number: 53 bits of the number stay before the point, or fewer if
the number has fewer units. -/
def exponent (q : ℚ) : ℕ := ⌊|q| * unitsPerOne⌋₊.log2 - 52

/-- Spacing of the grid around a number. -/
def ulp (q : ℚ) : ℚ := spacing (exponent q)

/-- The number nearest to `q` on the grid around it, with ties to the even multiple of the
spacing. -/
def rounded (q : ℚ) : ℚ := nearestInt (q / ulp q) * ulp q

/-- Numbers on the grid of some exponent. -/
def Representable (q : ℚ) : Prop := ∃ (m : ℤ) (e : ℕ), |m| ≤ 2 ^ 53 ∧ q = m * spacing e

theorem ulp_pos (q : ℚ) : 0 < ulp q := spacing_pos _

theorem exponent_le_iff {q : ℚ} {e : ℕ} : exponent q ≤ e ↔ |q| < 2 ^ 53 * spacing e := by
  have hbits : exponent q ≤ e ↔ ⌊|q| * unitsPerOne⌋₊ < 2 ^ (53 + e) := by
    unfold exponent
    -- zero has no highest bit
    rcases Nat.eq_zero_or_pos ⌊|q| * unitsPerOne⌋₊ with h0 | hpos
    · rw [h0]
      exact iff_of_true (Nat.zero_le e) (Nat.two_pow_pos _)
    · rw [← Nat.log2_lt hpos.ne']
      omega
  have hpos : (0 : ℚ) < unitsPerOne := unitsPerOne_cast_pos
  rw [hbits, Nat.floor_lt (by positivity), spacing, ← lt_div_iff₀ hpos, pow_add]
  push_cast
  rw [mul_div_assoc]
  norm_num

theorem exponent_mono {q r : ℚ} (h : |q| ≤ |r|) : exponent q ≤ exponent r :=
  exponent_le_iff.2 (lt_of_le_of_lt h (exponent_le_iff.1 le_rfl))

theorem abs_lt_ulp (q : ℚ) : |q| < 2 ^ 53 * ulp q := exponent_le_iff.1 le_rfl

theorem ulp_neg (q : ℚ) : ulp (-q) = ulp q := by
  unfold ulp exponent
  rw [abs_neg]

theorem rounded_neg (q : ℚ) : rounded (-q) = -rounded q := by
  unfold rounded
  rw [ulp_neg, neg_div, nearestInt_neg]
  push_cast
  ring

theorem rounded_zero : rounded 0 = 0 := by
  have h : nearestInt 0 = 0 := by exact_mod_cast nearestInt_intCast 0
  rw [rounded, zero_div, h]
  simp

theorem abs_rounded_sub_le_half_ulp (q : ℚ) : |rounded q - q| ≤ ulp q / 2 := by
  have hpos := ulp_pos q
  have hsub : rounded q - q = (nearestInt (q / ulp q) - q / ulp q) * ulp q := by
    rw [rounded, sub_mul, div_mul_cancel₀ _ hpos.ne']
  rw [hsub, abs_mul, abs_of_pos hpos]
  calc |(nearestInt (q / ulp q) : ℚ) - q / ulp q| * ulp q ≤ 1 / 2 * ulp q :=
        mul_le_mul_of_nonneg_right (abs_nearestInt_sub_le _) hpos.le
    _ = ulp q / 2 := by ring

/-! ## Numbers of the grid -/

theorem Representable.neg {q : ℚ} (h : Representable q) : Representable (-q) := by
  obtain ⟨m, e, hm, rfl⟩ := h
  exact ⟨-m, e, by rwa [abs_neg], by push_cast; ring⟩

theorem Representable.abs {q : ℚ} (h : Representable q) : Representable |q| := by
  rcases abs_choice q with hpos | hneg
  · rwa [hpos]
  · rw [hneg]
    exact h.neg

/-- A number with few enough bits is on the grid around itself. -/
theorem rounded_of_exponent_le {m : ℤ} {e : ℕ} (h : exponent (m * spacing e) ≤ e) :
    rounded (m * spacing e) = m * spacing e := by
  obtain ⟨k, hk⟩ := Nat.exists_eq_add_of_le h
  have hulp : spacing e = 2 ^ k * ulp (m * spacing e) := by
    rw [ulp, ← spacing_add, ← hk]
  have hquot : (m * spacing e : ℚ) / ulp (m * spacing e) = ((m * 2 ^ k : ℤ) : ℚ) := by
    rw [div_eq_iff (ulp_pos _).ne']
    push_cast
    rw [mul_assoc, ← hulp]
  rw [rounded, hquot, nearestInt_intCast, ← hquot, div_mul_cancel₀ _ (ulp_pos _).ne']

theorem rounded_of_representable {q : ℚ} (h : Representable q) : rounded q = q := by
  obtain ⟨m, e, hm, rfl⟩ := h
  rcases lt_or_eq_of_le hm with hlt | htop
  · refine rounded_of_exponent_le (exponent_le_iff.2 ?_)
    rw [abs_mul, abs_of_pos (spacing_pos e)]
    refine mul_lt_mul_of_pos_right ?_ (spacing_pos e)
    exact_mod_cast hlt
  · -- the power of two above the grid is the first number of the next one
    obtain ⟨s, hs, habs⟩ : ∃ s : ℤ, m = s * 2 ∧ |s| = 2 ^ 52 := by
      rcases abs_choice m with hpos | hneg
      · exact ⟨2 ^ 52, by omega, by norm_num⟩
      · exact ⟨-2 ^ 52, by omega, by norm_num⟩
    have hnext : (m : ℚ) * spacing e = s * spacing (e + 1) := by
      rw [hs, spacing_add]
      push_cast
      ring
    rw [hnext]
    refine rounded_of_exponent_le (exponent_le_iff.2 ?_)
    rw [abs_mul, abs_of_pos (spacing_pos _)]
    refine mul_lt_mul_of_pos_right ?_ (spacing_pos _)
    have : |(s : ℚ)| = 2 ^ 52 := by exact_mod_cast habs
    rw [this]
    norm_num

theorem abs_nearestInt_le (q : ℚ) : |nearestInt (q / ulp q)| ≤ 2 ^ 53 := by
  have hquot : |q / ulp q| < 2 ^ 53 := by
    rw [abs_div, abs_of_pos (ulp_pos q), div_lt_iff₀ (ulp_pos q)]
    exact abs_lt_ulp q
  rw [abs_lt] at hquot
  have hlow := nearestInt_mono hquot.1.le
  have hhigh := nearestInt_mono hquot.2.le
  have hint : (2 : ℚ) ^ 53 = ((2 ^ 53 : ℤ) : ℚ) := by norm_num
  rw [nearestInt_neg, hint, nearestInt_intCast] at hlow
  rw [hint, nearestInt_intCast] at hhigh
  exact abs_le.2 ⟨hlow, hhigh⟩

theorem representable_rounded (q : ℚ) : Representable (rounded q) :=
  ⟨nearestInt (q / ulp q), exponent q, abs_nearestInt_le q, rfl⟩

/-- A whole number times a power of two is on the grid if it has at most 53 bits. -/
theorem representable_mul_zpow {m k : ℤ} (hm : |m| ≤ 2 ^ 53) (hk : -unitPlaces ≤ k) :
    Representable (m * 2 ^ k) := by
  refine ⟨m, (k + unitPlaces).toNat, hm, ?_⟩
  rw [spacing_eq_zpow, Int.toNat_of_nonneg (by omega), add_sub_cancel_right]

theorem representable_intCast {m : ℤ} (hm : |m| ≤ 2 ^ 53) : Representable (m : ℚ) := by
  have h := representable_mul_zpow hm (k := 0) (by decide)
  rwa [zpow_zero, mul_one] at h

theorem representable_zpow {k : ℤ} (hk : -unitPlaces ≤ k) : Representable ((2 : ℚ) ^ k) := by
  have h := representable_mul_zpow (m := 1) (by norm_num) hk
  rwa [Int.cast_one, one_mul] at h

/-! ## Order -/

/-- Rounding does not leave the grid upwards. -/
theorem rounded_le_of_exponent_le {q : ℚ} {e : ℕ} (h : exponent q ≤ e) :
    rounded q ≤ 2 ^ 53 * spacing e := by
  have hm : (nearestInt (q / ulp q) : ℚ) ≤ 2 ^ 53 := by
    exact_mod_cast (abs_le.1 (abs_nearestInt_le q)).2
  calc rounded q ≤ 2 ^ 53 * ulp q := mul_le_mul_of_nonneg_right hm (ulp_pos q).le
    _ ≤ 2 ^ 53 * spacing e := mul_le_mul_of_nonneg_left (spacing_le_spacing h) (by norm_num)

/-- Rounding does not go back below the end of the grid before. -/
theorem le_rounded_of_exponent_eq_succ {q : ℚ} {e : ℕ} (hq : 0 ≤ q) (h : exponent q = e + 1) :
    2 ^ 53 * spacing e ≤ rounded q := by
  have hulp : ulp q = 2 * spacing e := by
    rw [ulp, h, spacing_add, pow_one]
  have hsep : 2 ^ 53 * spacing e ≤ q := by
    have hnot : ¬ exponent q ≤ e := by omega
    rwa [exponent_le_iff, not_lt, abs_of_nonneg hq] at hnot
  have hquot : ((2 ^ 52 : ℤ) : ℚ) ≤ q / ulp q := by
    rw [le_div_iff₀ (ulp_pos q), hulp]
    push_cast
    linarith
  have hm := nearestInt_mono hquot
  rw [nearestInt_intCast] at hm
  have hmq : (2 : ℚ) ^ 52 ≤ nearestInt (q / ulp q) := by exact_mod_cast hm
  calc 2 ^ 53 * spacing e = 2 ^ 52 * ulp q := by rw [hulp]; ring
    _ ≤ rounded q := mul_le_mul_of_nonneg_right hmq (ulp_pos q).le

theorem rounded_mono_of_nonneg {q r : ℚ} (hq : 0 ≤ q) (h : q ≤ r) : rounded q ≤ rounded r := by
  have hr : 0 ≤ r := hq.trans h
  have hexp : exponent q ≤ exponent r := exponent_mono (by rwa [abs_of_nonneg hq, abs_of_nonneg hr])
  rcases lt_or_eq_of_le hexp with hlt | heq
  · -- the end of the lower grid separates the numbers
    obtain ⟨e, he⟩ : ∃ e, exponent r = e + 1 := ⟨exponent r - 1, by omega⟩
    calc rounded q ≤ 2 ^ 53 * spacing e := rounded_le_of_exponent_le (by omega)
      _ ≤ rounded r := le_rounded_of_exponent_eq_succ hr he
  · -- both are rounded on the same grid
    have hulp : ulp q = ulp r := by rw [ulp, ulp, heq]
    have hquot : q / ulp r ≤ r / ulp r := div_le_div_of_nonneg_right h (ulp_pos r).le
    rw [rounded, rounded, hulp]
    apply mul_le_mul_of_nonneg_right _ (ulp_pos r).le
    exact_mod_cast nearestInt_mono hquot

theorem rounded_nonneg {q : ℚ} (h : 0 ≤ q) : 0 ≤ rounded q := by
  have := rounded_mono_of_nonneg le_rfl h
  rwa [rounded_zero] at this

/-- Rounding keeps the order. -/
theorem rounded_mono {q r : ℚ} (h : q ≤ r) : rounded q ≤ rounded r := by
  rcases le_total 0 q with hq | hq
  · exact rounded_mono_of_nonneg hq h
  · have hq' : 0 ≤ rounded (-q) := rounded_nonneg (neg_nonneg.2 hq)
    rw [rounded_neg] at hq'
    rcases le_total 0 r with hr | hr
    · have := rounded_nonneg hr
      linarith
    · have := rounded_mono_of_nonneg (neg_nonneg.2 hr) (neg_le_neg h)
      rw [rounded_neg, rounded_neg] at this
      linarith

theorem le_rounded {q r : ℚ} (hq : Representable q) (h : q ≤ r) : q ≤ rounded r := by
  have := rounded_mono h
  rwa [rounded_of_representable hq] at this

theorem rounded_le {q r : ℚ} (hr : Representable r) (h : q ≤ r) : rounded q ≤ r := by
  have := rounded_mono h
  rwa [rounded_of_representable hr] at this

theorem abs_rounded_le {q r : ℚ} (hr : Representable r) (h : |q| ≤ r) : |rounded q| ≤ r := by
  obtain ⟨hlow, hhigh⟩ := abs_le.1 h
  exact abs_le.2 ⟨le_rounded hr.neg hlow, rounded_le hr hhigh⟩

/-- Below a number whose significand has no room to shrink, the next one is a spacing away. -/
theorem Representable.le_sub_spacing {q : ℚ} (hq : Representable q) {n : ℤ} {e : ℕ}
    (hn : 2 ^ 52 < n) (h : q < n * spacing e) : q ≤ (n - 1) * spacing e := by
  obtain ⟨m, f, hm, rfl⟩ := hq
  rcases le_or_gt e f with hle | hlt
  · -- both are multiples of the same spacing
    obtain ⟨k, rfl⟩ := Nat.exists_eq_add_of_le hle
    have hmult : (m : ℚ) * spacing (e + k) = ((m * 2 ^ k : ℤ) : ℚ) * spacing e := by
      rw [spacing_add]
      push_cast
      ring
    rw [hmult] at h ⊢
    have hint : m * 2 ^ k ≤ n - 1 := by
      have hcast := lt_of_mul_lt_mul_right h (spacing_pos e).le
      have hlt : m * 2 ^ k < n := by exact_mod_cast hcast
      omega
    exact mul_le_mul_of_nonneg_right (by exact_mod_cast hint) (spacing_pos e).le
  · -- the numbers of a finer grid end before
    obtain ⟨k, rfl⟩ := Nat.exists_eq_add_of_lt hlt
    have hfine : 2 * spacing f ≤ spacing (f + k + 1) := by
      rw [add_assoc, spacing_add]
      apply mul_le_mul_of_nonneg_right _ (spacing_pos f).le
      calc (2 : ℚ) = 2 ^ 1 := (pow_one 2).symm
        _ ≤ 2 ^ (k + 1) := pow_le_pow_right₀ (by norm_num) (by omega)
    have hmq : (m : ℚ) ≤ 2 ^ 53 := by exact_mod_cast (le_abs_self m).trans hm
    have hnq : (2 : ℚ) ^ 52 ≤ n - 1 := by
      have hint : 2 ^ 52 ≤ n - 1 := by omega
      exact_mod_cast hint
    calc (m : ℚ) * spacing f ≤ 2 ^ 53 * spacing f :=
          mul_le_mul_of_nonneg_right hmq (spacing_pos f).le
      _ = 2 ^ 52 * (2 * spacing f) := by ring
      _ ≤ 2 ^ 52 * spacing (f + k + 1) := mul_le_mul_of_nonneg_left hfine (by norm_num)
      _ ≤ (n - 1) * spacing (f + k + 1) := mul_le_mul_of_nonneg_right hnq (spacing_pos _).le

/-! ## Error -/

/-- Below the last number of a grid, rounding is off by at most half its spacing. -/
theorem abs_rounded_sub_le_half_spacing {q : ℚ} {e : ℕ} (h : |q| < 2 ^ 53 * spacing e) :
    |rounded q - q| ≤ spacing e / 2 := by
  have hulp : ulp q ≤ spacing e := spacing_le_spacing (exponent_le_iff.2 h)
  calc |rounded q - q| ≤ ulp q / 2 := abs_rounded_sub_le_half_ulp q
    _ ≤ spacing e / 2 := by linarith

/-- Up to a power of two, rounding is off by at most its 54th binary place. -/
theorem abs_rounded_sub_le {q : ℚ} {k : ℤ} (hk : -1021 ≤ k) (h : |q| ≤ 2 ^ k) :
    |rounded q - q| ≤ 2 ^ (k - 54) := by
  rcases lt_or_eq_of_le h with hlt | htop
  · -- the grid of 53 places below the power of two
    obtain ⟨e, he⟩ : ∃ e : ℕ, (e : ℤ) = k - 53 + unitPlaces :=
      ⟨(k - 53 + unitPlaces).toNat, Int.toNat_of_nonneg (by rw [unitPlaces]; omega)⟩
    have hspacing : spacing e = 2 ^ (k - 53) := by
      rw [spacing_eq_zpow, he, add_sub_cancel_right]
    have hlast : |q| < 2 ^ 53 * spacing e := by
      have htotal : ((53 : ℕ) : ℤ) + (k - 53) = k := by
        push_cast
        ring
      rwa [hspacing, ← zpow_natCast, ← zpow_add₀ (by norm_num), htotal]
    calc |rounded q - q| ≤ spacing e / 2 := abs_rounded_sub_le_half_spacing hlast
      _ = 2 ^ (k - 54) := by
        have : k - 53 = k - 54 + 1 := by ring
        rw [hspacing, this, zpow_add_one₀ (by norm_num)]
        ring
  · -- the power of two itself is a number of the format
    have hrep : Representable q := by
      have hpow : Representable ((2 : ℚ) ^ k) := representable_zpow (by rw [unitPlaces]; omega)
      rcases abs_choice q with hpos | hneg
      · rwa [← htop, hpos] at hpow
      · rw [← htop, hneg] at hpow
        have := hpow.neg
        rwa [neg_neg] at this
    rw [rounded_of_representable hrep, sub_self, abs_zero]
    positivity

end RandomDelay.Binary64
