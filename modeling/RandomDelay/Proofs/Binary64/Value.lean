import Mathlib.Algebra.Order.Floor.Semifield
import RandomDelay.Proofs.Binary64.Rounded

/-!
# Values of binary64 numbers

`toRat` is the exact value of a finite binary64 number. All values are on the grid of the format
(`representable_toRat`) and lie below `limit`, the first power of two past the largest number
(`abs_toRat_lt_limit`).

The one rounding of every operation gives the number with the rounded value, as long as that lies
below the limit (`nearestUnits_eq_finite`), and from there on is infinite
(`nearestUnits_eq_infinity`).
-/

set_option autoImplicit false

namespace RandomDelay.Binary64

open RandomDelay.Rounding

/-- Numbers that are neither infinite nor `nan`. -/
def IsFinite (x : Binary64) : Prop :=
  ∃ (negative : Bool) (m e : ℕ) (h : Canonical m e), x = .finite negative m e h

instance : DecidablePred IsFinite
  | .finite negative m e h => isTrue ⟨negative, m, e, h, rfl⟩
  | .infinity _ => isFalse (by rintro ⟨_, _, _, _, h⟩; cases h)
  | .nan => isFalse (by rintro ⟨_, _, _, _, h⟩; cases h)

theorem isFinite_finite (negative : Bool) {m e : ℕ} (h : Canonical m e) :
    (finite negative m e h).IsFinite := ⟨negative, m, e, h, rfl⟩

theorem not_isFinite_infinity (negative : Bool) : ¬ (infinity negative).IsFinite := by
  rintro ⟨_, _, _, _, h⟩
  cases h

/-- Exact value of a finite number. -/
def toRat (x : Binary64) : ℚ := x.units / unitsPerOne

/-- The power of two past the largest number of the format. -/
def limit : ℚ := 2 ^ 53 * spacing 2045

/-- Integer part of a rational, toward zero. -/
def towardZero (q : ℚ) : ℤ := if 0 ≤ q then ⌊q⌋ else ⌈q⌉

/-- A magnitude with a sign. -/
def withSign (negative : Bool) (q : ℚ) : ℚ := if negative then -q else q

theorem abs_withSign (negative : Bool) (q : ℚ) : |withSign negative q| = |q| := by
  cases negative
  · rfl
  · exact abs_neg q

theorem cast_shiftLeft (m e : ℕ) : ((m <<< e : ℕ) : ℚ) = m * 2 ^ e := by
  rw [Nat.shiftLeft_eq]
  push_cast
  rfl

theorem div_unitsPerOne_nonneg {q : ℚ} (h : 0 ≤ q) : 0 ≤ q / unitsPerOne :=
  div_nonneg h unitsPerOne_cast_pos.le

theorem toRat_eq_withSign (x : Binary64) :
    x.toRat = withSign x.isNegative (x.magnitude / unitsPerOne) := by
  unfold toRat units withSign
  split
  · push_cast
    rw [neg_div]
  · push_cast
    rfl

theorem abs_toRat (x : Binary64) : |x.toRat| = x.magnitude / unitsPerOne := by
  rw [toRat_eq_withSign, abs_withSign, abs_of_nonneg (div_unitsPerOne_nonneg (Nat.cast_nonneg _))]

theorem toRat_finite (negative : Bool) {m e : ℕ} (h : Canonical m e) :
    (finite negative m e h).toRat = withSign negative (m * spacing e) := by
  rw [toRat_eq_withSign]
  simp only [isNegative, magnitude, cast_shiftLeft, spacing]
  rw [mul_div_assoc]

theorem toRat_neg (x : Binary64) : x.neg.toRat = -x.toRat := by
  cases x with
  | nan => simp [toRat, neg, units, magnitude]
  | infinity negative => simp [toRat, neg, units, magnitude]
  | finite negative m e h => cases negative <;> simp [neg, toRat_finite, withSign]

theorem isFinite_neg {x : Binary64} (h : x.IsFinite) : x.neg.IsFinite := by
  obtain ⟨negative, m, e, hc, rfl⟩ := h
  exact isFinite_finite (!negative) hc

theorem toRat_nonneg {x : Binary64} (h : x.isNegative = false) : 0 ≤ x.toRat := by
  rw [toRat_eq_withSign, h]
  exact div_unitsPerOne_nonneg (Nat.cast_nonneg _)

theorem representable_toRat (x : Binary64) : Representable x.toRat := by
  cases x with
  | nan => exact ⟨0, 0, by norm_num, by simp [toRat, units, magnitude]⟩
  | infinity negative => exact ⟨0, 0, by norm_num, by simp [toRat, units, magnitude]⟩
  | finite negative m e h =>
    have hpos : Representable (m * spacing e) := by
      refine ⟨m, e, ?_, by push_cast; rfl⟩
      rw [Nat.abs_cast]
      exact_mod_cast h.1.le
    rw [toRat_finite]
    cases negative
    · exact hpos
    · exact hpos.neg

theorem rounded_toRat (x : Binary64) : rounded x.toRat = x.toRat :=
  rounded_of_representable (representable_toRat x)

theorem limit_pos : 0 < limit := mul_pos (by norm_num) (spacing_pos _)

/-- Every value lies below the limit. -/
theorem abs_toRat_lt_limit (x : Binary64) : |x.toRat| < limit := by
  have hlimit := limit_pos
  cases x with
  | nan => simpa [toRat, units, magnitude] using hlimit
  | infinity negative => simpa [toRat, units, magnitude] using hlimit
  | finite negative m e h =>
    have hm : (m : ℚ) < 2 ^ 53 := by exact_mod_cast h.1
    have hspacing : spacing e ≤ spacing 2045 := spacing_le_spacing h.2.2
    rw [toRat_finite, abs_withSign,
      abs_of_nonneg (mul_nonneg (Nat.cast_nonneg m) (spacing_pos e).le)]
    calc (m : ℚ) * spacing e < 2 ^ 53 * spacing e := mul_lt_mul_of_pos_right hm (spacing_pos e)
      _ ≤ limit := mul_le_mul_of_nonneg_left hspacing (by norm_num)

/-- Numbers up to a power of two of the format do not round to the limit. -/
theorem rounded_lt_limit {q : ℚ} {k : ℤ} (hlow : -unitPlaces ≤ k) (hk : k ≤ 1023) (h : q ≤ 2 ^ k) :
    rounded q < limit := by
  have hlimit : limit = 2 ^ (1024 : ℤ) := by
    rw [limit, spacing_eq_zpow, ← zpow_natCast, ← zpow_add₀ (by norm_num)]
    rfl
  calc rounded q ≤ 2 ^ k := rounded_le (representable_zpow hlow) h
    _ < limit := by
      rw [hlimit]
      exact zpow_lt_zpow_right₀ (by norm_num) (by omega)

/-! ## One rounding -/

theorem quotient_nonneg (n d : ℕ) : 0 ≤ (n : ℚ) / d / unitsPerOne :=
  div_unitsPerOne_nonneg (div_nonneg (Nat.cast_nonneg n) (Nat.cast_nonneg d))

/-- Significand and exponent of a rounded quotient of units. -/
theorem rounded_eq_halfEven_mul (n : ℕ) {d : ℕ} (hd : 0 < d) :
    (n / d).log2 - 52 = exponent (n / d / unitsPerOne) ∧
      (Rounding.halfEven n (d <<< ((n / d).log2 - 52)) : ℚ) * spacing ((n / d).log2 - 52) =
        rounded (n / d / unitsPerOne) := by
  have hU := unitsPerOne_cast_pos
  have hexp : (n / d).log2 - 52 = exponent (n / d / unitsPerOne) := by
    have habs : |(n : ℚ) / d / unitsPerOne| * unitsPerOne = n / d := by
      rw [abs_of_nonneg (quotient_nonneg n d), div_mul_cancel₀ _ hU.ne']
    rw [exponent, habs, Nat.floor_div_eq_div]
  refine ⟨hexp, ?_⟩
  rw [rounded, ulp, ← hexp]
  generalize (n / d).log2 - 52 = e
  have hshift : 0 < d <<< e := by
    rw [Nat.shiftLeft_eq]
    positivity
  have hquot : (n : ℚ) / (d <<< e : ℕ) = n / d / unitsPerOne / spacing e := by
    rw [cast_shiftLeft, spacing]
    field_simp
  have hint := halfEven_eq_nearestInt n hshift
  rw [hquot] at hint
  congr 1
  exact_mod_cast hint

theorem halfEven_le_two_pow (n : ℕ) {d : ℕ} (hd : 0 < d) :
    Rounding.halfEven n (d <<< ((n / d).log2 - 52)) ≤ 2 ^ 53 := by
  obtain ⟨hexp, hval⟩ := rounded_eq_halfEven_mul n hd
  have hle := rounded_le_of_exponent_le hexp.ge
  rw [← hval] at hle
  exact_mod_cast le_of_mul_le_mul_right hle (spacing_pos _)

/-- A significand is long unless the exponent is the least. -/
theorem two_pow_le_halfEven (n : ℕ) {d : ℕ} (hd : 0 < d) (he : (n / d).log2 - 52 ≠ 0) :
    2 ^ 52 ≤ Rounding.halfEven n (d <<< ((n / d).log2 - 52)) := by
  obtain ⟨hexp, hval⟩ := rounded_eq_halfEven_mul n hd
  obtain ⟨f, hf⟩ : ∃ f, (n / d).log2 - 52 = f + 1 := Nat.exists_eq_succ_of_ne_zero he
  have hgrid : 2 ^ 53 * spacing f = 2 ^ 52 * spacing (f + 1) := by
    rw [spacing_add]
    ring
  have hle := le_rounded_of_exponent_eq_succ (quotient_nonneg n d) (hexp.symm.trans hf)
  rw [← hval, hf, hgrid] at hle
  rw [hf]
  exact_mod_cast le_of_mul_le_mul_right hle (spacing_pos _)

theorem isNegative_assemble (negative : Bool) (m e : ℕ) :
    (assemble negative m e).isNegative = negative := by
  rw [assemble]
  split
  · rfl
  · rfl

/-- The sign is kept, also by zero and infinity. -/
theorem isNegative_nearestUnits (negative : Bool) (n d : ℕ) :
    (nearestUnits negative n d).isNegative = negative := by
  rw [nearestUnits]
  split
  · exact isNegative_assemble negative _ _
  · exact isNegative_assemble negative _ _

theorem nearestUnits_eq_finite (negative : Bool) (n : ℕ) {d : ℕ} (hd : 0 < d)
    (h : rounded (n / d / unitsPerOne) < limit) :
    ∃ (m e : ℕ) (hc : Canonical m e), nearestUnits negative n d = .finite negative m e hc ∧
      m * spacing e = rounded (n / d / unitsPerOne) := by
  obtain ⟨-, hval⟩ := rounded_eq_halfEven_mul n hd
  have hmax := halfEven_le_two_pow n hd
  have hmin := two_pow_le_halfEven n hd
  unfold nearestUnits
  simp only
  rw [← hval] at h ⊢
  generalize (n / d).log2 - 52 = e at *
  generalize Rounding.halfEven n (d <<< e) = m at *
  by_cases htop : m = 0x20000000000000
  · -- rounding up to 54 bits leaves the least significand of the next exponent
    have he : e < 2045 := by
      by_contra hge
      have hspacing : spacing 2045 ≤ spacing e := spacing_le_spacing (by omega)
      rw [htop, limit] at h
      norm_num at h
      linarith
    have hc : Canonical 0x10000000000000 (e + 1) := ⟨by omega, by omega, by omega⟩
    refine ⟨_, _, hc, ?_, ?_⟩
    · rw [if_pos htop, assemble_of_canonical negative hc]
    · rw [htop, spacing_add]
      push_cast
      ring
  · -- past the greatest exponent a long significand would reach the limit
    have he : e ≤ 2045 := by
      by_contra hge
      have hm : (2 : ℚ) ^ 52 ≤ m := by exact_mod_cast hmin (by omega)
      have hspacing : spacing (2045 + 1) ≤ spacing e := spacing_le_spacing (by omega)
      have hpos := spacing_pos (2045 + 1)
      have : limit ≤ m * spacing e := by
        calc limit = 2 ^ 52 * spacing (2045 + 1) := by rw [limit, spacing_add]; ring
          _ ≤ m * spacing e := mul_le_mul hm hspacing hpos.le (Nat.cast_nonneg m)
      linarith
    have hc : Canonical m e := ⟨by omega, by omega, he⟩
    refine ⟨m, e, hc, ?_, rfl⟩
    rw [if_neg htop, assemble_of_canonical negative hc]

theorem nearestUnits_eq_infinity (negative : Bool) (n : ℕ) {d : ℕ} (hd : 0 < d)
    (h : limit ≤ rounded (n / d / unitsPerOne)) :
    nearestUnits negative n d = .infinity negative := by
  obtain ⟨-, hval⟩ := rounded_eq_halfEven_mul n hd
  unfold nearestUnits
  simp only
  rw [← hval] at h
  generalize (n / d).log2 - 52 = e at *
  generalize Rounding.halfEven n (d <<< e) = m at *
  -- a number that could be assembled would have a value, and all values lie below the limit
  by_cases htop : m = 0x20000000000000
  · rw [if_pos htop, assemble, dif_neg]
    intro hc
    have hlt := abs_toRat_lt_limit (.finite false _ _ hc)
    rw [toRat_finite, spacing_add] at hlt
    have habs := le_abs_self (withSign false (((0x10000000000000 : ℕ) : ℚ) * (2 ^ 1 * spacing e)))
    rw [htop] at h
    simp only [withSign] at habs hlt
    norm_num at h habs hlt
    linarith
  · rw [if_neg htop, assemble, dif_neg]
    intro hc
    have hlt := abs_toRat_lt_limit (.finite false _ _ hc)
    rw [toRat_finite] at hlt
    have habs := le_abs_self (withSign false ((m : ℚ) * spacing e))
    have heq : withSign false ((m : ℚ) * spacing e) = m * spacing e := rfl
    linarith

end RandomDelay.Binary64
