import Mathlib.Data.Rat.Floor
import Mathlib.Tactic.Linarith
import Mathlib.Tactic.NormNum
import RandomDelay.Rounding

/-!
# The integer nearest to a rational

`nearestInt` rounds a rational number to the nearest integer, with ties to the even one. It is the
rule of `halfEven` and `halfEvenInt` with the fraction seen as a number (`halfEven_eq_nearestInt`,
`halfEvenInt_eq_nearestInt`), so a rounded quotient does not depend on the terms of the fraction.

The rule is determined by its error, at most one half, and the parity in a tie
(`nearestInt_eq_iff`). Rounding is therefore odd (`nearestInt_neg`) and monotone
(`nearestInt_mono`).
-/

set_option autoImplicit false

namespace RandomDelay.Rounding

/-- The integer nearest to a rational, the even one of two equally near. -/
def nearestInt (q : ℚ) : ℤ :=
  if 2 * Int.fract q < 1 ∨ (2 * Int.fract q = 1 ∧ ⌊q⌋ % 2 = 0) then ⌊q⌋ else ⌊q⌋ + 1

/-- A rounded number is off by at most one half, and even if it is off by one half. -/
theorem nearestInt_spec (q : ℚ) :
    |(nearestInt q : ℚ) - q| ≤ 1 / 2 ∧
      (|(nearestInt q : ℚ) - q| = 1 / 2 → nearestInt q % 2 = 0) := by
  have hq : (⌊q⌋ : ℚ) + Int.fract q = q := Int.floor_add_fract q
  have h0 : 0 ≤ Int.fract q := Int.fract_nonneg q
  have h1 : Int.fract q < 1 := Int.fract_lt_one q
  by_cases hdown : 2 * Int.fract q < 1 ∨ (2 * Int.fract q = 1 ∧ ⌊q⌋ % 2 = 0)
  · have hint : nearestInt q = ⌊q⌋ := if_pos hdown
    have habs : |(nearestInt q : ℚ) - q| = Int.fract q := by
      rw [hint, abs_sub_comm, abs_of_nonneg] <;> linarith
    rw [habs, hint]
    rcases hdown with hlt | ⟨htie, heven⟩
    · exact ⟨by linarith, fun h => by linarith⟩
    · exact ⟨by linarith, fun _ => heven⟩
  · have hint : nearestInt q = ⌊q⌋ + 1 := if_neg hdown
    have habs : |(nearestInt q : ℚ) - q| = 1 - Int.fract q := by
      rw [hint, abs_of_nonneg] <;> push_cast <;> linarith
    rw [habs, hint]
    rw [not_or, not_lt, not_and] at hdown
    constructor
    · linarith
    · intro htie
      have hodd : ¬ ⌊q⌋ % 2 = 0 := hdown.2 (by linarith)
      omega

theorem abs_nearestInt_sub_le (q : ℚ) : |(nearestInt q : ℚ) - q| ≤ 1 / 2 := (nearestInt_spec q).1

/-- Two integers this near to a number lie one half to each side of it, and one of them is odd. -/
theorem not_lt_of_nearest {q : ℚ} {j k : ℤ} (hj : |(j : ℚ) - q| ≤ 1 / 2)
    (hjeven : |(j : ℚ) - q| = 1 / 2 → j % 2 = 0) (hk : |(k : ℚ) - q| ≤ 1 / 2)
    (hkeven : |(k : ℚ) - q| = 1 / 2 → k % 2 = 0) : ¬ j < k := by
  intro hlt
  have hstep : (j : ℚ) + 1 ≤ k := by exact_mod_cast hlt
  rw [abs_le] at hj hk
  have hjhalf : (j : ℚ) - q = -(1 / 2) := by linarith
  have hkhalf : (k : ℚ) - q = 1 / 2 := by linarith
  have hj2 := hjeven (by rw [hjhalf]; norm_num)
  have hk2 := hkeven (by rw [hkhalf]; norm_num)
  have hsucc : k = j + 1 := by
    have : (k : ℚ) = j + 1 := by linarith
    exact_mod_cast this
  omega

/-- Error and parity leave one integer only. -/
theorem nearestInt_eq_iff {q : ℚ} {k : ℤ} :
    nearestInt q = k ↔ |(k : ℚ) - q| ≤ 1 / 2 ∧ (|(k : ℚ) - q| = 1 / 2 → k % 2 = 0) := by
  constructor
  · rintro rfl
    exact nearestInt_spec q
  · rintro ⟨hk, hkeven⟩
    obtain ⟨hn, hneven⟩ := nearestInt_spec q
    apply le_antisymm
    · exact not_lt.1 (not_lt_of_nearest hk hkeven hn hneven)
    · exact not_lt.1 (not_lt_of_nearest hn hneven hk hkeven)

theorem nearestInt_eq_of_abs_sub_lt {q : ℚ} {k : ℤ} (h : |(k : ℚ) - q| < 1 / 2) :
    nearestInt q = k :=
  nearestInt_eq_iff.2 ⟨h.le, fun htie => absurd htie h.ne⟩

/-- No integer is nearer than the rounded one. -/
theorem abs_nearestInt_sub_le_abs_sub (q : ℚ) (k : ℤ) :
    |(nearestInt q : ℚ) - q| ≤ |(k : ℚ) - q| := by
  rcases lt_or_ge |(k : ℚ) - q| (1 / 2) with hlt | hge
  · rw [nearestInt_eq_of_abs_sub_lt hlt]
  · exact (abs_nearestInt_sub_le q).trans hge

theorem nearestInt_intCast (k : ℤ) : nearestInt (k : ℚ) = k :=
  nearestInt_eq_of_abs_sub_lt (by norm_num)

theorem nearestInt_neg (q : ℚ) : nearestInt (-q) = -nearestInt q := by
  obtain ⟨hn, heven⟩ := nearestInt_spec q
  have habs : |((-nearestInt q : ℤ) : ℚ) - -q| = |(nearestInt q : ℚ) - q| := by
    rw [← abs_neg]
    congr 1
    push_cast
    ring
  rw [nearestInt_eq_iff, habs]
  constructor
  · exact hn
  · intro htie
    have := heven htie
    omega

/-- Rounding keeps the order. -/
theorem nearestInt_mono {q r : ℚ} (h : q ≤ r) : nearestInt q ≤ nearestInt r := by
  by_contra hlt
  rw [not_le] at hlt
  have hstep : (nearestInt r : ℚ) + 1 ≤ nearestInt q := by exact_mod_cast hlt
  have hq := abs_le.1 (abs_nearestInt_sub_le q)
  have hr := abs_le.1 (abs_nearestInt_sub_le r)
  have heq : q = r := by linarith
  -- out of order they are one apart, which leaves no room between the numbers
  rw [heq] at hlt
  exact lt_irrefl _ hlt

theorem nearestInt_nonneg {q : ℚ} (h : 0 ≤ q) : 0 ≤ nearestInt q := by
  have hzero : nearestInt 0 = 0 := by exact_mod_cast nearestInt_intCast 0
  have := nearestInt_mono h
  rwa [hzero] at this

/-- The rounded quotient of natural numbers depends on the fraction alone. -/
theorem halfEven_eq_nearestInt (n : ℕ) {d : ℕ} (hd : 0 < d) :
    (halfEven n d : ℤ) = nearestInt ((n : ℚ) / d) := by
  have hdq : (0 : ℚ) < d := by exact_mod_cast hd
  have hfloor : ⌊(n : ℚ) / d⌋ = ((n / d : ℕ) : ℤ) := by
    rw [Rat.floor_natCast_div_natCast]
    rfl
  have hn : (d : ℚ) * (n / d : ℕ) + (n % d : ℕ) = n := by exact_mod_cast Nat.div_add_mod n d
  have hfract : Int.fract ((n : ℚ) / d) = (n % d : ℕ) / d := by
    rw [Int.fract, hfloor, Int.cast_natCast, eq_div_iff hdq.ne', sub_mul, div_mul_cancel₀ _ hdq.ne']
    linarith
  have hlt : 2 * Int.fract ((n : ℚ) / d) < 1 ↔ 2 * (n % d) < d := by
    rw [hfract, mul_div_assoc', div_lt_one hdq]
    exact_mod_cast Iff.rfl
  have htie : 2 * Int.fract ((n : ℚ) / d) = 1 ↔ 2 * (n % d) = d := by
    rw [hfract, mul_div_assoc', div_eq_one_iff_eq hdq.ne']
    exact_mod_cast Iff.rfl
  have heven : ((n / d : ℕ) : ℤ) % 2 = 0 ↔ n / d % 2 = 0 := by omega
  unfold nearestInt halfEven
  simp only [hlt, htie, hfloor, heven]
  rw [Nat.cast_ite, Nat.cast_succ]

/-- The rounded quotient of an integer depends on the fraction alone. -/
theorem halfEvenInt_eq_nearestInt (n : ℤ) {d : ℕ} (hd : 0 < d) :
    halfEvenInt n d = nearestInt ((n : ℚ) / d) := by
  unfold halfEvenInt
  rw [halfEven_eq_nearestInt _ hd]
  split
  · rename_i hneg
    have hcast : ((n.natAbs : ℕ) : ℚ) = -(n : ℚ) := by
      rw [Nat.cast_natAbs, Int.cast_abs, abs_of_neg (by exact_mod_cast hneg)]
    rw [hcast, neg_div, nearestInt_neg, neg_neg]
  · rename_i hpos
    have hcast : ((n.natAbs : ℕ) : ℚ) = n := by
      rw [Nat.cast_natAbs, Int.cast_abs, abs_of_nonneg (by exact_mod_cast not_lt.1 hpos)]
    rw [hcast]

end RandomDelay.Rounding
