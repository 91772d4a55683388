/-!
# Rounding a quotient to the nearest whole number

A quotient that lies halfway between two whole numbers goes to the even one. `halfEven` rounds a
quotient of natural numbers, and `halfEvenInt` the quotient of an integer by a natural number, which
rounds alike on both sides of zero. `halfEven_le_self` keeps a rounded quotient below its numerator.
-/

set_option autoImplicit false

namespace RandomDelay.Rounding

/-- The natural number nearest to `n / d`, the even one of two equally near. -/
def halfEven (n d : Nat) : Nat :=
  if 2 * (n % d) < d ∨ (2 * (n % d) = d ∧ n / d % 2 = 0) then n / d else n / d + 1

/-- The integer nearest to `n / d`, the even one of two equally near. -/
def halfEvenInt (n : Int) (d : Nat) : Int :=
  if n < 0 then -(halfEven n.natAbs d : Int) else halfEven n.natAbs d

/-- A rounded quotient is the floor of the quotient or one more. -/
theorem halfEven_cases (n d : Nat) :
    halfEven n d = n / d ∨ (halfEven n d = n / d + 1 ∧ d ≤ 2 * (n % d)) := by
  unfold halfEven
  split
  · exact .inl rfl
  · exact .inr ⟨rfl, by omega⟩

/-- Division by a positive number does not enlarge, with rounding too. -/
theorem halfEven_le_self (n d : Nat) : halfEven n d ≤ n := by
  rcases halfEven_cases n d with h | ⟨h, hr⟩
  · rw [h]
    exact Nat.div_le_self n d
  · rcases Nat.eq_zero_or_pos d with rfl | hd
    · rcases Nat.eq_zero_or_pos n with rfl | hn
      · exact Nat.le_refl 0
      · rw [h, Nat.div_zero]
        exact hn
    · have hmod : n % d < d := Nat.mod_lt n hd
      have hn : d * (n / d) + n % d = n := Nat.div_add_mod n d
      rcases Nat.eq_zero_or_pos (n / d) with hq | hq
      · rw [h, hq]
        rw [hq] at hn
        omega
      · have : 2 * (n / d) ≤ d * (n / d) := Nat.mul_le_mul_right _ (by omega)
        omega

end RandomDelay.Rounding
