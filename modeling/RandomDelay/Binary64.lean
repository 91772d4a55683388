import RandomDelay.Rounding

/-!
# Binary64 numbers

A number of the binary64 format is not a number, an infinity, or a sign with a magnitude. Magnitudes
are counted in units of `2 ^ -1074`, the smallest positive number of the format: a finite number has
`m * 2 ^ e` units, with one pair `m`, `e` for each magnitude (`Canonical`). Every operation computes
its exact result as a quotient of units and rounds it once, in `nearestUnits`, to the nearest number
of the format with ties to the even significand; a magnitude past the largest number becomes
infinite.

`ofBits` and `toBits` give the interchange encoding, and `ofBits_toBits` reads back what was
written.
-/

set_option autoImplicit false

namespace RandomDelay

/-- Significand and exponent in the one form that the format has for a magnitude: a significand of
at most 53 bits, and of no fewer unless the exponent is the least. -/
def Canonical (m e : Nat) : Prop :=
  m < 0x20000000000000 ∧ (e = 0 ∨ 0x10000000000000 ≤ m) ∧ e ≤ 2045

instance (m e : Nat) : Decidable (Canonical m e) := inferInstanceAs (Decidable (_ ∧ _))

/-- A number of the binary64 format. All the quiet and signalling forms of `nan` are one. -/
inductive Binary64 where
  | nan
  | infinity (negative : Bool)
  | finite (negative : Bool) (significand exponent : Nat)
    (canonical : Canonical significand exponent)
deriving DecidableEq

/-- Failures of arithmetic: a result too large for its type, or none because an operand is not a
number. -/
inductive ArithmeticError where
  | overflow
  | notANumber
deriving DecidableEq

namespace Binary64

/-- Binary places of the unit. -/
def unitPlaces : Nat := 1074

/-- Units in the number one. -/
def unitsPerOne : Nat := 1 <<< unitPlaces

theorem unitsPerOne_pos : 0 < unitsPerOne := by
  rw [unitsPerOne, Nat.one_shiftLeft]
  exact Nat.two_pow_pos unitPlaces

/-- Number with the given sign and `m * 2 ^ e` units, infinite if the format has no such
magnitude. -/
def assemble (negative : Bool) (m e : Nat) : Binary64 :=
  if h : Canonical m e then .finite negative m e h else .infinity negative

/-- Number nearest to `n / d` units, with the even significand of two equally near. The exponent
leaves 53 bits before the point, so that the whole part of the rounded quotient is the significand;
rounding up to 54 bits moves on to the next exponent. -/
def nearestUnits (negative : Bool) (n d : Nat) : Binary64 :=
  let e := (n / d).log2 - 52
  let m := Rounding.halfEven n (d <<< e)
  if m = 0x20000000000000 then assemble negative 0x10000000000000 (e + 1) else assemble negative m e

/-- Number nearest to `n / d`. -/
def nearest (negative : Bool) (n d : Nat) : Binary64 :=
  nearestUnits negative (n * unitsPerOne) d

/-- Number nearest to an integer. -/
def ofInt (n : Int) : Binary64 := nearest (n < 0) n.natAbs 1

/-- Positive zero. -/
def zero : Binary64 := .finite false 0 0 (by decide)

/-- Sign bit; the one of `nan` counts as clear. -/
def isNegative : Binary64 → Bool
  | .nan => false
  | .infinity negative => negative
  | .finite negative _ _ _ => negative

/-- Magnitude in units; infinities and `nan` count as zero here and are told apart before. -/
def magnitude : Binary64 → Nat
  | .finite _ m e _ => m <<< e
  | _ => 0

/-- Zeros of both signs. -/
def isZero : Binary64 → Bool
  | .finite _ m _ _ => m == 0
  | _ => false

/-- Signed number of units. -/
def units (x : Binary64) : Int := if x.isNegative then -(x.magnitude : Int) else x.magnitude

/-- Opposite number. -/
def neg : Binary64 → Binary64
  | .nan => .nan
  | .infinity negative => .infinity (!negative)
  | .finite negative m e h => .finite (!negative) m e h

/-- Rounded sum. Opposite infinities have none, and a zero sum is negative only if both terms
are. -/
def add : Binary64 → Binary64 → Binary64
  | .nan, _ => .nan
  | _, .nan => .nan
  | .infinity s, .infinity t => if s = t then .infinity s else .nan
  | .infinity s, _ => .infinity s
  | _, .infinity t => .infinity t
  | x, y =>
    let sum := x.units + y.units
    let negative := if sum = 0 then x.isNegative && y.isNegative else decide (sum < 0)
    nearestUnits negative sum.natAbs 1

/-- Rounded difference. -/
def sub (x y : Binary64) : Binary64 := x.add y.neg

/-- Rounded product. Zero times an infinity has none. -/
def mul : Binary64 → Binary64 → Binary64
  | .nan, _ => .nan
  | _, .nan => .nan
  | .infinity s, y => if y.isZero then .nan else .infinity (s != y.isNegative)
  | x, .infinity t => if x.isZero then .nan else .infinity (x.isNegative != t)
  | x, y => nearestUnits (x.isNegative != y.isNegative) (x.magnitude * y.magnitude) unitsPerOne

/-- Integer part, toward zero. -/
def truncate : Binary64 → Except ArithmeticError Int
  | .nan => .error .notANumber
  | .infinity _ => .error .overflow
  | .finite negative m e _ =>
    let whole := (m <<< e) / unitsPerOne
    .ok (if negative then -(whole : Int) else whole)

/-- What `truncate` leaves of a finite number, with its sign. It has no more bits than the number,
so nothing is rounded. -/
def fraction (x : Binary64) : Binary64 :=
  nearestUnits x.isNegative (x.magnitude % unitsPerOne) 1

/-- Number encoded by 64 bits: sign, eleven bits of biased exponent, 52 bits of fraction. -/
def ofBits (bits : UInt64) : Binary64 :=
  let word := bits.toNat
  let negative := decide (0x8000000000000000 ≤ word)
  let exponent := word / 0x10000000000000 % 2048
  let fraction := word % 0x10000000000000
  if exponent = 2047 then
    if fraction = 0 then .infinity negative else .nan
  else if exponent = 0 then assemble negative fraction 0
  else assemble negative (0x10000000000000 + fraction) (exponent - 1)

/-- Weight of the sign bit. -/
def signBit (negative : Bool) : Nat := if negative then 0x8000000000000000 else 0

/-- Encoding of a number; `nan` has the quiet form with a clear sign. The leading bit of a
significand of 53 bits adds one to the exponent field, which makes the bias come out right. -/
def toBits : Binary64 → UInt64
  | .nan => 0x7ff8000000000000
  | .infinity negative => UInt64.ofNat (signBit negative + 0x7ff0000000000000)
  | .finite negative m e _ => UInt64.ofNat (signBit negative + (e * 0x10000000000000 + m))

theorem assemble_of_canonical {m e : Nat} (negative : Bool) (h : Canonical m e) :
    assemble negative m e = .finite negative m e h := dif_pos h

/-- What was encoded is read back. -/
theorem ofBits_toBits (x : Binary64) : ofBits x.toBits = x := by
  cases x with
  | nan => rfl
  | infinity negative => cases negative <;> rfl
  | finite negative m e h =>
    have hbits : (finite negative m e h).toBits.toNat =
        signBit negative + (e * 0x10000000000000 + m) := by
      obtain ⟨hm, hnormal, he⟩ := h
      simp only [toBits, UInt64.toNat_ofNat', signBit]
      apply Nat.mod_eq_of_lt
      split <;> omega
    -- the encoding is one natural number from here on, cut into its fields
    simp only [ofBits, hbits]
    have hcanonical := h
    obtain ⟨hm, hnormal, he⟩ := h
    have hsign : decide (0x8000000000000000 ≤ signBit negative + (e * 0x10000000000000 + m)) =
        negative := by
      cases negative
      · exact decide_eq_false (by simp only [signBit, Bool.false_eq_true, if_false]; omega)
      · exact decide_eq_true (by simp only [signBit, if_true]; omega)
    have hexponent : (signBit negative + (e * 0x10000000000000 + m)) / 0x10000000000000 % 2048 =
        if m < 0x10000000000000 then e else e + 1 := by
      unfold signBit
      split <;> split <;> omega
    have hfraction : (signBit negative + (e * 0x10000000000000 + m)) % 0x10000000000000 =
        if m < 0x10000000000000 then m else m - 0x10000000000000 := by
      unfold signBit
      split <;> split <;> omega
    simp only [hsign, hexponent, hfraction]
    by_cases hsmall : m < 0x10000000000000
    · have he0 : e = 0 := by omega
      subst he0
      simp only [hsmall, if_true]
      exact assemble_of_canonical negative hcanonical
    · have hne : e + 1 ≠ 2047 := by omega
      have hback : 0x10000000000000 + (m - 0x10000000000000) = m := by omega
      simp only [hsmall, if_false, hne, Nat.add_one_ne_zero, Nat.add_sub_cancel, hback]
      exact assemble_of_canonical negative hcanonical

end Binary64

end RandomDelay
