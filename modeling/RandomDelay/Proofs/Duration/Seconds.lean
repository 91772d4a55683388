import Mathlib.Order.Monotone.Odd
import RandomDelay.Proofs.Duration.Accuracy
import RandomDelay.Proofs.Duration.Saturation

/-!
# Durations from numbers of seconds

The conversion of an amount of a unit is alike on both sides of zero, so it keeps the order there
and across zero (`Duration.unrounded_monotone`), and it leaves whole numbers of microseconds alone
(`Duration.unrounded_div`). A number of seconds has the duration that only its value determines,
whichever form it is given in (`Duration.ofSeconds_eq_ok_iff`, `Duration.ofSeconds_whole`).

Numbers whose exact seconds are within the range of durations have a duration, because both ends of
the range are whole numbers of microseconds. No others have one (`Duration.withinDurations_iff`):
that far from zero, numbers of seconds are multiples of a 64th, so the next ones after the ends are
too far out to be rounded back.
-/

set_option autoImplicit false

namespace RandomDelay

open RandomDelay.Binary64 RandomDelay.Rounding

/-- Numbers whose exact seconds are not below the shortest duration and not above the longest. -/
def Number.WithinDurations (a : Number) : Prop :=
  a.IsFinite ∧ (Duration.shortest.micros : ℚ) ≤ a.toRat * 10 ^ 6 ∧
    a.toRat * 10 ^ 6 ≤ (Duration.longest.micros : ℚ)

/-- The value of a finite number is on the grid of the format, or whole. -/
theorem Number.representable_or_whole {a : Number} (ha : a.IsFinite) :
    Binary64.Representable a.toRat ∨ ∃ k : ℤ, a.toRat = k := by
  cases a with
  | whole n => exact Or.inr ⟨n, rfl⟩
  | float x => exact Or.inl (representable_toRat x)

namespace Duration

/-! ## Both sides of zero -/

section

variable {q r : ℚ}

theorem unrounded_neg (unit : TimeUnit) (q : ℚ) : unrounded unit (-q) = -unrounded unit q := by
  have hpart : (unit.micros : ℚ) * (-q - towardZero (-q)) =
      -(unit.micros * (q - towardZero q)) := by
    rw [towardZero_neg]
    push_cast
    ring
  rw [unrounded, unrounded, hpart, rounded_neg, towardZero_neg]
  push_cast
  ring

theorem unrounded_monotone (unit : TimeUnit) : Monotone (unrounded unit) := by
  apply monotone_of_odd_of_monotoneOn_nonneg
  · exact unrounded_neg unit
  · intro q hq r _ hqr
    exact unrounded_mono unit hq hqr

/-- The fraction of a whole number of microseconds is one, too, and has few enough bits. -/
theorem unrounded_div (unit : TimeUnit) (m : ℤ) : unrounded unit (m / unit.micros) = m := by
  have hunit : (unit.micros : ℚ) ≠ 0 := by cases unit <;> norm_num [TimeUnit.micros]
  have hpart : (unit.micros : ℚ) * (m / unit.micros - towardZero ((m : ℚ) / unit.micros)) =
      ((m - towardZero ((m : ℚ) / unit.micros) * unit.micros : ℤ) : ℚ) := by
    push_cast
    rw [mul_sub, mul_div_cancel₀ _ hunit]
    ring
  have hsize : |((m - towardZero ((m : ℚ) / unit.micros) * unit.micros : ℤ) : ℚ)| ≤
      2 ^ (32 : ℤ) := by
    rw [← hpart]
    exact (abs_micros_mul_fraction_le unit _).trans (unit_micros_le unit)
  have hbits : |m - towardZero ((m : ℚ) / unit.micros) * unit.micros| ≤ 2 ^ 53 := by
    have hle : |m - towardZero ((m : ℚ) / unit.micros) * unit.micros| ≤ 2 ^ 32 := by
      exact_mod_cast hsize
    exact hle.trans (by norm_num)
  rw [unrounded, hpart, rounded_of_representable (representable_intCast hbits)]
  push_cast
  ring

end

/-! ## Seconds -/

theorem second_micros : ((TimeUnit.second.micros : ℕ) : ℚ) = 10 ^ 6 := by norm_num [TimeUnit.micros]

theorem nearestInt_unrounded_div (m : ℤ) : nearestInt (unrounded .second (m / 10 ^ 6)) = m := by
  rw [← second_micros, unrounded_div, nearestInt_intCast]

variable {a b : Number} {d e : Duration}

/-- The duration of a finite number is determined by the value of the number. -/
theorem ofSeconds_eq_ok_iff (ha : a.IsFinite) :
    ofSeconds a = .ok d ↔ nearestInt (unrounded .second a.toRat) = d.micros := by
  rw [ofSeconds, ofAmount, microsOf_eq_ok .second ha]
  exact ofMicros_eq_ok_iff

/-- A whole number of seconds and a binary64 number with the same value have the same duration, or
are both out of range. -/
theorem ofSeconds_whole {n : ℤ} {x : Binary64} (hx : x.IsFinite) (hvalue : x.toRat = n) :
    ofSeconds (.whole n) = ofSeconds (.float x) := by
  have hsame : (Number.whole n).toRat = (Number.float x).toRat := hvalue.symm
  rw [ofSeconds, ofSeconds, ofAmount, ofAmount, microsOf_eq_ok .second (Number.isFinite_whole n),
    microsOf_eq_ok .second (Number.isFinite_float hx), hsame]

theorem isFinite_of_ofSeconds_eq_ok (h : ofSeconds a = .ok d) : a.IsFinite := by
  cases a with
  | whole n => exact Number.isFinite_whole n
  | float x =>
    cases x with
    | nan =>
      have hnan : ofSeconds (.float .nan) = .error .notANumber := rfl
      rw [hnan] at h
      cases h
    | infinity negative =>
      have hinfinity : ofSeconds (.float (.infinity negative)) = .error .overflow := rfl
      rw [hinfinity] at h
      cases h
    | finite negative m k hc => exact isFinite_finite negative hc

theorem ofSeconds_mono (ha : ofSeconds a = .ok d) (hb : ofSeconds b = .ok e)
    (h : a.toRat ≤ b.toRat) : d ≤ e := by
  have hafin := isFinite_of_ofSeconds_eq_ok ha
  have hbfin := isFinite_of_ofSeconds_eq_ok hb
  rw [le_iff, ← (ofSeconds_eq_ok_iff hafin).1 ha, ← (ofSeconds_eq_ok_iff hbfin).1 hb]
  exact nearestInt_mono (unrounded_monotone .second h)

/-- The conversion is off by half a microsecond and the 34th binary place of one at most. -/
theorem abs_ofSeconds_sub_le (h : ofSeconds a = .ok d) :
    |(d.micros : ℚ) - a.toRat * 10 ^ 6| ≤ 1 / 2 + 1 / 2 ^ 34 := by
  have hafin := isFinite_of_ofSeconds_eq_ok h
  have hunit : ((TimeUnit.second.micros : ℕ) : ℚ) ≤ 2 ^ (20 : ℤ) := by norm_num [TimeUnit.micros]
  have herror := abs_micros_sub_le (by norm_num) hunit a.toRat
  rw [(ofSeconds_eq_ok_iff hafin).1 h, second_micros] at herror
  norm_num at herror ⊢
  exact herror

/-! ## The range -/

theorem spacing_sixtyFourth : spacing 1068 = 1 / 64 := by
  rw [spacing_eq_zpow, unitPlaces]
  norm_num

/-- Far from zero, numbers of seconds are 64ths apart. -/
theorem le_of_sub_one_lt {q : ℚ} (hq : Binary64.Representable q ∨ ∃ k : ℤ, q = k) {n : ℤ}
    (hn : 2 ^ 52 < n) (h : ((n : ℚ) - 1) / 64 < q) : (n : ℚ) / 64 ≤ q := by
  by_contra hlt
  rw [not_le] at hlt
  rcases hq with hrep | ⟨k, rfl⟩
  · have hbelow := hrep.le_sub_spacing hn (e := 1068) (by rwa [spacing_sixtyFourth, mul_one_div])
    rw [spacing_sixtyFourth, mul_one_div] at hbelow
    exact absurd hbelow (not_le.2 h)
  · rw [div_lt_iff₀ (by norm_num)] at h
    rw [lt_div_iff₀ (by norm_num)] at hlt
    have hlow : n - 1 < k * 64 := by exact_mod_cast h
    have hhigh : k * 64 < n := by exact_mod_cast hlt
    omega

theorem le_longest_of_representable (ha : a.IsFinite)
    (h : nearestInt (unrounded .second a.toRat) ≤ longest.micros) :
    a.toRat * 10 ^ 6 ≤ (longest.micros : ℚ) := by
  by_contra hlt
  have hlongest : (longest.micros : ℚ) = 86399999999999999999 := by norm_num [longest]
  rw [not_le, hlongest] at hlt
  -- the next number of seconds is one microsecond longer than the longest duration
  have hnext : ((86400000000000000000 : ℤ) : ℚ) / 10 ^ 6 ≤ a.toRat := by
    have hgrid :=
      le_of_sub_one_lt (Number.representable_or_whole ha) (n := 5529600000000000) (by norm_num)
        (by norm_num; linarith)
    norm_num at hgrid ⊢
    exact hgrid
  have hmicros := nearestInt_mono (unrounded_monotone .second hnext)
  rw [nearestInt_unrounded_div] at hmicros
  have hlong : longest.micros < 86400000000000000000 := by decide
  omega

theorem shortest_le_of_representable (ha : a.IsFinite)
    (h : shortest.micros ≤ nearestInt (unrounded .second a.toRat)) :
    (shortest.micros : ℚ) ≤ a.toRat * 10 ^ 6 := by
  by_contra hlt
  have hshortest : (shortest.micros : ℚ) = -86399999913600000000 := by norm_num [shortest]
  rw [not_le, hshortest] at hlt
  have hneg : Binary64.Representable (-a.toRat) ∨ ∃ k : ℤ, -a.toRat = k := by
    rcases Number.representable_or_whole ha with hrep | ⟨k, hk⟩
    · exact Or.inl hrep.neg
    · exact Or.inr ⟨-k, by rw [hk, Int.cast_neg]⟩
  -- the next number of seconds is a 64th of a second shorter than the shortest duration
  have hnext : a.toRat ≤ ((-86399999913600015625 : ℤ) : ℚ) / 10 ^ 6 := by
    have hgrid :=
      le_of_sub_one_lt hneg (n := 5529599994470401) (by norm_num) (by norm_num; linarith)
    norm_num at hgrid ⊢
    linarith
  have hmicros := nearestInt_mono (unrounded_monotone .second hnext)
  rw [nearestInt_unrounded_div] at hmicros
  have hshort : -86399999913600015625 < shortest.micros := by decide
  omega

/-- A number of seconds has a duration exactly if its exact seconds are within the range of
durations. -/
theorem withinDurations_iff : a.WithinDurations ↔ ∃ d, ofSeconds a = .ok d := by
  constructor
  · rintro ⟨ha, hlow, hhigh⟩
    have hlow' : (shortest.micros : ℚ) / 10 ^ 6 ≤ a.toRat := (div_le_iff₀ (by norm_num)).2 hlow
    have hhigh' : a.toRat ≤ (longest.micros : ℚ) / 10 ^ 6 := (le_div_iff₀ (by norm_num)).2 hhigh
    -- both ends are whole numbers of microseconds, which the conversion leaves alone
    have hshortest := nearestInt_mono (unrounded_monotone .second hlow')
    have hlongest := nearestInt_mono (unrounded_monotone .second hhigh')
    rw [nearestInt_unrounded_div] at hshortest hlongest
    exact ⟨_, ofSeconds_eq_ok ha ⟨hshortest, hlongest⟩⟩
  · rintro ⟨d, hd⟩
    have ha := isFinite_of_ofSeconds_eq_ok hd
    have hmicros := (ofSeconds_eq_ok_iff ha).1 hd
    refine ⟨ha, shortest_le_of_representable ha ?_, le_longest_of_representable ha ?_⟩
    · rw [hmicros]
      exact d.representable.1
    · rw [hmicros]
      exact d.representable.2

end Duration

end RandomDelay
