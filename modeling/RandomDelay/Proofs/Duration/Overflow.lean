import RandomDelay.Duration.Written
import RandomDelay.Proofs.Duration.Amount

/-!
# Written durations that are too long

An amount of a unit is too long from `tooMany` of them on, which is one microsecond more than the
longest duration. A written amount is rounded to binary64 first, so it is too long already from half
a gap before that on (`TimeUnit.firstTooLong`): the number half way is rounded up, to the even
significand.

`Written.duration_of_tooLong` and `Written.exists_duration` say that a written duration fails from
there on and only then, always by overflow. `Duration.ofText_cases` lists what can come of a text.
-/

set_option autoImplicit false

namespace RandomDelay

open RandomDelay.Binary64 RandomDelay.Rounding

namespace TimeUnit

/-- Number of units that is one microsecond longer than the longest duration. -/
def tooMany (unit : TimeUnit) : ℕ := 86400000000000000000 / unit.micros

/-- Distance of `tooMany` from the binary64 number before it. -/
def gap : TimeUnit → ℚ
  | .microsecond => 2 ^ 14
  | .millisecond => 2 ^ 4
  | .second => 1 / 2 ^ 6
  | .minute => 1 / 2 ^ 12
  | .hour => 1 / 2 ^ 18

/-- Least written amount of a unit that is too long. -/
def firstTooLong (unit : TimeUnit) : ℚ := unit.tooMany - unit.gap / 2

theorem tooMany_mul_micros (unit : TimeUnit) :
    unit.tooMany * unit.micros = 86400000000000000000 := by
  cases unit <;> rfl

/-- The grid of binary64 just below `tooMany`. -/
theorem exists_tooMany_eq_mul_spacing (unit : TimeUnit) :
    ∃ (n : ℤ) (e : ℕ), 2 ^ 52 < n ∧ n ≤ 2 ^ 53 ∧
      (unit.tooMany : ℚ) = n * spacing e ∧ unit.gap = spacing e := by
  cases unit with
  | microsecond =>
    exact ⟨5273437500000000, 1088, by decide, by decide, by decide +kernel, by decide +kernel⟩
  | millisecond =>
    exact ⟨5400000000000000, 1078, by decide, by decide, by decide +kernel, by decide +kernel⟩
  | second =>
    exact ⟨5529600000000000, 1068, by decide, by decide, by decide +kernel, by decide +kernel⟩
  | minute =>
    exact ⟨5898240000000000, 1062, by decide, by decide, by decide +kernel, by decide +kernel⟩
  | hour =>
    exact ⟨6291456000000000, 1056, by decide, by decide, by decide +kernel, by decide +kernel⟩

/-- The tie half a gap below goes up. -/
theorem rounded_firstTooLong (unit : TimeUnit) : rounded unit.firstTooLong = unit.tooMany := by
  cases unit <;> decide +kernel

theorem firstTooLong_le (unit : TimeUnit) : unit.firstTooLong ≤ 2 ^ (67 : ℤ) := by
  cases unit <;> norm_num [firstTooLong, tooMany, gap, micros]

theorem one_le_gap_mul_micros (unit : TimeUnit) : 1 ≤ unit.gap * unit.micros := by
  cases unit <;> norm_num [gap, micros]

/-- Rounding an amount below the first that is too long ends a gap below `tooMany`. -/
theorem rounded_le_of_lt_firstTooLong {unit : TimeUnit} {q : ℚ} (h0 : 0 ≤ q)
    (h : q < unit.firstTooLong) : rounded q ≤ unit.tooMany - unit.gap := by
  obtain ⟨n, e, hn, hn', htooMany, hgap⟩ := unit.exists_tooMany_eq_mul_spacing
  rw [firstTooLong, htooMany, hgap] at h
  have hpos := spacing_pos e
  have hlast : |q| < 2 ^ 53 * spacing e := by
    have hnq : (n : ℚ) ≤ 2 ^ 53 := by exact_mod_cast hn'
    have hmul := mul_le_mul_of_nonneg_right hnq hpos.le
    rw [abs_of_nonneg h0]
    linarith
  have herr := (abs_le.1 (abs_rounded_sub_le_half_spacing hlast)).2
  have hle := (representable_rounded q).le_sub_spacing hn (by linarith : rounded q < n * spacing e)
  rw [htooMany, hgap]
  linarith

end TimeUnit

/-- Exact value of a numeral. -/
def Numeral.value (n : Numeral) : ℚ := n.coefficient / (Nat.pow 10 n.places : ℕ)

/-- Written durations that are too long. -/
def Written.TooLong (w : Written) : Prop := w.unit.firstTooLong ≤ w.amount.value

instance : DecidablePred Written.TooLong := fun w =>
  inferInstanceAs (Decidable (w.unit.firstTooLong ≤ w.amount.value))

theorem Numeral.value_nonneg (n : Numeral) : 0 ≤ n.value :=
  div_nonneg (by positivity) (by positivity)

/-- A numeral is read as its value, rounded once, unless it is so large that it becomes infinite. -/
theorem Numeral.nearest_cases (n : Numeral) :
    (n.nearest.IsFinite ∧ n.nearest.toRat = rounded n.value) ∨
      (n.nearest = .infinity false ∧ limit ≤ rounded n.value) := by
  have hpow : 0 < Nat.pow 10 n.places := Nat.pow_pos (by decide)
  rcases lt_or_ge (rounded n.value) limit with hlt | hge
  · obtain ⟨hfin, hval⟩ := toRat_nearest false n.coefficient hpow hlt
    exact Or.inl ⟨hfin, hval⟩
  · exact Or.inr ⟨nearest_eq_infinity false n.coefficient hpow hge, hge⟩

namespace Duration

/-! ## Amounts on both sides of the first that is too long -/

variable {unit : TimeUnit} {q : ℚ}

theorem not_representable_of_tooMany_le (h : (unit.tooMany : ℚ) ≤ q) :
    ¬ Representable (nearestInt (unrounded unit q)) := by
  have hpos : (0 : ℚ) ≤ q := (Nat.cast_nonneg _).trans h
  have hfloor : (unit.tooMany : ℤ) ≤ ⌊q⌋ := Int.le_floor.2 (by exact_mod_cast h)
  have hzero : towardZero q = ⌊q⌋ := if_pos hpos
  have hpart : 0 ≤ rounded (unit.micros * (q - ⌊q⌋)) :=
    rounded_nonneg (mul_nonneg (Nat.cast_nonneg _) (sub_nonneg.2 (Int.floor_le q)))
  -- the whole units are enough, whatever the fraction adds
  have hle : ((86400000000000000000 : ℤ) : ℚ) ≤ unrounded unit q := by
    have hint : 86400000000000000000 ≤ ⌊q⌋ * unit.micros := by
      have hmul := mul_le_mul_of_nonneg_right hfloor (Int.natCast_nonneg unit.micros)
      have htooMany : (unit.tooMany : ℤ) * unit.micros = 86400000000000000000 := by
        exact_mod_cast unit.tooMany_mul_micros
      omega
    have hcast : ((86400000000000000000 : ℤ) : ℚ) ≤ ((⌊q⌋ * unit.micros : ℤ) : ℚ) :=
      Int.cast_le.2 hint
    rw [unrounded, hzero]
    push_cast at hcast ⊢
    linarith
  have hmono := nearestInt_mono hle
  rw [nearestInt_intCast] at hmono
  intro hrep
  have := hrep.2
  omega

theorem representable_of_le_sub_gap (h0 : 0 ≤ q) (h : q ≤ unit.tooMany - unit.gap) :
    Representable (nearestInt (unrounded unit q)) := by
  have hmicros : (unit.tooMany : ℚ) * unit.micros = 86400000000000000000 := by
    exact_mod_cast unit.tooMany_mul_micros
  have hu : (0 : ℚ) < unit.micros := by
    cases unit <;> norm_num [TimeUnit.micros]
  -- the gap is a microsecond at least, and the conversion is off by less than one
  have hprod : q * unit.micros ≤ 86400000000000000000 - 1 := by
    have hgap := unit.one_le_gap_mul_micros
    have hmul := mul_le_mul_of_nonneg_right h hu.le
    rw [sub_mul, hmicros] at hmul
    linarith
  have herr := abs_le.1 (abs_micros_sub_le (by decide) (unit_micros_le unit) q)
  have hprod0 : 0 ≤ q * unit.micros := mul_nonneg h0 hu.le
  norm_num at herr
  constructor
  · have hlow : ((-1 : ℤ) : ℚ) ≤ nearestInt (unrounded unit q) := by
      push_cast
      linarith [herr.1]
    have : -1 ≤ nearestInt (unrounded unit q) := by exact_mod_cast hlow
    omega
  · have hhigh : (nearestInt (unrounded unit q) : ℚ) < (86400000000000000000 : ℤ) := by
      push_cast
      linarith [herr.2]
    have : nearestInt (unrounded unit q) < 86400000000000000000 := by exact_mod_cast hhigh
    omega

end Duration

namespace Written

variable {w : Written}

/-- What is too long overflows, in binary64 or as a number of microseconds. -/
theorem duration_of_tooLong (h : w.TooLong) : w.duration = .error .overflow := by
  have htooMany : (w.unit.tooMany : ℚ) ≤ rounded w.amount.value := by
    rw [← w.unit.rounded_firstTooLong]
    exact rounded_mono h
  rw [duration, Duration.ofAmount]
  rcases w.amount.nearest_cases with ⟨hfin, hval⟩ | ⟨hinf, -⟩
  · have hnumber : (Number.float w.amount.nearest).IsFinite := hfin
    have hrat : (Number.float w.amount.nearest).toRat = rounded w.amount.value := hval
    rw [Duration.microsOf_eq_ok w.unit hnumber, hrat]
    exact Duration.ofMicros_of_not_representable (Duration.not_representable_of_tooMany_le htooMany)
  · rw [hinf]
    rfl

theorem exists_duration (h : ¬ w.TooLong) : ∃ d, w.duration = .ok d := by
  have h0 := w.amount.value_nonneg
  have hle := TimeUnit.rounded_le_of_lt_firstTooLong h0 (not_le.1 h)
  rw [duration, Duration.ofAmount]
  rcases w.amount.nearest_cases with ⟨hfin, hval⟩ | ⟨-, hlimit⟩
  · have hnumber : (Number.float w.amount.nearest).IsFinite := hfin
    have hrat : (Number.float w.amount.nearest).toRat = rounded w.amount.value := hval
    have hrep := Duration.representable_of_le_sub_gap (rounded_nonneg h0) hle
    rw [Duration.microsOf_eq_ok w.unit hnumber, hrat]
    exact ⟨_, Duration.ofMicros_of_representable hrep⟩
  · -- what becomes infinite is far above the first amount that is too long
    have hvalue := (not_le.1 h).le.trans w.unit.firstTooLong_le
    exact absurd hlimit (not_le.2 (rounded_lt_limit (by decide) (by decide) hvalue))

end Written

/-- A text is a duration, or one that is too long, or malformed. -/
theorem Duration.ofText_cases (text : String) :
    (∃ w d, Written.ofText? text.toList = some w ∧ ¬ w.TooLong ∧ ofText text = .ok d) ∨
      (∃ w, Written.ofText? text.toList = some w ∧ w.TooLong ∧
        ofText text = .error (.arithmetic .overflow)) ∨
      (Written.ofText? text.toList = none ∧ ofText text = .error (.malformedDuration text)) := by
  rw [ofText]
  cases hread : Written.ofText? text.toList with
  | none => exact Or.inr (Or.inr ⟨rfl, rfl⟩)
  | some w =>
    by_cases h : w.TooLong
    · refine Or.inr (Or.inl ⟨w, rfl, h, ?_⟩)
      simp only [Written.duration_of_tooLong h]
      rfl
    · obtain ⟨d, hd⟩ := Written.exists_duration h
      refine Or.inl ⟨w, d, rfl, h, ?_⟩
      simp only [hd]
      rfl

theorem Duration.ofText_eq_overflow_iff {text : String} :
    ofText text = .error (.arithmetic .overflow) ↔
      ∃ w, Written.ofText? text.toList = some w ∧ w.TooLong := by
  rcases ofText_cases text with ⟨w, d, hw, hlong, hd⟩ | ⟨w, hw, hlong, hd⟩ | ⟨hw, hd⟩
  · rw [hd, hw]
    constructor
    · intro h
      cases h
    · rintro ⟨v, ⟨⟩, hv⟩
      exact absurd hv hlong
  · exact ⟨fun _ => ⟨w, hw, hlong⟩, fun _ => hd⟩
  · rw [hd, hw]
    constructor
    · intro h
      cases h
    · rintro ⟨v, ⟨⟩, -⟩

-- the first amount that is too long, and one unit of its last place less
example :
    Duration.ofText "23999999999.9999980926513671875h" = .error (.arithmetic .overflow) ∧
      Duration.ofText "23999999999.9999980926513671874h" =
        .ok ⟨86399999999999986267, by decide⟩ := by
  decide +kernel

end RandomDelay
