import RandomDelay.Proofs.Binary64.Nearest
import RandomDelay.Proofs.Duration.Grammar
import RandomDelay.Proofs.Outcome

/-!
# Accuracy and order of written durations

A written amount of a unit is rounded three times: to binary64, in the product of its fraction with
the unit, and to whole microseconds. The first two are off by the 53rd binary place of the amount
and a millionth part of a microsecond (`abs_unrounded_rounded_sub_le`), so the duration is off by
little more than the half microsecond of the third. An amount that is a whole number of
microseconds, up to `2 ^ 51` of them, is therefore exact in every unit (`ofText_of_wholeMicros`).

All three keep the order. The product of the fraction may be rounded up to one unit, but not past
it, so the order is kept from one whole unit to the next as well (`unrounded_mono`). Of two amounts
of one unit the smaller one has the smaller duration, if the larger has any
(`ofText_mono_and_accurate`).
-/

set_option autoImplicit false

namespace RandomDelay

open RandomDelay.Binary64 RandomDelay.Outcome RandomDelay.Rounding

theorem Numeral.exactValue_nonneg (whole part : List Char) : 0 ≤ exactValue whole part := by
  unfold exactValue
  positivity

/-- A numeral that its unit follows at once. -/
theorem Written.form_of_numeral {whole part numeral text : List Char} {unit : TimeUnit}
    (h : Numeral.Form whole part numeral) (htext : text = numeral ++ unit.symbol) :
    Form whole part unit text := by
  have hblanks : Text.Blanks [] := nofun
  have hform := Form.parts hblanks h hblanks (.symbol unit) hblanks
  rwa [List.nil_append, List.nil_append, List.append_nil, ← htext] at hform

namespace Duration

/-! ## Order -/

section

variable {unit : TimeUnit} {q r : ℚ}

theorem representable_micros (unit : TimeUnit) : Binary64.Representable unit.micros := by
  have h := representable_toRat (ofInt unit.micros)
  rwa [(toRat_ofInt_micros unit).2] at h

theorem unrounded_of_nonneg (unit : TimeUnit) (h : 0 ≤ q) :
    unrounded unit q = ⌊q⌋ * unit.micros + rounded (unit.micros * Int.fract q) := by
  have hzero : towardZero q = ⌊q⌋ := if_pos h
  rw [unrounded, hzero, Int.fract]

theorem unrounded_nonneg (unit : TimeUnit) (h : 0 ≤ q) : 0 ≤ unrounded unit q := by
  have hwhole : (0 : ℚ) ≤ ⌊q⌋ := by exact_mod_cast Int.floor_nonneg.2 h
  have hpart : 0 ≤ rounded (unit.micros * Int.fract q) :=
    rounded_nonneg (mul_nonneg (Nat.cast_nonneg _) (Int.fract_nonneg q))
  rw [unrounded_of_nonneg unit h]
  positivity

/-- Taking the fraction apart and rounding its product keeps the order. -/
theorem unrounded_mono (unit : TimeUnit) (hq : 0 ≤ q) (h : q ≤ r) :
    unrounded unit q ≤ unrounded unit r := by
  have hu : (0 : ℚ) ≤ unit.micros := Nat.cast_nonneg _
  rw [unrounded_of_nonneg unit hq, unrounded_of_nonneg unit (hq.trans h)]
  rcases lt_or_eq_of_le (Int.floor_le_floor h) with hlt | heq
  · -- the fraction of the smaller amount is rounded to one unit at most, and the larger amount
    -- has one more
    have htop : rounded (unit.micros * Int.fract q) ≤ unit.micros :=
      rounded_le (representable_micros unit) (mul_le_of_le_one_right hu (Int.fract_lt_one q).le)
    have hbottom : 0 ≤ rounded (unit.micros * Int.fract r) :=
      rounded_nonneg (mul_nonneg hu (Int.fract_nonneg r))
    have hwhole : ((⌊q⌋ : ℚ) + 1) * unit.micros ≤ ⌊r⌋ * unit.micros := by
      apply mul_le_mul_of_nonneg_right _ hu
      exact_mod_cast hlt
    linarith
  · have hfract : Int.fract q ≤ Int.fract r := by
      rw [Int.fract, Int.fract, heq]
      linarith
    have hpart := rounded_mono (mul_le_mul_of_nonneg_left hfract hu)
    rw [heq]
    linarith

/-! ## Error -/

/-- Both roundings in binary64 together are off by the 53rd binary place of the amount, and by less
than half a millionth part of a microsecond. -/
theorem abs_unrounded_rounded_sub_le (unit : TimeUnit) (h : 0 ≤ q) :
    |unrounded unit (rounded q) - q * unit.micros| ≤ 1 / 2 ^ 21 + q * unit.micros / 2 ^ 53 := by
  have hu : (0 : ℚ) ≤ unit.micros := Nat.cast_nonneg _
  have hfraction := abs_unrounded_sub_le (by decide) (unit_micros_le unit) (rounded q)
  have hamount : |rounded q * unit.micros - q * unit.micros| ≤
      (q / 2 ^ 53 + spacing 0 / 2) * unit.micros := by
    have herror := abs_rounded_sub_le_add q
    rw [abs_of_nonneg h] at herror
    rw [← sub_mul, abs_mul, abs_of_nonneg hu]
    exact mul_le_mul_of_nonneg_right herror hu
  -- the least spacing is far below what is left of the bound
  have hleast : spacing 0 / 2 * unit.micros ≤ 1 / 2 ^ 22 := by
    have hspacing : spacing 0 ≤ 2 ^ (-53 : ℤ) := by
      rw [spacing_eq_zpow]
      exact zpow_le_zpow_right₀ (by norm_num) (by decide)
    have hsize := unit_micros_le unit
    calc spacing 0 / 2 * unit.micros ≤ 2 ^ (-53 : ℤ) / 2 * 2 ^ (32 : ℤ) := by
          apply mul_le_mul _ hsize hu (by positivity)
          exact div_le_div_of_nonneg_right hspacing (by norm_num)
      _ = 1 / 2 ^ 22 := by norm_num
  calc |unrounded unit (rounded q) - q * unit.micros| ≤
        |unrounded unit (rounded q) - rounded q * unit.micros| +
          |rounded q * unit.micros - q * unit.micros| := abs_sub_le _ _ _
    _ ≤ 2 ^ ((32 : ℤ) - 54) + (q / 2 ^ 53 + spacing 0 / 2) * unit.micros :=
      add_le_add hfraction hamount
    _ ≤ 1 / 2 ^ 21 + q * unit.micros / 2 ^ 53 := by
      rw [add_mul]
      norm_num at hleast ⊢
      linarith

/-- An amount that is a whole number of microseconds, up to `2 ^ 51` of them, is rounded to that
number in the end. -/
theorem nearestInt_unrounded_of_wholeMicros {n : ℕ} (h : 0 ≤ q) (hvalue : q * unit.micros = n)
    (hn : n ≤ 2 ^ 51) : nearestInt (unrounded unit (rounded q)) = n := by
  have herror := abs_unrounded_rounded_sub_le unit h
  have hsmall : (n : ℚ) / 2 ^ 53 ≤ 1 / 4 := by
    have hnq : (n : ℚ) ≤ 2 ^ 51 := by exact_mod_cast hn
    rw [div_le_iff₀ (by positivity)]
    linarith
  rw [hvalue, abs_sub_comm] at herror
  -- less than one half is left for the last rounding, so it cannot be a tie
  apply nearestInt_eq_of_abs_sub_lt
  rw [Int.cast_natCast]
  calc |(n : ℚ) - unrounded unit (rounded q)| ≤ 1 / 2 ^ 21 + n / 2 ^ 53 := herror
    _ ≤ 1 / 2 ^ 21 + 1 / 4 := add_le_add_right hsmall _
    _ < 1 / 2 := by norm_num

end

/-! ## Texts -/

variable {whole part : List Char} {unit : TimeUnit} {text : String} {d : Duration}

theorem ofMicros_eq_ok_iff {micros : ℤ} : ofMicros micros = .ok d ↔ micros = d.micros := by
  constructor
  · intro h
    by_cases hrep : Representable micros
    · rw [ofMicros_of_representable hrep] at h
      rw [← Except.ok.inj h]
    · rw [ofMicros_of_not_representable hrep] at h
      cases h
  · rintro rfl
    exact ofMicros_of_representable d.representable

/-- A text of a duration has it if the amount does not become infinite and its microseconds are
those of the duration. -/
theorem ofText_eq_ok_iff (hform : Written.Form whole part unit text.toList) :
    ofText text = .ok d ↔ rounded (Numeral.exactValue whole part) < limit ∧
      nearestInt (unrounded unit (rounded (Numeral.exactValue whole part))) = d.micros := by
  rw [ofText_of_form hform, mapError_eq_ok, ofValue]
  split
  · rename_i hlt
    rw [ofMicros_eq_ok_iff]
    exact (and_iff_right hlt).symm
  · rename_i hge
    constructor
    · intro h
      cases h
    · intro h
      exact absurd h.1 hge

/-- A text whose amount of the unit is a whole number of microseconds, up to `2 ^ 51` of them, is a
duration of just so many. Texts of the same number in other units are therefore read alike. -/
theorem ofText_of_wholeMicros (hform : Written.Form whole part unit text.toList) {n : ℕ}
    (hvalue : Numeral.exactValue whole part * unit.micros = n) (hn : n ≤ 2 ^ 51) :
    (∃ d, ofText text = .ok d ∧ d.micros = n) ∧
    ∀ other whole' part' unit', Written.Form whole' part' unit' other.toList →
      Numeral.exactValue whole' part' * unit'.micros = n → ofText other = ofText text := by
  have hrep : Representable n := ⟨by omega, by omega⟩
  have hread : ∀ other whole' part' unit', Written.Form whole' part' unit' other.toList →
      Numeral.exactValue whole' part' * unit'.micros = n → ofText other = .ok ⟨n, hrep⟩ := by
    intro other whole' part' unit' hother hvalue'
    have h0 := Numeral.exactValue_nonneg whole' part'
    have hfinite : rounded (Numeral.exactValue whole' part') < limit := by
      -- there are no more units than microseconds
      have hone : (1 : ℚ) ≤ unit'.micros := by cases unit' <;> norm_num [TimeUnit.micros]
      have hnq : (n : ℚ) ≤ 2 ^ (51 : ℤ) := by exact_mod_cast hn
      apply rounded_lt_limit (k := 51) (by decide) (by decide)
      calc Numeral.exactValue whole' part' ≤ Numeral.exactValue whole' part' * unit'.micros :=
            le_mul_of_one_le_right h0 hone
        _ = n := hvalue'
        _ ≤ 2 ^ (51 : ℤ) := hnq
    exact (ofText_eq_ok_iff hother).2 ⟨hfinite, nearestInt_unrounded_of_wholeMicros h0 hvalue' hn⟩
  have htext := hread text whole part unit hform hvalue
  constructor
  · exact ⟨_, htext, rfl⟩
  · intro other whole' part' unit' hother hvalue'
    rw [hread other whole' part' unit' hother hvalue', htext]

/-- Ninety seconds, in milliseconds and in hours. -/
theorem ofText_ninetySeconds :
    (∃ d, ofText "90000ms" = .ok d ∧ d.micros = 90000000) ∧ ofText "0.025h" = ofText "90000ms" := by
  have hmilli : Written.Form ['9', '0', '0', '0', '0'] [] .millisecond "90000ms".toList :=
    Written.form_of_numeral (.digits (by decide) (by decide)) (by decide)
  have hhour : Written.Form ['0'] ['0', '2', '5'] .hour "0.025h".toList :=
    Written.form_of_numeral (.point (by decide) (by decide) (by decide)) (by decide)
  have hmilliValue : Numeral.exactValue ['9', '0', '0', '0', '0'] [] * TimeUnit.millisecond.micros =
      (90000000 : ℕ) := by decide +kernel
  have hhourValue : Numeral.exactValue ['0'] ['0', '2', '5'] * TimeUnit.hour.micros =
      (90000000 : ℕ) := by decide +kernel
  obtain ⟨hread, hsame⟩ := ofText_of_wholeMicros hmilli hmilliValue (by norm_num)
  exact ⟨hread, hsame _ _ _ _ hhour hhourValue⟩

/-- If a text is a duration, so are the texts of smaller amounts of the unit, and theirs are not
longer. A duration differs from the amount as it is written by half a microsecond, the 53rd binary
place of the amount, and a millionth part of a microsecond at most. -/
theorem ofText_mono_and_accurate (hform : Written.Form whole part unit text.toList)
    (hd : ofText text = .ok d) :
    (∀ other whole' part', Written.Form whole' part' unit other.toList →
      Numeral.exactValue whole' part' ≤ Numeral.exactValue whole part →
      ∃ e, ofText other = .ok e ∧ e ≤ d) ∧
    |(d.micros : ℚ) - Numeral.exactValue whole part * unit.micros| ≤
      1 / 2 + 1 / 2 ^ 21 + Numeral.exactValue whole part * unit.micros / 2 ^ 53 := by
  obtain ⟨hfinite, hmicros⟩ := (ofText_eq_ok_iff hform).1 hd
  constructor
  · intro other whole' part' hother hle
    have h0 := rounded_nonneg (Numeral.exactValue_nonneg whole' part')
    have hrounded := rounded_mono hle
    have hlow := nearestInt_nonneg (unrounded_nonneg unit h0)
    have hhigh := nearestInt_mono (unrounded_mono unit h0 hrounded)
    rw [hmicros] at hhigh
    -- what is between zero and a duration is one
    have hrep :
        Representable (nearestInt (unrounded unit (rounded (Numeral.exactValue whole' part')))) :=
      ⟨le_trans (by decide) hlow, hhigh.trans d.representable.2⟩
    exact ⟨⟨_, hrep⟩, (ofText_eq_ok_iff hother).2 ⟨hrounded.trans_lt hfinite, rfl⟩, hhigh⟩
  · have hlast := abs_nearestInt_sub_le (unrounded unit (rounded (Numeral.exactValue whole part)))
    have herror := abs_unrounded_rounded_sub_le unit (Numeral.exactValue_nonneg whole part)
    rw [hmicros] at hlast
    have hsum := abs_sub_le (d.micros : ℚ)
      (unrounded unit (rounded (Numeral.exactValue whole part)))
      (Numeral.exactValue whole part * unit.micros)
    linarith

/-- The fraction of the smaller amount is rounded up to one hour in the end. -/
theorem ofText_mono_and_accurate_seam :
    ofText "1h" = .ok ⟨3600000000, by decide⟩ ∧
      ∃ e, ofText "0.9999999999999999h" = .ok e ∧ e ≤ ⟨3600000000, by decide⟩ := by
  have hone : Written.Form ['1'] [] .hour "1h".toList :=
    Written.form_of_numeral (.digits (by decide) (by decide)) (by decide)
  have hless : Written.Form ['0'] (List.replicate 16 '9') .hour "0.9999999999999999h".toList :=
    Written.form_of_numeral (.point (by decide) (by decide) (by decide)) (by decide)
  have hd : ofText "1h" = .ok ⟨3600000000, by decide⟩ := by decide +kernel
  exact ⟨hd, (ofText_mono_and_accurate hone hd).1 _ _ _ hless (by decide +kernel)⟩

end Duration

end RandomDelay
