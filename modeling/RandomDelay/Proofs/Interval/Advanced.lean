import RandomDelay.Proofs.Binary64.Nearest
import RandomDelay.Proofs.Interval.Coupling

/-!
# Clock readings put off by a sample

A reading that binary64 holds is put off by adding the seconds of a sample, which rounds once more
after the seconds were rounded. Both roundings keep the order, so the result lies between the
readings that have the bounds of the interval added in the same way, and not before the reading
itself (`advanced_bounds`).

No such sum is infinite. The longest duration is far below half the distance to the limit of the
format that even its greatest number keeps (`Binary64.rounded_abs_add_lt_limit`), and is absorbed
there.
-/

set_option autoImplicit false

namespace RandomDelay

open RandomDelay.Binary64

namespace Binary64

/-- The greatest number of the format is one step below the limit. -/
theorem representable_limit_sub_spacing : Representable (limit - spacing 2045) := by
  refine ⟨2 ^ 53 - 1, 2045, by norm_num, ?_⟩
  rw [limit, Int.cast_sub, sub_mul]
  norm_num

theorem abs_toRat_le_limit_sub_spacing (x : Binary64) : |x.toRat| ≤ limit - spacing 2045 := by
  have hlimit : limit = ((2 ^ 53 : ℤ) : ℚ) * spacing 2045 := by
    rw [limit]
    norm_num
  have hlt := abs_toRat_lt_limit x
  rw [hlimit] at hlt ⊢
  have hle := (representable_toRat x).abs.le_sub_spacing (by norm_num) hlt
  rwa [sub_mul, one_mul] at hle

/-- The greatest numbers of the format absorb whatever is below half of their spacing. -/
theorem rounded_abs_add_lt_limit (x : Binary64) {q : ℚ} (hq : |q| ≤ 2 ^ (47 : ℤ)) :
    rounded |x.toRat + q| < limit := by
  have hspacing : 2 ^ (48 : ℤ) < spacing 2045 := by
    rw [spacing_eq_zpow, unitPlaces]
    exact zpow_lt_zpow_right₀ (by norm_num) (by norm_num)
  have hx := x.abs_toRat_le_limit_sub_spacing
  have hsum := abs_add_le x.toRat q
  by_contra hge
  rw [not_lt] at hge
  have hbeyond : limit - spacing 2045 < rounded |x.toRat + q| :=
    (sub_lt_self limit (spacing_pos 2045)).trans_le hge
  -- what reaches the limit lies beyond the middle between it and the greatest number
  have hmiddle := le_two_mul_of_lt_rounded representable_limit_sub_spacing hbeyond
  norm_num at hspacing hq
  linarith

end Binary64

namespace Interval

/-- The reading a duration later is the sum with the seconds, rounded once more and never
infinite. -/
theorem exists_reading {clock : Number} (hclock : clock.IsExact) (d : Duration) :
    ∃ z, reading clock d = .ok z ∧ z.IsFinite ∧
      z.toRat = rounded (clock.toRat + rounded (d.micros / 10 ^ 6)) := by
  obtain ⟨x, hx, hxfin, hxval⟩ := Number.exists_toBinary64_of_isExact hclock
  obtain ⟨hsfin, hsval⟩ := d.toRat_seconds
  obtain ⟨hfin, hval⟩ := toRat_add hxfin hsfin (x.rounded_abs_add_lt_limit d.abs_seconds_le)
  refine ⟨x.add d.seconds, ?_, hfin, ?_⟩
  · rw [reading, hx]
    rfl
  · rw [hval, hxval, hsval]

theorem rounded_add_seconds_mono (q : ℚ) {d e : Duration} (h : d ≤ e) :
    rounded (q + rounded (d.micros / 10 ^ 6)) ≤ rounded (q + rounded (e.micros / 10 ^ 6)) := by
  have hseconds := Duration.toRat_seconds_mono h
  rw [d.toRat_seconds.2, e.toRat_seconds.2] at hseconds
  exact rounded_mono (add_le_add_right hseconds q)

/-- A sample is at most the upper bound, also where that is cut at the longest duration. -/
theorem IsSample.le_upper {i : Interval} {d : Duration} (h : i.IsSample d) : d ≤ i.upper := by
  have hlongest : d.micros ≤ Duration.longest.micros := d.representable.2
  show d.micros ≤ (i.lower.saturatingAdd i.span).micros
  rw [Duration.micros_saturatingAdd_of_nonneg i.lower_nonneg]
  exact le_min hlongest h.micros_le

/-- A finite binary64 number, or a whole number of at most 53 bits, is put off without failure by a
draw of `[0, 1)`. The result is finite. It is not below the reading with the lower bound of the
interval added, which in turn is not below the reading itself, and not above the reading with the
upper bound added; these two are the sums with the rounded seconds of the bounds, rounded. -/
theorem advanced_bounds (i : Interval) (clock : Number) (hclock : clock.IsExact) (source : Source)
    (hr : source.next.1.InUnit) :
    ∃ low z high, reading clock i.lower = .ok low ∧ (i.advanced clock source).1 = .ok z ∧
      reading clock i.upper = .ok high ∧
      (low.IsFinite ∧ low.toRat = rounded (clock.toRat + rounded (i.lower.micros / 10 ^ 6))) ∧
      (high.IsFinite ∧ high.toRat = rounded (clock.toRat + rounded (i.upper.micros / 10 ^ 6))) ∧
      z.IsFinite ∧ clock.toRat ≤ low.toRat ∧ low.toRat ≤ z.toRat ∧ z.toRat ≤ high.toRat := by
  obtain ⟨v, hv, hsample⟩ := i.exists_sample hr
  obtain ⟨x, hx, hxfin, hxval⟩ := Number.exists_toBinary64_of_isExact hclock
  obtain ⟨low, hlow, hlowfin, hlowval⟩ := exists_reading hclock i.lower
  obtain ⟨z, hz, hzfin, hzval⟩ := exists_reading hclock v
  obtain ⟨high, hhigh, hhighfin, hhighval⟩ := exists_reading hclock i.upper
  refine ⟨low, z, high, hlow, advanced_of_reading hv hz, hhigh, ⟨hlowfin, hlowval⟩,
    ⟨hhighfin, hhighval⟩, hzfin, ?_, ?_, ?_⟩
  · -- the reading is a number of the format, so rounding does not take the sum below it
    have hlower : (0 : ℚ) ≤ i.lower.micros := by exact_mod_cast i.lower_nonneg
    have hseconds : 0 ≤ rounded ((i.lower.micros : ℚ) / 10 ^ 6) := rounded_nonneg (by positivity)
    rw [hlowval, ← hxval]
    exact le_rounded (representable_toRat x) (le_add_of_nonneg_right hseconds)
  · rw [hlowval, hzval]
    exact rounded_add_seconds_mono _ hsample.lower_le
  · rw [hzval, hhighval]
    exact rounded_add_seconds_mono _ hsample.le_upper

/-- The greatest number of the format stays finite on the longest interval, and does not go back. -/
theorem advanced_bounds_greatest :
    let i : Interval := ⟨.longest, .longest, by decide, by decide⟩
    let x : Binary64 := .finite false 0x1fffffffffffff 2045 (by decide)
    ∃ z, (i.advanced (.float x) (.constant (nearest false 1 2))).1 = .ok z ∧ z.IsFinite ∧
      x.toRat ≤ z.toRat := by
  intro i x
  have hx : (Number.float x).IsExact := isFinite_finite false _
  obtain ⟨low, z, -, -, hz, -, -, -, hzfin, hlow, hmono, -⟩ :=
    advanced_bounds i (.float x) hx _ inUnit_next_constant_half
  exact ⟨z, hz, hzfin, hlow.trans hmono⟩

end Interval

end RandomDelay
