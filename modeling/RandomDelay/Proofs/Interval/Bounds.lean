import RandomDelay.Interval.Sample
import RandomDelay.Proofs.Duration.Amount
import RandomDelay.Proofs.Duration.Saturation

/-!
# Bounds of samples

For a draw of `[0, 1)` the offset of a sample is a whole number of microseconds in `[0, span)`: the
span in binary64, times the draw, is finite and not negative, and is cut at the width
(`offset_eq_ok`). The sample is then the lower bound with the offset added, and the delayed duration
has the sample added.

Both additions saturate. A saturated sum is the longest duration and lies below the exact sum, so it
keeps the strict upper bound; and it is the upper bound only of intervals that reach past the
longest duration (`sample_and_delayed_bounds`).
-/

set_option autoImplicit false

namespace RandomDelay

/-- Draws of a source of uniform numbers: the finite numbers of `[0, 1)`. -/
def Binary64.InUnit (r : Binary64) : Prop := r.IsFinite ∧ 0 ≤ r.toRat ∧ r.toRat < 1

instance : DecidablePred Binary64.InUnit := fun _ => inferInstanceAs (Decidable (_ ∧ _ ∧ _))

/-- Source that gives one number over and over. -/
def Source.constant (r : Binary64) : Source := .cycle ⟨[r], List.cons_ne_nil r [], 0⟩

theorem Source.next_constant (r : Binary64) : (Source.constant r).next.1 = r := rfl

namespace Interval

open RandomDelay.Binary64

/-- Offset of the sample for a draw, in microseconds. -/
def offsetAt (i : Interval) (r : ℚ) : ℤ :=
  min ⌊rounded (rounded i.span.micros * r)⌋ (i.span.micros - 1)

theorem abs_span_le (i : Interval) : |(i.span.micros : ℚ)| ≤ 2 ^ (67 : ℤ) := by
  have hrep := i.span.representable.2
  have hspan : (0 : ℚ) ≤ i.span.micros := by exact_mod_cast i.span_nonneg
  have hmax : (i.span.micros : ℚ) ≤ 86399999999999999999 := by exact_mod_cast hrep
  rw [abs_of_nonneg hspan]
  norm_num
  linarith

/-- The span in binary64 is finite. -/
theorem toRat_ofInt_span (i : Interval) :
    (ofInt i.span.micros).IsFinite ∧ (ofInt i.span.micros).toRat = rounded i.span.micros :=
  toRat_ofInt _ (rounded_lt_limit (by decide) (by decide) i.abs_span_le)

theorem rounded_span_nonneg (i : Interval) : 0 ≤ rounded (i.span.micros : ℚ) :=
  rounded_nonneg (by exact_mod_cast i.span_nonneg)

/-- The offset is computed without failure for a draw of `[0, 1)`. -/
theorem offset_eq_ok (i : Interval) {r : Binary64} (hr : r.InUnit) :
    i.offset r = .ok (i.offsetAt r.toRat) := by
  obtain ⟨hfin, h0, h1⟩ := hr
  obtain ⟨hsfin, hsval⟩ := i.toRat_ofInt_span
  have hspan := i.rounded_span_nonneg
  have hprod : 0 ≤ rounded i.span.micros * r.toRat := mul_nonneg hspan h0
  have hbound : rounded |(ofInt i.span.micros).toRat * r.toRat| < limit := by
    rw [hsval, abs_of_nonneg hprod]
    have hmono : rounded i.span.micros ≤ 2 ^ (67 : ℤ) :=
      rounded_le (representable_zpow (by decide)) ((le_abs_self _).trans i.abs_span_le)
    refine rounded_lt_limit (k := 67) (by decide) (by decide) ?_
    calc rounded i.span.micros * r.toRat ≤ rounded i.span.micros * 1 :=
          mul_le_mul_of_nonneg_left h1.le hspan
      _ ≤ 2 ^ (67 : ℤ) := by rwa [mul_one]
  obtain ⟨hpfin, hpval⟩ := toRat_mul hsfin hfin hbound
  -- the product is not negative, so cutting it is rounding down
  have hfloor : towardZero (((ofInt i.span.micros).mul r).toRat) =
      ⌊rounded (rounded i.span.micros * r.toRat)⌋ := by
    rw [hpval, hsval]
    exact if_pos (rounded_nonneg hprod)
  unfold offset
  rw [truncate_of_isFinite hpfin, hfloor]
  rfl

theorem offsetAt_nonneg {i : Interval} (hspan : 0 < i.span.micros) {r : ℚ} (h0 : 0 ≤ r) :
    0 ≤ i.offsetAt r := by
  have hfloor : 0 ≤ ⌊rounded (rounded i.span.micros * r)⌋ :=
    Int.floor_nonneg.2 (rounded_nonneg (mul_nonneg i.rounded_span_nonneg h0))
  exact le_min hfloor (by omega)

theorem offsetAt_lt_span (i : Interval) (r : ℚ) : i.offsetAt r < i.span.micros := by
  have := min_le_right ⌊rounded (rounded i.span.micros * r)⌋ (i.span.micros - 1)
  unfold offsetAt
  omega

/-- The sample for a draw of `[0, 1)` has its offset added to the lower bound. -/
theorem sampleAt_eq_ok {i : Interval} (hspan : 0 < i.span.micros) {r : Binary64} (hr : r.InUnit) :
    ∃ v, i.sampleAt r = .ok v ∧
      v.micros = min Duration.longest.micros (i.lower.micros + i.offsetAt r.toRat) := by
  have hlow := offsetAt_nonneg hspan hr.2.1
  have hhigh := i.offsetAt_lt_span r.toRat
  have hrep : Duration.Representable (i.offsetAt r.toRat) := by
    have := i.span.representable
    unfold Duration.Representable at *
    omega
  refine ⟨i.lower.saturatingAdd ⟨_, hrep⟩, ?_, ?_⟩
  · unfold sampleAt
    rw [i.offset_eq_ok hr]
    show (Duration.ofMicros (i.offsetAt r.toRat) >>= _) = _
    rw [Duration.ofMicros_of_representable hrep]
    rfl
  · exact Duration.micros_saturatingAdd_of_nonneg i.lower_nonneg

/-- The sample that is drawn, with the offset of an interval without width being zero. -/
theorem sample_eq_ok (i : Interval) {source : Source} (hr : source.next.1.InUnit) :
    ∃ v, (i.sample source).1 = .ok v ∧
      (i.span.micros = 0 → v = i.lower) ∧
      (0 < i.span.micros →
        v.micros =
          min Duration.longest.micros (i.lower.micros + i.offsetAt source.next.1.toRat)) := by
  rcases lt_or_eq_of_le i.span_nonneg with hspan | hspan
  · obtain ⟨v, hv, hmicros⟩ := sampleAt_eq_ok hspan hr
    refine ⟨v, ?_, ?_, fun _ => hmicros⟩
    · rw [sample_of_span_pos hspan, hv]
      rfl
    · intro hzero
      omega
  · refine ⟨i.lower, ?_, fun _ => rfl, ?_⟩
    · rw [sample_of_span_zero hspan.symm]
    · intro hpos
      omega

/-- Samples and delayed durations of a draw of `[0, 1)` exist and keep the bounds of the interval:
the lower one, the upper one strictly, and the longest duration where a sum is longer. -/
theorem sample_and_delayed_bounds (i : Interval) (d : Duration) (source : Source)
    (hr : source.next.1.InUnit) :
    ∃ v w, (i.sample source).1 = .ok v ∧ (i.delayed d source).1 = .ok w ∧
      (0 < i.span.micros →
        (i.lower ≤ v ∧ v.micros < i.lower.micros + i.span.micros ∧ v ≤ i.upper) ∧
        (min Duration.longest.micros (d.micros + i.lower.micros) ≤ w.micros ∧
          w.micros < d.micros + i.lower.micros + i.span.micros) ∧
        (i.lower.micros + i.span.micros ≤ Duration.longest.micros → v < i.upper)) ∧
      (i.span.micros = 0 →
        v = i.lower ∧ w.micros = min Duration.longest.micros (d.micros + i.lower.micros)) := by
  obtain ⟨v, hv, hzero, hpos⟩ := i.sample_eq_ok hr
  have hlower := i.lower_nonneg
  have hupper : i.upper.micros = min Duration.longest.micros (i.lower.micros + i.span.micros) :=
    Duration.micros_saturatingAdd_of_nonneg hlower
  have hvnonneg : 0 ≤ v.micros := by
    rcases lt_or_eq_of_le i.span_nonneg with hspan | hspan
    · have := offsetAt_nonneg hspan hr.2.1
      rw [hpos hspan]
      exact le_min (by decide) (by omega)
    · rw [hzero hspan.symm]
      exact hlower
  have hw : (v.saturatingAdd d).micros = min Duration.longest.micros (v.micros + d.micros) :=
    Duration.micros_saturatingAdd_of_nonneg hvnonneg
  refine ⟨v, v.saturatingAdd d, hv, ?_, ?_, ?_⟩
  · rw [delayed, Drawn.map, hv]
    rfl
  · intro hspan
    have hlow := offsetAt_nonneg hspan hr.2.1
    have hhigh := i.offsetAt_lt_span source.next.1.toRat
    have hlowrep : i.lower.micros ≤ Duration.longest.micros := i.lower.representable.2
    have hvmicros := hpos hspan
    -- a saturated sum only lies further below the exact one, and the upper bound saturates with it
    refine ⟨⟨?_, ?_, ?_⟩, ⟨?_, ?_⟩, ?_⟩
    · show i.lower.micros ≤ v.micros
      rw [hvmicros]
      exact le_min hlowrep (by omega)
    · omega
    · show v.micros ≤ i.upper.micros
      omega
    · omega
    · omega
    · intro hfits
      show v.micros < i.upper.micros
      omega
  · intro hspan
    obtain rfl := hzero hspan
    constructor
    · rfl
    · rw [hw, add_comm]

/-- One half is a draw. -/
theorem inUnit_half : (nearest false 1 2).InUnit := by
  have hrep : Representable (((1 : ℕ) : ℚ) / (2 : ℕ)) := by
    have h := representable_zpow (k := -1) (by decide)
    norm_num at h ⊢
    exact h
  have hval := rounded_of_representable hrep
  have hlt : rounded (((1 : ℕ) : ℚ) / (2 : ℕ)) < limit :=
    rounded_lt_limit (k := 0) (by decide) (by decide) (by norm_num)
  obtain ⟨hfin, hrat⟩ := toRat_nearest false 1 two_pos hlt
  rw [hval] at hrat
  refine ⟨hfin, ?_, ?_⟩ <;> rw [hrat] <;> norm_num [withSign]

theorem inUnit_next_constant_half : (Source.constant (nearest false 1 2)).next.1.InUnit := by
  rw [Source.next_constant]
  exact inUnit_half

/-- On the longest interval the bounds hold of a draw of one half, which the sums saturate. -/
theorem sample_and_delayed_bounds_longest :
    ∃ v w, ((⟨.longest, .longest, by decide, by decide⟩ : Interval).sample
        (.constant (nearest false 1 2))).1 = .ok v ∧
      ((⟨.longest, .longest, by decide, by decide⟩ : Interval).delayed ⟨-1, by decide⟩
        (.constant (nearest false 1 2))).1 = .ok w ∧
      v ≤ .longest ∧ w.micros < -1 + Duration.longest.micros + Duration.longest.micros := by
  obtain ⟨v, w, hv, hw, hbounds, -⟩ := sample_and_delayed_bounds
    ⟨.longest, .longest, by decide, by decide⟩ ⟨-1, by decide⟩ _ inUnit_next_constant_half
  obtain ⟨⟨-, -, hle⟩, ⟨-, hlt⟩, -⟩ := hbounds (by decide)
  exact ⟨v, w, hv, hw, hle, hlt⟩

end Interval

end RandomDelay
