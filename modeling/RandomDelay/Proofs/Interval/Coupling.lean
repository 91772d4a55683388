import RandomDelay.Proofs.Instant
import RandomDelay.Proofs.Number.Order
import RandomDelay.Proofs.Source.Uniform

/-!
# Two intervals on two draws

Of two intervals, let the second have no less lower bound and no less width, and let it have no less
draw of `[0, 1)`. Then it has no less sample (`exists_samples_le`). The offset of a sample is made
of steps that keep the order: the span in binary64, the product, its whole part, and the bound below
the span, which moves with it (`offsetAt_mono`). An interval without width has the least of all
samples, its lower bound.

What a sample is added to keeps the order as well, where the sums saturate, and where a clock
reading becomes infinite (`applied_mono`).
-/

set_option autoImplicit false

namespace RandomDelay

open RandomDelay.Binary64

/-- Seconds in binary64 have the order of the durations. -/
theorem Duration.toRat_seconds_mono {d e : Duration} (h : d ≤ e) :
    d.seconds.toRat ≤ e.seconds.toRat := by
  have hq : (d.micros : ℚ) ≤ e.micros := by exact_mod_cast (show d.micros ≤ e.micros from h)
  rw [d.toRat_seconds.2, e.toRat_seconds.2]
  exact rounded_mono (div_le_div_of_nonneg_right hq (by norm_num))

theorem Instant.position_saturatingAdd_mono {t u : Instant} {d e : Duration} (hd : 0 ≤ d.micros)
    (hoffset : t.offset = u.offset) (htu : t.position ≤ u.position) (hde : d ≤ e) :
    (t.saturatingAdd d).position ≤ (u.saturatingAdd e).position := by
  have hde' : d.micros ≤ e.micros := hde
  have hsum := t.position_saturatingAdd_of_nonneg hd
  have hsum' := u.position_saturatingAdd_of_nonneg (hd.trans hde')
  rw [hoffset] at hsum
  omega

namespace Interval

variable {i j : Interval} {source source' : Source}

/-- The offset grows with the span and with the draw. -/
theorem offsetAt_mono (hspan : i.span ≤ j.span) {r s : ℚ} (hr : 0 ≤ r) (hrs : r ≤ s) :
    i.offsetAt r ≤ j.offsetAt s := by
  have hmicros : i.span.micros ≤ j.span.micros := hspan
  have hfactor : rounded i.span.micros ≤ rounded j.span.micros :=
    rounded_mono (by exact_mod_cast hmicros)
  have hproduct : rounded i.span.micros * r ≤ rounded j.span.micros * s :=
    mul_le_mul hfactor hrs hr j.rounded_span_nonneg
  exact min_le_min (Int.floor_le_floor (rounded_mono hproduct)) (by omega)

/-- Intervals in order have samples in order for draws in order. -/
theorem exists_samples_le (hlower : i.lower ≤ j.lower) (hspan : i.span ≤ j.span)
    (hr : source.next.1.InUnit) (hr' : source'.next.1.InUnit)
    (hle : source.next.1.toRat ≤ source'.next.1.toRat) :
    ∃ v v', (i.sample source).1 = .ok v ∧ (j.sample source').1 = .ok v' ∧
      0 ≤ v.micros ∧ v ≤ v' := by
  have hlowerMicros : i.lower.micros ≤ j.lower.micros := hlower
  have hspanMicros : i.span.micros ≤ j.span.micros := hspan
  rcases lt_or_eq_of_le i.span_nonneg with hpos | hzero
  · -- the second interval has width as well, so both samples are a lower bound and an offset,
    -- cut at the longest
    obtain ⟨v, hv, -, hmicros⟩ := i.sample_eq_ok hr
    obtain ⟨v', hv', -, hmicros'⟩ := j.sample_eq_ok hr'
    have hoffset := offsetAt_mono hspan hr.2.1 hle
    have hnonneg := add_nonneg i.lower_nonneg (offsetAt_nonneg hpos hr.2.1)
    refine ⟨v, v', hv, hv', ?_, ?_⟩
    · rw [hmicros hpos]
      exact le_min (by decide) hnonneg
    · show v.micros ≤ v'.micros
      rw [hmicros hpos, hmicros' (hpos.trans_le hspanMicros)]
      exact min_le_min_left _ (add_le_add hlowerMicros hoffset)
  · -- without width the sample is the lower bound, whatever the draws are
    obtain ⟨v', hv', hsample⟩ := j.exists_sample hr'
    refine ⟨i.lower, v', ?_, hv', i.lower_nonneg, hlowerMicros.trans hsample.lower_le⟩
    rw [sample_of_span_zero hzero.symm]

theorem delayed_eq_ok {v : Duration} (h : (i.sample source).1 = .ok v) (d : Duration) :
    (i.delayed d source).1 = .ok (v.saturatingAdd d) := by
  rw [delayed, Drawn.map, h]
  rfl

theorem deferred_eq_ok {v : Duration} (h : (i.sample source).1 = .ok v) (t : Instant) :
    (i.deferred t source).1 = .ok (t.saturatingAdd v) := by
  rw [deferred, Drawn.map, h]
  rfl

/-- The sample is drawn first, and then the reading that much later is taken. -/
theorem advanced_of_reading {v : Duration} (h : (i.sample source).1 = .ok v) {clock : Number}
    {z : Binary64} (hz : reading clock v = .ok z) : (i.advanced clock source).1 = .ok z := by
  rw [advanced, Drawn.andThen, h]
  show (reading clock v).mapError _ = _
  rw [hz]
  rfl

theorem advanced_eq_ok {v : Duration} (h : (i.sample source).1 = .ok v) {clock : Number}
    {y : Binary64} (hy : clock.toBinary64 = .ok y) :
    (i.advanced clock source).1 = .ok (y.add v.seconds) := by
  apply advanced_of_reading h
  rw [reading, hy]
  rfl

/-- For intervals in order and draws of `[0, 1)` in order, samples are in order, and so are the
durations, the instants on one clock and the clock readings that are in order before a sample is
added. None of them fails, if the readings can be converted. -/
theorem applied_mono (hlower : i.lower ≤ j.lower) (hspan : i.span ≤ j.span)
    (hr : source.next.1.InUnit) (hr' : source'.next.1.InUnit)
    (hle : source.next.1.toRat ≤ source'.next.1.toRat) :
    (∃ v v', (i.sample source).1 = .ok v ∧ (j.sample source').1 = .ok v' ∧ v ≤ v') ∧
    (∀ d d' : Duration, d ≤ d' →
      ∃ w w', (i.delayed d source).1 = .ok w ∧ (j.delayed d' source').1 = .ok w' ∧ w ≤ w') ∧
    (∀ t t' : Instant, t.offset = t'.offset → t.position ≤ t'.position →
      ∃ u u', (i.deferred t source).1 = .ok u ∧ (j.deferred t' source').1 = .ok u' ∧
        u.offset = u'.offset ∧ u.position ≤ u'.position) ∧
    ∀ x x' : Number, x.le x' = true → (∃ y, x.toBinary64 = .ok y) → (∃ y', x'.toBinary64 = .ok y') →
      ∃ z z', (i.advanced x source).1 = .ok z ∧ (j.advanced x' source').1 = .ok z' ∧
        (Number.float z).le (.float z') = true := by
  obtain ⟨v, v', hv, hv', hnonneg, hsamples⟩ := exists_samples_le hlower hspan hr hr' hle
  refine ⟨⟨v, v', hv, hv', hsamples⟩, ?_, ?_, ?_⟩
  · intro d d' hd
    exact ⟨_, _, delayed_eq_ok hv d, delayed_eq_ok hv' d',
      Duration.saturatingAdd_mono hnonneg hsamples hd⟩
  · intro t t' hoffset hposition
    refine ⟨_, _, deferred_eq_ok hv t, deferred_eq_ok hv' t', ?_, ?_⟩
    · rw [(t.position_saturatingAdd v).2.1, (t'.position_saturatingAdd v').2.1, hoffset]
    · exact Instant.position_saturatingAdd_mono hnonneg hoffset hposition hsamples
  · -- readings are converted, and then the seconds of the sample are added in binary64
    rintro x x' hx ⟨y, hy⟩ ⟨y', hy'⟩
    refine ⟨_, _, advanced_eq_ok hv hy, advanced_eq_ok hv' hy', ?_⟩
    exact Number.le_float_add_add (Number.le_toBinary64 hx hy hy') v.toRat_seconds.1
      v'.toRat_seconds.1 (Duration.toRat_seconds_mono hsamples)

/-- No jitter beside the longest interval, on one draw: the samples of both, and a whole reading
before an infinite one. -/
theorem applied_mono_noJitter :
    let j : Interval := ⟨.second, .longest, by decide, by decide⟩
    let source := Source.constant (nearest false 1 2)
    (∃ v v', (noJitter.sample source).1 = .ok v ∧ (j.sample source).1 = .ok v' ∧ v ≤ v') ∧
      ∃ z z', (noJitter.advanced (.whole 5) source).1 = .ok z ∧
        (j.advanced (.float (.infinity false)) source).1 = .ok z' ∧
          (Number.float z).le (.float z') = true := by
  intro j source
  have hdraw := inUnit_next_constant_half
  have hlower : noJitter.lower ≤ j.lower := by decide
  have hspan : noJitter.span ≤ j.span := by decide
  obtain ⟨hsamples, -, -, hreadings⟩ := applied_mono hlower hspan hdraw hdraw le_rfl
  have hfive : (Number.whole 5).IsModerate := ⟨Number.isFinite_whole 5, by norm_num [Number.toRat]⟩
  obtain ⟨y, hy, -⟩ := Number.exists_toBinary64 hfive
  have hbefore : (Number.whole 5).le (.float (.infinity false)) = true :=
    (Number.le_infinity_iff (Number.isFinite_whole 5) false).2 rfl
  exact ⟨hsamples, hreadings _ _ hbefore ⟨y, hy⟩ ⟨_, rfl⟩⟩

end Interval

end RandomDelay
