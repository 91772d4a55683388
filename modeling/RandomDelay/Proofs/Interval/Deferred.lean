import RandomDelay.Proofs.Instant
import RandomDelay.Proofs.Source.Uniform

/-!
# Instants put off by a sample

For a draw of `[0, 1)` an instant is put off to the position that is a sample of the interval later,
or to the latest instant if the year 9999 is over by then (`deferred_bounds`). The sample is never
negative, so no instant is put off to an earlier one; and the sample is below the upper bound of the
interval, exactly and not only in the durations, so the bound is kept where both sums saturate.
-/

set_option autoImplicit false

namespace RandomDelay.Interval

/-- Putting an instant off by a draw of `[0, 1)` does not fail. The result is on the same clock, in
its first passage, a sample later than the instant or the latest of all; so it is not before the
instant, not before the lower bound of the interval after it, and before the upper bound. -/
theorem deferred_bounds (i : Interval) (t : Instant) (source : Source) (hr : source.next.1.InUnit) :
    ∃ v u, (i.sample source).1 = .ok v ∧ (i.deferred t source).1 = .ok u ∧
      (u.offset = t.offset ∧ u.repeated = false) ∧
      (u.position : ℤ) = min (t.position + v.micros) (Instant.latest t.offset).position ∧
      t.position ≤ u.position ∧
      min (t.position + i.lower.micros) (Instant.latest t.offset).position ≤ u.position ∧
      (0 < i.span.micros → u.position < t.position + i.lower.micros + i.span.micros) := by
  obtain ⟨v, hv, hsample⟩ := i.exists_sample hr
  have hlower := hsample.lower_le
  have hnonneg : 0 ≤ v.micros := i.lower_nonneg.trans hlower
  have hposition := t.position_saturatingAdd_of_nonneg hnonneg
  obtain ⟨-, hoffset, hrepeated⟩ := t.position_saturatingAdd v
  have hlatest := t.position_le_latest t.offset
  refine ⟨v, t.saturatingAdd v, hv, ?_, ⟨hoffset, hrepeated⟩, hposition, ?_, ?_, ?_⟩
  · rw [deferred, Drawn.map, hv]
    rfl
  · omega
  · omega
  · intro hspan
    have hupper := hsample.lt_upper hspan
    omega

/-- In the last second of year 9999 a day of jitter ends at the latest instant. -/
theorem deferred_bounds_last_second :
    let i : Interval := ⟨⟨86400000000, by decide⟩, .second, by decide, by decide⟩
    let t : Instant := ⟨⟨9999, 12, 31, by decide⟩, ⟨23, 59, 59, 0, by decide⟩, some .second, true⟩
    ∃ u, (i.deferred t (.constant (Binary64.nearest false 1 2))).1 = .ok u ∧
      u.offset = some .second ∧ u.repeated = false ∧
      (u.position : ℤ) = (Instant.latest (some .second)).position := by
  intro i t
  obtain ⟨v, u, -, hu, ⟨hoffset, hrepeated⟩, -, -, hlower, -⟩ :=
    deferred_bounds i t _ inUnit_next_constant_half
  have hsaturated : min (t.position + i.lower.micros) ((Instant.latest t.offset).position : ℤ) =
      (Instant.latest t.offset).position := by decide
  have hlatest := u.position_le_latest t.offset
  rw [hsaturated] at hlower
  exact ⟨u, hu, hoffset, hrepeated, le_antisymm (Int.ofNat_le.2 hlatest) hlower⟩

/-! ## No jitter -/

theorem sample_noJitter (source : Source) : noJitter.sample source = (.ok .zero, source) :=
  sample_of_span_zero rfl source

theorem delayed_noJitter (d : Duration) (source : Source) :
    noJitter.delayed d source = (.ok d, source) := by
  rw [delayed, sample_noJitter, Drawn.map, Except.map, d.zero_saturatingAdd]

theorem deferred_noJitter (t : Instant) (source : Source) :
    noJitter.deferred t source = (.ok { t with repeated := false }, source) := by
  rw [deferred, sample_noJitter, Drawn.map, Except.map, t.saturatingAdd_zero]

/-- The interval without jitter leaves every source and every duration as it is, and of an instant
the date, the time and the offset. Only the mark of a second passage is taken off, so an instant
comes out as it is exactly if it does not have the mark. -/
theorem noJitter_applied (d : Duration) (t : Instant) (source : Source) :
    noJitter.delayed d source = (.ok d, source) ∧
    noJitter.deferred t source = (.ok { t with repeated := false }, source) ∧
    (noJitter.deferred t source = (.ok t, source) ↔ t.repeated = false) := by
  refine ⟨delayed_noJitter d source, deferred_noJitter t source, ?_⟩
  rw [deferred_noJitter]
  cases t
  simp [eq_comm]

/-- The second passage of half past one comes out as the first one. -/
theorem noJitter_of_second_passage :
    let t : Instant := ⟨⟨2024, 11, 3, by decide⟩, ⟨1, 30, 0, 0, by decide⟩, none, true⟩
    (noJitter.deferred t (.constant .zero)).1 = .ok { t with repeated := false } ∧
      (noJitter.deferred t (.constant .zero)).1 ≠ .ok t := by
  intro t
  rw [deferred_noJitter]
  refine ⟨rfl, ?_⟩
  intro h
  exact Bool.false_ne_true (congrArg Instant.repeated (Except.ok.inj h))

end RandomDelay.Interval
