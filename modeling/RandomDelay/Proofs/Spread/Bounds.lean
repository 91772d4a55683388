import RandomDelay.Proofs.Interval.Bounds
import RandomDelay.Proofs.Outcome
import RandomDelay.Proofs.Spread.Announced

/-!
# Bounds of spread delays

A spread with a small announced upper bound computes bounds of the announced values
(`exists_bounds`), a jitter of `jitterMicros` (`exists_interval`) and a delay of the value
`delayValue` (`exists_draw`).

`draw_bounds` is the result: a draw of `[0, 1)` gives a delay from the lower bound up to, but not
including, the upper one. Spreads of any size keep at least their least delay, if that is a binary64
number.
-/

set_option autoImplicit false

namespace RandomDelay.Spread

open RandomDelay.Binary64 RandomDelay.Number

/-! ## The bounds and the jitter as they are computed -/

variable {s : Spread} {upper : Number}

/-- The computed bounds have the values of the announced ones. -/
theorem exists_bounds (h : Facts s upper) :
    ∃ lower upper', s.bounds = .ok (lower, upper') ∧ lower.IsModerate ∧ upper'.IsModerate ∧
      lower.toRat = lowerValue s.minimum.toRat s.nominal.toRat s.width.toRat ∧
      upper'.toRat = upperValue s.minimum.toRat s.nominal.toRat s.width.toRat := by
  obtain ⟨below, hbelow, hbelowfin, hbelowval⟩ := exists_sub h.nominal_isModerate h.width_isModerate
  have hlargerfin := isFinite_larger h.minimum_isModerate.1 h.nominal_isModerate.1
  have hlargerval := toRat_larger h.minimum_isModerate.1 h.nominal_isModerate.1
  have hlarger0 : 0 ≤ (s.minimum.larger s.nominal).toRat := by
    rw [hlargerval]
    exact h.moderate.minimum_nonneg.trans (le_max_left _ _)
  have hlargermod := isModerate_of_le hlargerfin hlarger0 (hlargerval ▸ h.moderate.larger_le)
  obtain ⟨above, habove, habovefin, haboveval⟩ := exists_add hlargermod h.width_isModerate
  rw [hlargerval] at haboveval
  have hlowerfin := isFinite_larger h.minimum_isModerate.1 hbelowfin
  have hlowerval : (s.minimum.larger below).toRat =
      lowerValue s.minimum.toRat s.nominal.toRat s.width.toRat := by
    rw [toRat_larger h.minimum_isModerate.1 hbelowfin, hbelowval]
    rfl
  refine ⟨s.minimum.larger below, above, ?_, ?_, ?_, hlowerval, haboveval⟩
  · rw [bounds, hbelow, habove]
    rfl
  · apply isModerate_of_le hlowerfin
    · rw [hlowerval]
      exact lowerValue_nonneg h.moderate
    · rw [hlowerval]
      exact (lowerValue_le h.moderate).trans h.moderate.larger_le
  · apply isModerate_of_le habovefin
    · rw [haboveval]
      exact upperValue_nonneg h.moderate
    · rw [haboveval]
      exact h.moderate.upper_le

/-- The distance of the bounds in seconds is a duration of `jitterMicros`. -/
theorem exists_ofSeconds {span : Number} (h : Facts s upper) (hspan : span.IsFinite)
    (hval : span.toRat = distance s.minimum.toRat s.nominal.toRat s.width.toRat) :
    ∃ d : Duration, Duration.ofSeconds span = .ok d ∧
      d.micros = jitterMicros s.minimum.toRat s.nominal.toRat s.width.toRat := by
  have hmicros : Rounding.nearestInt (Duration.unrounded .second span.toRat) =
      jitterMicros s.minimum.toRat s.nominal.toRat s.width.toRat := by
    rw [hval]
    rfl
  have hpos := jitterMicros_pos h.moderate
  have hmax := jitterMicros_le h.moderate
  have hrep :
      Duration.Representable (Rounding.nearestInt (Duration.unrounded .second span.toRat)) := by
    rw [hmicros]
    constructor <;> omega
  exact ⟨⟨_, hrep⟩, Duration.ofSeconds_eq_ok hspan hrep, hmicros⟩

/-- The interval of the jitter starts from zero and is `jitterMicros` wide. -/
theorem exists_interval (h : Facts s upper) (hwidth : leastWidth.le s.width = true)
    (hmin : (whole 0).le s.minimum = true) :
    ∃ lower i, s.interval = .ok (lower, i) ∧ lower.IsModerate ∧
      lower.toRat = lowerValue s.minimum.toRat s.nominal.toRat s.width.toRat ∧
      i.lower.micros = 0 ∧
      i.span.micros = jitterMicros s.minimum.toRat s.nominal.toRat s.width.toRat := by
  obtain ⟨lower, upper', hbounds, hlowermod, huppermod, hlowerval, hupperval⟩ := exists_bounds h
  obtain ⟨span, hspan, hspanfin, hspanval⟩ := exists_sub huppermod hlowermod
  rw [hupperval, hlowerval] at hspanval
  obtain ⟨d, hd, hmicros⟩ := exists_ofSeconds h hspanfin hspanval
  have hnonneg : 0 ≤ d.micros := by
    rw [hmicros]
    exact (jitterMicros_pos h.moderate).le
  have hinterval : Interval.ofSeconds (.whole 0) span = .ok ⟨.zero, d, by decide, hnonneg⟩ := by
    have hzero : Duration.ofSeconds (.whole 0) = .ok .zero := rfl
    rw [Interval.ofSeconds_of_ok hzero hd]
    exact Interval.ofBounds_eq_ok (by decide) hnonneg
  refine ⟨lower, ⟨.zero, d, by decide, hnonneg⟩, ?_, hlowermod, hlowerval, rfl, hmicros⟩
  rw [interval, zero_lt_of_leastWidth_le hwidth, hmin, hbounds]
  show (Except.mapError Failure.arithmetic (upper'.sub lower) >>= fun span =>
    Interval.ofSeconds (.whole 0) span >>= fun i => Except.ok (lower, i)) = _
  rw [hspan]
  show (Interval.ofSeconds (.whole 0) span >>= fun i => Except.ok (lower, i)) = _
  rw [hinterval]
  rfl

/-! ## Delays -/

/-- A delay is the reading of the lower bound put off by the sample. -/
theorem draw_eq_reading {source : Source} {lower : Number} {i : Interval} {v : Duration}
    (hinterval : s.interval = .ok (lower, i)) (hv : (i.sample source).1 = .ok v) :
    (s.draw source).1 = (Interval.reading lower v).mapError .arithmetic := by
  rw [draw, hinterval]
  show (i.sample source).1.bind _ = _
  rw [hv]
  rfl

/-- The delay for a draw of `[0, 1)` has the value for a jitter below the width. -/
theorem exists_draw (h : Facts s upper) (hwidth : leastWidth.le s.width = true)
    (hmin : (whole 0).le s.minimum = true) {source : Source} (hr : source.next.1.InUnit) :
    ∃ (k : ℤ) (result : Binary64), (s.draw source).1 = .ok result ∧ result.IsFinite ∧ 0 ≤ k ∧
      k < jitterMicros s.minimum.toRat s.nominal.toRat s.width.toRat ∧
      result.toRat = delayValue s.minimum.toRat s.nominal.toRat s.width.toRat k := by
  obtain ⟨lower, i, hinterval, hlowermod, hlowerval, hzero, hspan⟩ := exists_interval h hwidth hmin
  obtain ⟨v, hv, -, hmicros⟩ := i.sample_eq_ok hr
  have hpos : 0 < i.span.micros := hspan ▸ jitterMicros_pos h.moderate
  have hk0 := Interval.offsetAt_nonneg hpos hr.2.1
  have hk := i.offsetAt_lt_span source.next.1.toRat
  have hvmicros : v.micros = i.offsetAt source.next.1.toRat := by
    have hmax : i.span.micros ≤ Duration.longest.micros := i.span.representable.2
    rw [hmicros hpos, hzero]
    omega
  rw [hspan] at hk
  obtain ⟨hsecfin, hsecval⟩ := Duration.toRat_seconds v
  rw [hvmicros] at hsecval
  have hlower0 := lowerValue_nonneg h.moderate
  have hlowerle := (lowerValue_le h.moderate).trans h.moderate.larger_le
  obtain ⟨x, hx, hxfin, hxval⟩ := exists_toBinary64 hlowermod
  rw [hlowerval] at hxval
  have hlt : rounded |x.toRat + v.seconds.toRat| < limit := by
    -- neither term is more than a few times `2 ^ 31`
    obtain ⟨hj0, hj⟩ := jitter_bounds h.moderate hk0 hk
    obtain ⟨-, hdist, -⟩ := distance_bounds h.moderate
    apply rounded_lt_limit (k := 33) (by decide) (by decide)
    rw [hxval, hsecval, abs_of_nonneg (add_nonneg hlower0 hj0)]
    norm_num at hj hdist hlowerle ⊢
    linarith
  obtain ⟨hfin, hval⟩ := toRat_add hxfin hsecfin hlt
  rw [hxval, hsecval] at hval
  refine ⟨_, x.add v.seconds, ?_, hfin, hk0, hk, hval⟩
  rw [draw_eq_reading hinterval hv, Interval.reading, hx]
  rfl

/-! ## Spreads of any size -/

/-- What an interval of a spread went through. -/
theorem interval_eq_ok {lower : Number} {i : Interval} (h : s.interval = .ok (lower, i)) :
    (whole 0).le s.minimum = true ∧ ∃ below, lower = s.minimum.larger below ∧
      ∃ span, Interval.ofSeconds (.whole 0) span = .ok i := by
  rw [interval] at h
  cases hwidth : (whole 0).lt s.width with
  | false =>
    rw [hwidth] at h
    cases h
  | true =>
    cases hmin : (whole 0).le s.minimum with
    | false =>
      rw [hwidth, hmin] at h
      cases h
    | true =>
      rw [hwidth, hmin] at h
      obtain ⟨⟨lower', upper'⟩, hbounds, h⟩ := Outcome.bind_eq_ok.1 h
      obtain ⟨span, -, h⟩ := Outcome.bind_eq_ok.1 h
      obtain ⟨i', hi, h⟩ := Outcome.bind_eq_ok.1 h
      cases h
      obtain ⟨below, -, hbounds⟩ := Outcome.bind_eq_ok.1 (Outcome.mapError_eq_ok.1 hbounds)
      obtain ⟨above, -, hbounds⟩ := Outcome.bind_eq_ok.1 hbounds
      cases hbounds
      exact ⟨rfl, below, rfl, span, hi⟩

/-- A spread of any size has an interval that starts from zero. -/
theorem lower_of_ofSeconds_eq_ok {span : Number} {i : Interval}
    (h : Interval.ofSeconds (.whole 0) span = .ok i) : i.lower.micros = 0 := by
  obtain ⟨d, hd, h⟩ := Outcome.bind_eq_ok.1 h
  obtain rfl : Duration.zero = d := Except.ok.inj hd
  obtain ⟨span', -, h⟩ := Outcome.bind_eq_ok.1 h
  rw [Interval.ofBounds] at h
  split at h
  · split at h
    · cases h
      rfl
    · cases h
  · cases h

/-- A delay of a spread of any size is at least its least delay, if that is a binary64 number. -/
theorem le_draw {m : Binary64} (hm : m.IsFinite) (hmin : s.minimum = .float m) {source : Source}
    (hr : source.next.1.InUnit) {result : Binary64} (h : (s.draw source).1 = .ok result) :
    (float m).le (float result) = true := by
  cases hint : s.interval with
  | error failure =>
    rw [draw, hint] at h
    cases h
  | ok parts =>
    obtain ⟨lower, i⟩ := parts
    obtain ⟨hmin0, below, rfl, span, hi⟩ := interval_eq_ok hint
    obtain ⟨v, hv, hzero, hpos⟩ := i.sample_eq_ok hr
    have hv0 : 0 ≤ v.micros := by
      have hlower := lower_of_ofSeconds_eq_ok hi
      rcases lt_or_eq_of_le i.span_nonneg with hspan | hspan
      · have hoffset := Interval.offsetAt_nonneg hspan hr.2.1
        rw [hpos hspan]
        exact le_min (by decide) (by omega)
      · rw [hzero hspan.symm, hlower]
    rw [draw_eq_reading hint hv] at h
    obtain ⟨x, hx, h⟩ := Outcome.bind_eq_ok.1 (Outcome.mapError_eq_ok.1 h)
    obtain rfl : x.add v.seconds = result := Except.ok.inj h
    obtain ⟨hsecfin, hsecval⟩ := Duration.toRat_seconds v
    have hsec0 : 0 ≤ v.seconds.toRat := by
      rw [hsecval]
      have hvq : (0 : ℚ) ≤ v.micros := by exact_mod_cast hv0
      exact rounded_nonneg (by positivity)
    rw [hmin] at hmin0 hx
    have hmfin : (float m).IsFinite := hm
    have hlower := le_larger (b := below) hmfin
    exact le_float_add hm (le_trans hmin0 hlower) hlower hx hsecfin hsec0

/-- For a draw of `[0, 1)` a spread with a small upper bound gives a delay of at least the lower
bound and below the upper one, and a spread of any size gives no delay before a least one in
binary64. -/
theorem draw_bounds (s : Spread) (source : Source) (hr : source.next.1.InUnit) :
    (∀ upper, s.delay ≠ .float .nan → leastWidth.le s.width = true →
      (whole 0).le s.minimum = true → s.announcedUpper = .ok upper →
      upper.le greatestUpper = true →
      ∃ lower result, s.announcedLower = .ok lower ∧ (s.draw source).1 = .ok result ∧
        s.minimum.le lower = true ∧ lower.le (.float result) = true ∧
        (float result).lt upper = true) ∧
    (∀ m result, m.IsFinite → s.minimum = .float m → (s.draw source).1 = .ok result →
      (float m).le (float result) = true) := by
  constructor
  · intro upper hdelay hwidth hmin hupper hle
    have h := facts_of_announcedUpper hdelay hwidth hmin hupper hle
    obtain ⟨lower, hlower, hlowerfin, hlowerval⟩ := exists_announcedLower h hdelay
    obtain ⟨k, result, hdraw, hfin, hk0, hk, hval⟩ := exists_draw h hwidth hmin hr
    have hresult : (float result).IsFinite := hfin
    have hresultval : (float result).toRat =
        delayValue s.minimum.toRat s.nominal.toRat s.width.toRat k := hval
    refine ⟨lower, result, hlower, hdraw, ?_, ?_, ?_⟩
    · rw [le_iff h.minimum_isModerate.1 hlowerfin, hlowerval]
      exact minimum_le_lowerValue _ _ _
    · rw [le_iff hlowerfin hresult, hlowerval, hresultval]
      exact lowerValue_le_delayValue h.moderate hk0
    · rw [lt_iff hresult h.upper_isFinite, hresultval, h.upper_eq]
      exact delayValue_lt_upperValue h.moderate hk0 hk
  · intro m result hm hmin hdraw
    exact le_draw hm hmin hr hdraw

/-- The bounds hold of a draw of one half where the upper bound is the greatest. -/
theorem draw_bounds_greatest :
    ∃ lower result, announcedLower { delay := .whole 2147483647, width := .whole 1 } = .ok lower ∧
      (draw { delay := .whole 2147483647, width := .whole 1 } (.constant (nearest false 1 2))).1 =
        .ok result ∧
      (whole 0).le lower = true ∧ lower.le (.float result) = true ∧
      (float result).lt greatestUpper = true := by
  have hupper : announcedUpper { delay := .whole 2147483647, width := .whole 1 } =
      .ok greatestUpper := by
    decide +kernel
  obtain ⟨hbounds, -⟩ := draw_bounds { delay := .whole 2147483647, width := .whole 1 } _
    Interval.inUnit_next_constant_half
  exact hbounds greatestUpper (by decide) (by decide +kernel) (by decide) hupper (by decide +kernel)

end RandomDelay.Spread
