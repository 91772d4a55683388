import RandomDelay.Interval
import RandomDelay.Proofs.Duration.RoundTrip
import RandomDelay.Proofs.Duration.Seconds

/-!
# Intervals from numbers of seconds

Both numbers are converted before either is looked at, so what becomes of a pair depends on the two
durations alone (`Interval.ofSeconds_of_ok`). The test for negative bounds comes after the rounding:
it refuses numbers that are below zero by more than the error of the conversion
(`Duration.neg_of_ofSeconds`), and no number that is not below zero
(`Duration.nonneg_of_ofSeconds`).

`ofSeconds_whole_and_float` puts the facts about whole numbers and numbers of the binary64 format
together, up to the way back from the seconds of an interval.
-/

set_option autoImplicit false

namespace RandomDelay

open RandomDelay.Binary64 RandomDelay.Rounding

namespace Duration

variable {a : Number} {d : Duration}

theorem nonneg_of_ofSeconds (h : ofSeconds a = .ok d) (ha : 0 ≤ a.toRat) : 0 ≤ d.micros := by
  rw [← (ofSeconds_eq_ok_iff (isFinite_of_ofSeconds_eq_ok h)).1 h]
  exact nearestInt_nonneg (unrounded_nonneg .second ha)

/-- Below the error of the conversion, rounding does not reach zero. -/
theorem neg_of_ofSeconds (h : ofSeconds a = .ok d) (ha : a.toRat * 10 ^ 6 < -(1 / 2 + 1 / 2 ^ 34)) :
    d.micros < 0 := by
  have herror := (abs_le.1 (abs_ofSeconds_sub_le h)).2
  have hneg : (d.micros : ℚ) < 0 := by linarith
  exact_mod_cast hneg

end Duration

namespace Interval

variable {a b : Number} {d e : Duration}

/-- Pairs in the range are refused for a negative bound only, and then the first one is named. -/
theorem ofSeconds_cases (ha : Duration.ofSeconds a = .ok d) (hb : Duration.ofSeconds b = .ok e) :
    (d.micros < 0 ∧ ofSeconds a b = .error (.negativeLower d)) ∨
    (0 ≤ d.micros ∧ e.micros < 0 ∧ ofSeconds a b = .error (.negativeSpan e)) ∨
    ∃ i : Interval, i.lower = d ∧ i.span = e ∧ ofSeconds a b = .ok i := by
  rw [ofSeconds_of_ok ha hb]
  rcases lt_or_ge d.micros 0 with hd | hd
  · exact Or.inl ⟨hd, ofBounds_of_negativeLower hd⟩
  rcases lt_or_ge e.micros 0 with he | he
  · exact Or.inr (Or.inl ⟨hd, he, ofBounds_of_negativeSpan hd he⟩)
  · exact Or.inr (Or.inr ⟨⟨d, e, hd, he⟩, rfl, rfl, ofBounds_eq_ok hd he⟩)

theorem ofSeconds_of_nonneg (ha : a.WithinDurations) (hb : b.WithinDurations) (ha0 : 0 ≤ a.toRat)
    (hb0 : 0 ≤ b.toRat) :
    ∃ i, ofSeconds a b = .ok i ∧
      Duration.ofSeconds a = .ok i.lower ∧ Duration.ofSeconds b = .ok i.span := by
  obtain ⟨d, hd⟩ := Duration.withinDurations_iff.1 ha
  obtain ⟨e, he⟩ := Duration.withinDurations_iff.1 hb
  have hlower := Duration.nonneg_of_ofSeconds hd ha0
  have hspan := Duration.nonneg_of_ofSeconds he hb0
  refine ⟨⟨d, e, hlower, hspan⟩, ?_, hd, he⟩
  rw [ofSeconds_of_ok hd he]
  exact ofBounds_eq_ok hlower hspan

theorem ofSeconds_of_neg (ha : a.WithinDurations) (hb : b.WithinDurations)
    (hneg : a.toRat * 10 ^ 6 < -(1 / 2 + 1 / 2 ^ 34) ∨ b.toRat * 10 ^ 6 < -(1 / 2 + 1 / 2 ^ 34)) :
    ∃ d, d.micros < 0 ∧
      (Duration.ofSeconds a = .ok d ∧ ofSeconds a b = .error (.negativeLower d) ∨
        Duration.ofSeconds b = .ok d ∧ ofSeconds a b = .error (.negativeSpan d)) := by
  obtain ⟨d, hd⟩ := Duration.withinDurations_iff.1 ha
  obtain ⟨e, he⟩ := Duration.withinDurations_iff.1 hb
  rcases ofSeconds_cases hd he with ⟨hlower, hresult⟩ | ⟨-, hspan, hresult⟩ | ⟨i, rfl, rfl, -⟩
  · exact ⟨d, hlower, Or.inl ⟨hd, hresult⟩⟩
  · exact ⟨e, hspan, Or.inr ⟨he, hresult⟩⟩
  · -- neither bound of an interval is negative
    rcases hneg with hneg | hneg
    · exact absurd (Duration.neg_of_ofSeconds hd hneg) (not_lt.2 i.lower_nonneg)
    · exact absurd (Duration.neg_of_ofSeconds he hneg) (not_lt.2 i.span_nonneg)

/-- Intervals of at most `2 ^ 33` seconds are got back from the seconds of their bounds. -/
theorem ofSeconds_seconds (i : Interval) (hlower : i.lower.micros ≤ 2 ^ 33 * 10 ^ 6)
    (hspan : i.span.micros ≤ 2 ^ 33 * 10 ^ 6) :
    ofSeconds (.float i.lower.seconds) (.float i.span.seconds) = .ok i := by
  rw [ofSeconds_of_ok (Duration.ofSeconds_seconds i.lower_nonneg hlower)
    (Duration.ofSeconds_seconds i.span_nonneg hspan)]
  exact ofBounds_eq_ok i.lower_nonneg i.span_nonneg

/-- Intervals from numbers of seconds, whole or in binary64. Either form of a whole number has the
same outcome as either argument. A number has a duration exactly if its seconds are in the range of
durations; the conversion keeps the order and is off by half a microsecond and the 34th binary place
of one at most. A pair in the range is accepted if neither number is negative, and refused for a
negative bound if one is below zero by more than that error, as are all up to `-10 ^ -6` and the
binary64 number next to it. Intervals of at most `2 ^ 33` seconds are got back from the seconds of
their bounds. -/
theorem ofSeconds_whole_and_float :
    (∀ (n : ℤ) (x : Binary64) (b : Number), x.IsFinite → x.toRat = n →
      ofSeconds (.whole n) b = ofSeconds (.float x) b ∧
      ofSeconds b (.whole n) = ofSeconds b (.float x)) ∧
    (∀ a : Number, a.WithinDurations ↔ ∃ d, Duration.ofSeconds a = .ok d) ∧
    (∀ a b : Number, a.WithinDurations → b.WithinDurations → a.toRat ≤ b.toRat →
      ∃ d e, Duration.ofSeconds a = .ok d ∧ Duration.ofSeconds b = .ok e ∧ d ≤ e) ∧
    (∀ (a : Number) (d : Duration), Duration.ofSeconds a = .ok d →
      |(d.micros : ℚ) - a.toRat * 10 ^ 6| ≤ 1 / 2 + 1 / 2 ^ 34) ∧
    (∀ a b : Number, a.WithinDurations → b.WithinDurations → 0 ≤ a.toRat → 0 ≤ b.toRat →
      ∃ i, ofSeconds a b = .ok i ∧
        Duration.ofSeconds a = .ok i.lower ∧ Duration.ofSeconds b = .ok i.span) ∧
    (∀ a b : Number, a.WithinDurations → b.WithinDurations →
      a.toRat * 10 ^ 6 < -(1 / 2 + 1 / 2 ^ 34) ∨ b.toRat * 10 ^ 6 < -(1 / 2 + 1 / 2 ^ 34) →
      ∃ d, d.micros < 0 ∧
        (Duration.ofSeconds a = .ok d ∧ ofSeconds a b = .error (.negativeLower d) ∨
          Duration.ofSeconds b = .ok d ∧ ofSeconds a b = .error (.negativeSpan d))) ∧
    (∀ i : Interval, i.lower.micros ≤ 2 ^ 33 * 10 ^ 6 → i.span.micros ≤ 2 ^ 33 * 10 ^ 6 →
      ofSeconds (.float i.lower.seconds) (.float i.span.seconds) = .ok i) := by
  refine ⟨?_, fun a => Duration.withinDurations_iff, ?_, fun a d => Duration.abs_ofSeconds_sub_le,
    fun a b => ofSeconds_of_nonneg, fun a b => ofSeconds_of_neg, ofSeconds_seconds⟩
  · intro n x b hx hvalue
    have hsame := Duration.ofSeconds_whole hx hvalue
    exact ⟨by rw [ofSeconds, ofSeconds, hsame], by rw [ofSeconds, ofSeconds, hsame]⟩
  · intro a b ha hb hab
    obtain ⟨d, hd⟩ := Duration.withinDurations_iff.1 ha
    obtain ⟨e, he⟩ := Duration.withinDurations_iff.1 hb
    exact ⟨d, e, hd, he, Duration.ofSeconds_mono hd he hab⟩

/-- Five seconds in both forms, and the binary64 number next to `-10 ^ -6`, which is above it, as
width. -/
theorem ofSeconds_whole_and_float_nextToMicrosecond :
    let five : Binary64 := .finite false 0x14000000000000 1024 (by decide)
    let half : Number := .float (nearest false 1 2)
    let below : Number := .float (nearest true 1 1000000)
    let second : Interval := ⟨.zero, .second, by decide, by decide⟩
    ofSeconds (.whole 5) half = ofSeconds (.float five) half ∧
    (∃ d e, Duration.ofSeconds below = .ok d ∧ Duration.ofSeconds half = .ok e ∧ d ≤ e ∧
      |(d.micros : ℚ) - below.toRat * 10 ^ 6| ≤ 1 / 2 + 1 / 2 ^ 34) ∧
    (∃ i, ofSeconds (.whole 5) half = .ok i) ∧
    (∃ d, d.micros < 0 ∧
      (Duration.ofSeconds half = .ok d ∧ ofSeconds half below = .error (.negativeLower d) ∨
        Duration.ofSeconds below = .ok d ∧ ofSeconds half below = .error (.negativeSpan d))) ∧
    ofSeconds (.float second.lower.seconds) (.float second.span.seconds) = .ok second := by
  intro five half below second
  obtain ⟨hsame, hrange, hmono, herror, haccepted, hrefused, hback⟩ := ofSeconds_whole_and_float
  have hfive : five.toRat = (5 : ℤ) := by decide +kernel
  have hwithin : (Number.whole 5).WithinDurations :=
    (hrange _).2 ⟨⟨5000000, by decide⟩, by decide +kernel⟩
  have hhalf : half.WithinDurations := (hrange _).2 ⟨⟨500000, by decide⟩, by decide +kernel⟩
  have hbelow : below.WithinDurations := (hrange _).2 ⟨⟨-1, by decide⟩, by decide +kernel⟩
  refine ⟨(hsame 5 five half (isFinite_finite false _) hfive).1, ?_, ?_, ?_,
    hback second (by decide) (by decide)⟩
  · obtain ⟨d, e, hd, he, hle⟩ := hmono below half hbelow hhalf (by decide +kernel)
    exact ⟨d, e, hd, he, hle, herror below d hd⟩
  · obtain ⟨i, hi, -⟩ := haccepted _ half hwithin hhalf (by decide +kernel) (by decide +kernel)
    exact ⟨i, hi⟩
  · exact hrefused half below hhalf hbelow (Or.inr (by decide +kernel))

end Interval

end RandomDelay
