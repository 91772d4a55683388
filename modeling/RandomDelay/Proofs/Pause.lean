import RandomDelay.Pause
import RandomDelay.Proofs.Duration.Order
import RandomDelay.Proofs.Duration.SecondsText
import RandomDelay.Proofs.Interval.Coupling
import RandomDelay.Proofs.Session.Logging

/-!
# One sleep, and the report of it

A pause draws one sample of its interval, adds the delay to it and sleeps that long. A sample is the
lower bound or more, and below the upper bound as it would be without a longest duration; the delay,
of either sign, moves both bounds, and only at the longest duration is the wait cut once more
(`isWait_of_isSample`).

The wait goes two ways from there: as the nearest number of seconds in binary64 to the sleep, and as
a text with six places to the report. The text stands between the first words of the report and the
next blank, for there is no blank in it (`announcedText_announcement`). Up to `2 ^ 33` seconds it is
read back as the wait, so the report tells how long the sleep is (`run_sleeps_as_announced`).
-/

set_option autoImplicit false

namespace RandomDelay

open RandomDelay.Binary64

namespace Pause

variable {p : Pause}

/-! ## The wait -/

/-- Times that a pause may wait: from the delay with the lower bound, or the longest duration if
that is no duration, up to the delay with the upper bound, which is reached only without any
width. -/
structure IsWait (p : Pause) (w : Duration) : Prop where
  lower_le : min Duration.longest.micros (p.delay.micros + p.lower.micros) ≤ w.micros
  lt_upper : 0 < p.span.micros → w.micros < p.delay.micros + p.lower.micros + p.span.micros
  eq_lower : p.span.micros = 0 →
    w.micros = min Duration.longest.micros (p.delay.micros + p.lower.micros)

/-- A sample and the delay are a wait. -/
theorem isWait_of_isSample {hlower : 0 ≤ p.lower.micros} {hspan : 0 ≤ p.span.micros}
    {sample : Duration} (h : Interval.IsSample ⟨p.lower, p.span, hlower, hspan⟩ sample) :
    p.IsWait (sample.saturatingAdd p.delay) := by
  have hfrom : p.lower.micros ≤ sample.micros := h.lower_le
  have hupto : 0 < p.span.micros → sample.micros < p.lower.micros + p.span.micros := h.lt_upper
  have honly : p.span.micros = 0 → sample = p.lower := h.eq_lower
  have hsum : (sample.saturatingAdd p.delay).micros =
      min Duration.longest.micros (p.delay.micros + sample.micros) := by
    rw [Duration.micros_saturatingAdd_of_nonneg (hlower.trans hfrom), Int.add_comm]
  constructor
  · rw [hsum]
    exact min_le_min_left _ (Int.add_le_add_left hfrom _)
  · intro hpos
    -- the cut at the longest duration makes a wait shorter only
    have hcut := min_le_right Duration.longest.micros (p.delay.micros + sample.micros)
    have := hupto hpos
    omega
  · intro hzero
    rw [hsum, honly hzero]

/-- Whatever the seed is, the wait of a pause with an interval is found. -/
theorem exists_wait (hlower : 0 ≤ p.lower.micros) (hspan : 0 ≤ p.span.micros) (fallback : ℤ) :
    ∃ w, p.wait fallback = .ok (⟨p.lower, p.span, hlower, hspan⟩, w) ∧ p.IsWait w := by
  obtain ⟨sample, hsample, hfits⟩ := Interval.exists_sample ⟨p.lower, p.span, hlower, hspan⟩
    (Source.inUnit_next (Source.isGenerator_ofSeed (p.seed.getD fallback)))
  refine ⟨sample.saturatingAdd p.delay, ?_, isWait_of_isSample hfits⟩
  rw [wait, Interval.ofBounds_eq_ok hlower hspan]
  show (do let wait ← (Interval.delayed _ p.delay _).1; return (_, wait)) = _
  rw [Interval.delayed_eq_ok hsample]
  rfl

/-- Without an interval there is nothing to draw from, so there is no wait, no report and no
sleep. -/
theorem run_of_no_interval {failure : Failure}
    (h : Interval.ofBounds p.lower p.span = .error failure) (fallback : ℤ) :
    p.run fallback = { result := .error (.failure failure) } := by
  have hwait : p.wait fallback = .error failure := by
    rw [wait, h]
    rfl
  rw [run, hwait]
  rfl

/-! ## The report -/

/-- What a report of a sleep gives as its length: the word after the first two. -/
def announcedText (message : String) : List Char :=
  (message.toList.drop "Sleeping for ".length).takeWhile (· ≠ ' ')

/-- The word after the first two is the wait in seconds. -/
theorem announcedText_announcement (p : Pause) (interval : Interval) (w : Duration) :
    announcedText (p.announcement interval w).message = w.secondsText := by
  have hopening : " (delay ".toList = ' ' :: "(delay ".toList := by decide
  have hmessage : (p.announcement interval w).message.toList =
      "Sleeping for ".toList ++ (w.secondsText ++ ' ' :: ("(delay ".toList ++
        (p.delay.clockText ++ (" with jitter ".toList ++ (interval.text ++ [')']))))) := by
    rw [announcement, String.toList_ofList, hopening]
    simp only [List.append_assoc, List.cons_append]
  have hword : ∀ c ∈ w.secondsText, decide (c ≠ ' ') = true := by
    intro c hc
    apply decide_eq_true
    rintro rfl
    exact w.blank_not_mem_secondsText hc
  rw [announcedText, hmessage, ← String.length_toList, List.drop_left]
  apply (Text.takeWhile_append_of_head hword ?_).1
  intro c hc
  obtain rfl : ' ' = c := Option.some.inj hc
  decide

/-- A pause sleeps once and reports it once, if neither bound nor width of its interval is negative.
The seconds that it sleeps are those nearest to the wait in binary64, and the wait lies within the
delayed interval. A logger writes the report if it heeds it, and does not change the sleep. The
report names the wait as its text in seconds, from which a wait of zero up to `2 ^ 33` seconds is
read back. With a negative lower bound, or else a negative width, the pause fails with the value
that is negative, before any report and any sleep. -/
theorem run_sleeps_as_announced (p : Pause) (fallback : ℤ) :
    (∀ (hlower : 0 ≤ p.lower.micros) (hspan : 0 ≤ p.span.micros), ∃ w : Duration,
      let report := p.announcement ⟨p.lower, p.span, hlower, hspan⟩ w
      p.run fallback = { records := [report], slept := [w.seconds] } ∧
      (∀ names, (p.run fallback).heardBy (.configured {} names) =
        { records := if (Logger.configured {} names).Heeds then [report] else [],
          slept := [w.seconds] }) ∧
      (w.seconds.IsFinite ∧ w.seconds.toRat = rounded (w.micros / 10 ^ 6)) ∧
      p.IsWait w ∧
      announcedText report.message = w.secondsText ∧
      (0 ≤ w.micros → w.micros ≤ 2 ^ 33 * 10 ^ 6 →
        Duration.ofText (String.ofList (announcedText report.message)) = .ok w)) ∧
    (p.lower.micros < 0 →
      p.run fallback = { result := .error (.failure (.negativeLower p.lower)) }) ∧
    (0 ≤ p.lower.micros → p.span.micros < 0 →
      p.run fallback = { result := .error (.failure (.negativeSpan p.span)) }) := by
  refine ⟨?_, ?_, ?_⟩
  · intro hlower hspan
    obtain ⟨w, hwait, hbounds⟩ := exists_wait hlower hspan fallback
    have hrun : p.run fallback =
        { records := [p.announcement ⟨p.lower, p.span, hlower, hspan⟩ w],
          slept := [w.seconds] } := by
      rw [run, hwait]
    refine ⟨w, hrun, ?_, w.toRat_seconds, hbounds, announcedText_announcement p _ w, ?_⟩
    · intro names
      rw [Transcript.heardBy_configured, hrun]
    · intro hnonneg hsize
      obtain ⟨written, hread, hmeaning⟩ := Duration.exists_written_secondsText hnonneg hsize
      rw [announcedText_announcement]
      exact Duration.ofText_of_written (by rwa [String.toList_ofList]) hmeaning
  · intro hnegative
    exact run_of_no_interval (Interval.ofBounds_of_negativeLower hnegative) fallback
  · intro hlower hnegative
    exact run_of_no_interval (Interval.ofBounds_of_negativeSpan hlower hnegative) fallback

/-- A delay of half a minute with up to a second of jitter is read back from its report, the longest
delay is not lengthened, and a bound or a width below zero stops the pause. -/
theorem run_sleeps_as_announced_halfMinute :
    let p : Pause := { delay := ⟨30000000, by decide⟩, seed := some 7 }
    (∃ w : Duration, (p.run 0).slept = [w.seconds] ∧ 30000000 ≤ w.micros ∧ w.micros < 31000000 ∧
      ∃ report, (p.run 0).records = [report] ∧
        Duration.ofText (String.ofList (announcedText report.message)) = .ok w) ∧
    (({ p with delay := .longest, lower := .second, span := .zero } : Pause).run 0).slept =
      [Duration.longest.seconds] ∧
    (({ p with lower := ⟨-1, by decide⟩ } : Pause).run 0).slept = [] ∧
    (({ p with span := ⟨-1, by decide⟩ } : Pause).run 0).records = [] := by
  intro p
  refine ⟨?_, ?_, ?_, ?_⟩
  · obtain ⟨w, hrun, -, -, hwait, -, hread⟩ :=
      (run_sleeps_as_announced p 0).1 (by decide) (by decide)
    have hfrom : 30000000 ≤ w.micros := hwait.lower_le
    have hupto : w.micros < 31000000 := hwait.lt_upper (by decide)
    refine ⟨w, ?_, hfrom, hupto, _, ?_, hread (by omega) (by omega)⟩
    · rw [hrun]
    · rw [hrun]
  · obtain ⟨w, hrun, -, -, hwait, -⟩ := (run_sleeps_as_announced
      { p with delay := .longest, lower := .second, span := .zero } 0).1 (by decide) (by decide)
    obtain rfl : w = .longest := Duration.ext_micros (hwait.eq_lower rfl)
    rw [hrun]
  · rw [(run_sleeps_as_announced { p with lower := ⟨-1, by decide⟩ } 0).2.1 (by decide)]
  · rw [(run_sleeps_as_announced { p with span := ⟨-1, by decide⟩ } 0).2.2 (by decide) (by decide)]

end Pause

end RandomDelay
