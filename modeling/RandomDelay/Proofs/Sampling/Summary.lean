import RandomDelay.Proofs.Duration.Order
import RandomDelay.Proofs.Sampling.Completion
import RandomDelay.Proofs.Text.Grouped

/-!
# The summary beside the printed samples

With the same settings both modes of the sampling tool draw the same samples: whether to summarize
is asked only afterwards (`samples_summarize`). If their sum is a duration, the summary has one row,
which tells of these samples and no others: their number, the least and the greatest of them, and
their exact mean rounded to a microsecond (`run_summarizes_printed`). A mean that is rounded lies
between the least and the greatest sample still, as both are whole numbers of microseconds
(`mean_bounds`).
-/

set_option autoImplicit false

namespace RandomDelay.Sampling

open RandomDelay.Rounding

/-- The samples do not depend on what is done with them. -/
theorem samples_summarize (s : Sampling) (summarize : Bool) (fallback : ℤ) :
    ({ s with summarize } : Sampling).samples fallback = s.samples fallback := rfl

/-- The mean lies between bounds of the samples. -/
theorem mean_bounds {samples : List Duration} {sum low high : Duration} (hne : samples ≠ [])
    (hsum : sum.micros = exactTotal samples) (hlow : ∀ d ∈ samples, low ≤ d)
    (hhigh : ∀ d ∈ samples, d ≤ high) :
    low ≤ sum.dividedBy samples.length ∧ sum.dividedBy samples.length ≤ high := by
  apply Duration.dividedBy_bounds (List.length_pos_iff.2 hne)
  · rw [hsum]
    exact le_exactTotal hlow
  · rw [hsum]
    exact exactTotal_le hhigh

/-- For an interval and a positive count the tool prints the samples of its generator, or summarizes
the same samples if their sum is at most the longest duration. The only row of the summary has the
interval, the count with commas, the least and the greatest sample, and the exact mean rounded to a
microsecond with ties to the even one. From the lower bound of the interval over the least sample,
the mean and the greatest sample up to the upper bound, none is greater than the next, and the upper
bound of an interval with some width is not reached. -/
theorem run_summarizes_printed (s : Sampling) (fallback : ℤ) (hlower : 0 ≤ s.lower.micros)
    (hspan : 0 ≤ s.span.micros) (hcount : 1 ≤ s.count) :
    let interval : Interval := ⟨s.lower, s.span, hlower, hspan⟩
    ∃ samples : List Duration,
      (Drawn.repeated interval.sample s.count.toNat (.ofSeed (s.seed.getD fallback))).1 =
        .ok samples ∧
      samples.length = s.count ∧
      ({ s with summarize := false } : Sampling).run fallback =
        { printed := samples.map Duration.secondsText } ∧
      (exactTotal samples ≤ Duration.longest.micros →
        ∃ (least greatest mean : Duration) (countText : List Char),
          ({ s with summarize := true } : Sampling).run fallback =
            { printed := Text.table [headings, [interval.text, countText, least.secondsText,
                greatest.secondsText, mean.secondsText]] } ∧
          Text.IsGrouped s.count.toNat countText ∧
          (least ∈ samples ∧ ∀ d ∈ samples, least ≤ d) ∧
          (greatest ∈ samples ∧ ∀ d ∈ samples, d ≤ greatest) ∧
          mean.micros = nearestInt (exactTotal samples / s.count) ∧
          (s.lower ≤ least ∧ least ≤ mean ∧ mean ≤ greatest) ∧
          (0 < s.span.micros → greatest.micros < s.lower.micros + s.span.micros) ∧
          (s.span.micros = 0 → greatest.micros ≤ s.lower.micros + s.span.micros)) := by
  intro interval
  obtain ⟨samples, hrow, hlength, hall⟩ :=
    interval.exists_repeated_sample s.count.toNat (Source.isGenerator_ofSeed (s.seed.getD fallback))
  have hsamples : s.samples fallback = .ok (interval, samples) :=
    samples_of_repeated hlower hspan (by omega) hrow
  refine ⟨samples, hrow, by omega, ?_, ?_⟩
  · apply run_of_lines_eq_ok
    exact lines_of_plain (by rwa [samples_summarize]) rfl
  · intro hfits
    have hpos : 0 < samples.length := by omega
    have hne : samples ≠ [] := List.length_pos_iff.1 hpos
    obtain ⟨least, hmin, hleast⟩ := Duration.exists_least hne
    obtain ⟨greatest, hmax, hgreatest⟩ := Duration.exists_greatest hne
    obtain ⟨sum, htotal, hsum⟩ := total_of_le (fun d hd => hlower.trans (hall d hd).lower_le) hfits
    have hsample : interval.IsSample greatest := hall greatest hgreatest.1
    refine ⟨least, greatest, sum.dividedBy samples.length, Text.grouped samples.length, ?_, ?_,
      hleast, hgreatest, ?_,
      ⟨(hall least hleast.1).lower_le, mean_bounds hne hsum hleast.2 hgreatest.2⟩,
      hsample.lt_upper, ?_⟩
    · apply run_of_lines_eq_ok
      rw [lines_of_summarize (by rwa [samples_summarize]) rfl, summary_eq_ok _ htotal, hmin, hmax]
      rfl
    · rw [← hlength]
      exact Text.isGrouped_grouped samples.length
    · -- the count is the number of the samples
      have hcast : (s.count : ℚ) = samples.length := by
        rw [hlength]
        exact_mod_cast (Int.toNat_of_nonneg (by omega : 0 ≤ s.count)).symm
      rw [Duration.micros_dividedBy sum hpos, hsum, hcast]
    · intro
      exact hsample.micros_le

/-- A thousand samples of a second and a half at most: their sum is a duration, and the summary
tells of them. -/
theorem run_summarizes_printed_thousand :
    let s : Sampling :=
      { lower := .second, span := ⟨500000, by decide⟩, count := 1000, seed := some 7 }
    ∃ (interval : Interval) (least greatest mean : Duration) (countText : List Char),
      ({ s with summarize := true } : Sampling).run 0 =
        { printed := Text.table [headings,
          [interval.text, countText, least.secondsText, greatest.secondsText, mean.secondsText]] } ∧
      Text.IsGrouped 1000 countText ∧ Duration.second ≤ least ∧ least ≤ mean ∧ mean ≤ greatest ∧
      greatest.micros < 1500000 := by
  intro s
  obtain ⟨samples, hrow, hlength, -, hsummary⟩ :=
    run_summarizes_printed s 0 (by decide) (by decide) (by decide)
  obtain ⟨samples', hrow', -, hall⟩ :=
    Interval.exists_repeated_sample ⟨s.lower, s.span, by decide, by decide⟩
    s.count.toNat (Source.isGenerator_ofSeed (s.seed.getD 0))
  obtain rfl : samples = samples' := Except.ok.inj (hrow.symm.trans hrow')
  have hfits : exactTotal samples ≤ Duration.longest.micros := by
    have hle := exactTotal_le_length_mul hall
    rw [hlength] at hle
    exact hle.trans (by decide)
  obtain ⟨least, greatest, mean, countText, hrun, hcount, -, -, -, ⟨hlow, hmean, hhigh⟩,
    hupper, -⟩ := hsummary hfits
  exact ⟨_, least, greatest, mean, countText, hrun, hcount, hlow, hmean, hhigh, hupper (by decide)⟩

end RandomDelay.Sampling
