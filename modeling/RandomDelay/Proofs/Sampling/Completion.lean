import RandomDelay.Proofs.Source.Uniform
import RandomDelay.Sampling

/-!
# When the sampling tool completes

For an interval and a positive count the samples are always drawn (`samples_eq_ok`), and printing
them one to a line needs nothing more. A summary needs their mean, and its sum is added up in
durations, where it is not saturated. Samples are never negative, so the sums on the way only grow:
the sum exists if the exact one is at most the longest duration (`total_of_le`), and overflows on
the way if it is not (`total_of_lt`).

`run_completes_iff` puts the two modes side by side. As no sample reaches past the upper bound of
the interval, a summary completes at least while the count times that bound is a duration
(`exactTotal_le_length_mul`).
-/

set_option autoImplicit false

namespace RandomDelay.Sampling

/-- Exact sum of durations, in microseconds. -/
def exactTotal (samples : List Duration) : ℤ := (samples.map Duration.micros).sum

theorem exactTotal_cons (d : Duration) (samples : List Duration) :
    exactTotal (d :: samples) = d.micros + exactTotal samples := List.sum_cons

theorem exactTotal_nonneg {samples : List Duration} (h : ∀ d ∈ samples, 0 ≤ d.micros) :
    0 ≤ exactTotal samples := by
  apply List.sum_nonneg
  intro n hn
  obtain ⟨d, hd, rfl⟩ := List.mem_map.1 hn
  exact h d hd

/-- Durations up to a bound have at most as many times the bound as sum. -/
theorem exactTotal_le {samples : List Duration} {bound : ℤ} (h : ∀ d ∈ samples, d.micros ≤ bound) :
    exactTotal samples ≤ samples.length * bound := by
  have hsum := (samples.map Duration.micros).sum_le_card_nsmul bound (List.forall_mem_map.2 h)
  rwa [List.length_map, nsmul_eq_mul] at hsum

/-- Durations from a bound on have at least as many times the bound as sum. -/
theorem le_exactTotal {samples : List Duration} {bound : ℤ} (h : ∀ d ∈ samples, bound ≤ d.micros) :
    samples.length * bound ≤ exactTotal samples := by
  have hsum := (samples.map Duration.micros).card_nsmul_le_sum bound (List.forall_mem_map.2 h)
  rwa [List.length_map, nsmul_eq_mul] at hsum

/-- Step by step addition of durations. -/
def addUp (start : Duration) (samples : List Duration) : Except ArithmeticError Duration :=
  samples.foldlM (fun sum sample => Duration.ofMicros (sum.micros + sample.micros)) start

theorem total_eq_addUp (samples : List Duration) : total samples = addUp .zero samples := rfl

theorem addUp_cons_of_representable {start d : Duration} (samples : List Duration)
    (h : Duration.Representable (start.micros + d.micros)) :
    addUp start (d :: samples) = addUp ⟨_, h⟩ samples := by
  rw [addUp, List.foldlM_cons, Duration.ofMicros_of_representable h]
  rfl

theorem addUp_cons_of_not_representable {start d : Duration} (samples : List Duration)
    (h : ¬ Duration.Representable (start.micros + d.micros)) :
    addUp start (d :: samples) = .error .overflow := by
  rw [addUp, List.foldlM_cons, Duration.ofMicros_of_not_representable h]
  rfl

/-- A sum that ends in the range has never left it. -/
theorem addUp_of_le {samples : List Duration} (h : ∀ d ∈ samples, 0 ≤ d.micros) {start : Duration}
    (hstart : 0 ≤ start.micros)
    (hle : start.micros + exactTotal samples ≤ Duration.longest.micros) :
    ∃ sum, addUp start samples = .ok sum ∧ sum.micros = start.micros + exactTotal samples := by
  induction samples generalizing start with
  | nil => exact ⟨start, rfl, (add_zero _).symm⟩
  | cons d rest ih =>
    obtain ⟨hd, hrest⟩ := List.forall_mem_cons.1 h
    have hrestsum := exactTotal_nonneg hrest
    rw [exactTotal_cons] at hle
    have hrep : Duration.Representable (start.micros + d.micros) := by
      have hmax : Duration.longest.micros = 86399999999999999999 := rfl
      unfold Duration.Representable
      omega
    have hstart' : 0 ≤ (⟨_, hrep⟩ : Duration).micros := add_nonneg hstart hd
    have hle' : (⟨_, hrep⟩ : Duration).micros + exactTotal rest ≤ Duration.longest.micros := by
      rwa [add_assoc]
    obtain ⟨sum, hsum, hmicros⟩ := ih hrest hstart' hle'
    refine ⟨sum, (addUp_cons_of_representable rest hrep).trans hsum, ?_⟩
    rw [hmicros, exactTotal_cons, ← add_assoc]

/-- A sum that ends above the range is stopped where it first leaves it. -/
theorem addUp_of_lt {samples : List Duration} {start : Duration}
    (hlt : Duration.longest.micros < start.micros + exactTotal samples) :
    addUp start samples = .error .overflow := by
  induction samples generalizing start with
  | nil =>
    have hrep := start.representable.2
    have hmax : Duration.longest.micros = 86399999999999999999 := rfl
    simp only [exactTotal, List.map_nil, List.sum_nil, add_zero] at hlt
    omega
  | cons d rest ih =>
    rw [exactTotal_cons, ← add_assoc] at hlt
    by_cases hrep : Duration.Representable (start.micros + d.micros)
    · rw [addUp_cons_of_representable rest hrep]
      exact ih hlt
    · exact addUp_cons_of_not_representable rest hrep

theorem total_of_le {samples : List Duration} (h : ∀ d ∈ samples, 0 ≤ d.micros)
    (hle : exactTotal samples ≤ Duration.longest.micros) :
    ∃ sum, total samples = .ok sum ∧ sum.micros = exactTotal samples := by
  have hzero : Duration.zero.micros + exactTotal samples = exactTotal samples := zero_add _
  rw [total_eq_addUp, ← hzero]
  exact addUp_of_le h (le_refl 0) (hzero.trans_le hle)

theorem total_of_lt {samples : List Duration}
    (hlt : Duration.longest.micros < exactTotal samples) : total samples = .error .overflow := by
  rw [total_eq_addUp]
  exact addUp_of_lt (hlt.trans_eq (zero_add _).symm)

/-- The row of a summary, if the sum exists. -/
theorem summary_eq_ok (interval : Interval) {samples : List Duration} {sum : Duration}
    (h : total samples = .ok sum) :
    summary interval samples = .ok [interval.text, Text.grouped samples.length,
      (samples.mergeSort.head?.getD .zero).secondsText,
      (samples.mergeSort.getLast?.getD .zero).secondsText,
      (sum.dividedBy samples.length).secondsText] := by
  rw [summary, h]
  rfl

theorem exists_summary (interval : Interval) {samples : List Duration} {sum : Duration}
    (h : total samples = .ok sum) : ∃ row, summary interval samples = .ok row :=
  ⟨_, summary_eq_ok interval h⟩

/-! ## Runs -/

section

variable {s : Sampling}

/-- The samples are drawn in a row from a generator of the tool's own. -/
theorem samples_of_repeated (hlower : 0 ≤ s.lower.micros) (hspan : 0 ≤ s.span.micros)
    (hcount : 0 < s.count) {fallback : ℤ} {samples : List Duration}
    (h : (Drawn.repeated (⟨s.lower, s.span, hlower, hspan⟩ : Interval).sample s.count.toNat
      (.ofSeed (s.seed.getD fallback))).1 = .ok samples) :
    s.samples fallback = .ok (⟨s.lower, s.span, hlower, hspan⟩, samples) := by
  rw [Sampling.samples, if_neg (not_le.2 hcount), Interval.ofBounds_eq_ok hlower hspan]
  show ((Drawn.repeated _ _ _).1 >>= _) = _
  rw [h]
  rfl

/-- A positive number of samples of an interval is drawn without failure. -/
theorem samples_eq_ok (hlower : 0 ≤ s.lower.micros) (hspan : 0 ≤ s.span.micros)
    (hcount : 0 < s.count) (fallback : ℤ) :
    ∃ samples, s.samples fallback = .ok (⟨s.lower, s.span, hlower, hspan⟩, samples) ∧
      samples.length = s.count ∧
      ∀ d ∈ samples, (⟨s.lower, s.span, hlower, hspan⟩ : Interval).IsSample d := by
  obtain ⟨samples, hsamples, hlength, hall⟩ :=
    Interval.exists_repeated_sample ⟨s.lower, s.span, hlower, hspan⟩ s.count.toNat
      (Source.isGenerator_ofSeed (s.seed.getD fallback))
  refine ⟨samples, samples_of_repeated hlower hspan hcount hsamples, ?_, hall⟩
  rw [hlength]
  exact Int.toNat_of_nonneg hcount.le

variable {fallback : ℤ} {interval : Interval} {samples : List Duration}

theorem run_of_lines_eq_ok {printed : List (List Char)} (h : s.lines fallback = .ok printed) :
    s.run fallback = { printed } := by
  rw [run, h]

theorem run_of_lines_eq_error {failure : Failure} (h : s.lines fallback = .error failure) :
    s.run fallback = .stopped (.failure failure) := by
  rw [run, h]

/-- The plain mode prints the samples. -/
theorem lines_of_plain (h : s.samples fallback = .ok (interval, samples))
    (hplain : s.summarize = false) :
    s.lines fallback = .ok (samples.map Duration.secondsText) := by
  rw [lines, h]
  show (if s.summarize = true then _ else _) = _
  rw [hplain]
  rfl

/-- The summary prints its row under the headings, if there is a row. -/
theorem lines_of_summarize (h : s.samples fallback = .ok (interval, samples))
    (hsummarize : s.summarize = true) :
    s.lines fallback =
      ((summary interval samples).mapError .arithmetic).map fun row =>
        Text.table [headings, row] := by
  rw [lines, h]
  show (if s.summarize = true then _ else _) = _
  rw [hsummarize, if_pos rfl]
  cases summary interval samples <;> rfl

end

/-- Sum of samples, bounded by their number and the upper bound of the interval. -/
theorem exactTotal_le_length_mul {interval : Interval} {samples : List Duration}
    (h : ∀ d ∈ samples, interval.IsSample d) :
    exactTotal samples ≤ samples.length * (interval.lower.micros + interval.span.micros) :=
  exactTotal_le fun d hd => (h d hd).micros_le

/-- The samples of the tool are always drawn, as many as are asked for. Printed plainly they always
come out. Summarized they come out if their sum is at most the longest duration, which holds at
least while the count times the upper bound is, and otherwise the tool overflows and prints
nothing. -/
theorem run_completes_iff (s : Sampling) (fallback : ℤ) (hlower : 0 ≤ s.lower.micros)
    (hspan : 0 ≤ s.span.micros) (hcount : 0 < s.count) :
    ∃ interval samples, s.samples fallback = .ok (interval, samples) ∧ samples.length = s.count ∧
      (s.summarize = false → s.run fallback = { printed := samples.map Duration.secondsText }) ∧
      (s.summarize = true → exactTotal samples ≤ Duration.longest.micros →
        ∃ row, s.run fallback = { printed := Text.table [headings, row] }) ∧
      (s.summarize = true → Duration.longest.micros < exactTotal samples →
        s.run fallback = .stopped (.failure (.arithmetic .overflow))) ∧
      (s.count * (s.lower.micros + s.span.micros) ≤ Duration.longest.micros →
        exactTotal samples ≤ Duration.longest.micros) := by
  obtain ⟨samples, hsamples, hlength, hall⟩ := samples_eq_ok hlower hspan hcount fallback
  refine ⟨_, samples, hsamples, hlength, ?_, ?_, ?_, ?_⟩
  · intro hplain
    exact run_of_lines_eq_ok (lines_of_plain hsamples hplain)
  · intro hsummarize hle
    obtain ⟨sum, hsum, -⟩ := total_of_le (fun d hd => hlower.trans (hall d hd).lower_le) hle
    obtain ⟨row, hrow⟩ := exists_summary ⟨s.lower, s.span, hlower, hspan⟩ hsum
    refine ⟨row, run_of_lines_eq_ok ?_⟩
    rw [lines_of_summarize hsamples hsummarize, hrow]
    rfl
  · intro hsummarize hlt
    apply run_of_lines_eq_error
    rw [lines_of_summarize hsamples hsummarize, summary, total_of_lt hlt]
    rfl
  · intro hproduct
    have hle := exactTotal_le_length_mul hall
    rw [hlength] at hle
    exact hle.trans hproduct

/-- Two samples of the longest duration are too long for a summary. -/
theorem run_completes_iff_overflow :
    Sampling.run
        { lower := .longest, span := .zero, count := 2, seed := some 0, summarize := true } 0 =
      .stopped (.failure (.arithmetic .overflow)) := by
  obtain ⟨interval, samples, hsamples, -, -, -, hover, -⟩ := run_completes_iff
    { lower := .longest, span := .zero, count := 2, seed := some 0, summarize := true } 0
    (by decide) (by decide) (by decide)
  -- without width every sample is the lower bound
  have htwice : Sampling.samples
      { lower := .longest, span := .zero, count := 2, seed := some 0, summarize := true } 0 =
        .ok (⟨.longest, .zero, by decide, by decide⟩, [.longest, .longest]) := rfl
  obtain ⟨rfl, rfl⟩ := Prod.mk.inj (Except.ok.inj (hsamples.symm.trans htwice))
  exact hover rfl (by decide)

end RandomDelay.Sampling
