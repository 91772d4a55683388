import RandomDelay.Proofs.Duration.RoundTrip
import RandomDelay.Proofs.Sampling.Completion

/-!
# What the sampling tool prints

Computations in a row on one source pass the source on from one to the next (`Drawn.after`), so the
result at place `k` is the one computed on the source after `k` of them (`Drawn.repeated_getElem`),
and a longer row begins with the shorter one (`Drawn.isPrefix_repeated`). Lines without a line end
of their own are told apart again in the output (`Transcript.splitOn_output`).

`run_prints_samples` is the result: the output of the tool has one line for each sample, which is
read back as that sample of the generator, and asking for more samples only adds lines at the end.
-/

set_option autoImplicit false

namespace RandomDelay

/-! ## Computations in a row -/

namespace Drawn

variable {α : Type} {draw : Source → Drawn α}

/-- Source after `n` computations in a row. -/
def after (draw : Source → Drawn α) : ℕ → Source → Source
  | 0, source => source
  | n + 1, source => after draw n (draw source).2

/-- A row that went through: its first computation, and the row of the others on the source after
it. -/
theorem repeated_succ_eq_ok {n : ℕ} {source : Source} {as : List α}
    (h : (repeated draw (n + 1) source).1 = .ok as) :
    ∃ a rest, (draw source).1 = .ok a ∧ (repeated draw n (draw source).2).1 = .ok rest ∧
      as = a :: rest := by
  cases hfirst : (draw source).1 with
  | error failure =>
    rw [repeated_succ_of_error (Prod.ext hfirst rfl)] at h
    cases h
  | ok a =>
    rw [repeated_succ_of_ok (Prod.ext hfirst rfl)] at h
    cases hrest : (repeated draw n (draw source).2).1 with
    | error failure =>
      simp [Drawn.map, hrest, Except.map] at h
    | ok rest =>
      simp [Drawn.map, hrest, Except.map] at h
      exact ⟨a, rest, rfl, rfl, h.symm⟩

/-- The result at place `k` is computed on the source after `k` computations. -/
theorem repeated_getElem {n : ℕ} {source : Source} {as : List α}
    (h : (repeated draw n source).1 = .ok as) (k : ℕ) (hk : k < as.length) :
    (draw (after draw k source)).1 = .ok as[k] := by
  induction n generalizing source as k with
  | zero =>
    obtain rfl : [] = as := Except.ok.inj h
    exact absurd hk (Nat.not_lt_zero k)
  | succ n ih =>
    obtain ⟨a, rest, ha, hrest, rfl⟩ := repeated_succ_eq_ok h
    cases k with
    | zero => exact ha
    | succ k => exact ih hrest k (Nat.lt_of_succ_lt_succ hk)

/-- A longer row on the same source begins with the shorter one. -/
theorem isPrefix_repeated {n m : ℕ} (hle : n ≤ m) {source : Source} {as bs : List α}
    (has : (repeated draw n source).1 = .ok as) (hbs : (repeated draw m source).1 = .ok bs) :
    as <+: bs := by
  induction n generalizing m source as bs with
  | zero =>
    obtain rfl : [] = as := Except.ok.inj has
    exact List.nil_prefix
  | succ n ih =>
    obtain ⟨m, rfl⟩ : ∃ k, m = k + 1 := ⟨m - 1, by omega⟩
    obtain ⟨a, rest, ha, hrest, rfl⟩ := repeated_succ_eq_ok has
    obtain ⟨b, rest', hb, hrest', rfl⟩ := repeated_succ_eq_ok hbs
    -- both rows begin with the same computation on the same source
    obtain rfl : a = b := Except.ok.inj (ha.symm.trans hb)
    exact (List.prefix_cons_inj a).2 (ih (Nat.le_of_succ_le_succ hle) hrest hrest')

end Drawn

/-! ## Lines -/

/-- Lines without a line end of their own, each ended by one, are told apart again, with nothing
after the last line end. -/
theorem Text.splitOn_ended {lines : List (List Char)} (h : ∀ line ∈ lines, '\n' ∉ line) :
    (lines.flatMap (· ++ ['\n'])).splitOn '\n' = lines ++ [[]] := by
  induction lines with
  | nil => rfl
  | cons line rest ih =>
    obtain ⟨hline, hrest⟩ := List.forall_mem_cons.1 h
    have hsplit (tail : List Char) :
        (line ++ '\n' :: tail).splitOn '\n' = line.splitOn '\n' ++ tail.splitOn '\n' :=
      List.splitOnP_append_cons line tail rfl
    rw [List.flatMap_cons, List.append_assoc, List.singleton_append, hsplit,
      List.splitOn_eq_singleton hline, ih hrest]
    rfl

namespace Transcript

theorem toList_output (t : Transcript) : t.output.toList = t.printed.flatMap (· ++ ['\n']) :=
  String.toList_ofList

theorem isPrefix_output {t u : Transcript} (h : t.printed <+: u.printed) :
    t.output.toList <+: u.output.toList := by
  rw [toList_output, toList_output]
  exact h.flatMap _

end Transcript

/-- The text of a duration is one line. -/
theorem Duration.newline_not_mem_secondsText {d : Duration} (h0 : 0 ≤ d.micros) :
    '\n' ∉ d.secondsText := by
  intro hmem
  rcases mem_secondsText h0 hmem with hdigit | hpoint | hletter
  · cases hdigit
  · cases hpoint
  · cases hletter

namespace Sampling

/-- Without a summary, a positive number of samples of an interval is drawn in a row and printed. -/
theorem exists_run_of_plain {s : Sampling} (hlower : 0 ≤ s.lower.micros) (hspan : 0 ≤ s.span.micros)
    (hcount : 0 < s.count) (hplain : s.summarize = false) (fallback : ℤ) :
    ∃ samples, (Drawn.repeated (⟨s.lower, s.span, hlower, hspan⟩ : Interval).sample s.count.toNat
        (.ofSeed (s.seed.getD fallback))).1 = .ok samples ∧
      samples.length = s.count ∧
      (∀ d ∈ samples, (⟨s.lower, s.span, hlower, hspan⟩ : Interval).IsSample d) ∧
      s.run fallback = { printed := samples.map Duration.secondsText } := by
  obtain ⟨samples, hsamples, hlength, hall⟩ :=
    Interval.exists_repeated_sample ⟨s.lower, s.span, hlower, hspan⟩ s.count.toNat
      (Source.isGenerator_ofSeed (s.seed.getD fallback))
  have hlines := lines_of_plain (samples_of_repeated hlower hspan hcount hsamples) hplain
  refine ⟨samples, hsamples, ?_, hall, run_of_lines_eq_ok hlines⟩
  rw [hlength]
  exact Int.toNat_of_nonneg hcount.le

/-- For an interval within `2 ^ 33` seconds and a positive count the tool prints as many lines as
are asked for. Line `k`, counted from zero, is read back as sample `k` of the generator with the
seed, which lies in the interval; and the output for a larger count begins with this one. -/
theorem run_prints_samples (seed fallback : ℤ) (lower span : Duration) (count : ℤ)
    (hlower : 0 ≤ lower.micros) (hspan : 0 ≤ span.micros)
    (hupper : lower.micros + span.micros ≤ 2 ^ 33 * 10 ^ 6) (hcount : 1 ≤ count) :
    let tool (n : ℤ) : Sampling := { lower, span, count := n, seed := some seed }
    let interval : Interval := ⟨lower, span, hlower, hspan⟩
    ∃ printed : List (List Char), (tool count).run fallback = { printed } ∧
      ((tool count).run fallback).output.toList.splitOn '\n' = printed ++ [[]] ∧
      printed.length = count ∧
      (∀ k (hk : k < printed.length), ∃ d,
        (interval.sample (Drawn.after interval.sample k (.ofSeed seed))).1 = .ok d ∧
          Duration.ofText (String.ofList printed[k]) = .ok d ∧ interval.IsSample d) ∧
      ∀ more, count ≤ more →
        ((tool count).run fallback).output.toList <+: ((tool more).run fallback).output.toList := by
  intro tool interval
  obtain ⟨samples, hsamples, hlength, hall, hrun⟩ :=
    exists_run_of_plain (s := tool count) hlower hspan hcount rfl fallback
  have hnonneg : ∀ d ∈ samples, 0 ≤ d.micros := by
    intro d hd
    exact hlower.trans (hall d hd).lower_le
  refine ⟨samples.map Duration.secondsText, hrun, ?_, ?_, ?_, ?_⟩
  · -- no line has a line break in it, so the output is cut where the lines end
    rw [hrun, Transcript.toList_output]
    apply Text.splitOn_ended
    intro line hline
    obtain ⟨d, hd, rfl⟩ := List.mem_map.1 hline
    exact Duration.newline_not_mem_secondsText (hnonneg d hd)
  · rw [List.length_map]
    exact hlength
  · intro k hk
    have hk' : k < samples.length := by simpa using hk
    have hmem : samples[k] ∈ samples := List.getElem_mem hk'
    have hsample : interval.IsSample samples[k] := hall _ hmem
    have hsize : samples[k].micros ≤ 2 ^ 33 * 10 ^ 6 := hsample.micros_le.trans hupper
    obtain ⟨w, hread, hmeaning⟩ := Duration.exists_written_secondsText (hnonneg _ hmem) hsize
    refine ⟨samples[k], Drawn.repeated_getElem hsamples k hk', ?_, hsample⟩
    rw [List.getElem_map]
    exact Duration.ofText_of_written (by rwa [String.toList_ofList]) hmeaning
  · -- more samples of one generator go on where these stop
    intro more hmore
    obtain ⟨samples', hsamples', -, -, hrun'⟩ :=
      exists_run_of_plain (s := tool more) hlower hspan (hcount.trans hmore) rfl fallback
    have hfirst : samples <+: samples' :=
      Drawn.isPrefix_repeated (Int.toNat_le_toNat hmore) hsamples hsamples'
    rw [hrun, hrun']
    exact Transcript.isPrefix_output (hfirst.map Duration.secondsText)

/-- The widest interval: two lines, which come first where five are asked for. -/
theorem run_prints_samples_widest :
    let span : Duration := ⟨8589934592000000, by decide⟩
    let tool (n : ℤ) : Sampling := { lower := .zero, span, count := n, seed := some (-1) }
    Duration.zero.micros + span.micros ≤ 2 ^ 33 * 10 ^ 6 ∧
      (∃ printed : List (List Char), (tool 2).run 0 = { printed } ∧ printed.length = (2 : ℤ)) ∧
      ((tool 2).run 0).output.toList <+: ((tool 5).run 0).output.toList := by
  intro span tool
  obtain ⟨printed, hrun, -, hlength, -, hfirst⟩ :=
    run_prints_samples (-1) 0 .zero span 2 (by decide) (by decide) (by decide) (by decide)
  exact ⟨by decide, ⟨printed, hrun, hlength⟩, hfirst 5 (by decide)⟩

end Sampling

end RandomDelay
