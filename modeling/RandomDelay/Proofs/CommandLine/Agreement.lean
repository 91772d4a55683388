import RandomDelay.Proofs.CommandLine.Choice
import RandomDelay.Proofs.CommandLine.Overflow
import RandomDelay.Proofs.Sampling.Completion

/-!
# Command lines and calls agree

A tool can be called with the values that were chosen (`Tool.call`), or by a command line that
writes the choices. The settings of the command line are those of the call
(`Command.run_ofChoices`), so both do the same up to the fallback seed, which is another one for
every run. It is not used where a seed is chosen, and does not matter where the interval has no
width, as nothing is drawn from it (`Tool.call_of_determined`).

`run_eq_call` is the agreement of the whole program with the call: the same lines are printed, the
sleeps are the same, and so is the failure, if there is one.
-/

set_option autoImplicit false

namespace RandomDelay

open RandomDelay.Outcome

/-! ## Runs without a fallback seed -/

namespace Drawn

/-- What does not draw has the same results from every source. -/
theorem repeated_eq_replicate {α : Type} {draw : Source → Drawn α} {a : α}
    (h : ∀ source, draw source = (.ok a, source)) (n : ℕ) (source : Source) :
    repeated draw n source = (.ok (List.replicate n a), source) := by
  induction n with
  | zero => rfl
  | succ n ih =>
    rw [repeated_succ_of_ok (h source), ih]
    rfl

end Drawn

/-- An interval without width draws nothing. -/
theorem Interval.sample_of_ofBounds_zero {lower : Duration} {i : Interval}
    (h : Interval.ofBounds lower .zero = .ok i) (source : Source) :
    i.sample source = (.ok i.lower, source) := by
  apply Interval.sample_of_span_zero
  by_cases hlower : 0 ≤ lower.micros
  · rw [Interval.ofBounds_eq_ok hlower (le_refl 0)] at h
    rw [← Except.ok.inj h]
    rfl
  · rw [Interval.ofBounds, dif_neg hlower] at h
    cases h

namespace Sampling

variable {s : Sampling} {fallback fallback' : ℤ}

theorem run_eq_of_samples_eq (h : s.samples fallback = s.samples fallback') :
    s.run fallback = s.run fallback' := by
  rw [run, run, lines, lines, h]

theorem run_of_seed {n : ℤ} (h : s.seed = some n) : s.run fallback = s.run fallback' := by
  apply run_eq_of_samples_eq
  rw [samples, samples, h]
  rfl

theorem run_of_span_zero (h : s.span = .zero) : s.run fallback = s.run fallback' := by
  apply run_eq_of_samples_eq
  rw [samples, samples, h]
  split
  · rfl
  · apply bind_congr_of_ok
    intro i hi
    show (Drawn.repeated i.sample _ _).1 >>= _ = (Drawn.repeated i.sample _ _).1 >>= _
    rw [Drawn.repeated_eq_replicate (Interval.sample_of_ofBounds_zero hi),
      Drawn.repeated_eq_replicate (Interval.sample_of_ofBounds_zero hi)]

end Sampling

namespace Pause

variable {p : Pause} {fallback fallback' : ℤ}

theorem run_eq_of_wait_eq (h : p.wait fallback = p.wait fallback') :
    p.run fallback = p.run fallback' := by
  rw [run, run, h]

theorem run_of_seed {n : ℤ} (h : p.seed = some n) : p.run fallback = p.run fallback' := by
  apply run_eq_of_wait_eq
  rw [wait, wait, h]
  rfl

theorem run_of_span_zero (h : p.span = .zero) : p.run fallback = p.run fallback' := by
  apply run_eq_of_wait_eq
  rw [wait, wait, h]
  apply bind_congr_of_ok
  intro i hi
  have hdelayed : ∀ source, (i.delayed p.delay source).1 = .ok (i.lower.saturatingAdd p.delay) := by
    intro source
    rw [Interval.delayed, Interval.sample_of_ofBounds_zero hi]
    rfl
  show (i.delayed _ _).1 >>= _ = (i.delayed _ _).1 >>= _
  rw [hdelayed, hdelayed]

end Pause

namespace CommandLine

/-! ## Calls -/

namespace Choice

/-- Arguments of the sampling tool in which the last choice for each of them counts. -/
def sampling (choices : List Choice) : Sampling where
  lower := lastGiven lower? ({} : Sampling).lower choices
  span := lastGiven span? ({} : Sampling).span choices
  count := lastGiven count? ({} : Sampling).count choices
  seed := lastGiven seed? ({} : Sampling).seed choices
  summarize := lastGiven summarize? ({} : Sampling).summarize choices

/-- Arguments of the pausing tool in which the last choice for each of them counts. -/
def pause (choices : List Choice) : Pause where
  delay := lastGiven delay? ({} : Pause).delay choices
  lower := lastGiven lower? ({} : Pause).lower choices
  span := lastGiven span? ({} : Pause).span choices
  seed := lastGiven seed? ({} : Pause).seed choices

/-- Choices that leave nothing to a seed of the run: one is chosen, or the interval has no width. -/
def Determined (choices : List Choice) : Prop :=
  (∃ n, Choice.seed n ∈ choices) ∨ lastGiven span? .second choices = .zero

theorem exists_seed {n : ℤ} {choices : List Choice} (h : Choice.seed n ∈ choices) :
    ∃ m, lastGiven seed? none choices = some m := by
  obtain ⟨c, -, hc⟩ := exists_lastGiven seed? h rfl none
  cases c with
  | seed m => exact ⟨m, (Option.some.inj hc).symm⟩
  | _ => cases hc

end Choice

/-- Call of a tool with choices. -/
def Tool.call (choices : List Choice) (fallback : ℤ) : Tool → Transcript
  | .sampling => (Choice.sampling choices).run fallback
  | .pause => (Choice.pause choices).run fallback

/-- Where the choices leave nothing to it, the fallback seed does not matter. -/
theorem Tool.call_of_determined (tool : Tool) {choices : List Choice}
    (h : Choice.Determined choices) (fallback fallback' : ℤ) :
    tool.call choices fallback = tool.call choices fallback' := by
  rcases h with ⟨n, hn⟩ | hspan
  · -- another seed may be chosen later, but some chosen one is used in place of the fallback
    obtain ⟨m, hm⟩ := Choice.exists_seed hn
    cases tool with
    | sampling => exact Sampling.run_of_seed hm
    | pause => exact Pause.run_of_seed hm
  · cases tool with
    | sampling => exact Sampling.run_of_span_zero hspan
    | pause => exact Pause.run_of_span_zero hspan

/-! ## Command lines -/

namespace Settings

theorem sampling_ofChoices_of_pos {choices : List Choice}
    (h : 0 < (Choice.sampling choices).count) :
    (ofChoices choices).sampling = .ok (Choice.sampling choices) := if_neg (not_le.2 h)

theorem sampling_ofChoices_of_nonpos {choices : List Choice}
    (h : (Choice.sampling choices).count ≤ 0) :
    (ofChoices choices).sampling = .error (.nonpositiveCount (Choice.sampling choices).count) :=
  if_pos h

theorem pause_ofChoices (choices : List Choice) :
    (ofChoices choices).pause = .ok (Choice.pause choices) := rfl

end Settings

namespace Command

/-- A command with the settings of choices does what the call with these choices does. -/
theorem run_ofChoices (tool : Tool) (choices : List Choice) (fallback : ℤ) :
    run ⟨tool, .ofChoices choices⟩ fallback = tool.call choices fallback := by
  cases tool with
  | pause => rw [run, Settings.pause_ofChoices]; rfl
  | sampling =>
    rw [run]
    by_cases hcount : (Choice.sampling choices).count ≤ 0
    · -- the command refuses the count itself, before it comes to the tool
      have hlines : (Choice.sampling choices).lines fallback =
          .error (.nonpositiveCount (Choice.sampling choices).count) := by
        rw [Sampling.lines, Sampling.samples, if_pos hcount]
        rfl
      rw [Settings.sampling_ofChoices_of_nonpos hcount]
      exact (Sampling.run_of_lines_eq_error hlines).symm
    · rw [Settings.sampling_ofChoices_of_pos (not_le.1 hcount)]
      rfl

theorem ofArguments_word (tool : Tool) (arguments : List String) :
    ofArguments (tool.word :: arguments) = ofToolArguments tool arguments := by
  have hdivider : tool.word.toList ≠ dividerText := by cases tool <;> decide +kernel
  have hplain : Word.ofText? [.help] tool.word.toList = some (.plain tool.word.toList) := by
    cases tool <;> decide +kernel
  have htool : Tool.ofWord? tool.word = some tool := by cases tool <;> decide +kernel
  rw [ofArguments, if_neg hdivider, hplain, htool]

/-- A command line that writes choices for a tool comes down to that tool with their settings. -/
theorem ofArguments_of_writes {tool : Tool} {choices : List Choice} {arguments : List String}
    (h : Writes tool choices arguments) :
    ofArguments (tool.word :: arguments) = .ok ⟨tool, .ofChoices choices⟩ := by
  obtain ⟨words, hwords, hevents⟩ := ofWords_of_writes h
  rw [ofArguments_word, ofToolArguments, hwords]
  show (Settings.ofEvents (Event.ofWords tool.switches words) >>= _) = _
  rw [hevents, Settings.ofEvents_choices h.writable]
  rfl

end Command

/-- A command line that writes choices with a seed, or without width, prints, sleeps and fails like
the call of its tool with these choices, of which the last one for each option counts. -/
theorem run_eq_call (tool : Tool) {choices : List Choice} {arguments : List String}
    (hwrites : Writes tool choices arguments) (hdetermined : Choice.Determined choices)
    {levelName : String} {level : Level} (hlevel : Level.ofName? levelName = some level)
    (fallback fallback' : ℤ) (logger : Logger) :
    let run := (run (tool.word :: arguments) levelName fallback logger).1
    let call := tool.call choices fallback'
    run.printed = call.printed ∧ run.slept = call.slept ∧ run.result = call.result := by
  -- the reports of the command line are the only thing that the call does not have
  have hperform : perform (tool.word :: arguments) fallback = tool.call choices fallback' := by
    rw [perform, Command.ofArguments_of_writes hwrites]
    show Command.run _ _ = _
    rw [Command.run_ofChoices]
    exact tool.call_of_determined hdetermined fallback fallback'
  rw [run_eq_of_level hlevel, reported, hperform]
  exact ⟨rfl, rfl, rfl⟩

/-- Three samples of an interval without width, although two are asked for first. -/
theorem run_eq_call_sampling :
    (run ["sample-jitter", "-c2", "--se=-5", "--span", "0.000000s", "--cou", "3"]
        "INFO" 7 {}).1.printed =
      ["0.000000s".toList, "0.000000s".toList, "0.000000s".toList] := by
  have hfirst : Choice.WrittenAs .sampling (.count 2) ["-c2".toList] :=
    .valued rfl (.letteredDirectly rfl)
  have hseed : Choice.WrittenAs .sampling (.seed (-5)) ["--se=-5".toList] :=
    .valued rfl (.namedEquals (by decide : Switch.NamedBy _ _ "se".toList))
  have hspan : Choice.WrittenAs .sampling (.span .zero) ["--span".toList, "0.000000s".toList] :=
    .valued (by decide +kernel) (.named (by decide : Switch.NamedBy _ _ "span".toList))
  have hcount : Choice.WrittenAs .sampling (.count 3) ["--cou".toList, "3".toList] :=
    .valued rfl (.named (by decide : Switch.NamedBy _ _ "cou".toList))
  have hwrites : Writes .sampling [.count 2, .seed (-5), .span .zero, .count 3]
      ["-c2", "--se=-5", "--span", "0.000000s", "--cou", "3"] :=
    .cons (by decide) (by decide +kernel) hfirst <| .cons (by decide) (by decide +kernel) hseed <|
    .cons (by decide) (by decide +kernel) hspan <| .cons (by decide) (by decide +kernel) hcount .nil
  obtain ⟨hprinted, -, -⟩ := run_eq_call .sampling hwrites (Or.inl ⟨-5, by decide⟩)
    (rfl : Level.ofName? "INFO" = some Level.info) 7 8 {}
  have hword : Tool.sampling.word = "sample-jitter" := by decide +kernel
  rw [hword] at hprinted
  exact hprinted.trans (by decide +kernel)

end CommandLine

end RandomDelay
