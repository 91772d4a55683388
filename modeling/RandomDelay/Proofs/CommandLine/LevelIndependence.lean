import RandomDelay.Proofs.CommandLine.Agreement
import RandomDelay.Proofs.Log

/-!
# Runs at different log levels

A command line is determined if it comes to no command, or to one that is given a seed or an
interval without width (`Determined`). What such a command does is the same in every run
(`reported_of_determined`).

The log level is used for nothing but to tell which records are written: a run at a known level is
the run that reports everything, with its records heard by the logger at that level. All handlers
are at the same level then, and write a record together, at `DEBUG` and at `INFO`, or none of them
does. Two runs of a determined command line therefore print, sleep and end alike at any two levels,
and the levels `DEBUG` and `INFO` have the same log, and the others none (`run_of_levels`).
-/

set_option autoImplicit false

namespace RandomDelay

/-- The levels `DEBUG` and `INFO` have no other names. -/
theorem Level.debug_or_info_iff {name : String} {level : Level}
    (h : Level.ofName? name = some level) :
    level = 10 ∨ level = 20 ↔ name = "DEBUG" ∨ name = "INFO" := by
  rw [Level.ofName?.eq_def] at h
  split at h <;> cases h <;> decide

/-! ## Determined commands -/

/-- Samplings that leave nothing to a seed of the run: they have one, or an interval without
width. -/
def Sampling.Determined (s : Sampling) : Prop := s.seed ≠ none ∨ s.span = .zero

/-- Pauses that leave nothing to a seed of the run. -/
def Pause.Determined (p : Pause) : Prop := p.seed ≠ none ∨ p.span = .zero

theorem Sampling.run_of_determined {s : Sampling} (h : s.Determined) (fallback fallback' : ℤ) :
    s.run fallback = s.run fallback' := by
  rcases h with hseed | hspan
  · obtain ⟨n, hn⟩ := Option.ne_none_iff_exists'.1 hseed
    exact run_of_seed hn
  · exact run_of_span_zero hspan

theorem Pause.run_of_determined {p : Pause} (h : p.Determined) (fallback fallback' : ℤ) :
    p.run fallback = p.run fallback' := by
  rcases h with hseed | hspan
  · obtain ⟨n, hn⟩ := Option.ne_none_iff_exists'.1 hseed
    exact run_of_seed hn
  · exact run_of_span_zero hspan

namespace CommandLine

open RandomDelay.Outcome

theorem Given.get_eq_ok {α : Type} {g : Given α} {a : α} : g.get = .ok a ↔ g = .value a := by
  cases g with
  | value b => simp [Given.get]
  | blank => simp [Given.get]

namespace Settings

variable {s : Settings}

/-- Settings that leave nothing to a seed of the run. -/
def Determined (s : Settings) : Prop := s.seed ≠ .value none ∨ s.span = .value .zero

theorem Determined.of_values (h : s.Determined) {seed : Option ℤ} {span : Duration}
    (hseed : s.seed = .value seed) (hspan : s.span = .value span) : seed ≠ none ∨ span = .zero := by
  rcases h with hgiven | hzero
  · left
    rintro rfl
    exact hgiven hseed
  · exact Or.inr (Given.value.inj (hspan.symm.trans hzero))

theorem Determined.sampling (h : s.Determined) {sampling : Sampling}
    (hs : s.sampling = .ok sampling) : sampling.Determined := by
  obtain ⟨count, -, hs⟩ := bind_eq_ok.1 hs
  by_cases hcount : count ≤ 0
  · simp only [hcount, if_true] at hs
    cases hs
  · simp only [hcount, if_false] at hs
    obtain ⟨lower, -, hs⟩ := bind_eq_ok.1 hs
    obtain ⟨span, hspan, hs⟩ := bind_eq_ok.1 hs
    obtain ⟨seed, hseed, hs⟩ := bind_eq_ok.1 hs
    cases hs
    exact h.of_values (Given.get_eq_ok.1 hseed) (Given.get_eq_ok.1 hspan)

theorem Determined.pause (h : s.Determined) {pause : Pause} (hs : s.pause = .ok pause) :
    pause.Determined := by
  obtain ⟨lower, -, hs⟩ := bind_eq_ok.1 hs
  obtain ⟨span, hspan, hs⟩ := bind_eq_ok.1 hs
  obtain ⟨seed, hseed, hs⟩ := bind_eq_ok.1 hs
  obtain ⟨delay, -, hs⟩ := bind_eq_ok.1 hs
  cases hs
  exact h.of_values (Given.get_eq_ok.1 hseed) (Given.get_eq_ok.1 hspan)

end Settings

/-- Arguments that come to a command with a seed or without width, or to no command. -/
def Determined (arguments : List String) : Prop :=
  ∀ c, Command.ofArguments arguments = .ok c → c.settings.Determined

/-- A determined command does the same with every fallback seed. -/
theorem Command.run_of_determined {c : Command} (h : c.settings.Determined)
    (fallback fallback' : ℤ) : c.run fallback = c.run fallback' := by
  rw [run, run]
  cases c.tool with
  | sampling =>
    cases hsampling : c.settings.sampling with
    | error failure => rfl
    | ok sampling => exact Sampling.run_of_determined (h.sampling hsampling) fallback fallback'
  | pause =>
    cases hpause : c.settings.pause with
    | error failure => rfl
    | ok pause => exact Pause.run_of_determined (h.pause hpause) fallback fallback'

theorem reported_of_determined {arguments : List String} (h : Determined arguments)
    (fallback fallback' : ℤ) : reported arguments fallback = reported arguments fallback' := by
  have hperform : perform arguments fallback = perform arguments fallback' := by
    rw [perform, perform]
    cases hcommand : Command.ofArguments arguments with
    | error stop => rfl
    | ok c => exact Command.run_of_determined (h c hcommand) fallback fallback'
  rw [reported, reported, hperform]

/-- Arguments that write a seed, or no width, are determined. -/
theorem determined_of_writes {tool : Tool} {choices : List Choice} {arguments : List String}
    (hwrites : Writes tool choices arguments) (h : Choice.Determined choices) :
    Determined (tool.word :: arguments) := by
  intro c hc
  rw [Command.ofArguments_of_writes hwrites] at hc
  obtain rfl := Except.ok.inj hc
  rcases h with ⟨n, hn⟩ | hspan
  · obtain ⟨m, hm⟩ := Choice.exists_seed hn
    left
    intro hnone
    exact Option.some_ne_none m (hm.symm.trans (Given.value.inj hnone))
  · exact Or.inr (congrArg Given.value hspan)

/-! ## Levels -/

/-- What the handlers write at a level. -/
theorem heardBy_atLevel (t : Transcript) (logger : Logger) {name : String} {level : Level}
    (h : Level.ofName? name = some level) :
    (t.heardBy (logger.atLevel level)).records =
      if name = "DEBUG" ∨ name = "INFO" then
        t.records.flatMap fun record => logger.attached.map fun _ => record
      else [] := by
  show t.records.flatMap (logger.atLevel level).written = _
  have hwritten := logger.written_atLevel (Level.ofName?_mem h)
  by_cases hheard : name = "DEBUG" ∨ name = "INFO"
  · rw [if_pos hheard]
    congr 1
    funext record
    rw [hwritten, if_pos ((Level.debug_or_info_iff h).2 hheard)]
  · rw [if_neg hheard, List.flatMap_eq_nil_iff]
    intro record _
    rw [hwritten, if_neg fun hlevel => hheard ((Level.debug_or_info_iff h).1 hlevel)]

/-- A determined command line prints, sleeps and ends alike at any two levels that have a name,
whatever the logging was before. It has the same log at `DEBUG` and at `INFO`, and no log at any
other level. -/
theorem run_of_levels {arguments : List String} (hdetermined : Determined arguments)
    {name name' : String} {level level' : Level} (hlevel : Level.ofName? name = some level)
    (hlevel' : Level.ofName? name' = some level') (fallback fallback' : ℤ) (logger : Logger) :
    let t := (run arguments name fallback logger).1
    let t' := (run arguments name' fallback' logger).1
    (t.printed = t'.printed ∧ t.slept = t'.slept ∧ t.result = t'.result) ∧
      (name = "DEBUG" ∨ name = "INFO" → name' = "DEBUG" ∨ name' = "INFO" → t.records = t'.records) ∧
      (¬ (name = "DEBUG" ∨ name = "INFO") → t.records = []) := by
  intro t t'
  have ht : t = (reported arguments fallback).heardBy (logger.installed.atLevel level) :=
    run_eq_of_level hlevel arguments fallback logger
  have ht' : t' = (reported arguments fallback).heardBy (logger.installed.atLevel level') := by
    rw [reported_of_determined hdetermined fallback fallback']
    exact run_eq_of_level hlevel' arguments fallback' logger
  have hrecords := heardBy_atLevel (reported arguments fallback) logger.installed hlevel
  have hrecords' := heardBy_atLevel (reported arguments fallback) logger.installed hlevel'
  rw [ht, ht']
  refine ⟨⟨rfl, rfl, rfl⟩, ?_, ?_⟩
  · intro hheard hheard'
    rw [hrecords, hrecords', if_pos hheard, if_pos hheard']
  · intro hsilent
    rw [hrecords, if_neg hsilent]

/-- A pause with a seed sleeps alike without a level and at `INFO`, but is not logged without. -/
theorem run_of_levels_unset :
    let unset := (run ["sleep-with-jitter", "--seed", "5"] "NOTSET" 1 {}).1
    let info := (run ["sleep-with-jitter", "--seed", "5"] "INFO" 2 {}).1
    unset.printed = info.printed ∧ unset.slept = info.slept ∧ unset.result = info.result ∧
      unset.records = [] := by
  intro unset info
  have hseed : Choice.WrittenAs .pause (.seed 5) ["--seed".toList, "5".toList] :=
    .valued rfl (.named (by decide : Switch.NamedBy _ _ "seed".toList))
  have hwrites : Writes .pause [.seed 5] ["--seed", "5"] :=
    .cons (by decide) (by decide +kernel) hseed .nil
  have hdetermined := determined_of_writes hwrites (Or.inl ⟨5, by decide⟩)
  have hword : Tool.pause.word = "sleep-with-jitter" := by decide +kernel
  rw [hword] at hdetermined
  obtain ⟨⟨hprinted, hslept, hresult⟩, -, hsilent⟩ := run_of_levels hdetermined
    (rfl : Level.ofName? "NOTSET" = some Level.unset)
    (rfl : Level.ofName? "INFO" = some Level.info) 1 2 {}
  exact ⟨hprinted, hslept, hresult, hsilent (by decide)⟩

end CommandLine

end RandomDelay
