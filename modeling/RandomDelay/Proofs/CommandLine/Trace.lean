import RandomDelay.Proofs.CommandLine.LevelIndependence
import RandomDelay.Proofs.CommandLine.Overflow
import RandomDelay.Proofs.CommandLine.Spelling

/-!
# What a run reports

A run is reported in up to three parts: the command before it, the sleep in it, and the success or
failure after it. Whether the command is reported is decided by the arguments as they stand: neither
`-h` nor `--help` may be among them. Whether it succeeds is decided by the words they are read as,
which is a different thing, for an argument can be a value, or come after the divider.

The two agree all the same. Only plain words are taken as values, so every other word of a tool has
its turn among the events (`Event.exists_fatal_of_mem`); the words for help and the divider then let
no command come about (`Command.announces_of_ofArguments`). With this the reports of a run at `INFO`
or `DEBUG` are told part by part, and which of them are written by how the run ends
(`trace_of_run`).
-/

set_option autoImplicit false

namespace RandomDelay.CommandLine

open RandomDelay.Outcome

/-! ## Events that no command has -/

namespace Event

/-- Events that let no command come about: they are refused, or left over. -/
def Fatal (e : Event) : Prop := e.refusal? ≠ none ∨ e = .surplus

theorem fatal_unusable : Fatal .unusable := Or.inl (by decide)

theorem fatal_help : Fatal (.flag .help) := Or.inl (by decide)

variable {switches : List Switch}

/-- Only plain words are taken as values. Any other word with a fatal event makes the row fatal,
unless an option before it cannot be used, which is fatal as well. -/
theorem exists_fatal_of_mem {w : Word} (hplain : ∀ text, w ≠ .plain text)
    (hfatal : ∀ rest, ∃ e ∈ ofWords switches (w :: rest), e.Fatal) {words : List Word}
    (hmem : w ∈ words) : ∃ e ∈ ofWords switches words, e.Fatal := by
  have hlater : ∀ (events : List Event) {later : List Event}, (∃ e ∈ later, e.Fatal) →
      ∃ e ∈ events ++ later, e.Fatal := by
    rintro events later ⟨e, he, hefatal⟩
    exact ⟨e, List.mem_append_right events he, hefatal⟩
  induction words using ofWords.induct switches with
  | case1 => cases hmem
  | case2 text rest ih =>
    rcases List.mem_cons.1 hmem with rfl | hrest
    · exact absurd rfl (hplain text)
    · exact hlater [.surplus] (ih hrest)
  | case3 rest ih =>
    rcases List.mem_cons.1 hmem with rfl | hrest
    · exact hfatal rest
    · exact hlater [.surplus] (ih hrest)
  | case4 rest ih =>
    rcases List.mem_cons.1 hmem with rfl | hrest
    · exact hfatal rest
    · exact hlater [.surplus] (ih hrest)
  | case5 s byLetter attached rest hopened =>
    rw [ofWords, hopened]
    exact ⟨.unusable, List.mem_singleton_self _, fatal_unusable⟩
  | case6 s byLetter attached rest events hopened ih =>
    rcases List.mem_cons.1 hmem with rfl | hrest
    · exact hfatal rest
    · rw [ofWords, hopened]
      exact hlater events (ih hrest)
  | case7 s byLetter attached events waiting hopened text rest ih =>
    rcases List.mem_cons.1 hmem with rfl | htail
    · exact hfatal (.plain text :: rest)
    · rcases List.mem_cons.1 htail with rfl | hrest
      · -- the value that is waited for is plain, and so it is not this word
        exact absurd rfl (hplain text)
      · rw [ofWords, hopened]
        exact hlater events (hlater [.value waiting.key text] (ih hrest))
  | case8 s byLetter attached rest events waiting hopened hnext =>
    rw [ofWords_of_not_plain hopened hnext]
    exact ⟨.unusable, List.mem_singleton_self _, fatal_unusable⟩

end Event

/-- Events that come to settings are all taken, and none is left over. -/
theorem Settings.not_fatal_of_ofEvents {events : List Event} {s : Settings}
    (h : ofEvents events = .ok s) : ∀ e ∈ events, ¬ e.Fatal := by
  obtain ⟨settings, hfold, h⟩ := bind_eq_ok.1 h
  intro e he hfatal
  rcases hfatal with hrefused | rfl
  · have hsome : (events.findSome? Event.refusal?).isSome :=
      List.findSome?_isSome_iff.2 ⟨e, he, Option.isSome_iff_ne_none.2 hrefused⟩
    obtain ⟨stop, hstop⟩ := Option.isSome_iff_exists.1 hsome
    rw [(foldlM_eq_error_iff Event.take_eq_error_iff events {} stop).2 hstop] at hfold
    cases hfold
  · rw [if_pos (List.contains_iff_mem.2 he)] at h
    cases h

/-! ## Calls for help -/

/-- The arguments that keep a command from being reported. -/
def helpTexts : List String := ["-h", "--help"]

/-- The command is reported if there are arguments, none of which asks for help outright. -/
theorem announces_iff {arguments : List String} :
    announces arguments = true ↔ arguments ≠ [] ∧ ∀ text ∈ helpTexts, text ∉ arguments := by
  simp [announces, helpTexts, and_assoc]

/-- An argument that is read as the word `w` gets there, unless the divider comes before it. -/
theorem Word.mem_of_ofTexts? {switches : List Switch} {text : List Char} {w : Word}
    (hw : ofText? switches text = some w) {texts : List (List Char)} (hmem : text ∈ texts)
    {words : List Word} (h : ofTexts? switches texts = some words) :
    w ∈ words ∨ .divider ∈ words := by
  induction texts generalizing words with
  | nil => cases hmem
  | cons first rest ih =>
    rw [ofTexts?] at h
    split at h
    · cases h
      exact Or.inr List.mem_cons_self
    · obtain ⟨word, hword, h⟩ := Option.bind_eq_some_iff.1 h
      obtain ⟨later, hlater, h⟩ := Option.bind_eq_some_iff.1 h
      cases h
      rcases List.mem_cons.1 hmem with rfl | hrest
      · obtain rfl := Option.some.inj (hw.symm.trans hword)
        exact Or.inl List.mem_cons_self
      · rcases ih hrest hlater with hin | hdivider
        · exact Or.inl (List.mem_cons_of_mem _ hin)
        · exact Or.inr (List.mem_cons_of_mem _ hdivider)

/-- Both tools read a call for help as one. -/
theorem Word.ofText?_of_mem_helpTexts (tool : Tool) {text : String} (h : text ∈ helpTexts) :
    ∃ byLetter, ofText? tool.switches text.toList = some (.option .help byLetter none) := by
  have hmem : Switch.help ∈ tool.switches := by
    cases tool <;> exact List.mem_cons_self
  rcases List.mem_pair.1 h with rfl | rfl
  · exact ⟨true, ofText?_lettered (orderly_switches tool) hmem rfl⟩
  · refine ⟨false, ofText?_named (orderly_switches tool) hmem ?_⟩
    exact ⟨List.cons_ne_nil _ _, Or.inl rfl⟩

namespace Command

variable {c : Command}

/-- A tool that is given a call for help does not run. -/
theorem not_mem_of_ofToolArguments {tool : Tool} {arguments : List String}
    (h : ofToolArguments tool arguments = .ok c) {text : String} (htext : text ∈ helpTexts) :
    text ∉ arguments := by
  intro hmem
  rw [ofToolArguments] at h
  cases hwords : Word.ofTexts? tool.switches (arguments.map String.toList) with
  | none =>
    rw [hwords] at h
    cases h
  | some words =>
    rw [hwords] at h
    obtain ⟨settings, hsettings, -⟩ := bind_eq_ok.1 h
    have htaken := Settings.not_fatal_of_ofEvents hsettings
    suffices hexists : ∃ e ∈ Event.ofWords tool.switches words, e.Fatal by
      obtain ⟨e, he, hfatal⟩ := hexists
      exact htaken e he hfatal
    obtain ⟨byLetter, hhelp⟩ := Word.ofText?_of_mem_helpTexts tool htext
    rcases Word.mem_of_ofTexts? hhelp (List.mem_map_of_mem hmem) hwords with hin | hdivider
    · refine Event.exists_fatal_of_mem ?_ ?_ hin
      · intro text h
        cases h
      · intro rest
        exact ⟨.flag .help, List.mem_cons_self, Event.fatal_help⟩
    · refine Event.exists_fatal_of_mem ?_ ?_ hdivider
      · intro text h
        cases h
      · intro rest
        exact ⟨.surplus, List.mem_cons_self, Or.inr rfl⟩

/-- A command begins with the name of its tool, and what follows is for the tool. -/
theorem exists_tool_of_ofArguments {arguments : List String} (h : ofArguments arguments = .ok c) :
    ∃ (tool : Tool) (rest : List String), arguments = tool.word :: rest ∧
      ofToolArguments tool rest = .ok c := by
  cases arguments with
  | nil => cases h
  | cons argument rest =>
    rw [ofArguments] at h
    split at h
    · cases h
    · split at h
      · cases htool : Tool.ofWord? argument with
        | none =>
          rw [htool] at h
          cases h
        | some tool =>
          rw [htool] at h
          rw [Tool.ofWord?] at htool
          have hword : tool.word = argument := by simpa using List.find?_some htool
          exact ⟨tool, rest, by rw [hword], h⟩
      · -- whatever is read after an option before the tool, it ends as misuse
        obtain ⟨-, -, h⟩ := bind_eq_ok.1 h
        cases h
      · obtain ⟨-, -, h⟩ := bind_eq_ok.1 h
        cases h
      · cases h

/-- A command that comes about is one that is reported. -/
theorem announces_of_ofArguments {arguments : List String} (h : ofArguments arguments = .ok c) :
    announces arguments = true := by
  obtain ⟨tool, rest, rfl, hrest⟩ := exists_tool_of_ofArguments h
  refine announces_iff.2 ⟨List.cons_ne_nil _ _, ?_⟩
  intro text htext hmem
  rcases List.mem_cons.1 hmem with rfl | hlater
  · revert htext
    cases tool <;> decide +kernel
  · exact not_mem_of_ofToolArguments hrest htext hlater

end Command

/-! ## Tools at work -/

namespace Command

variable {c : Command} {fallback : ℤ}

/-- A command comes to a sleep if it pauses, and finds out how long. -/
def ComesToSleep (c : Command) (fallback : ℤ) (p : Pause) (interval : Interval) (wait : Duration) :
    Prop :=
  c.tool = .pause ∧ c.settings.pause = .ok p ∧ p.wait fallback = .ok (interval, wait)

theorem run_of_comesToSleep {p : Pause} {interval : Interval} {wait : Duration}
    (h : c.ComesToSleep fallback p interval wait) :
    c.run fallback = { records := [p.announcement interval wait], slept := [wait.seconds] } := by
  obtain ⟨htool, hpause, hwait⟩ := h
  simp only [run, htool, hpause, Pause.run, hwait]

/-- All that a command does is to fail, to print some lines, or to come to its sleep. -/
theorem run_cases (c : Command) (fallback : ℤ) :
    (∃ failure, c.run fallback = .stopped (.failure failure)) ∨
      (∃ lines, c.run fallback = { printed := lines }) ∨
        ∃ p interval wait, c.ComesToSleep fallback p interval wait := by
  cases htool : c.tool with
  | sampling =>
    cases hsettings : c.settings.sampling with
    | error failure =>
      left
      exact ⟨failure, by simp only [run, htool, hsettings]⟩
    | ok s =>
      have hrun : c.run fallback = s.run fallback := by simp only [run, htool, hsettings]
      rw [hrun, Sampling.run]
      cases s.lines fallback with
      | error failure => exact Or.inl ⟨failure, rfl⟩
      | ok lines => exact Or.inr (Or.inl ⟨lines, rfl⟩)
  | pause =>
    cases hsettings : c.settings.pause with
    | error failure =>
      left
      exact ⟨failure, by simp only [run, htool, hsettings]⟩
    | ok p =>
      have hrun : c.run fallback = p.run fallback := by simp only [run, htool, hsettings]
      rw [hrun, Pause.run]
      cases hwait : p.wait fallback with
      | error failure => exact Or.inl ⟨failure, rfl⟩
      | ok outcome => exact Or.inr (Or.inr ⟨p, outcome.1, outcome.2, htool, hsettings, hwait⟩)

theorem run_of_not_comesToSleep
    (h : ¬ ∃ p interval wait, c.ComesToSleep fallback p interval wait) :
    (c.run fallback).records = [] ∧ (c.run fallback).slept = [] := by
  rcases c.run_cases fallback with ⟨failure, hrun⟩ | ⟨lines, hrun⟩ | hsleep
  · rw [hrun]
    exact ⟨rfl, rfl⟩
  · rw [hrun]
    exact ⟨rfl, rfl⟩
  · exact absurd hsleep h

/-- Tools do not leave with an exit code. -/
theorem result_run_ne_exit (c : Command) (fallback : ℤ) (code : ℕ) :
    (c.run fallback).result ≠ .error (.exit code) := by
  intro h
  rcases c.run_cases fallback with ⟨failure, hrun⟩ | ⟨lines, hrun⟩ | ⟨p, interval, wait, hsleep⟩
  · rw [hrun] at h
    cases h
  · rw [hrun] at h
    cases h
  · rw [run_of_comesToSleep hsleep] at h
    cases h

/-- An exit code that arguments lead to is the one of help or of misuse. -/
theorem exit_code_of_ofArguments {arguments : List String} {code : ℕ}
    (h : ofArguments arguments = .error (.exit code)) : code = 0 ∨ code = 2 := by
  obtain ⟨hover, hnot⟩ := ends_ofArguments arguments
  rw [h] at hover hnot
  by_cases hoverflows : Overflows (toolEvents arguments)
  · cases hover hoverflows
  · rcases hnot hoverflows with ⟨c, hc⟩ | hhelp | hmisused
    · cases hc
    · cases hhelp
      exact Or.inl rfl
    · cases hmisused
      exact Or.inr rfl

end Command

/-- Runs that come to a sleep: the arguments name a command that does. -/
def ComesToSleep (arguments : List String) (fallback : ℤ) (p : Pause) (interval : Interval)
    (wait : Duration) : Prop :=
  ∃ c, Command.ofArguments arguments = .ok c ∧ c.ComesToSleep fallback p interval wait

/-! ## Reports -/

section

variable {arguments : List String} {sleeping : List Record} {result : Except Stop Unit}

/-- The reports of a run in their order, with those of the tool among them. -/
def reports (arguments : List String) (sleeping : List Record) (result : Except Stop Unit) :
    List Record :=
  (if announces arguments then [running arguments] else []) ++ sleeping ++ closing arguments result

/-- The reports of the command line are told apart by how they begin, whatever the arguments are. -/
theorem running_ne_failed (arguments : List String) : running arguments ≠ failed arguments := by
  intro h
  have hchars := congrArg (fun record => record.message.toList.head?) h
  simp [running, failed, record] at hchars

theorem running_ne_completed (arguments : List String) : running arguments ≠ completed := by
  intro h
  have hchars := congrArg (fun record => record.message.toList.head?) h
  simp [running, completed, record] at hchars

theorem completed_ne_failed (arguments : List String) : completed ≠ failed arguments := by
  intro h
  have hchars := congrArg (fun record => record.message.toList.head?) h
  simp [completed, failed, record] at hchars

theorem running_not_mem_closing : running arguments ∉ closing arguments result := by
  intro h
  rcases result with (code | failure) | ok
  · cases h
  · exact running_ne_failed arguments (List.mem_singleton.1 h)
  · exact running_ne_completed arguments (List.mem_singleton.1 h)

theorem completed_mem_closing : completed ∈ closing arguments result ↔ result = .ok () := by
  constructor
  · intro h
    rcases result with (code | failure) | ok
    · cases h
    · exact absurd (List.mem_singleton.1 h) (completed_ne_failed arguments)
    · rfl
  · rintro rfl
    exact List.mem_cons_self

theorem failed_mem_closing :
    failed arguments ∈ closing arguments result ↔
      ∃ failure, result = .error (.failure failure) := by
  constructor
  · intro h
    rcases result with (code | failure) | ok
    · cases h
    · exact ⟨failure, rfl⟩
    · exact absurd (List.mem_singleton.1 h).symm (completed_ne_failed arguments)
  · rintro ⟨failure, rfl⟩
    exact List.mem_cons_self

/-- Tools report under a channel of their own, so the reports of the command line are those before
and after. -/
theorem mem_reports (hsleeping : ∀ record ∈ sleeping, record.channel = .pause) {report : Record}
    (hchannel : report.channel = .commandLine) :
    report ∈ reports arguments sleeping result ↔
      announces arguments = true ∧ report = running arguments ∨
        report ∈ closing arguments result := by
  have hother : report ∉ sleeping := by
    intro hmem
    rw [hsleeping report hmem] at hchannel
    cases hchannel
  simp [reports, hother]

theorem running_mem_reports (hsleeping : ∀ record ∈ sleeping, record.channel = .pause) :
    running arguments ∈ reports arguments sleeping result ↔ announces arguments = true := by
  rw [mem_reports hsleeping rfl, or_iff_left running_not_mem_closing]
  exact and_iff_left rfl

theorem completed_mem_reports (hsleeping : ∀ record ∈ sleeping, record.channel = .pause) :
    completed ∈ reports arguments sleeping result ↔ result = .ok () := by
  rw [mem_reports hsleeping rfl, completed_mem_closing]
  exact or_iff_right fun h => running_ne_completed arguments h.2.symm

theorem failed_mem_reports (hsleeping : ∀ record ∈ sleeping, record.channel = .pause) :
    failed arguments ∈ reports arguments sleeping result ↔
      ∃ failure, result = .error (.failure failure) := by
  rw [mem_reports hsleeping rfl, failed_mem_closing]
  exact or_iff_right fun h => running_ne_failed arguments h.2.symm

theorem head?_reports (hsleeping : ∀ record ∈ sleeping, record.channel = .pause) :
    (reports arguments sleeping result).head? = some (running arguments) ↔
      announces arguments = true := by
  constructor
  · intro h
    exact (running_mem_reports hsleeping).1 (List.mem_of_head? h)
  · intro hannounces
    rw [reports, if_pos hannounces]
    rfl

theorem getLast?_reports_completed (hsleeping : ∀ record ∈ sleeping, record.channel = .pause) :
    (reports arguments sleeping result).getLast? = some completed ↔ result = .ok () := by
  constructor
  · intro h
    exact (completed_mem_reports hsleeping).1 (List.mem_of_getLast? h)
  · rintro rfl
    exact List.getLast?_concat

theorem getLast?_reports_failed (hsleeping : ∀ record ∈ sleeping, record.channel = .pause) :
    (reports arguments sleeping result).getLast? = some (failed arguments) ↔
      ∃ failure, result = .error (.failure failure) := by
  constructor
  · intro h
    exact (failed_mem_reports hsleeping).1 (List.mem_of_getLast? h)
  · rintro ⟨failure, rfl⟩
    exact List.getLast?_concat

end

/-! ## Runs -/

section

variable {arguments : List String} {fallback : ℤ}

theorem reported_of_command {c : Command} (h : Command.ofArguments arguments = .ok c) :
    reported arguments fallback =
      { c.run fallback with
        records := reports arguments (c.run fallback).records (c.run fallback).result } := by
  simp only [reported, reports, perform, h]

theorem reported_of_stop {stop : Stop} (h : Command.ofArguments arguments = .error stop) :
    reported arguments fallback =
      { records := reports arguments [] (.error stop), result := .error stop } := by
  simp only [reported, reports, perform, h, Transcript.stopped]

/-- What becomes of the sleep in a run: it is reported and slept once, or there is none. -/
def Sleeps (arguments : List String) (fallback : ℤ) (t : Transcript)
    (sleeping : List Record) : Prop :=
  (∃ p interval wait, ComesToSleep arguments fallback p interval wait ∧
      sleeping = [p.announcement interval wait] ∧ t.slept = [wait.seconds]) ∨
    (¬ ∃ p interval wait, ComesToSleep arguments fallback p interval wait) ∧
      sleeping = [] ∧ t.slept = []

theorem Sleeps.channel {t : Transcript} {sleeping : List Record}
    (h : Sleeps arguments fallback t sleeping) : ∀ record ∈ sleeping, record.channel = .pause := by
  rcases h with ⟨p, interval, wait, -, rfl, -⟩ | ⟨-, rfl, -⟩
  · exact List.forall_mem_singleton.2 rfl
  · exact nofun

/-- The report of a sleep begins with the same words, whatever the pause and the wait are. -/
theorem exists_message_announcement (p : Pause) (interval : Interval) (wait : Duration) :
    ∃ rest, (p.announcement interval wait).message = "Sleeping for " ++ rest := by
  rw [Pause.announcement]
  simp only [List.append_assoc, String.ofList_append, String.ofList_toList]
  exact ⟨_, rfl⟩

theorem Sleeps.message {t : Transcript} {sleeping : List Record}
    (h : Sleeps arguments fallback t sleeping) :
    ∀ record ∈ sleeping, ∃ rest, record.message = "Sleeping for " ++ rest := by
  rcases h with ⟨p, interval, wait, -, rfl, -⟩ | ⟨-, rfl, -⟩
  · exact List.forall_mem_singleton.2 (exists_message_announcement p interval wait)
  · exact nofun

/-- Before it is heard, a run reports its sleep between its beginning and its end. -/
theorem exists_sleeping (arguments : List String) (fallback : ℤ) :
    let t := reported arguments fallback
    ∃ sleeping, t.records = reports arguments sleeping t.result ∧
      Sleeps arguments fallback t sleeping ∧
      (t.result = .ok () → announces arguments = true) ∧
      ∀ code, t.result = .error (.exit code) →
        (code = 0 ∨ code = 2) ∧ t.printed = [] ∧ t.slept = [] := by
  intro t
  cases hcommand : Command.ofArguments arguments with
  | error stop =>
    have ht : t = _ := reported_of_stop hcommand
    rw [ht]
    refine ⟨[], rfl, ?_, nofun, ?_⟩
    · right
      refine ⟨?_, rfl, rfl⟩
      rintro ⟨p, interval, wait, c, hc, -⟩
      rw [hcommand] at hc
      cases hc
    · rintro code ⟨⟩
      exact ⟨Command.exit_code_of_ofArguments hcommand, rfl, rfl⟩
  | ok c =>
    have ht : t = _ := reported_of_command hcommand
    have hresult : t.result = (c.run fallback).result := by rw [ht]
    have hslept : t.slept = (c.run fallback).slept := by rw [ht]
    refine ⟨(c.run fallback).records, by rw [ht], ?_, ?_, ?_⟩
    · rw [Sleeps, hslept]
      by_cases hsleep : ∃ p interval wait, c.ComesToSleep fallback p interval wait
      · obtain ⟨p, interval, wait, hsleep⟩ := hsleep
        rw [Command.run_of_comesToSleep hsleep]
        exact Or.inl ⟨p, interval, wait, ⟨c, hcommand, hsleep⟩, rfl, rfl⟩
      · right
        refine ⟨?_, Command.run_of_not_comesToSleep hsleep⟩
        rintro ⟨p, interval, wait, d, hd, hcomes⟩
        obtain rfl := Except.ok.inj (hcommand.symm.trans hd)
        exact hsleep ⟨p, interval, wait, hcomes⟩
    · intro _
      exact Command.announces_of_ofArguments hcommand
    · -- once there is a command, a run does not leave with an exit code
      intro code hcode
      rw [hresult] at hcode
      exact absurd hcode (c.result_run_ne_exit fallback code)

end

/-- Where there is one handler at most, there is one after it is made sure that there is one. -/
theorem Logger.length_attached_installed {l : Logger} (h : l.attached.length ≤ 1) :
    l.installed.attached.length = 1 := by
  have hsome : l.installed.attached.length ≠ 0 :=
    fun hzero => l.attached_installed_ne_nil (List.length_eq_zero_iff.1 hzero)
  have hmost : l.installed.attached.length ≤ 1 := by
    rw [Logger.installed]
    split
    · exact Nat.le_refl 1
    · exact h
  omega

/-- One handler writes every record once. -/
theorem Logger.flatMap_installed {l : Logger} (h : l.attached.length ≤ 1) (records : List Record) :
    (records.flatMap fun record => l.installed.attached.map fun _ => record) = records := by
  obtain ⟨handler, hhandler⟩ := List.length_eq_one_iff.1 (length_attached_installed h)
  rw [hhandler]
  exact List.flatMap_singleton' records

/-- At `INFO` and `DEBUG` every handler writes the same trace of a run, whatever the logging was
before. "Running command" with the arguments comes first, exactly if there are arguments and neither
`-h` nor `--help` is among them; then "Sleeping for" at most once, exactly if the run comes to a
sleep; and last "Completed successfully." or "Failed on command" with the arguments, exactly if the
run succeeds or fails, and it ends as the tool does. A run that leaves with an exit code, which is 0
or 2, writes neither of the two, and has printed nothing and not slept; and a run that writes its
success has written its command before. -/
theorem trace_of_run {levelName : String} (hlevel : levelName = "INFO" ∨ levelName = "DEBUG")
    (arguments : List String) (fallback : ℤ) (logger : Logger) :
    let t := (run arguments levelName fallback logger).1
    let asked := arguments ≠ [] ∧ "-h" ∉ arguments ∧ "--help" ∉ arguments
    let begun : Record :=
      ⟨.commandLine, "Running command: fgjitter-tools " ++ " ".intercalate arguments⟩
    let succeeded : Record := ⟨.commandLine, "Completed successfully."⟩
    let broken : Record := ⟨.commandLine, "Failed on command: " ++ " ".intercalate arguments⟩
    ∃ trace sleeping : List Record,
      (t.records = trace.flatMap fun record => logger.installed.attached.map fun _ => record) ∧
      (logger.attached.length ≤ 1 → t.records = trace) ∧
      (trace = (if asked then [begun] else []) ++ sleeping ++
        match t.result with
        | .ok _ => [succeeded]
        | .error (.failure _) => [broken]
        | .error (.exit _) => []) ∧
      (trace.head? = some begun ↔ asked) ∧
      Sleeps arguments fallback t sleeping ∧
      (∀ report ∈ sleeping, report.channel = .pause ∧
        ∃ rest, report.message = "Sleeping for " ++ rest) ∧
      (trace.getLast? = some succeeded ↔ t.result = .ok ()) ∧
      (trace.getLast? = some broken ↔ ∃ failure, t.result = .error (.failure failure)) ∧
      t.result = (perform arguments fallback).result ∧
      (∀ code, t.result = .error (.exit code) →
        (code = 0 ∨ code = 2) ∧ succeeded ∉ trace ∧ broken ∉ trace ∧
          t.printed = [] ∧ t.slept = []) ∧
      (succeeded ∈ trace → ∃ between, trace = begun :: (between ++ [succeeded])) := by
  intro t asked begun succeeded broken
  obtain ⟨level, hknown⟩ : ∃ level, Level.ofName? levelName = some level := by
    rcases hlevel with rfl | rfl <;> exact ⟨_, rfl⟩
  have ht : t = (reported arguments fallback).heardBy (logger.installed.atLevel level) :=
    run_eq_of_level hknown arguments fallback logger
  have hrecords : t.records = (reported arguments fallback).records.flatMap fun record =>
      logger.installed.attached.map fun _ => record := by
    rw [ht, heardBy_atLevel _ _ hknown, if_pos hlevel.symm]
  have hresult : t.result = (reported arguments fallback).result := by
    rw [ht]
    rfl
  obtain ⟨sleeping, htrace, hsleeps, hok, hexit⟩ := exists_sleeping arguments fallback
  have hchannel := hsleeps.channel
  have hasked : announces arguments = true ↔ asked := by
    rw [announces_iff]
    simp [helpTexts, asked]
  -- the reports of the command line have these words
  have hbegun : begun = running arguments := rfl
  have hsucceeded : succeeded = completed := rfl
  have hbroken : broken = failed arguments := rfl
  rw [← hresult] at htrace hok hexit
  rw [hbegun, hsucceeded, hbroken]
  refine ⟨(reported arguments fallback).records, sleeping, hrecords,
    ?_, ?_, ?_, ?_, ?_, ?_, ?_, ?_, ?_, ?_⟩
  · exact fun hone => hrecords.trans (Logger.flatMap_installed hone _)
  · rw [htrace, reports]
    simp only [hasked]
    rcases t.result with (code | failure) | ok <;> rfl
  · rw [htrace, head?_reports hchannel, hasked]
  · rw [ht]
    exact hsleeps
  · exact fun report hreport => ⟨hchannel report hreport, hsleeps.message report hreport⟩
  · rw [htrace, getLast?_reports_completed hchannel]
  · rw [htrace, getLast?_reports_failed hchannel]
  · rw [hresult]
    rfl
  · intro code hcode
    obtain ⟨hcodes, hprinted, hslept⟩ := hexit code hcode
    rw [htrace, completed_mem_reports hchannel, failed_mem_reports hchannel, hcode]
    refine ⟨hcodes, nofun, ?_, ?_⟩
    · rintro ⟨failure, hfailure⟩
      cases hfailure
    · rw [ht]
      exact ⟨hprinted, hslept⟩
  · rw [htrace, completed_mem_reports hchannel]
    intro hdone
    rw [reports, if_pos (hok hdone), hdone]
    exact ⟨sleeping, rfl⟩

/-- At `DEBUG` a pause without jitter is reported from its beginning to its end. A call for help
under the beginning of its name is reported too, as no other spelling of it counts, but not its
success. -/
theorem trace_of_run_whole :
    let pause := ["sleep-with-jitter", "--span", "0"]
    let help := ["sleep-with-jitter", "--he"]
    (∃ between, (run pause "DEBUG" 0 {}).1.records =
      ⟨.commandLine, "Running command: fgjitter-tools sleep-with-jitter --span 0"⟩ ::
        (between ++ [⟨.commandLine, "Completed successfully."⟩])) ∧
      (run help "DEBUG" 0 {}).1.records.head? =
        some ⟨.commandLine, "Running command: fgjitter-tools sleep-with-jitter --he"⟩ ∧
      ⟨.commandLine, "Completed successfully."⟩ ∉ (run help "DEBUG" 0 {}).1.records := by
  intro pause help
  have hone : ({} : Logger).attached.length ≤ 1 := by decide
  obtain ⟨trace, -, -, htrace, -, -, -, -, hdone, -, -, -, hbetween⟩ :=
    trace_of_run (Or.inr rfl : "DEBUG" = "INFO" ∨ "DEBUG" = "DEBUG") pause 0 {}
  obtain ⟨shown, -, -, hshown, -, hhead, -, -, -, -, -, hexit, -⟩ :=
    trace_of_run (Or.inr rfl : "DEBUG" = "INFO" ∨ "DEBUG" = "DEBUG") help 0 {}
  obtain ⟨-, hsilent, -⟩ := hexit 0 (by decide +kernel)
  rw [htrace hone, hshown hone]
  refine ⟨hbetween ?_, hhead.2 (by decide), hsilent⟩
  exact List.mem_of_getLast? (hdone.2 (by decide +kernel))

end RandomDelay.CommandLine
