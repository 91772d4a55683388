import RandomDelay.CommandLine
import RandomDelay.Proofs.CommandLine.Event
import RandomDelay.Proofs.Duration.Overflow
import RandomDelay.Proofs.Outcome

/-!
# Command lines that overflow

The first event that is refused ends a command line. Most refusals are a call for help or misuse,
but a duration that is too long is a failure of its own. A command line therefore overflows if that
is the first refusal among the events of the tool that it comes to (`Command.toolEvents`), and ends
with a command, help or misuse in every other case (`Command.ends_ofArguments`).

`overflow_iff_tooLong` joins this with the texts of durations: overflow comes out of both where a
written duration is too long, and nowhere else.
-/

set_option autoImplicit false

namespace RandomDelay.CommandLine

/-- Failure of a duration that is too long. -/
def overflowed : Stop := .failure (.arithmetic .overflow)

/-- Options that want a duration. -/
def Key.WantsDuration (key : Key) : Prop := key = .delay ∨ key = .lower ∨ key = .span

namespace Event

/-- Durations that are too long. -/
def TooLong : Event → Prop
  | .value key text => key.WantsDuration ∧ ∃ w, Written.ofText? text = some w ∧ w.TooLong
  | _ => False

/-- Why an event is refused, which does not depend on the settings before it. -/
def refusal? (e : Event) : Option Stop :=
  match Settings.take {} e with
  | .ok _ => none
  | .error stop => some stop

end Event

/-- Rows of events of which the first that is refused is a duration that is too long. -/
def Overflows (events : List Event) : Prop :=
  ∃ before e after, events = before ++ e :: after ∧ (∀ b ∈ before, b.refusal? = none) ∧ e.TooLong

/-- Ends of what is computed from events: overflow where they overflow, and a result, help or misuse
where they do not. -/
def Ends {α : Type} (events : List Event) (result : Except Stop α) : Prop :=
  (Overflows events → result = .error overflowed) ∧
    (¬ Overflows events →
      (∃ a, result = .ok a) ∨ result = .error helpShown ∨ result = .error misused)

/-! ## Single events -/

namespace Settings

theorem duration_cases (text : List Char) :
    ((∃ w, Written.ofText? text = some w ∧ w.TooLong) ∧ duration text = .error overflowed) ∨
      ((¬ ∃ w, Written.ofText? text = some w ∧ w.TooLong) ∧
        ((∃ given, duration text = .ok given) ∨ duration text = .error misused)) := by
  by_cases hdivider : text = dividerText
  · -- the divider leaves the option blank, and is no written duration either
    right
    constructor
    · rintro ⟨w, hw, -⟩
      rw [hdivider] at hw
      cases hw
    · exact Or.inl ⟨.blank, if_pos hdivider⟩
  · have hcases := Duration.ofText_cases (String.ofList text)
    rw [String.toList_ofList] at hcases
    rw [duration, if_neg hdivider]
    rcases hcases with ⟨w, d, hw, hlong, hd⟩ | ⟨w, hw, hlong, hd⟩ | ⟨hw, hd⟩
    · right
      constructor
      · rintro ⟨v, hv, hvlong⟩
        obtain rfl := Option.some.inj (hw.symm.trans hv)
        exact hlong hvlong
      · rw [hd]
        exact Or.inl ⟨_, rfl⟩
    · left
      rw [hd]
      exact ⟨⟨w, hw, hlong⟩, rfl⟩
    · right
      constructor
      · rintro ⟨v, hv, -⟩
        rw [hw] at hv
        cases hv
      · rw [hd]
        exact Or.inr rfl

theorem integer_cases (text : List Char) :
    (∃ given, integer text = .ok given) ∨ integer text = .error misused := by
  rw [integer]
  split
  · exact Or.inl ⟨_, rfl⟩
  · split
    · exact Or.inl ⟨_, rfl⟩
    · exact Or.inr rfl

end Settings

namespace Event

/-- Settings refuse the same events whatever they are. -/
theorem take_eq_error_iff (s : Settings) (e : Event) (stop : Stop) :
    s.take e = .error stop ↔ e.refusal? = some stop := by
  cases e with
  | flag key => cases key <;> simp [refusal?, Settings.take]
  | surplus => simp [refusal?, Settings.take]
  | unusable => simp [refusal?, Settings.take]
  | value key text =>
    cases hduration : Settings.duration text <;> cases hinteger : Settings.integer text <;>
      cases key <;> simp [refusal?, Settings.take, hduration, hinteger, bind, Except.bind, pure,
        Except.pure]

/-- An option that wants a duration refuses what is none. -/
theorem refusal?_of_wantsDuration {key : Key} (hkey : key.WantsDuration) (text : List Char) :
    refusal? (.value key text) =
      match Settings.duration text with
      | .ok _ => none
      | .error stop => some stop := by
  rcases hkey with rfl | rfl | rfl <;> rw [refusal?, Settings.take] <;>
    cases Settings.duration text <;> rfl

theorem refusal?_cases_of_not_wantsDuration {key : Key} (hkey : ¬ key.WantsDuration)
    (text : List Char) :
    refusal? (.value key text) = none ∨ refusal? (.value key text) = some misused := by
  rcases Settings.integer_cases text with ⟨given, hgiven⟩ | hmisused
  · cases key <;> simp [refusal?, Settings.take, hgiven, Key.WantsDuration, bind, Except.bind, pure,
      Except.pure] at hkey ⊢
  · cases key <;> simp [refusal?, Settings.take, hmisused, Key.WantsDuration, bind, Except.bind]
      at hkey ⊢

theorem refusal?_cases (e : Event) :
    (e.TooLong ∧ e.refusal? = some overflowed) ∨
      (¬ e.TooLong ∧
        (e.refusal? = none ∨ e.refusal? = some helpShown ∨ e.refusal? = some misused)) := by
  cases e with
  | flag key => cases key <;> simp [refusal?, Settings.take, TooLong]
  | surplus => simp [refusal?, Settings.take, TooLong]
  | unusable => simp [refusal?, Settings.take, TooLong]
  | value key text =>
    by_cases hkey : key.WantsDuration
    · rw [refusal?_of_wantsDuration hkey]
      rcases Settings.duration_cases text with ⟨hlong, hoverflow⟩ | ⟨hlong, hother⟩
      · left
        rw [hoverflow]
        exact ⟨⟨hkey, hlong⟩, rfl⟩
      · right
        constructor
        · intro h
          exact hlong h.2
        · rcases hother with ⟨given, hgiven⟩ | hmisused
          · rw [hgiven]
            exact Or.inl rfl
          · rw [hmisused]
            exact Or.inr (Or.inr rfl)
    · right
      constructor
      · intro h
        exact hkey h.1
      · rcases refusal?_cases_of_not_wantsDuration hkey text with hnone | hmisused
        · exact Or.inl hnone
        · exact Or.inr (Or.inr hmisused)

end Event

/-! ## Rows of events -/

theorem overflows_iff_findSome? {events : List Event} :
    Overflows events ↔ events.findSome? Event.refusal? = some overflowed := by
  rw [List.findSome?_eq_some_iff, Overflows]
  constructor
  · rintro ⟨before, e, after, heq, hbefore, hlong⟩
    rcases e.refusal?_cases with ⟨-, hrefusal⟩ | ⟨hnot, -⟩
    · exact ⟨before, e, after, heq, hrefusal, hbefore⟩
    · exact absurd hlong hnot
  · rintro ⟨before, e, after, heq, hrefusal, hbefore⟩
    rcases e.refusal?_cases with ⟨hlong, -⟩ | ⟨-, hnone | hhelp | hmisused⟩
    · exact ⟨before, e, after, heq, hbefore, hlong⟩
    · rw [hnone] at hrefusal
      cases hrefusal
    · rw [hhelp] at hrefusal
      cases hrefusal
    · rw [hmisused] at hrefusal
      cases hrefusal

theorem not_overflows_nil : ¬ Overflows [] := by
  rw [overflows_iff_findSome?]
  intro h
  cases h

/-- A row of events ends with its first refusal, or is misuse because of what is left over. -/
theorem ends_ofEvents (events : List Event) : Ends events (Settings.ofEvents events) := by
  have hfold := Outcome.foldlM_eq_error_iff Event.take_eq_error_iff events {}
  rw [Ends, overflows_iff_findSome?, Settings.ofEvents]
  cases hresult : events.foldlM Settings.take ({} : Settings) with
  | ok settings =>
    constructor
    · intro h
      rw [← hfold, hresult] at h
      cases h
    · intro h
      -- every event was taken, and only words left over are misuse now
      cases hsurplus : events.contains .surplus with
      | true => exact Or.inr (Or.inr rfl)
      | false => exact Or.inl ⟨settings, rfl⟩
  | error stop =>
    have hstop := (hfold stop).1 hresult
    constructor
    · intro h
      obtain rfl := Option.some.inj (hstop.symm.trans h)
      rfl
    · intro h
      right
      obtain ⟨e, -, he⟩ := List.exists_of_findSome?_eq_some hstop
      rcases e.refusal?_cases with ⟨-, hrefusal⟩ | ⟨-, hnone | hhelp | hmisused⟩
      · obtain rfl := Option.some.inj (he.symm.trans hrefusal)
        exact absurd hstop h
      · rw [hnone] at he
        cases he
      · obtain rfl := Option.some.inj (he.symm.trans hhelp)
        exact Or.inl rfl
      · obtain rfl := Option.some.inj (he.symm.trans hmisused)
        exact Or.inr rfl

namespace Ends

variable {α β : Type} {events : List Event}

theorem misused_of_not_overflows (h : ¬ Overflows events) :
    Ends events (.error misused : Except Stop α) :=
  ⟨fun hover => absurd hover h, fun _ => Or.inr (Or.inr rfl)⟩

/-- Events without overflow may be told in place of others without. -/
theorem of_not_overflows {others : List Event} {result : Except Stop α} (h : Ends others result)
    (hothers : ¬ Overflows others) (hnot : ¬ Overflows events) : Ends events result :=
  ⟨fun hover => absurd hover hnot, fun _ => h.2 hothers⟩

/-- A further step that does not overflow leaves the end as it is. -/
theorem bind {result : Except Stop α} (h : Ends events result) {next : α → Except Stop β}
    (hnext : ∀ a, (∃ b, next a = .ok b) ∨ next a = .error helpShown ∨ next a = .error misused) :
    Ends events (result >>= next) := by
  constructor
  · intro hover
    rw [h.1 hover]
    rfl
  · intro hnot
    rcases h.2 hnot with ⟨a, rfl⟩ | rfl | rfl
    · exact hnext a
    · exact Or.inr (Or.inl rfl)
    · exact Or.inr (Or.inr rfl)

end Ends

/-! ## Command lines -/

namespace Command

/-- Events of the tool that a row of arguments comes to; none if it comes to no tool, or to words
that may mean several options. -/
def toolEvents : List String → List Event
  | [] => []
  | argument :: rest =>
    if argument.toList = dividerText then []
    else
      match Word.ofText? [.help] argument.toList with
      | some (.plain _) =>
        match Tool.ofWord? argument with
        | some tool =>
          match Word.ofTexts? tool.switches (rest.map String.toList) with
          | some words => Event.ofWords tool.switches words
          | none => []
        | none => []
      | some .unknown => toolEvents rest
      | _ => []

/-- Options before the tool want no duration. -/
theorem not_overflows_of_help {word : Word} (h : word.IsAmong [.help]) :
    ¬ Overflows (Event.ofWords [.help] [word]) := by
  have hamong := Event.isAmong_of_mem_ofWords (List.forall_mem_singleton.2 h)
  rintro ⟨before, e, after, heq, -, hlong⟩
  have he : e ∈ Event.ofWords [.help] [word] := by
    rw [heq]
    simp
  cases e with
  | value key text =>
    obtain ⟨s, hs, hvalue, -⟩ := hamong _ he
    obtain rfl := List.mem_singleton.1 hs
    cases hvalue
  | flag key => exact hlong
  | surplus => exact hlong
  | unusable => exact hlong

theorem ends_of_help {word : Word} (h : word.IsAmong [.help]) :
    Ends [] (Settings.ofEvents (Event.ofWords [.help] [word]) >>= fun _ =>
      (.error misused : Except Stop Command)) := by
  have hmisused : Ends (Event.ofWords [.help] [word])
      (Settings.ofEvents (Event.ofWords [.help] [word]) >>= fun _ =>
        (.error misused : Except Stop Command)) := by
    apply (ends_ofEvents _).bind
    intro settings
    exact Or.inr (Or.inr rfl)
  exact hmisused.of_not_overflows (not_overflows_of_help h) not_overflows_nil

theorem ends_ofToolArguments (tool : Tool) (arguments : List String) :
    Ends (match Word.ofTexts? tool.switches (arguments.map String.toList) with
      | some words => Event.ofWords tool.switches words
      | none => []) (ofToolArguments tool arguments) := by
  rw [ofToolArguments]
  cases Word.ofTexts? tool.switches (arguments.map String.toList) with
  | none => exact Ends.misused_of_not_overflows not_overflows_nil
  | some words =>
    apply (ends_ofEvents _).bind
    intro settings
    exact Or.inl ⟨_, rfl⟩

/-- A command line ends the way the events of its tool do. -/
theorem ends_ofArguments (arguments : List String) :
    Ends (toolEvents arguments) (ofArguments arguments) := by
  induction arguments with
  | nil => exact Ends.misused_of_not_overflows not_overflows_nil
  | cons argument rest ih =>
    rw [ofArguments, toolEvents]
    split
    · exact Ends.misused_of_not_overflows not_overflows_nil
    · cases hword : Word.ofText? [.help] argument.toList with
      | none => exact Ends.misused_of_not_overflows not_overflows_nil
      | some word =>
        cases word with
        | plain text =>
          cases Tool.ofWord? argument with
          | none => exact Ends.misused_of_not_overflows not_overflows_nil
          | some tool => exact ends_ofToolArguments tool rest
        | unknown =>
          -- the misuse comes after everything that follows is read
          apply ih.bind
          intro command
          exact Or.inr (Or.inr rfl)
        | divider => exact ends_of_help trivial
        | option s byLetter attached => exact ends_of_help (Word.isAmong_of_ofText? hword)

end Command

/-! ## Runs -/

section

variable {levelName : String} {level : Level}

theorem run_eq_of_level (h : Level.ofName? levelName = some level) (arguments : List String)
    (fallback : Int) (logger : Logger) :
    (run arguments levelName fallback logger).1 =
      (reported arguments fallback).heardBy (logger.installed.atLevel level) := by
  rw [run, Logger.configure_of_level h]

/-- A run that overflows has not done anything else. -/
theorem run_of_overflows {arguments : List String} (h : Level.ofName? levelName = some level)
    (hover : Overflows (Command.toolEvents arguments)) (fallback : Int) (logger : Logger) :
    (run arguments levelName fallback logger).1.result = .error overflowed ∧
      (run arguments levelName fallback logger).1.printed = [] ∧
      (run arguments levelName fallback logger).1.slept = [] := by
  have hperform : perform arguments fallback = .stopped overflowed := by
    rw [perform, (Command.ends_ofArguments arguments).1 hover]
  rw [run_eq_of_level h, reported, hperform]
  exact ⟨rfl, rfl, rfl⟩

theorem run_of_not_overflows {arguments : List String} (h : Level.ofName? levelName = some level)
    (hnot : ¬ Overflows (Command.toolEvents arguments)) (fallback : Int) (logger : Logger) :
    (∃ command, Command.ofArguments arguments = .ok command ∧
      (run arguments levelName fallback logger).1.result = (command.run fallback).result) ∨
      (run arguments levelName fallback logger).1.result = .error helpShown ∨
      (run arguments levelName fallback logger).1.result = .error misused := by
  have hresult : (run arguments levelName fallback logger).1.result =
      (perform arguments fallback).result := by
    rw [run_eq_of_level h]
    rfl
  rw [hresult, perform]
  rcases (Command.ends_ofArguments arguments).2 hnot with ⟨command, hok⟩ | hhelp | hmisused
  · rw [hok]
    exact Or.inl ⟨command, rfl, rfl⟩
  · rw [hhelp]
    exact Or.inr (Or.inl rfl)
  · rw [hmisused]
    exact Or.inr (Or.inr rfl)

end

/-- Texts of durations and command lines overflow where a written duration is too long, and have a
result, or are refused with their text or an exit code, where none is. -/
theorem overflow_iff_tooLong (text : String) (arguments : List String) (levelName : String)
    (fallback : Int) (logger : Logger) :
    ((Duration.ofText text = .error (.arithmetic .overflow) ↔
        ∃ w, Written.ofText? text.toList = some w ∧ w.TooLong) ∧
      (Duration.ofText text ≠ .error (.arithmetic .overflow) →
        (∃ d, Duration.ofText text = .ok d) ∨
          Duration.ofText text = .error (.malformedDuration text))) ∧
    ∀ level, Level.ofName? levelName = some level →
      (Overflows (Command.toolEvents arguments) →
        (run arguments levelName fallback logger).1.result = .error overflowed ∧
          (run arguments levelName fallback logger).1.printed = [] ∧
          (run arguments levelName fallback logger).1.slept = []) ∧
      (¬ Overflows (Command.toolEvents arguments) →
        (∃ command, Command.ofArguments arguments = .ok command ∧
          (run arguments levelName fallback logger).1.result = (command.run fallback).result) ∨
          (run arguments levelName fallback logger).1.result = .error helpShown ∨
          (run arguments levelName fallback logger).1.result = .error misused) := by
  constructor
  · constructor
    · exact Duration.ofText_eq_overflow_iff
    · intro hne
      rcases Duration.ofText_cases text with ⟨w, d, -, -, hd⟩ | ⟨w, -, -, hover⟩ | ⟨-, hmalformed⟩
      · exact Or.inl ⟨d, hd⟩
      · exact absurd hover hne
      · exact Or.inr hmalformed
  · intro level hlevel
    constructor
    · intro hover
      exact run_of_overflows hlevel hover fallback logger
    · intro hnot
      exact run_of_not_overflows hlevel hnot fallback logger

/-- A delay of almost 10 ^ 11 hours overflows, by itself and as an option. -/
theorem overflow_iff_tooLong_hours :
    Duration.ofText "99999999999h" = .error (.arithmetic .overflow) ∧
      (run ["sleep-with-jitter", "--delay", "99999999999h"] "INFO" 0 {}).1.result =
        .error overflowed := by
  have hread : Written.ofText? "99999999999h".toList = some ⟨⟨99999999999, 0⟩, .hour⟩ := by decide
  have hlong : Written.TooLong ⟨⟨99999999999, 0⟩, .hour⟩ := by decide +kernel
  have hover : Overflows (Command.toolEvents ["sleep-with-jitter", "--delay", "99999999999h"]) := by
    refine ⟨[], .value .delay "99999999999h".toList, [], by decide +kernel, nofun, ?_⟩
    exact ⟨Or.inl rfl, _, hread, hlong⟩
  obtain ⟨⟨htext, -⟩, hrun⟩ := overflow_iff_tooLong "99999999999h"
    ["sleep-with-jitter", "--delay", "99999999999h"] "INFO" 0 {}
  obtain ⟨hresult, -, -⟩ := (hrun Level.info rfl).1 hover
  exact ⟨htext.2 ⟨_, hread, hlong⟩, hresult⟩

end RandomDelay.CommandLine
