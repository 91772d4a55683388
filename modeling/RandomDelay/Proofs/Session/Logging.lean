import RandomDelay.Proofs.Log
import RandomDelay.Session

/-!
# Logging in the course of a session

Only two kinds of steps reach the logger, the ones that configure it and the runs of the program,
and to the logger both are no more than a level name (`Step.levelName?`). The logger after a session
is therefore the one configured by these names in turn (`Session.logger_run`), and what is known of
rows of configurations holds of every session:

* one handler at most, which stays the same, at the level of the logger, the last one that was
known; every record of a step is written once or, by this level, not at all (`logging_of_session`);
* a name that is not known changes nothing, except that the first call of all leaves a handler
behind (`unknown_level_of_session`).
-/

set_option autoImplicit false

namespace RandomDelay

namespace Step

/-- Level name by which a step configures the logger, if it does. -/
def levelName? : Step → Option String
  | .commandLine _ levelName => some levelName
  | .configure levelName => some levelName
  | _ => none

/-- Records that a step offers to the logger: those of the tools, and those of a run of the program
that knows its level name. -/
def offered (fallback : Int) : Step → List Record
  | .sampling s => (s.run fallback).records
  | .pause p => (p.run fallback).records
  | .commandLine arguments levelName =>
    if (Level.ofName? levelName).isSome then
      (CommandLine.reported arguments fallback).records
    else []
  | _ => []

end Step

/-- Records that were written in a step. -/
def Reply.written : Reply → List Record
  | .transcript t => t.records
  | _ => []

/-- World in which logging has not been set up. -/
def World.unlogged (w : World) : World := { w with logger := {} }

/-! ## The logger after a session -/

theorem World.logger_drawing {α : Type} (w : World) (choice : SourceChoice)
    (draw : Source → Drawn α) : (w.drawing choice draw).2.logger = w.logger := by
  cases choice with
  | ambient => rfl
  | new form =>
    rw [drawing]
    cases form.source <;> rfl
  | named name =>
    rw [drawing]
    cases w.named.lookup name <;> rfl

/-- A run of the program leaves the logger as its level name does. -/
theorem CommandLine.logger_run (arguments : List String) (levelName : String) (fallback : Int)
    (logger : Logger) :
    (CommandLine.run arguments levelName fallback logger).2 = (logger.configure levelName).2 := by
  cases hlevel : Level.ofName? levelName with
  | none => rw [CommandLine.run, Logger.configure_of_no_level hlevel]
  | some level => rw [CommandLine.run, Logger.configure_of_level hlevel]

theorem Step.logger_run (w : World) (step : Step) :
    (step.run w).2.logger = w.logger.configured step.levelName?.toList := by
  cases step with
  | draw request choice count =>
    rw [Step.run]
    cases request.computation with
    | error failure => rfl
    | ok computation => exact w.logger_drawing choice _
  | commandLine arguments levelName =>
    exact CommandLine.logger_run arguments levelName w.fallback w.logger
  | configure levelName => rfl
  | _ => rfl

namespace Session

/-- To the logger a session is the row of its level names. -/
theorem logger_run (w : World) (steps : List Step) :
    (run w steps).2.logger = w.logger.configured (steps.filterMap Step.levelName?) := by
  induction steps generalizing w with
  | nil => rfl
  | cons step rest ih =>
    have hrest : (run w (step :: rest)).2.logger =
        (step.run w).2.logger.configured (rest.filterMap Step.levelName?) := ih (step.run w).2
    rw [hrest, step.logger_run, ← Logger.configured_append]
    cases hname : step.levelName? with
    | none => rw [List.filterMap_cons_none hname, Option.toList_none, List.nil_append]
    | some name => rw [List.filterMap_cons_some hname, Option.toList_some, List.singleton_append]

/-- Logger of a session that began without logging. -/
theorem logger_run_unlogged (w : World) (steps : List Step) :
    (run w.unlogged steps).2.logger = Logger.configured {} (steps.filterMap Step.levelName?) :=
  logger_run w.unlogged steps

end Session

/-! ## What is written -/

/-- A logger hears a run whole or not at all. -/
theorem Transcript.records_heardBy_configured (t : Transcript) (names : List String) :
    (t.heardBy (.configured {} names)).records =
      if (Logger.configured {} names).Heeds then t.records else [] := by
  show t.records.flatMap (Logger.configured {} names).written = _
  by_cases hheeds : (Logger.configured {} names).Heeds
  · have honce : (Logger.configured {} names).written = fun record => [record] := by
      funext record
      rw [Logger.written_configured_fresh, if_pos hheeds]
    rw [if_pos hheeds, honce, List.flatMap_singleton']
  · rw [if_neg hheeds, List.flatMap_eq_nil_iff]
    intro record _
    rw [Logger.written_configured_fresh, if_neg hheeds]

/-- The logger has a say in the records of a run, and in nothing else. -/
theorem Transcript.heardBy_configured (t : Transcript) (names : List String) :
    t.heardBy (.configured {} names) =
      { t with records := if (Logger.configured {} names).Heeds then t.records else [] } := by
  rw [← t.records_heardBy_configured names]
  rfl

/-- What a run of the program offers is heard by the logger as the run leaves it. -/
theorem CommandLine.records_run (arguments : List String) (levelName : String) (fallback : Int)
    (names : List String) :
    (CommandLine.run arguments levelName fallback (.configured {} names)).1.records =
      if ((Logger.configured {} names).configure levelName).2.Heeds then
        (Step.commandLine arguments levelName).offered fallback
      else [] := by
  cases hlevel : Level.ofName? levelName with
  | none =>
    -- the run is over before it reports anything
    have hoffered : (Step.commandLine arguments levelName).offered fallback = [] := by
      rw [Step.offered, hlevel]
      rfl
    rw [CommandLine.run, Logger.configure_of_no_level hlevel, hoffered, ite_self]
    rfl
  | some level =>
    have hoffered : (Step.commandLine arguments levelName).offered fallback =
        (CommandLine.reported arguments fallback).records := by
      rw [Step.offered, hlevel]
      rfl
    have hlogger : ((Logger.configured {} names).configure levelName).2 =
        Logger.configured {} (names ++ [levelName]) := by
      rw [Logger.configured_append]
      rfl
    rw [hlogger, hoffered, ← Transcript.records_heardBy_configured, ← hlogger, CommandLine.run,
      Logger.configure_of_level hlevel]

theorem Reply.written_ofExcept {α : Type} {reply : α → Reply} (h : ∀ a, (reply a).written = [])
    (result : Except Failure α) : (Reply.ofExcept reply result).written = [] := by
  cases result with
  | error failure => rfl
  | ok a => exact h a

/-- Steps that offer nothing, and do not reply with a transcript, write nothing. -/
theorem Step.written_run_of_silent {w : World} {step : Step} (hreply : (step.run w).1.written = [])
    (hoffered : step.offered w.fallback = []) :
    (step.run w).1.written =
      if (step.run w).2.logger.Heeds then step.offered w.fallback else [] := by
  rw [hreply, hoffered, ite_self]

theorem Step.written_run {w : World} {names : List String} (h : w.logger = .configured {} names)
    (step : Step) :
    (step.run w).1.written =
      if (step.run w).2.logger.Heeds then step.offered w.fallback else [] := by
  cases step with
  | sampling s =>
    show ((s.run w.fallback).heardBy w.logger).records = if w.logger.Heeds then _ else []
    rw [h]
    exact Transcript.records_heardBy_configured _ names
  | pause p =>
    show ((p.run w.fallback).heardBy w.logger).records = if w.logger.Heeds then _ else []
    rw [h]
    exact Transcript.records_heardBy_configured _ names
  | commandLine arguments levelName =>
    -- it sets up the logger itself, and reports to what it has set up
    rw [Step.logger_run]
    show (CommandLine.run arguments levelName w.fallback w.logger).1.records =
      if (w.logger.configure levelName).2.Heeds then _ else []
    rw [h]
    exact CommandLine.records_run arguments levelName w.fallback names
  | draw request choice count =>
    apply written_run_of_silent
    · rw [Step.run]
      cases request.computation with
      | error failure => rfl
      | ok computation => exact Reply.written_ofExcept (fun _ => rfl) _
    · rfl
  | readDuration text => exact written_run_of_silent (Reply.written_ofExcept (fun _ => rfl) _) rfl
  | describe form => exact written_run_of_silent (Reply.written_ofExcept (fun _ => rfl) _) rfl
  | compare a b => exact written_run_of_silent (Reply.written_ofExcept (fun _ => rfl) _) rfl
  | assign form => exact written_run_of_silent (Reply.written_ofExcept (fun _ => rfl) _) rfl
  | _ => exact written_run_of_silent rfl rfl

/-! ## Sessions -/

/-- In a session that begins without logging there is at most one handler, and it stays the same
handler through all later steps; logger and handler are at the level of the last known name; and the
records that a further step offers are each written once or, where the logger does not heed them,
not at all. -/
theorem logging_of_session (w : World) (earlier later : List Step) (step : Step) :
    let before := (Session.run w.unlogged earlier).2
    let after := (Session.run w.unlogged (earlier ++ later)).2
    let level := Level.lastKnown ((earlier ++ later).filterMap Step.levelName?)
    after.logger.attached.length ≤ 1 ∧
      before.logger.attached.map Handler.number <+: after.logger.attached.map Handler.number ∧
      (after.logger.level = level ∧ ∀ handler ∈ after.logger.attached, handler.level = level) ∧
      (step.run after).1.written =
        if (step.run after).2.logger.Heeds then step.offered after.fallback else [] := by
  intro before after level
  have hafter : after.logger = _ := Session.logger_run_unlogged w (earlier ++ later)
  have hbefore : before.logger = _ := Session.logger_run_unlogged w earlier
  refine ⟨?_, ?_, ?_, Step.written_run hafter step⟩
  · rw [hafter]
    exact Logger.length_attached_configured_fresh _
  · rw [hafter, hbefore, List.filterMap_append]
    exact Logger.isPrefix_numbers_configured _ _
  · rw [hafter]
    exact Logger.levels_configured_fresh _

/-- After a refused level name and `DEBUG` there is one handler, which writes the report of a
sleep. -/
theorem logging_of_session_debug :
    let start : World := { ambient := .ofSeed 0, named := [], logger := {}, fallback := 0 }
    let after := (Session.run start.unlogged ([.configure "LOUD"] ++ [.configure "DEBUG"])).2
    let step := Step.pause { span := .zero }
    after.logger.attached.map Handler.level = [10] ∧
      (step.run after).1.written = step.offered after.fallback := by
  intro start after step
  obtain ⟨-, -, -, hwritten⟩ :=
    logging_of_session start [.configure "LOUD"] [.configure "DEBUG"] step
  exact ⟨by decide, hwritten.trans (if_pos (by decide))⟩

/-- A level name that is not known is refused, by the logger and by the program, and leaves
everything as it was, unless it is the first one of the session: then a handler without a level is
left behind. -/
theorem unknown_level_of_session (w : World) (steps : List Step) {name : String}
    (h : Level.ofName? name = none) :
    let logger := (Session.run w.unlogged steps).2.logger
    (logger.configure name).1 = .error (.unknownLevel name) ∧
      (steps.filterMap Step.levelName? ≠ [] → (logger.configure name).2 = logger) ∧
      (steps.filterMap Step.levelName? = [] → logger = {} ∧
        (logger.configure name).2 = { logger with attached := [⟨0, .unset⟩], made := 1 }) ∧
      ∀ arguments fallback, CommandLine.run arguments name fallback logger =
        (.stopped (.failure (.unknownLevel name)), (logger.configure name).2) := by
  intro logger
  have hlogger : logger = _ := Session.logger_run_unlogged w steps
  rw [Logger.configure_of_no_level h]
  refine ⟨rfl, ?_, ?_, ?_⟩
  · intro hne
    rw [hlogger, Logger.configured_fresh, if_neg hne]
    exact Logger.installed_withHandler _
  · intro hnil
    rw [hlogger, hnil]
    exact ⟨rfl, rfl⟩
  · intro arguments fallback
    rw [CommandLine.run, Logger.configure_of_no_level h]

/-- After `INFO` an unknown name changes nothing. -/
theorem unknown_level_of_session_info :
    let start : World := { ambient := .ofSeed 0, named := [], logger := {}, fallback := 0 }
    let logger := (Session.run start.unlogged [.configure "INFO"]).2.logger
    Level.ofName? "LOUD" = none ∧ (logger.configure "LOUD").2 = logger := by
  intro start logger
  have hunknown : Level.ofName? "LOUD" = none := by decide
  obtain ⟨-, hlater, -⟩ := unknown_level_of_session start [.configure "INFO"] hunknown
  exact ⟨hunknown, hlater (by decide)⟩

/-- The first call of all is not undone: an unknown name leaves a handler where there was none. -/
theorem handler_left_by_unknown_level :
    Level.ofName? "LOUD" = none ∧
      ({} : Logger).configure "LOUD" =
        (.error (.unknownLevel "LOUD"), { attached := [⟨0, .unset⟩], made := 1 }) ∧
      (({} : Logger).configure "LOUD").2.attached ≠ ({} : Logger).attached := by
  refine ⟨by decide, by decide, ?_⟩
  decide

end RandomDelay
