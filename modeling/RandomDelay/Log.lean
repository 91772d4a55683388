import RandomDelay.Failure

/-!
# Logging

The tools report what they do in records of the level `INFO`. A logger has a level of its own and
handlers with levels of theirs; a handler writes the record if neither its level nor the logger's is
above the record's. A logger that was never given a level takes the one of its surroundings,
`WARNING`. Handlers are numbered as they are made, so that one handler can be told from another of
its level.

`Logger.configure` sets all levels by name. The first call installs a handler, before the name is
looked at, so a name without a level leaves a new handler behind and the levels as they were.
-/

set_option autoImplicit false

namespace RandomDelay

/-- Levels of logging, as numbers. -/
abbrev Level := Nat

namespace Level

/-- Level of the records of the tools. -/
def info : Level := 20

/-- Level that stands for none, with which loggers and handlers begin. -/
def unset : Level := 0

/-- Level that a logger without one takes from its surroundings. -/
def surrounding : Level := 30

/-- Level with the given name. Upper and lower case differ. -/
def ofName? : String → Option Level
  | "CRITICAL" => some 50
  | "FATAL" => some 50
  | "ERROR" => some 40
  | "WARNING" => some 30
  | "WARN" => some 30
  | "INFO" => some info
  | "DEBUG" => some 10
  | "NOTSET" => some unset
  | _ => none

end Level

/-- Parts of the program that write records. -/
inductive Channel where
  | commandLine
  | pause
deriving DecidableEq

/-- Names under which a part of the program writes: its own, and the one of the action in it. -/
def Channel.names : Channel → String × String
  | .commandLine => ("pyfgjitter.__main__", "main")
  | .pause => ("pyfgjitter.jitter.tools", "sleep_with_jitter")

/-- A report of the level `INFO`. -/
structure Record where
  channel : Channel
  message : String
deriving DecidableEq

/-- Line that a handler writes for a record, with the time, the host and the line number to show. -/
def Record.line (r : Record) (time host number : String) : String :=
  let (name, action) := r.channel.names
  time ++ " " ++ host ++ " " ++ name ++ ":" ++ action ++ ":" ++ number ++ " [INFO]: " ++ r.message

/-- A handler: its number in the order of making, and its level. -/
structure Handler where
  number : Nat
  level : Level
deriving DecidableEq

/-- A logger: its level, its handlers, and how many handlers have been made for it. -/
structure Logger where
  level : Level := .unset
  attached : List Handler := []
  made : Nat := 0
deriving DecidableEq

namespace Logger

/-- Levels of the handlers. -/
def handlers (l : Logger) : List Level := l.attached.map Handler.level

/-- Level from which on a logger passes records to its handlers. -/
def threshold (l : Logger) : Level := if l.level = .unset then .surrounding else l.level

/-- Handlers that write a record of the level `INFO`. -/
def writers (l : Logger) : List Handler :=
  if l.threshold ≤ .info then l.attached.filter (·.level ≤ .info) else []

/-- Copies of a record that are written, one for every handler that writes. -/
def written (l : Logger) (record : Record) : List Record := l.writers.map fun _ => record

/-- Logger with a new handler if it had none. -/
def installed (l : Logger) : Logger :=
  if l.attached.isEmpty then { l with attached := [⟨l.made, .unset⟩], made := l.made + 1 } else l

/-- Logger with all levels set to the given one. -/
def atLevel (l : Logger) (level : Level) : Logger :=
  { l with level, attached := l.attached.map fun h => { h with level } }

/-- Set the levels of the logger and of its handlers to the one with the given name, after
installing a handler if there is none. -/
def configure (l : Logger) (name : String) : Except Failure Unit × Logger :=
  match Level.ofName? name with
  | some level => (.ok (), l.installed.atLevel level)
  | none => (.error (.unknownLevel name), l.installed)

theorem attached_installed_ne_nil (l : Logger) : l.installed.attached ≠ [] := by
  unfold installed
  split <;> simp_all

theorem configure_of_level {l : Logger} {name : String} {level : Level}
    (h : Level.ofName? name = some level) :
    l.configure name = (.ok (), l.installed.atLevel level) := by
  simp only [configure, h]

theorem configure_of_no_level {l : Logger} {name : String} (h : Level.ofName? name = none) :
    l.configure name = (.error (.unknownLevel name), l.installed) := by
  simp only [configure, h]

end Logger

/-- Name of the level at which the program logs unless told otherwise. -/
def defaultLevelName : String := "INFO"

end RandomDelay
