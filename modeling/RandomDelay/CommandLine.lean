import RandomDelay.CommandLine.Command

/-!
# The command line

A run of the program sets the log level, which may fail, and then runs the command that its
arguments name. It reports the command first, unless help is asked for by its full name or letter,
and it reports success or failure last; leaving with an exit code is neither. Arguments that ask for
help under another spelling are reported before the help is shown.
-/

set_option autoImplicit false

namespace RandomDelay.CommandLine

/-- A report of the command line. -/
def record (message : String) : Record := ⟨.commandLine, message⟩

/-- Arguments in a row. -/
def joined (arguments : List String) : String := " ".intercalate arguments

/-- Whether the command is reported before it is run. -/
def announces (arguments : List String) : Bool :=
  !arguments.isEmpty && !arguments.contains "-h" && !arguments.contains "--help"

/-- Report of a command before it is run. -/
def running (arguments : List String) : Record :=
  record ("Running command: fgjitter-tools " ++ joined arguments)

/-- Report of a command that came to its end. -/
def completed : Record := record "Completed successfully."

/-- Report of a command that failed. -/
def failed (arguments : List String) : Record := record ("Failed on command: " ++ joined arguments)

/-- Reports after a run, by its end. -/
def closing (arguments : List String) : Except Stop Unit → List Record
  | .ok _ => [completed]
  | .error (.failure _) => [failed arguments]
  | .error (.exit _) => []

/-- Run of the command that the arguments name, without the reports of the command line. -/
def perform (arguments : List String) (fallback : Int) : Transcript :=
  match Command.ofArguments arguments with
  | .ok command => command.run fallback
  | .error stop => .stopped stop

/-- Run of the command that the arguments name, with all reports. -/
def reported (arguments : List String) (fallback : Int) : Transcript :=
  let performed := perform arguments fallback
  { performed with
    records := (if announces arguments then [running arguments] else []) ++ performed.records ++
      closing arguments performed.result }

/-- Run of the program with a level name and the logger as it was before. `fallback` is the seed
where none was given. -/
def run (arguments : List String) (levelName : String) (fallback : Int) (logger : Logger) :
    Transcript × Logger :=
  match logger.configure levelName with
  | (.error failure, logger) => (.stopped (.failure failure), logger)
  | (.ok _, logger) => ((reported arguments fallback).heardBy logger, logger)

end RandomDelay.CommandLine
