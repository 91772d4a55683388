import RandomDelay.Log

/-!
# Transcripts

What a run of a tool or of the whole program does to the outside: the lines it prints, the records
it offers to the logger, the seconds it sleeps, in order, and how it ends.
-/

set_option autoImplicit false

namespace RandomDelay

/-- Ends of a run other than the usual one: leaving with an exit code, or a failure. -/
inductive Stop where
  | exit (code : Nat)
  | failure (cause : Failure)
deriving DecidableEq

/-- Lines printed, records, sleeps in seconds, and the end of a run. -/
structure Transcript where
  printed : List (List Char) := []
  records : List Record := []
  slept : List Binary64 := []
  result : Except Stop Unit := .ok ()

namespace Transcript

/-- Run that stops before it has done anything. -/
def stopped (stop : Stop) : Transcript := { result := .error stop }

/-- Transcript with the records that a logger writes in place of those offered to it. -/
def heardBy (t : Transcript) (logger : Logger) : Transcript :=
  { t with records := t.records.flatMap logger.written }

/-- Everything printed, each line ended. -/
def output (t : Transcript) : String := String.ofList (t.printed.flatMap (· ++ ['\n']))

/-- Exit code of a run that leaves with one. -/
def exitCode? (t : Transcript) : Option Nat :=
  match t.result with
  | .error (.exit code) => some code
  | _ => none

end Transcript

end RandomDelay
