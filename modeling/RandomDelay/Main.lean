import RandomDelay.CommandLine

/-!
# The program

Carries out on the terminal what the transcript of a run says: prints its lines, writes its records
to standard error with the time since the start and the name of the host, sleeps, and ends with the
exit code.
-/

set_option autoImplicit false

namespace RandomDelay

/-- Seed from the random bytes of the operating system. -/
def freshSeed : IO Int := do
  let bytes ← IO.getRandomBytes 32
  return bytes.toList.foldl (fun n byte => 256 * n + byte.toNat) (0 : Nat)

/-- Write records with the time in milliseconds. -/
def writeRecords (host : String) (records : List Record) : IO Unit := do
  for record in records do
    IO.eprintln (record.line (toString (← IO.monoMsNow)) host "-")

/-- Sleep for a number of seconds, to the millisecond. -/
def sleepSeconds (seconds : Binary64) : IO Unit :=
  IO.sleep (UInt32.ofNat (min (seconds.lastPlaces 3) 0xffffffff))

/-- Forms of a command line. -/
def usage : String :=
  "usage: fgjitter-tools [-h] sample-jitter [-h] [-m MIN] [--span SPAN] [-c COUNT] " ++
    "[--seed SEED] [--summarize | --no-summarize]\n" ++
  "       fgjitter-tools [-h] sleep-with-jitter [-h] [-d DELAY] [-m MIN] [--span SPAN] " ++
    "[--seed SEED]"

/-- Wording of a failure on the terminal. -/
def failureText (failure : Failure) : String :=
  failure.message?.getD "The command cannot be carried out with these values."

/-- Carry out a transcript. The last record of a run that sleeps follows the sleep. -/
def carryOut (host : String) (t : Transcript) : IO UInt32 := do
  IO.print t.output
  let early := if t.slept.isEmpty then t.records else t.records.dropLast
  writeRecords host early
  for seconds in t.slept do
    sleepSeconds seconds
  writeRecords host (t.records.drop early.length)
  match t.result with
  | .ok _ => return 0
  | .error (.exit code) =>
    if code = 0 then IO.println usage else IO.eprintln usage
    return UInt32.ofNat code
  | .error (.failure failure) =>
    IO.eprintln (failureText failure)
    return 1

end RandomDelay

def main (arguments : List String) : IO UInt32 := do
  let fallback ← RandomDelay.freshSeed
  let host := (← IO.getEnv "HOSTNAME").getD "localhost"
  let (transcript, _) :=
    RandomDelay.CommandLine.run arguments RandomDelay.defaultLevelName fallback {}
  RandomDelay.carryOut host transcript
