import RandomDelay.CommandLine.Event
import RandomDelay.Duration.Written
import RandomDelay.Pause
import RandomDelay.Sampling
import RandomDelay.Text.Integer

/-!
# Settings of a command

The events of a command line are taken into the settings one after the other, so the last of several
values for one option counts and the first event that cannot be taken ends the line: help with code
0, misuse with code 2. A duration too long to be represented is no misuse but a failure of its own.
The divider attached to an option leaves its setting blank, which is no failure until a tool comes
to need the setting.
-/

set_option autoImplicit false

namespace RandomDelay.CommandLine

/-- Value of a setting, or the mark of one that was left blank. -/
inductive Given (α : Type) where
  | value (a : α)
  | blank
deriving DecidableEq

namespace Given

/-- Value of a setting that is needed. -/
def get {α : Type} : Given α → Except Failure α
  | .value a => .ok a
  | .blank => .error .blankSetting

/-- Setting of another type. -/
def map {α β : Type} (f : α → β) : Given α → Given β
  | .value a => .value (f a)
  | .blank => .blank

end Given

/-- Leaving with the exit code of help. -/
def helpShown : Stop := .exit 0

/-- Leaving with the exit code of misuse. -/
def misused : Stop := .exit 2

/-- Settings of both tools, with the values that count where nothing else is said. -/
structure Settings where
  delay : Given Duration := .value ({} : Pause).delay
  lower : Given Duration := .value ({} : Sampling).lower
  span : Given Duration := .value ({} : Sampling).span
  count : Given Int := .value ({} : Sampling).count
  seed : Given (Option Int) := .value ({} : Sampling).seed
  summarize : Bool := ({} : Sampling).summarize
deriving DecidableEq

namespace Settings

/-- Value of an option that wants a duration. -/
def duration (text : List Char) : Except Stop (Given Duration) :=
  if text = dividerText then .ok .blank
  else
    match Duration.ofText (String.ofList text) with
    | .ok d => .ok (.value d)
    | .error (.malformedDuration _) => .error misused
    | .error failure => .error (.failure failure)

/-- Value of an option that wants an integer. -/
def integer (text : List Char) : Except Stop (Given Int) :=
  if text = dividerText then .ok .blank
  else
    match Text.integer? text with
    | some n => .ok (.value n)
    | none => .error misused

/-- Settings after one more event. -/
def take (s : Settings) : Event → Except Stop Settings
  | .flag .help => .error helpShown
  | .flag .summary => .ok { s with summarize := true }
  | .flag .noSummary => .ok { s with summarize := false }
  | .value .delay text => do return { s with delay := ← duration text }
  | .value .lower text => do return { s with lower := ← duration text }
  | .value .span text => do return { s with span := ← duration text }
  | .value .count text => do return { s with count := ← integer text }
  | .value .seed text => do return { s with seed := (← integer text).map some }
  | .surplus => .ok s
  | _ => .error misused

/-- Settings after a row of events. A word that is left over is misuse, but only at the end. -/
def ofEvents (events : List Event) : Except Stop Settings := do
  let settings ← events.foldlM take ({} : Settings)
  if events.contains .surplus then .error misused else .ok settings

/-- Arguments of the sampling tool. The tool needs the count before anything else, and refuses it
before it comes to a blank setting. -/
def sampling (s : Settings) : Except Failure Sampling := do
  let count ← s.count.get
  if count ≤ 0 then throw (.nonpositiveCount count)
  let lower ← s.lower.get
  let span ← s.span.get
  let seed ← s.seed.get
  return { lower, span, count, seed, summarize := s.summarize }

/-- Arguments of the pausing tool. -/
def pause (s : Settings) : Except Failure Pause := do
  let lower ← s.lower.get
  let span ← s.span.get
  let seed ← s.seed.get
  let delay ← s.delay.get
  return { delay, lower, span, seed }

end Settings

end RandomDelay.CommandLine
