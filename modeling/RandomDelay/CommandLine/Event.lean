import RandomDelay.CommandLine.Word

/-!
# Events of a command line

The words of a command line come down to events from left to right: a flag is raised, a value is
given, a word is left over, or an option cannot be used, which ends the line. An option that takes a
value has it attached or takes the next word, which has to be plain. Letters of flags may be written
together with one more letter after a single dash; such a bundle is taken apart as a whole before
any of its flags is raised.
-/

set_option autoImplicit false

namespace RandomDelay.CommandLine

/-- What happens in the course of a command line. -/
inductive Event where
  | flag (key : Key)
  | value (key : Key) (text : List Char)
  | surplus
  | unusable
deriving DecidableEq

namespace Event

/-- Events of one word, and the option that waits for the next word as its value. -/
abbrev Opened := List Event × Option Switch

/-- Option that has nothing attached to it. -/
def bare (s : Switch) : Opened := if s.takesValue then ([], some s) else ([.flag s.key], none)

/-- Bundle of letters after the letter of a flag, whose last option may take what is left of the
bundle as its value. Every letter has to be one of an option, and a flag takes no empty bundle. -/
def bundle? (switches : List Switch) (s : Switch) : List Char → Option Opened
  | [] => none
  | c :: tail =>
    match withLetter? switches c with
    | none => none
    | some t =>
      if tail.isEmpty then some (.flag s.key :: (bare t).1, (bare t).2)
      else if t.takesValue then some ([.flag s.key, .value t.key tail], none)
      else (bundle? switches t tail).map fun opened => (.flag s.key :: opened.1, opened.2)

/-- Events of an option with what is attached to it; none if it does not take that. -/
def opened? (switches : List Switch) (s : Switch) (byLetter : Bool) :
    Option (List Char) → Option Opened
  | none => some (bare s)
  | some text =>
    if s.takesValue then some ([.value s.key text], none)
    else if byLetter then bundle? switches s text
    else none

/-- Events of a row of words. -/
def ofWords (switches : List Switch) : List Word → List Event
  | [] => []
  | .plain _ :: rest => .surplus :: ofWords switches rest
  | .divider :: rest => .surplus :: ofWords switches rest
  | .unknown :: rest => .surplus :: ofWords switches rest
  | .option s byLetter attached :: rest =>
    match opened? switches s byLetter attached with
    | none => [.unusable]
    | some (events, none) => events ++ ofWords switches rest
    | some (events, some waiting) =>
      match rest with
      | .plain text :: rest => events ++ .value waiting.key text :: ofWords switches rest
      -- a divider is not skipped, and what looks like an option is no value
      | _ => [.unusable]

end Event

end RandomDelay.CommandLine
