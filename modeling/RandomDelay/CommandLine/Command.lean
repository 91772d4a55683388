import RandomDelay.CommandLine.Settings

/-!
# Commands

A command line names a tool and gives it settings. Before the name only help can be asked for; any
other option there is misuse, but what follows it is read first, and a failure or a call for help in
it comes before the misuse.
-/

set_option autoImplicit false

namespace RandomDelay.CommandLine

/-- The tools of the program. -/
inductive Tool where
  | sampling
  | pause
deriving DecidableEq

namespace Tool

/-- The tools in the order of their names. -/
def all : List Tool := [.sampling, .pause]

/-- Name of a tool for callers. -/
def name : Tool → String
  | .sampling => "sample_jitter"
  | .pause => "sleep_with_jitter"

/-- Name of a tool on the command line, with dashes between its words. -/
def word (t : Tool) : String := t.name.map fun c => if c = '_' then '-' else c

/-- Tool with the given name on the command line. -/
def ofWord? (word : String) : Option Tool := all.find? (·.word = word)

end Tool

namespace Switch

/-- Help. -/
def help : Switch := ⟨.help, "help".toList, some 'h', false⟩

/-- Nominal delay of a pause. -/
def delay : Switch := ⟨.delay, "delay".toList, some 'd', true⟩

/-- Lower bound of the jitter. -/
def lower : Switch := ⟨.lower, "min".toList, some 'm', true⟩

/-- Width of the jitter. -/
def span : Switch := ⟨.span, "span".toList, none, true⟩

/-- Number of samples. -/
def count : Switch := ⟨.count, "count".toList, some 'c', true⟩

/-- Seed of the generator. -/
def seed : Switch := ⟨.seed, "seed".toList, none, true⟩

/-- A table in place of the samples. -/
def summary : Switch := ⟨.summary, "summarize".toList, none, false⟩

/-- The samples themselves. -/
def noSummary : Switch := ⟨.noSummary, "no-summarize".toList, none, false⟩

end Switch

/-- Options of a tool. -/
def Tool.switches : Tool → List Switch
  | .sampling => [.help, .lower, .span, .count, .seed, .summary, .noSummary]
  | .pause => [.help, .delay, .lower, .span, .seed]

/-- A tool and its settings. -/
structure Command where
  tool : Tool
  settings : Settings
deriving DecidableEq

namespace Command

/-- Command of a tool with the arguments after its name. -/
def ofToolArguments (tool : Tool) (arguments : List String) : Except Stop Command :=
  match Word.ofTexts? tool.switches (arguments.map String.toList) with
  | none => .error misused
  | some words => do
    return { tool, settings := ← Settings.ofEvents (Event.ofWords tool.switches words) }

/-- Command of a row of arguments. -/
def ofArguments : List String → Except Stop Command
  | [] => .error misused
  | argument :: rest =>
    if argument.toList = dividerText then .error misused
    else
      match Word.ofText? [.help] argument.toList with
      | some (.plain _) =>
        match Tool.ofWord? argument with
        | some tool => ofToolArguments tool rest
        | none => .error misused
      | some .unknown => do
        -- it is refused at the end only, so help or an overflow behind it comes first
        let _ ← ofArguments rest
        .error misused
      | some word => do
        let _ ← Settings.ofEvents (Event.ofWords [.help] [word])
        .error misused
      | none => .error misused

/-- Run of a command. -/
def run (c : Command) (fallback : Int) : Transcript :=
  match c.tool with
  | .sampling =>
    match c.settings.sampling with
    | .ok sampling => sampling.run fallback
    | .error failure => .stopped (.failure failure)
  | .pause =>
    match c.settings.pause with
    | .ok pause => pause.run fallback
    | .error failure => .stopped (.failure failure)

end Command

end RandomDelay.CommandLine
