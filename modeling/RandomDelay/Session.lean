import RandomDelay.CommandLine
import RandomDelay.Spread

/-!
# Sessions

A session is a row of steps that share what outlives a step: an ambient source of random numbers,
sources with names, and the logger (`World`). Every step has a reply, a failure being one of them,
and the steps after a failed one go on from the world that it leaves.
-/

set_option autoImplicit false

namespace RandomDelay

/-- Ways to ask for an interval. -/
inductive IntervalForm where
  | noJitter
  | upTo (bound : Duration)
  | ofSeconds (lower span : Number)
  | ofBounds (lower span : Duration)
deriving DecidableEq

/-- Interval that is asked for. -/
def IntervalForm.interval : IntervalForm → Except Failure Interval
  | .noJitter => .ok Interval.noJitter
  | .upTo bound => Interval.upTo bound
  | .ofSeconds lower span => Interval.ofSeconds lower span
  | .ofBounds lower span => Interval.ofBounds lower span

/-- Ways to start a source. -/
inductive SourceForm where
  | seeded (seed : Int)
  | cycling (values : List Binary64)
deriving DecidableEq

/-- Source that is started. -/
def SourceForm.source : SourceForm → Except Failure Source
  | .seeded seed => .ok (.ofSeed seed)
  | .cycling values => (Cycle.ofValues values).map .cycle

/-- Ways to choose the source of a step: the ambient one, a new one, or one with a name. -/
inductive SourceChoice where
  | ambient
  | new (form : SourceForm)
  | named (name : String)
deriving DecidableEq

/-- Computations that draw from a source. -/
inductive Request where
  | sample (form : IntervalForm)
  | delayed (form : IntervalForm) (d : Duration)
  | deferred (form : IntervalForm) (t : Instant)
  | advanced (form : IntervalForm) (clock : Number)
  | spread (s : Spread)
deriving DecidableEq

/-- Results of single computations. -/
inductive Value where
  | duration (d : Duration)
  | instant (t : Instant)
  | seconds (x : Binary64)
deriving DecidableEq

/-- Computation of a request once its interval is known. The interval is made before a source is
chosen, but the bounds of a spread belong to the computation. -/
def Request.computation : Request → Except Failure (Source → Drawn Value)
  | .sample form => do
    let i ← form.interval
    return fun source => (i.sample source).map .duration
  | .delayed form d => do
    let i ← form.interval
    return fun source => (i.delayed d source).map .duration
  | .deferred form t => do
    let i ← form.interval
    return fun source => (i.deferred t source).map .instant
  | .advanced form clock => do
    let i ← form.interval
    return fun source => (i.advanced clock source).map .seconds
  | .spread s => .ok fun source => (s.draw source).map .seconds

/-- What the steps of a session share. `fallback` is the seed of a tool that is given none. -/
structure World where
  ambient : Source
  named : List (String × Source)
  logger : Logger
  fallback : Int

namespace World

/-- World in which nothing has been drawn and logging has not been set up, with sources of the given
names. -/
def start (forms : List (String × SourceForm)) : Except Failure World := do
  let named ← forms.mapM fun (name, form) => return (name, ← form.source)
  return { ambient := .ofSeed 0, named, logger := {}, fallback := 0 }

/-- World in which the named source is replaced. -/
def withNamed (w : World) (name : String) (source : Source) : World :=
  { w with named := w.named.map fun entry => if entry.1 = name then (name, source) else entry }

/-- Result of a computation on the ambient source, and the world after it. -/
def drawingAmbient {α : Type} (w : World) (draw : Source → Drawn α) : Except Failure α × World :=
  let (result, source) := draw w.ambient
  (result, { w with ambient := source })

/-- Result of a computation on a chosen source, and the world after it. A name without a source of
its own stands for the ambient source. -/
def drawing {α : Type} (w : World) (choice : SourceChoice) (draw : Source → Drawn α) :
    Except Failure α × World :=
  match choice with
  | .ambient => w.drawingAmbient draw
  | .new form =>
    match form.source with
    | .ok source => ((draw source).1, w)
    | .error failure => (.error failure, w)
  | .named name =>
    match w.named.lookup name with
    | some source =>
      let (result, source) := draw source
      (result, w.withNamed name source)
    | none => w.drawingAmbient draw

/-- Counts of the numbers given by the cycles with names. -/
def drawn (w : World) : List (String × Nat) :=
  w.named.filterMap fun (name, source) => source.drawn?.map (name, ·)

end World

/-- Steps of a session. -/
inductive Step where
  | readDuration (text : String)
  | writeDuration (d : Duration)
  | addDurations (a b : Duration)
  | addToInstant (t : Instant) (d : Duration)
  | describe (form : IntervalForm)
  | compare (a b : IntervalForm)
  | assign (form : IntervalForm)
  | draw (request : Request) (choice : SourceChoice) (count : Nat)
  | reseed (seed : Int)
  | defaults
  | sampling (s : Sampling)
  | pause (p : Pause)
  | commandLine (arguments : List String) (levelName : String)
  | configure (levelName : String)
deriving DecidableEq

/-- Replies to steps. -/
inductive Reply where
  | failed (failure : Failure)
  | nothing
  | truth (b : Bool)
  | text (t : List Char)
  | value (v : Value)
  | values (vs : List Value)
  | interval (i : Interval)
  | defaults (width count : Int) (jitter : Interval) (tools : List String)
  | transcript (t : Transcript)
  | logger (result : Except Failure Unit) (logger : Logger)

namespace Reply

/-- Reply with a result or a failure. -/
def ofExcept {α : Type} (reply : α → Reply) : Except Failure α → Reply
  | .ok a => reply a
  | .error failure => .failed failure

end Reply

namespace Step

/-- Reply to a step, and the world after it. -/
def run (w : World) : Step → Reply × World
  | .readDuration text =>
    (.ofExcept (.value ∘ .duration) (Duration.ofText text), w)
  | .writeDuration d => (.text d.secondsText, w)
  | .addDurations a b => (.value (.duration (a.saturatingAdd b)), w)
  | .addToInstant t d => (.value (.instant (t.saturatingAdd d)), w)
  | .describe form => (.ofExcept .interval form.interval, w)
  | .compare a b =>
    (.ofExcept .truth do return decide ((← a.interval) = (← b.interval)), w)
  | .assign form =>
    (.ofExcept (fun _ => .failed .readOnly) form.interval, w)
  | .draw request choice count =>
    match request.computation with
    | .error failure => (.failed failure, w)
    | .ok computation =>
      let (result, w) := w.drawing choice (Drawn.repeated computation count)
      (.ofExcept .values result, w)
  | .reseed seed => (.nothing, { w with ambient := .ofSeed seed })
  | .defaults =>
    (.defaults Spread.defaultWidth Sampling.defaultCount Interval.noJitter
      (CommandLine.Tool.all.map CommandLine.Tool.name), w)
  | .sampling s => (.transcript ((s.run w.fallback).heardBy w.logger), w)
  | .pause p => (.transcript ((p.run w.fallback).heardBy w.logger), w)
  | .commandLine arguments levelName =>
    let (transcript, logger) := CommandLine.run arguments levelName w.fallback w.logger
    (.transcript transcript, { w with logger })
  | .configure levelName =>
    let (result, logger) := w.logger.configure levelName
    (.logger result logger, { w with logger })

end Step

namespace Session

/-- Replies to a row of steps, each with the counts of the cycles after it, and the world at the
end. -/
def run (w : World) : List Step → List (Reply × List (String × Nat)) × World
  | [] => ([], w)
  | step :: rest =>
    let (reply, w) := step.run w
    let (replies, last) := run w rest
    ((reply, w.drawn) :: replies, last)

end Session

end RandomDelay
