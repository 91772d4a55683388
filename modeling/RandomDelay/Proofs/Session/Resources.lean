import RandomDelay.Proofs.CommandLine.LevelIndependence
import RandomDelay.Proofs.Session.Draws

/-!
# What the steps of a session share

Three kinds of things outlive a step: the ambient source, the sources with names, and the logger. A
step reads and changes one of them at most (`Step.resource?`): a draw the source that it is given,
where a name without a source stands for the ambient one; a pause, a run of the program and a
configuration the logger. The tools draw from sources of their own.

What a step does is a matter of this one thing. It leaves the others as they are
(`Step.agreeAt_run`), and in two worlds that agree in it, it has the same reply and leaves the same
behind (`Step.run_congr`), provided that it is determined, for a tool without a seed is given one
from outside.
-/

set_option autoImplicit false

namespace RandomDelay

/-- Things that the steps of a session share. -/
inductive Resource where
  | ambient
  | source (name : String)
  | logging
deriving DecidableEq

namespace World

/-- Worlds that do not differ in the given thing. -/
def AgreeAt (w v : World) : Resource → Prop
  | .ambient => w.ambient = v.ambient
  | .source name => w.named.lookup name = v.named.lookup name
  | .logging => w.logger = v.logger

theorem AgreeAt.refl (w : World) (r : Resource) : w.AgreeAt w r := by
  cases r <;> rfl

theorem AgreeAt.symm {w v : World} {r : Resource} (h : w.AgreeAt v r) : v.AgreeAt w r := by
  cases r <;> exact Eq.symm h

theorem AgreeAt.trans {u v w : World} {r : Resource} (h : u.AgreeAt v r) (h' : v.AgreeAt w r) :
    u.AgreeAt w r := by
  cases r <;> exact Eq.trans h h'

/-- Worlds in which the same names have a source. -/
def SameNames (w v : World) : Prop :=
  ∀ name, (w.named.lookup name).isSome = (v.named.lookup name).isSome

/-- The source that is chosen, if it outlives the step. A name without a source stands for the
ambient one. -/
def resource? (w : World) : SourceChoice → Option Resource
  | .ambient => some .ambient
  | .new _ => none
  | .named name => if (w.named.lookup name).isSome then some (.source name) else some .ambient

theorem SameNames.resource?_eq {w v : World} (h : w.SameNames v) (choice : SourceChoice) :
    w.resource? choice = v.resource? choice := by
  cases choice with
  | named name => rw [resource?, resource?, h name]
  | _ => rfl

section

variable {α : Type} {w v : World} {choice : SourceChoice}

/-- A draw is from a source of its own, from the ambient one, or from one with a name. -/
theorem drawing_cases (w : World) (choice : SourceChoice) (draw : Source → Drawn α) :
    (∃ form, choice = .new form) ∨
      (w.resource? choice = some .ambient ∧ w.drawing choice draw = w.drawingAmbient draw) ∨
      ∃ name source, choice = .named name ∧ w.named.lookup name = some source ∧
        w.drawing choice draw = ((draw source).1, w.withNamed name (draw source).2) := by
  cases choice with
  | ambient => exact Or.inr (Or.inl ⟨rfl, rfl⟩)
  | new form => exact Or.inl ⟨form, rfl⟩
  | named name =>
    right
    cases hlookup : w.named.lookup name with
    | none =>
      left
      rw [resource?, drawing, hlookup]
      exact ⟨rfl, rfl⟩
    | some source =>
      right
      rw [drawing, hlookup]
      exact ⟨name, source, rfl, hlookup, rfl⟩

theorem resource?_of_lookup {name : String} {source : Source}
    (h : w.named.lookup name = some source) :
    w.resource? (.named name) = some (.source name) := by
  rw [resource?, h]
  rfl

theorem drawing_of_ambient (h : w.resource? choice = some .ambient) (draw : Source → Drawn α) :
    w.drawing choice draw = w.drawingAmbient draw := by
  rcases w.drawing_cases choice draw with ⟨form, rfl⟩ | ⟨-, hdrawing⟩ |
    ⟨name, source, rfl, hlookup, -⟩
  · cases h
  · exact hdrawing
  · rw [resource?_of_lookup hlookup] at h
    cases h

theorem drawing_of_lookup {name : String} {source : Source}
    (h : w.named.lookup name = some source) (draw : Source → Drawn α) :
    w.drawing (.named name) draw = ((draw source).1, w.withNamed name (draw source).2) := by
  rw [drawing, h]

/-- No name comes to have a source, or comes to be without. -/
theorem sameNames_drawing (w : World) (choice : SourceChoice) (draw : Source → Drawn α) :
    (w.drawing choice draw).2.SameNames w := by
  intro other
  rcases w.drawing_cases choice draw with ⟨form, rfl⟩ | ⟨-, hdrawing⟩ |
    ⟨name, source, -, hlookup, hdrawing⟩
  · rw [drawing]
    cases form.source <;> rfl
  · rw [hdrawing]
    rfl
  · rw [hdrawing]
    by_cases hname : other = name
    · rw [hname, lookup_withNamed hlookup, hlookup]
      rfl
    · rw [lookup_withNamed_of_ne w hname]

/-- A draw leaves everything but the chosen source as it is. -/
theorem agreeAt_drawing {r : Resource} (h : w.resource? choice ≠ some r) (draw : Source → Drawn α) :
    (w.drawing choice draw).2.AgreeAt w r := by
  rcases w.drawing_cases choice draw with ⟨form, rfl⟩ | ⟨hambient, hdrawing⟩ |
    ⟨name, source, rfl, hlookup, hdrawing⟩
  · rw [drawing]
    cases form.source <;> exact AgreeAt.refl w r
  · rw [hdrawing]
    cases r with
    | ambient => exact absurd hambient h
    | source other => rfl
    | logging => rfl
  · rw [hdrawing]
    cases r with
    | source other =>
      -- the name that was drawn from is another one
      apply lookup_withNamed_of_ne
      rintro rfl
      exact h (resource?_of_lookup hlookup)
    | ambient => rfl
    | logging => rfl

/-- The result of a draw, and what is left of the chosen source, are a matter of this source. -/
theorem drawing_congr (hnames : w.SameNames v)
    (hagree : ∀ r, w.resource? choice = some r → w.AgreeAt v r) (draw : Source → Drawn α) :
    (w.drawing choice draw).1 = (v.drawing choice draw).1 ∧
      ∀ r, w.resource? choice = some r →
        (w.drawing choice draw).2.AgreeAt (v.drawing choice draw).2 r := by
  rcases w.drawing_cases choice draw with ⟨form, rfl⟩ | ⟨hambient, hdrawing⟩ |
    ⟨name, source, rfl, hlookup, hdrawing⟩
  · -- a new source belongs to neither world
    constructor
    · rw [drawing, drawing]
      cases form.source <;> rfl
    · rintro r ⟨⟩
  · have hsame : w.ambient = v.ambient := hagree .ambient hambient
    have hother : v.resource? choice = some .ambient :=
      (hnames.resource?_eq choice).symm.trans hambient
    rw [hdrawing, drawing_of_ambient hother, drawingAmbient, drawingAmbient, hsame]
    refine ⟨rfl, ?_⟩
    intro r hr
    obtain rfl := Option.some.inj (hambient.symm.trans hr)
    rfl
  · have hchosen := resource?_of_lookup hlookup
    have hsame : w.named.lookup name = v.named.lookup name := hagree (.source name) hchosen
    have hother : v.named.lookup name = some source := hsame.symm.trans hlookup
    rw [hdrawing, drawing_of_lookup hother]
    refine ⟨rfl, ?_⟩
    intro r hr
    obtain rfl := Option.some.inj (hchosen.symm.trans hr)
    exact (lookup_withNamed hlookup _).trans (lookup_withNamed hother _).symm

end

end World

/-! ## Steps -/

namespace Step

/-- What a step shares with others, if it shares anything. -/
def resource? (w : World) : Step → Option Resource
  | .draw _ choice _ => w.resource? choice
  | .reseed _ => some .ambient
  | .pause _ | .commandLine _ _ | .configure _ => some .logging
  | _ => none

/-- Steps that leave nothing to a seed of the run. -/
def Determined : Step → Prop
  | .sampling s => s.Determined
  | .pause p => p.Determined
  | .commandLine arguments _ => CommandLine.Determined arguments
  | _ => True

variable {w v : World}

theorem resource?_eq (h : w.SameNames v) (step : Step) : step.resource? w = step.resource? v := by
  cases step with
  | draw request choice count => exact h.resource?_eq choice
  | _ => rfl

theorem sameNames_run (w : World) (step : Step) : (step.run w).2.SameNames w := by
  cases step with
  | draw request choice count =>
    rw [run]
    cases request.computation with
    | error failure => exact fun _ => rfl
    | ok computation => exact w.sameNames_drawing choice _
  | _ => exact fun _ => rfl

/-- A step leaves everything as it is that it does not share. -/
theorem agreeAt_run {step : Step} {r : Resource} (h : step.resource? w ≠ some r) :
    (step.run w).2.AgreeAt w r := by
  cases step with
  | draw request choice count =>
    rw [run]
    cases request.computation with
    | error failure => exact World.AgreeAt.refl w r
    | ok computation => exact World.agreeAt_drawing h _
  | reseed seed =>
    cases r with
    | ambient => exact absurd rfl h
    | source name => rfl
    | logging => rfl
  | commandLine arguments levelName =>
    cases r with
    | logging => exact absurd rfl h
    | source name => rfl
    | ambient => rfl
  | configure levelName =>
    cases r with
    | logging => exact absurd rfl h
    | source name => rfl
    | ambient => rfl
  | _ => exact World.AgreeAt.refl w r

/-- The sampling tool offers nothing to the logger. -/
theorem heardBy_sampling (s : Sampling) (fallback : ℤ) (logger logger' : Logger) :
    (s.run fallback).heardBy logger = (s.run fallback).heardBy logger' := by
  rw [Sampling.run]
  cases s.lines fallback <;> rfl

/-- A determined step has the same reply in worlds that agree in what it shares, and leaves the same
of it. -/
theorem run_congr {step : Step} (hdetermined : step.Determined) (hnames : w.SameNames v)
    (hagree : ∀ r, step.resource? w = some r → w.AgreeAt v r) :
    (step.run w).1 = (step.run v).1 ∧
      ∀ r, step.resource? w = some r → (step.run w).2.AgreeAt (step.run v).2 r := by
  cases step with
  | draw request choice count =>
    rw [run, run]
    cases request.computation with
    | error failure => exact ⟨rfl, hagree⟩
    | ok computation =>
      obtain ⟨hresult, hafter⟩ :=
        World.drawing_congr hnames hagree (Drawn.repeated computation count)
      exact ⟨congrArg (Reply.ofExcept .values) hresult, hafter⟩
  | reseed seed =>
    refine ⟨rfl, ?_⟩
    rintro r ⟨⟩
    rfl
  | sampling s =>
    -- it shares nothing: the seed from outside does not matter, and the logger hears nothing of it
    have hrun := Sampling.run_of_determined hdetermined w.fallback v.fallback
    constructor
    · show Reply.transcript _ = Reply.transcript _
      rw [hrun, heardBy_sampling s v.fallback w.logger v.logger]
    · rintro r ⟨⟩
  | pause p =>
    have hlogger : w.logger = v.logger := hagree .logging rfl
    have hrun := Pause.run_of_determined hdetermined w.fallback v.fallback
    refine ⟨?_, hagree⟩
    show Reply.transcript _ = Reply.transcript _
    rw [hrun, hlogger]
  | commandLine arguments levelName =>
    have hlogger : w.logger = v.logger := hagree .logging rfl
    have hrun : CommandLine.run arguments levelName w.fallback w.logger =
        CommandLine.run arguments levelName v.fallback v.logger := by
      rw [hlogger, CommandLine.run, CommandLine.run,
        CommandLine.reported_of_determined hdetermined w.fallback v.fallback]
    constructor
    · exact congrArg Reply.transcript (congrArg Prod.fst hrun)
    · rintro r ⟨⟩
      exact congrArg Prod.snd hrun
  | configure levelName =>
    have hlogger : w.logger = v.logger := hagree .logging rfl
    refine ⟨?_, ?_⟩
    · show Reply.logger _ _ = Reply.logger _ _
      rw [hlogger]
    · rintro r ⟨⟩
      exact congrArg (fun logger => (Logger.configure logger levelName).2) hlogger
  | _ =>
    refine ⟨rfl, ?_⟩
    rintro r ⟨⟩

/-- Runs of the tools and of the program leave all sources alone. -/
def IsTool : Step → Prop
  | .sampling _ | .pause _ | .commandLine _ _ => True
  | _ => False

theorem sources_run_of_isTool {step : Step} (h : step.IsTool) (w : World) :
    (step.run w).2.ambient = w.ambient ∧ (step.run w).2.named = w.named := by
  cases step with
  | sampling s => exact ⟨rfl, rfl⟩
  | pause p => exact ⟨rfl, rfl⟩
  | commandLine arguments levelName => exact ⟨rfl, rfl⟩
  | _ => cases h

end Step

end RandomDelay
