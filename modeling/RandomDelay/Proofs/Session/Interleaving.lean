import RandomDelay.Proofs.Session.Resources

/-!
# Callers side by side

Several callers run their steps in one session, in any order that keeps the order of each. If no two
of them share a source or the logger, then each gets the replies that it gets alone, and everything
they share with later steps is left as the one caller that used it leaves it, whatever the order
was. For one caller this is an induction over the merged row: a step of its own has the same reply
here and alone, as the two worlds agree in what it shares, and a step of another caller does not
touch what they agree in (`Session.run_merged`).

The ambient source is no different from others in this. After it is started from a seed it gives a
caller what a source of its own does that is started from that seed (`Session.run_standsIn`).
-/

set_option autoImplicit false

namespace RandomDelay

namespace Session

/-- Replies to a row of steps. -/
def replies (w : World) (steps : List Step) : List Reply := (run w steps).1.map Prod.fst

/-- World after a row of steps. -/
def after (w : World) (steps : List Step) : World := (run w steps).2

theorem replies_cons (w : World) (step : Step) (rest : List Step) :
    replies w (step :: rest) = (step.run w).1 :: replies (step.run w).2 rest := rfl

/-- Rows in which no step shares the given thing. -/
def Spares (w : World) (r : Resource) (steps : List Step) : Prop :=
  ∀ step ∈ steps, step.resource? w ≠ some r

/-- Rows of which one at most shares any given thing. -/
def Apart (w : World) (steps steps' : List Step) : Prop :=
  ∀ r, Spares w r steps ∨ Spares w r steps'

theorem Spares.of_sameNames {w v : World} (h : v.SameNames w) {r : Resource} {steps : List Step}
    (hspares : Spares w r steps) : Spares v r steps := by
  intro step hstep
  rw [step.resource?_eq h]
  exact hspares step hstep

/-- What no step shares is left as it is. -/
theorem agreeAt_after {w : World} {r : Resource} {steps : List Step} (h : Spares w r steps) :
    (after w steps).AgreeAt w r := by
  induction steps generalizing w with
  | nil => exact World.AgreeAt.refl w r
  | cons step rest ih =>
    obtain ⟨hstep, hrest⟩ := List.forall_mem_cons.1 h
    have hlater : (after (step.run w).2 rest).AgreeAt (step.run w).2 r :=
      ih (Spares.of_sameNames (step.sameNames_run w) hrest)
    exact hlater.trans (step.agreeAt_run hstep)

/-! ## Merged rows -/

section

variable {ι : Type} [DecidableEq ι]

/-- Steps of one caller in a row of steps of several. -/
def stepsOf (c : ι) (merged : List (ι × Step)) : List Step :=
  (merged.filter fun entry => entry.1 = c).map Prod.snd

/-- Replies that one caller gets where the steps of several are run in one row. -/
def repliesTo (c : ι) (w : World) (merged : List (ι × Step)) : List Reply :=
  (((merged.map Prod.fst).zip (replies w (merged.map Prod.snd))).filter
    fun entry => entry.1 = c).map Prod.snd

/-- Rows that have the steps of every caller in their order. -/
def IsInterleaving (rows : ι → List Step) (merged : List (ι × Step)) : Prop :=
  ∀ c, stepsOf c merged = rows c

theorem mem_stepsOf {c : ι} {merged : List (ι × Step)} {step : Step} :
    step ∈ stepsOf c merged ↔ (c, step) ∈ merged := by
  simp [stepsOf]

theorem stepsOf_cons_self (c : ι) (step : Step) (rest : List (ι × Step)) :
    stepsOf c ((c, step) :: rest) = step :: stepsOf c rest := by
  simp [stepsOf]

theorem stepsOf_cons_of_ne {c d : ι} (h : d ≠ c) (step : Step) (rest : List (ι × Step)) :
    stepsOf c ((d, step) :: rest) = stepsOf c rest := by
  simp [stepsOf, h]

theorem repliesTo_cons_self (c : ι) (w : World) (step : Step) (rest : List (ι × Step)) :
    repliesTo c w ((c, step) :: rest) = (step.run w).1 :: repliesTo c (step.run w).2 rest := by
  simp [repliesTo, replies, run]

theorem repliesTo_cons_of_ne {c d : ι} (h : d ≠ c) (w : World) (step : Step)
    (rest : List (ι × Step)) :
    repliesTo c w ((d, step) :: rest) = repliesTo c (step.run w).2 rest := by
  simp [repliesTo, replies, run, h]

/-- A caller that owns what its steps share, so that no other caller shares it, has the same replies
in the merged row as alone, and leaves the same of what it owns. -/
theorem run_merged {c : ι} (owned : Resource → Prop) {merged : List (ι × Step)} {w v : World}
    (hnames : w.SameNames v) (hagree : ∀ r, owned r → w.AgreeAt v r)
    (hown : ∀ step, (c, step) ∈ merged →
      step.Determined ∧ ∀ r, step.resource? w = some r → owned r)
    (hothers : ∀ d step, (d, step) ∈ merged → d ≠ c → ∀ r, owned r → step.resource? w ≠ some r) :
    repliesTo c w merged = replies v (stepsOf c merged) ∧
      ∀ r, owned r → (after w (merged.map Prod.snd)).AgreeAt (after v (stepsOf c merged)) r := by
  induction merged generalizing w v with
  | nil => exact ⟨rfl, hagree⟩
  | cons entry rest ih =>
    obtain ⟨d, step⟩ := entry
    -- the conditions on the steps speak of the names alone, which this step leaves as they are
    have hkept := step.sameNames_run w
    have hown' : ∀ later, (c, later) ∈ rest →
        later.Determined ∧ ∀ r, later.resource? (step.run w).2 = some r → owned r := by
      intro later hlater
      rw [later.resource?_eq hkept]
      exact hown later (List.mem_cons_of_mem _ hlater)
    have hothers' : ∀ e later, (e, later) ∈ rest → e ≠ c → ∀ r, owned r →
        later.resource? (step.run w).2 ≠ some r := by
      intro e later hlater
      rw [later.resource?_eq hkept]
      exact hothers e later (List.mem_cons_of_mem _ hlater)
    by_cases hd : d = c
    · subst hd
      obtain ⟨hdetermined, howned⟩ := hown step List.mem_cons_self
      obtain ⟨hreply, hafter⟩ :=
        Step.run_congr hdetermined hnames fun r hr => hagree r (howned r hr)
      have hnames' : (step.run w).2.SameNames (step.run v).2 := by
        intro name
        rw [hkept name, hnames name, step.sameNames_run v name]
      have hagree' : ∀ r, owned r → (step.run w).2.AgreeAt (step.run v).2 r := by
        intro r hr
        by_cases hshared : step.resource? w = some r
        · exact hafter r hshared
        · have hshared' : step.resource? v ≠ some r := by rwa [← step.resource?_eq hnames]
          exact ((step.agreeAt_run hshared).trans (hagree r hr)).trans
            (step.agreeAt_run hshared').symm
      obtain ⟨hreplies, hlast⟩ := ih hnames' hagree' hown' hothers'
      rw [repliesTo_cons_self, stepsOf_cons_self, replies_cons, hreply, hreplies]
      exact ⟨rfl, hlast⟩
    · have hnames' : (step.run w).2.SameNames v := fun name => (hkept name).trans (hnames name)
      have hagree' : ∀ r, owned r → (step.run w).2.AgreeAt v r := by
        intro r hr
        exact (step.agreeAt_run (hothers d step List.mem_cons_self hd r hr)).trans (hagree r hr)
      rw [repliesTo_cons_of_ne hd, stepsOf_cons_of_ne hd]
      exact ih hnames' hagree' hown' hothers'

end

end Session

/-! ## A source in place of the ambient one -/

/-- World with a further source. -/
def World.withSource (w : World) (name : String) (source : Source) : World :=
  { w with named := (name, source) :: w.named }

/-- Step that draws from the source with the given name where it would draw from the ambient one. -/
def Step.redirected (w : World) (name : String) : Step → Step
  | .draw request choice count =>
    .draw request (if w.resource? choice = some .ambient then .named name else choice) count
  | step => step

theorem Step.redirected_eq {w v : World} (h : w.SameNames v) (name : String) (step : Step) :
    step.redirected w name = step.redirected v name := by
  cases step with
  | draw request choice count => rw [redirected, redirected, h.resource?_eq choice]
  | _ => rfl

/-- Worlds of which the second has a source with a name of its own where the first has the ambient
one. -/
structure StandsIn (name : String) (w v : World) : Prop where
  absent : w.named.lookup name = none
  source : v.named.lookup name = some w.ambient
  others : ∀ other, other ≠ name → v.named.lookup other = w.named.lookup other
  logger : v.logger = w.logger
  fallback : v.fallback = w.fallback

theorem StandsIn.of_withSource {w : World} {name : String} (h : w.named.lookup name = none)
    (source : Source) : StandsIn name { w with ambient := source } (w.withSource name source) where
  absent := h
  source := List.lookup_cons_self
  others := by
    intro other hother
    have hbeq : (other == name) = false := by simp [hother]
    rw [World.withSource, List.lookup_cons, hbeq]
  logger := rfl
  fallback := rfl

/-- A draw from the ambient source is one from the source that stands in for it, and every other
draw is the same. -/
theorem StandsIn.drawing {α : Type} {name : String} {w v : World} (h : StandsIn name w v)
    (choice : SourceChoice) (draw : Source → Drawn α) :
    let redirected := if w.resource? choice = some .ambient then .named name else choice
    (v.drawing redirected draw).1 = (w.drawing choice draw).1 ∧
      StandsIn name (w.drawing choice draw).2 (v.drawing redirected draw).2 := by
  intro redirected
  rcases w.drawing_cases choice draw with ⟨form, rfl⟩ | ⟨hambient, hdrawing⟩ |
    ⟨other, source, rfl, hlookup, hdrawing⟩
  · -- a new source is drawn from in both worlds
    show (v.drawing (.new form) draw).1 = _ ∧ StandsIn name _ (v.drawing (.new form) draw).2
    rw [World.drawing, World.drawing]
    cases form.source <;> exact ⟨rfl, h⟩
  · -- the ambient source, for which the other world has a source with the name
    have hredirected : redirected = .named name := if_pos hambient
    rw [hredirected, hdrawing, World.drawing_of_lookup h.source]
    refine ⟨rfl, h.absent, World.lookup_withNamed h.source _, ?_, h.logger, h.fallback⟩
    intro other hother
    exact (v.lookup_withNamed_of_ne hother _).trans (h.others other hother)
  · -- a source with a name, which is not the new one, as that is no name of this world
    have hne : other ≠ name := by
      rintro rfl
      rw [h.absent] at hlookup
      cases hlookup
    have hredirected : redirected = .named other := by
      apply if_neg
      rw [World.resource?_of_lookup hlookup]
      rintro ⟨⟩
    have hsource : v.named.lookup other = some source := (h.others other hne).trans hlookup
    rw [hredirected, hdrawing, World.drawing_of_lookup hsource]
    refine ⟨rfl, ?_, ?_, ?_, h.logger, h.fallback⟩
    · exact (w.lookup_withNamed_of_ne hne.symm _).trans h.absent
    · exact (v.lookup_withNamed_of_ne hne.symm _).trans h.source
    · intro third hthird
      by_cases hsame : third = other
      · rw [hsame, World.lookup_withNamed hsource, World.lookup_withNamed hlookup]
      · rw [v.lookup_withNamed_of_ne hsame, w.lookup_withNamed_of_ne hsame]
        exact h.others third hthird

theorem StandsIn.run_step {name : String} {w v : World} (h : StandsIn name w v) {step : Step}
    (hseed : ∀ seed, step ≠ .reseed seed) :
    ((step.redirected w name).run v).1 = (step.run w).1 ∧
      StandsIn name (step.run w).2 ((step.redirected w name).run v).2 := by
  cases step with
  | draw request choice count =>
    rw [Step.redirected, Step.run, Step.run]
    cases request.computation with
    | error failure => exact ⟨rfl, h⟩
    | ok computation =>
      obtain ⟨hresult, hafter⟩ := h.drawing choice (Drawn.repeated computation count)
      exact ⟨congrArg (Reply.ofExcept .values) hresult, hafter⟩
  | reseed seed => exact absurd rfl (hseed seed)
  | sampling s =>
    refine ⟨?_, h⟩
    show Reply.transcript _ = Reply.transcript _
    rw [h.logger, h.fallback]
  | pause p =>
    refine ⟨?_, h⟩
    show Reply.transcript _ = Reply.transcript _
    rw [h.logger, h.fallback]
  | commandLine arguments levelName =>
    have hrun : CommandLine.run arguments levelName v.fallback v.logger =
        CommandLine.run arguments levelName w.fallback w.logger := by rw [h.logger, h.fallback]
    refine ⟨congrArg Reply.transcript (congrArg Prod.fst hrun), ?_⟩
    exact ⟨h.absent, h.source, h.others, congrArg Prod.snd hrun, h.fallback⟩
  | configure levelName =>
    have hrun : v.logger.configure levelName = w.logger.configure levelName := by rw [h.logger]
    refine ⟨?_, h.absent, h.source, h.others, congrArg Prod.snd hrun, h.fallback⟩
    show Reply.logger _ _ = Reply.logger _ _
    rw [h.logger]
  | _ => exact ⟨rfl, h⟩

namespace Session

/-- A row that does not start the ambient source again has the same replies with a source in place
of it. -/
theorem run_standsIn {name : String} {w v : World} (h : StandsIn name w v) {steps : List Step}
    (hseed : ∀ step ∈ steps, ∀ seed, step ≠ .reseed seed) :
    replies v (steps.map (Step.redirected w name)) = replies w steps ∧
      StandsIn name (after w steps) (after v (steps.map (Step.redirected w name))) := by
  induction steps generalizing w v with
  | nil => exact ⟨rfl, h⟩
  | cons step rest ih =>
    obtain ⟨hstep, hrest⟩ := List.forall_mem_cons.1 hseed
    obtain ⟨hreply, hnext⟩ := h.run_step hstep
    obtain ⟨hreplies, hafter⟩ := ih hnext hrest
    -- the step has changed no names, and so the rest is redirected as before
    have hsame : Step.redirected (step.run w).2 name = Step.redirected w name := by
      funext later
      exact Step.redirected_eq (step.sameNames_run w) name later
    rw [hsame] at hreplies hafter
    rw [List.map_cons, replies_cons, replies_cons, hreply, hreplies]
    exact ⟨rfl, hafter⟩

/-! ## Sessions -/

section

variable {ι : Type} [DecidableEq ι] {w : World} {rows : ι → List Step} {merged : List (ι × Step)}

theorem IsInterleaving.mem_iff (h : IsInterleaving rows merged) {c : ι} {step : Step} :
    (c, step) ∈ merged ↔ step ∈ rows c := by
  rw [← h c, mem_stepsOf]

/-- In a merged row every caller has the replies that it has alone, and leaves the same of what no
other caller shares. -/
theorem run_of_isInterleaving (hapart : ∀ c d, c ≠ d → Apart w (rows c) (rows d))
    (hdetermined : ∀ c, ∀ step ∈ rows c, step.Determined) (hmerged : IsInterleaving rows merged)
    (c : ι) (fallback : ℤ) :
    repliesTo c w merged = replies { w with fallback } (rows c) ∧
      ∀ r, (∀ d, d ≠ c → Spares w r (rows d)) →
        (after w (merged.map Prod.snd)).AgreeAt (after { w with fallback } (rows c)) r := by
  have halike : ∀ r, w.AgreeAt { w with fallback } r := by
    intro r
    cases r <;> rfl
  rw [← hmerged c]
  refine run_merged (fun r => ∀ d, d ≠ c → Spares w r (rows d)) (fun _ => rfl) ?_ ?_ ?_
  · intro r _
    exact halike r
  · intro step hstep
    have hrow := hmerged.mem_iff.1 hstep
    refine ⟨hdetermined c step hrow, ?_⟩
    intro r hr d hd
    rcases hapart c d hd.symm r with hspares | hspares
    · exact absurd hr (hspares step hrow)
    · exact hspares
  · intro d step hstep hd r howned
    exact howned d hd step (hmerged.mem_iff.1 hstep)

/-- What is left of anything is the same for all orders. -/
theorem agreeAt_after_of_isInterleaving (hapart : ∀ c d, c ≠ d → Apart w (rows c) (rows d))
    (hdetermined : ∀ c, ∀ step ∈ rows c, step.Determined) (hmerged : IsInterleaving rows merged)
    {merged' : List (ι × Step)} (hmerged' : IsInterleaving rows merged') (r : Resource) :
    (after w (merged.map Prod.snd)).AgreeAt (after w (merged'.map Prod.snd)) r := by
  by_cases hshared : ∃ c, ¬ Spares w r (rows c)
  · -- one caller has it for itself, and leaves it as it does alone
    obtain ⟨c, hc⟩ := hshared
    have hothers : ∀ d, d ≠ c → Spares w r (rows d) := by
      intro d hd
      exact (hapart c d hd.symm r).resolve_left hc
    have hlast := (run_of_isInterleaving hapart hdetermined hmerged c 0).2 r hothers
    have hlast' := (run_of_isInterleaving hapart hdetermined hmerged' c 0).2 r hothers
    exact hlast.trans hlast'.symm
  · -- nobody shares it
    have hspares : ∀ {row : List (ι × Step)}, IsInterleaving rows row →
        Spares w r (row.map Prod.snd) := by
      intro row hrow step hstep
      obtain ⟨⟨c, later⟩, hentry, rfl⟩ := List.mem_map.1 hstep
      exact not_not.1 (not_exists.1 hshared c) later (hrow.mem_iff.1 hentry)
    exact (agreeAt_after (hspares hmerged)).trans (agreeAt_after (hspares hmerged')).symm

end

end Session

/-- Callers of which no two share a source or the logger, with a seed or without width in their runs
of the tools and of the program, do not get in each other's way: in every order that keeps the order
of each, each of them has the replies that it has alone, whatever seed is given from outside, and
leaves every source and the logger as it does alone, which is the same for all orders. Runs of the
tools and of the program leave all sources as they are. And once the ambient source is started from
a seed, steps that draw from it have the replies that they have with a source of their own that is
started from this seed. -/
theorem interleaving_of_session {ι : Type} [DecidableEq ι] (w : World) {rows : ι → List Step}
    (hapart : ∀ c d, c ≠ d → Session.Apart w (rows c) (rows d))
    (hdetermined : ∀ c, ∀ step ∈ rows c, step.Determined) {merged : List (ι × Step)}
    (hmerged : Session.IsInterleaving rows merged) (fallback : ℤ) :
    let last := Session.after w (merged.map Prod.snd)
    (∀ c, Session.repliesTo c w merged = Session.replies { w with fallback } (rows c)) ∧
      (∀ c r, (∀ d, d ≠ c → Session.Spares w r (rows d)) →
        last.AgreeAt (Session.after { w with fallback } (rows c)) r) ∧
      (∀ merged', Session.IsInterleaving rows merged' →
        ∀ r, last.AgreeAt (Session.after w (merged'.map Prod.snd)) r) ∧
      (∀ (step : Step) (v : World), step.IsTool →
        (step.run v).2.ambient = v.ambient ∧ (step.run v).2.named = v.named) ∧
      ∀ (seed : ℤ) (name : String) (steps : List Step), w.named.lookup name = none →
        (∀ step ∈ steps, ∀ again, step ≠ .reseed again) →
        let own := w.withSource name (.ofSeed seed)
        let redirected := steps.map (Step.redirected w name)
        Session.replies w (.reseed seed :: steps) = .nothing :: Session.replies own redirected ∧
          (Session.after own redirected).named.lookup name =
            some (Session.after w (.reseed seed :: steps)).ambient := by
  intro last
  refine ⟨?_, ?_, ?_, ?_, ?_⟩
  · intro c
    exact (Session.run_of_isInterleaving hapart hdetermined hmerged c fallback).1
  · intro c
    exact (Session.run_of_isInterleaving hapart hdetermined hmerged c fallback).2
  · intro merged' hmerged'
    exact Session.agreeAt_after_of_isInterleaving hapart hdetermined hmerged hmerged'
  · intro step v htool
    exact step.sources_run_of_isTool htool v
  · intro seed name steps habsent hseed own redirected
    have hstands := StandsIn.of_withSource habsent (.ofSeed seed)
    obtain ⟨hreplies, hlast⟩ := Session.run_standsIn hstands hseed
    exact ⟨congrArg _ hreplies.symm, hlast.source⟩

/-- A caller that draws from the ambient source and one that pauses and draws from a source of its
own. -/
theorem interleaving_of_session_two :
    let cycle : Cycle := ⟨[.nan], List.cons_ne_nil _ _, 0⟩
    let w : World :=
      { ambient := .ofSeed 0, named := [("own", .cycle cycle)], logger := {}, fallback := 0 }
    let request := Request.sample (.upTo .second)
    let seeded := [Step.reseed 7, .draw request .ambient 1]
    let pausing := [Step.configure "INFO", .pause { span := .zero }, .draw request (.named "own") 1]
    let rows := fun c : Bool => if c then seeded else pausing
    let merged : List (Bool × Step) :=
      [(false, .configure "INFO"), (true, .reseed 7), (false, .pause { span := .zero }),
        (true, .draw request .ambient 1), (false, .draw request (.named "own") 1)]
    Session.IsInterleaving rows merged ∧
      Session.repliesTo true w merged = Session.replies { w with fallback := 1 } seeded ∧
      Session.repliesTo false w merged = Session.replies { w with fallback := 1 } pausing := by
  intro cycle w request seeded pausing rows merged
  have hmerged : Session.IsInterleaving rows merged := by
    intro c
    cases c <;> decide
  have hseeded : ∀ step ∈ seeded, step.resource? w = some .ambient := by decide
  have hpausing : ∀ step ∈ pausing, step.resource? w ≠ some .ambient := by decide
  have hspares : ∀ r, Session.Spares w r seeded ∨ Session.Spares w r pausing := by
    intro r
    by_cases hr : r = .ambient
    · right
      rw [hr]
      exact hpausing
    · left
      intro step hstep hshared
      exact hr (Option.some.inj (hshared.symm.trans (hseeded step hstep)))
  have hapart : ∀ c d, c ≠ d → Session.Apart w (rows c) (rows d) := by
    intro c d hne
    cases c with
    | true =>
      cases d with
      | true => exact absurd rfl hne
      | false => exact hspares
    | false =>
      cases d with
      | true => exact fun r => (hspares r).symm
      | false => exact absurd rfl hne
  have hdetermined : ∀ c, ∀ step ∈ rows c, step.Determined := by
    intro c
    cases c with
    | true => exact List.forall_mem_cons.2 ⟨trivial, List.forall_mem_singleton.2 trivial⟩
    | false =>
      have hpause : (Step.pause { span := .zero }).Determined := Or.inr rfl
      exact List.forall_mem_cons.2
        ⟨trivial, List.forall_mem_cons.2 ⟨hpause, List.forall_mem_singleton.2 trivial⟩⟩
  obtain ⟨hreplies, -⟩ := interleaving_of_session w hapart hdetermined hmerged 1
  exact ⟨hmerged, hreplies true, hreplies false⟩

end RandomDelay
