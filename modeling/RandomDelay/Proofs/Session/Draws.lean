import RandomDelay.Proofs.Interval.Bounds
import RandomDelay.Proofs.Outcome
import RandomDelay.Session

/-!
# Draws in the course of a session

A request comes to sample an interval, or fails before that (`Request.sampled`); it draws exactly if
it comes to sample an interval of at least one microsecond (`Request.draws`). Its result is a matter
of the next number of the source alone (`Request.outcome`), and whatever that number is, and whether
or not it makes the request fail, a request that draws uses up this one number
(`Request.perform_eq`).

In a row of requests that share a cycle, the count of the cycle is therefore the number of requests
so far that draw, and request for request it tells which number of the cycle is used
(`draws_of_session`).
-/

set_option autoImplicit false

namespace RandomDelay

/-! ## Drawn results -/

namespace Drawn

variable {α β γ : Type}

theorem map_eq_andThen (d : Drawn α) (f : α → β) : d.map f = d.andThen fun a => .ok (f a) := by
  obtain ⟨result, source⟩ := d
  cases result with
  | error failure => rfl
  | ok a => rfl

theorem map_map (d : Drawn α) (f : α → β) (g : β → γ) : (d.map f).map g = d.map (g ∘ f) := by
  obtain ⟨result, source⟩ := d
  cases result with
  | error failure => rfl
  | ok a => rfl

theorem map_andThen (d : Drawn α) (f : α → Except Failure β) (g : β → γ) :
    (d.andThen f).map g = d.andThen fun a => (f a).map g := by
  obtain ⟨result, source⟩ := d
  cases result with
  | error failure => rfl
  | ok a => rfl

theorem repeated_one (draw : Source → Drawn α) (source : Source) :
    repeated draw 1 source = (draw source).map ([·]) := by
  cases hdraw : draw source with
  | mk result next =>
    cases result with
    | error failure =>
      rw [repeated_succ_of_error hdraw]
      rfl
    | ok a =>
      rw [repeated_succ_of_ok hdraw]
      rfl

end Drawn

/-- A sample is a matter of the next number, which is used up if the interval has a width. -/
theorem Interval.sample_eq (i : Interval) (source : Source) :
    i.sample source =
      ((i.sample (.constant source.next.1)).1,
        if 1 ≤ i.span.micros then source.next.2 else source) := by
  by_cases hspan : 1 ≤ i.span.micros
  · rw [sample_of_span_pos hspan, sample_of_span_pos hspan, if_pos hspan]
    rfl
  · have hzero : i.span.micros = 0 := by
      have := i.span_nonneg
      omega
    rw [sample_of_span_zero hzero, sample_of_span_zero hzero, if_neg hspan]

theorem Interval.sampleAt_nan (i : Interval) : i.sampleAt .nan = .error .notANumber := by
  have hproduct : (Binary64.ofInt i.span.micros).mul .nan = .nan := by
    cases Binary64.ofInt i.span.micros <;> rfl
  rw [sampleAt, offset, hproduct]
  rfl

/-! ## Requests -/

namespace Request

/-- Interval that a request comes to sample, or the failure before that. -/
def sampled : Request → Except Failure Interval
  | .sample form | .delayed form _ | .deferred form _ | .advanced form _ => form.interval
  | .spread s => s.interval.map Prod.snd

/-- Whether a request draws a number: it comes to sample an interval of at least one microsecond. -/
def draws (r : Request) : Bool :=
  match r.sampled with
  | .ok i => decide (1 ≤ i.span.micros)
  | .error _ => false

/-- Result of a request on a source, and the source after it. -/
def perform (r : Request) (source : Source) : Drawn Value :=
  match r.computation with
  | .ok computation => computation source
  | .error failure => (.error failure, source)

/-- Result of a request if the next number is the given one. -/
def outcome (r : Request) (x : Binary64) : Except Failure Value := (r.perform (.constant x)).1

/-- A request that fails before it samples leaves the source alone. -/
theorem perform_of_error {r : Request} {failure : Failure} (h : r.sampled = .error failure)
    (source : Source) : r.perform source = (.error failure, source) := by
  cases r with
  | spread s =>
    -- the bounds of a spread are part of its computation, which is there in any case
    have hinterval : s.interval = .error failure := Outcome.map_eq_error.1 h
    simp only [perform, computation, Spread.draw, hinterval]
    rfl
  | sample form | delayed form d | deferred form t | advanced form clock =>
    have hinterval : form.interval = .error failure := h
    rw [perform, computation, hinterval]
    rfl

/-- Otherwise it is a sample, which is worked on without any draws. -/
theorem exists_finish {r : Request} {i : Interval} (h : r.sampled = .ok i) :
    ∃ finish : Duration → Except Failure Value, ∀ source,
      r.perform source = (i.sample source).andThen finish := by
  cases r with
  | sample form =>
    have hinterval : form.interval = .ok i := h
    refine ⟨fun v => .ok (.duration v), fun source => ?_⟩
    rw [← Drawn.map_eq_andThen, perform, computation, hinterval]
    rfl
  | delayed form d =>
    have hinterval : form.interval = .ok i := h
    refine ⟨fun v => .ok (.duration (v.saturatingAdd d)), fun source => ?_⟩
    rw [perform, computation, hinterval]
    exact (Drawn.map_map _ _ _).trans (Drawn.map_eq_andThen _ _)
  | deferred form t =>
    have hinterval : form.interval = .ok i := h
    refine ⟨fun v => .ok (.instant (t.saturatingAdd v)), fun source => ?_⟩
    rw [perform, computation, hinterval]
    exact (Drawn.map_map _ _ _).trans (Drawn.map_eq_andThen _ _)
  | advanced form clock =>
    have hinterval : form.interval = .ok i := h
    refine ⟨fun v => ((Interval.reading clock v).mapError .arithmetic).map .seconds,
      fun source => ?_⟩
    rw [perform, computation, hinterval]
    exact Drawn.map_andThen _ _ _
  | spread s =>
    obtain ⟨⟨lower, j⟩, hs, rfl⟩ := Outcome.map_eq_ok.1 h
    refine ⟨fun v => ((Interval.reading lower v).mapError .arithmetic).map .seconds,
      fun source => ?_⟩
    simp only [perform, computation, Spread.draw, hs]
    exact Drawn.map_andThen _ _ _

/-- A request has the outcome for the next number of the source, and uses that number up if it
draws, whether it fails or not. -/
theorem perform_eq (r : Request) (source : Source) :
    r.perform source = (r.outcome source.next.1, if r.draws then source.next.2 else source) := by
  cases h : r.sampled with
  | error failure =>
    have hdraws : r.draws = false := by rw [draws, h]
    rw [outcome, perform_of_error h, perform_of_error h, hdraws]
    rfl
  | ok i =>
    have hdraws : r.draws = decide (1 ≤ i.span.micros) := by rw [draws, h]
    obtain ⟨finish, hfinish⟩ := exists_finish h
    rw [outcome, hfinish, hfinish, hdraws, i.sample_eq source]
    simp only [Drawn.andThen, decide_eq_true_eq]

/-- Without a draw the numbers do not matter. -/
theorem outcome_of_not_draws {r : Request} (h : r.draws = false) (x y : Binary64) :
    r.outcome x = r.outcome y := by
  cases hsampled : r.sampled with
  | error failure => rw [outcome, outcome, perform_of_error hsampled, perform_of_error hsampled]
  | ok i =>
    have hzero : i.span.micros = 0 := by
      have := i.span_nonneg
      rw [draws, hsampled, decide_eq_false_iff_not] at h
      omega
    obtain ⟨finish, hfinish⟩ := exists_finish hsampled
    rw [outcome, outcome, hfinish, hfinish, Interval.sample_of_span_zero hzero,
      Interval.sample_of_span_zero hzero]
    rfl

theorem draws_eq_true_iff {r : Request} :
    r.draws = true ↔ ∃ i, r.sampled = .ok i ∧ 1 ≤ i.span.micros := by
  rw [draws]
  cases r.sampled with
  | error failure => simp
  | ok i => simp

/-- A request that draws what is not a number fails for that. -/
theorem outcome_nan {r : Request} (h : r.draws = true) :
    r.outcome .nan = .error (.arithmetic .notANumber) := by
  obtain ⟨i, hsampled, hspan⟩ := draws_eq_true_iff.1 h
  obtain ⟨finish, hfinish⟩ := exists_finish hsampled
  have hsample : (i.sample (.constant .nan)).1 = .error (.arithmetic .notANumber) := by
    rw [Interval.sample_of_span_pos hspan]
    exact congrArg (Except.mapError Failure.arithmetic) i.sampleAt_nan
  rw [outcome, hfinish, Drawn.andThen, hsample]
  rfl

end Request

/-! ## Sources with names -/

namespace World

theorem lookup_withNamed {w : World} {name : String} {source : Source}
    (h : w.named.lookup name = some source) (next : Source) :
    (w.withNamed name next).named.lookup name = some next := by
  suffices hreplaced : ∀ named : List (String × Source), named.lookup name = some source →
      (named.map fun entry => if entry.1 = name then (name, next) else entry).lookup name =
        some next from
    hreplaced w.named h
  intro named
  induction named with
  | nil =>
    intro h
    cases h
  | cons entry rest ih =>
    intro h
    obtain ⟨other, first⟩ := entry
    by_cases hname : other = name
    · simp [hname]
    · have hbeq : (name == other) = false := by simp [Ne.symm hname]
      rw [List.lookup_cons, hbeq] at h
      simpa [hname, List.lookup_cons, hbeq] using ih h

/-- Sources with other names are left as they are. -/
theorem lookup_withNamed_of_ne (w : World) {name other : String} (h : other ≠ name)
    (next : Source) :
    (w.withNamed name next).named.lookup other = w.named.lookup other := by
  suffices hkept : ∀ named : List (String × Source),
      (named.map fun entry => if entry.1 = name then (name, next) else entry).lookup other =
        named.lookup other from
    hkept w.named
  intro named
  induction named with
  | nil => rfl
  | cons entry rest ih =>
    obtain ⟨first, source⟩ := entry
    by_cases hname : first = name
    · have hbeq : (other == name) = false := by simp [h]
      simp [hname, List.lookup_cons, hbeq, ih]
    · simp [hname, List.lookup_cons, ih]

theorem lookup_drawn {w : World} {name : String} {c : Cycle}
    (h : w.named.lookup name = some (.cycle c)) : w.drawn.lookup name = some c.drawn := by
  -- by induction on the row of sources, which is only a part of the world
  suffices hcounted : ∀ named : List (String × Source), named.lookup name = some (.cycle c) →
      (named.filterMap fun entry => entry.2.drawn?.map (entry.1, ·)).lookup name = some c.drawn from
    hcounted w.named h
  intro named
  induction named with
  | nil =>
    intro h
    cases h
  | cons entry rest ih =>
    intro h
    obtain ⟨other, first⟩ := entry
    by_cases hname : other = name
    · subst hname
      rw [List.lookup_cons_self, Option.some.injEq] at h
      subst h
      simp [Source.drawn?]
    · have hbeq : (name == other) = false := by simp [Ne.symm hname]
      rw [List.lookup_cons, hbeq] at h
      cases first with
      | twister state => simpa [Source.drawn?] using ih h
      | cycle state => simpa [Source.drawn?, List.lookup_cons, hbeq] using ih h

end World

/-- One request on a source with a name has the outcome for its next number, and leaves the source
with or without that number, depending on whether it draws. -/
theorem Step.run_draw_named {w : World} {name : String} {source : Source}
    (h : w.named.lookup name = some source) (r : Request) :
    ((Step.draw r (.named name) 1).run w).1 =
        .ofExcept .values ((r.outcome source.next.1).map ([·])) ∧
      ((Step.draw r (.named name) 1).run w).2.named.lookup name =
        some (if r.draws then source.next.2 else source) := by
  have hperform := r.perform_eq source
  cases hcomputation : r.computation with
  | error failure =>
    -- the world is left alone, and so the source is still the one of the name
    rw [Request.perform, hcomputation, Prod.mk.injEq] at hperform
    rw [Step.run, hcomputation, ← hperform.1, ← hperform.2]
    exact ⟨rfl, h⟩
  | ok computation =>
    have hrun : (Step.draw r (.named name) 1).run w =
        (.ofExcept .values ((computation source).1.map ([·])),
          w.withNamed name (computation source).2) := by
      rw [Step.run, hcomputation]
      simp only [World.drawing, h, Drawn.repeated_one]
      rfl
    simp only [Request.perform, hcomputation] at hperform
    rw [hrun, hperform]
    exact ⟨rfl, World.lookup_withNamed h _⟩

/-! ## Sessions -/

namespace Session

theorem length_replies (w : World) (steps : List Step) : (run w steps).1.length = steps.length := by
  induction steps generalizing w with
  | nil => rfl
  | cons step rest ih => exact congrArg Nat.succ (ih (step.run w).2)

/-- Each reply is the one of its step in the world that the steps before it leave. -/
theorem getElem?_replies (w : World) (steps : List Step) (k : Nat) :
    (run w steps).1[k]? = steps[k]?.map fun step =>
      ((step.run (run w (steps.take k)).2).1, (step.run (run w (steps.take k)).2).2.drawn) := by
  induction steps generalizing w k with
  | nil => rfl
  | cons step rest ih =>
    cases k with
    | zero => rfl
    | succ k => exact ih (step.run w).2 k

/-- Requests that share a cycle advance it once for each of them that draws. -/
theorem lookup_run_draws {w : World} {name : String} {c : Cycle}
    (h : w.named.lookup name = some (.cycle c)) (requests : List Request) :
    (run w (requests.map fun r => .draw r (.named name) 1)).2.named.lookup name =
      some (.cycle { c with drawn := c.drawn + requests.countP Request.draws }) := by
  -- the first request leaves a cycle under the name again, from which the rest goes on
  induction requests generalizing w c with
  | nil => exact h
  | cons r rest ih =>
    obtain ⟨-, hnext⟩ := Step.run_draw_named h r
    cases hdraws : r.draws with
    | false =>
      rw [hdraws] at hnext
      rw [List.countP_cons_of_neg (by simp [hdraws])]
      exact ih hnext
    | true =>
      rw [hdraws] at hnext
      rw [List.countP_cons_of_pos hdraws, Nat.add_comm _ 1, ← Nat.add_assoc]
      exact ih hnext

end Session

/-- In every row of requests that share a cycle with a name, the cycle has counted as many numbers
as there were requests so far that draw. Each of them has the outcome for the number at this place
of the cycle, and is counted even if it fails; the others have the same outcome whatever the number,
and leave the cycle as it is. -/
theorem draws_of_session {w : World} {name : String} {values : List Binary64} (hne : values ≠ [])
    (h : w.named.lookup name = some (.cycle ⟨values, hne, 0⟩)) (requests : List Request) :
    let steps := requests.map fun r => Step.draw r (.named name) 1
    let used := fun k => (requests.take k).countP Request.draws
    (Session.run w steps).2.named.lookup name =
        some (.cycle ⟨values, hne, requests.countP Request.draws⟩) ∧
      (Session.run w steps).1.length = requests.length ∧
      ∀ (k : Nat) (r : Request), requests[k]? = some r →
        ∃ (reply : Reply) (counts : List (String × Nat)),
          (Session.run w steps).1[k]? = some (reply, counts) ∧
          reply = .ofExcept .values ((r.outcome (values.get
            ⟨used k % values.length, Nat.mod_lt _ (List.length_pos_iff.2 hne)⟩)).map ([·])) ∧
          counts.lookup name = some (if r.draws then used k + 1 else used k) ∧
          (r.draws = false → ∀ x, reply = .ofExcept .values ((r.outcome x).map ([·]))) ∧
          ∀ failure, r.sampled = .error failure → reply = .failed failure := by
  intro steps used
  refine ⟨?_, ?_, ?_⟩
  · simpa using Session.lookup_run_draws h requests
  · rw [Session.length_replies, List.length_map]
  intro k r hr
  -- what the requests before this one have left of the cycle
  have hreached := Session.lookup_run_draws h (requests.take k)
  rw [Nat.zero_add, List.map_take] at hreached
  obtain ⟨hreply, hafter⟩ := Step.run_draw_named hreached r
  have hk := Session.getElem?_replies w steps k
  rw [List.getElem?_map, hr] at hk
  refine ⟨_, _, hk, hreply, ?_, ?_, ?_⟩
  · cases hdraws : r.draws with
    | false =>
      rw [hdraws] at hafter
      exact World.lookup_drawn hafter
    | true =>
      rw [hdraws] at hafter
      exact World.lookup_drawn hafter
  · intro hdraws x
    rw [r.outcome_of_not_draws hdraws x]
    exact hreply
  · intro failure hsampled
    rw [Request.outcome, Request.perform_of_error hsampled] at hreply
    exact hreply

/-- Two requests that draw what is not a number fail, and are counted; no jitter and a spread
without width between them are not. -/
theorem draws_of_session_failing :
    let cycle : Cycle := ⟨[.nan], List.cons_ne_nil _ _, 0⟩
    let w : World :=
      { ambient := .ofSeed 0, named := [("shared", .cycle cycle)], logger := {}, fallback := 0 }
    let failing := Request.sample (.upTo .longest)
    let requests := [failing, .sample .noJitter, .spread { width := .whole 0 }, failing]
    (Session.run w (requests.map fun r => .draw r (.named "shared") 1)).2.named.lookup "shared" =
        some (.cycle { cycle with drawn := 2 }) ∧
      ∃ counts, (Session.run w (requests.map fun r => .draw r (.named "shared") 1)).1[3]? =
          some (.failed (.arithmetic .notANumber), counts) ∧
        counts.lookup "shared" = some 2 := by
  intro cycle w failing requests
  have hshared : w.named.lookup "shared" = some (.cycle cycle) := List.lookup_cons_self
  have hdraws : failing.draws = true := by decide
  obtain ⟨hleft, -, heach⟩ := draws_of_session cycle.nonempty hshared requests
  have hused : requests.countP Request.draws = 2 := by decide
  have hbefore : (requests.take 3).countP Request.draws = 1 := by decide
  obtain ⟨reply, counts, hreply, houtcome, hcounts, -⟩ := heach 3 failing rfl
  have hnan : ∀ j, cycle.values.get j = .nan :=
    fun j => List.eq_of_mem_singleton (List.get_mem cycle.values j)
  rw [hnan, Request.outcome_nan hdraws] at houtcome
  rw [hused] at hleft
  simp only [hdraws, hbefore, if_true] at hcounts
  exact ⟨hleft, counts, hreply.trans (by rw [houtcome]; rfl), hcounts⟩

end RandomDelay
