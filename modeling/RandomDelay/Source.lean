import RandomDelay.Source.Cycle
import RandomDelay.Source.Twister

/-!
# Sources of random numbers

A source gives one number for each draw and changes with it: a Mersenne Twister gives uniform
numbers of `[0, 1)`, a cycle any numbers at all. What is computed with draws from a source is its
result or failure together with the source as it is afterwards (`Drawn`); a failure does not give
draws back.
-/

set_option autoImplicit false

namespace RandomDelay

/-- A source of random numbers. -/
inductive Source where
  | twister (state : Twister)
  | cycle (state : Cycle)

namespace Source

/-- Source of uniform numbers that starts from a seed. -/
def ofSeed (seed : Int) : Source := .twister (.ofSeed seed)

/-- Next number, and the source after it. -/
def next : Source → Binary64 × Source
  | .twister state => let (r, state) := state.uniform; (r, .twister state)
  | .cycle state => let (r, state) := state.next; (r, .cycle state)

/-- Count of the numbers that a cycle has given; generators do not keep one. -/
def drawn? : Source → Option Nat
  | .twister _ => none
  | .cycle state => some state.drawn

end Source

/-- Result of a computation that draws, and the source after it. -/
abbrev Drawn (α : Type) := Except Failure α × Source

namespace Drawn

/-- Further steps that draw nothing. -/
def andThen {α β : Type} (d : Drawn α) (f : α → Except Failure β) : Drawn β := (d.1.bind f, d.2)

/-- Further computation on the result. -/
def map {α β : Type} (f : α → β) (d : Drawn α) : Drawn β := (d.1.map f, d.2)

/-- Results of the same computation `n` times in turn on one source, up to the first failure. -/
def repeated {α : Type} (draw : Source → Drawn α) : Nat → Source → Drawn (List α)
  | 0, source => (.ok [], source)
  | n + 1, source =>
    match draw source with
    | (.error failure, source) => (.error failure, source)
    | (.ok a, source) => (repeated draw n source).map (a :: ·)

theorem repeated_succ_of_ok {α : Type} {draw : Source → Drawn α} {source next : Source} {a : α}
    (h : draw source = (.ok a, next)) (n : Nat) :
    repeated draw (n + 1) source = (repeated draw n next).map (a :: ·) := by
  simp only [repeated, h]

theorem repeated_succ_of_error {α : Type} {draw : Source → Drawn α} {source next : Source}
    {failure : Failure} (h : draw source = (.error failure, next)) (n : Nat) :
    repeated draw (n + 1) source = (.error failure, next) := by
  simp only [repeated, h]

end Drawn

end RandomDelay
