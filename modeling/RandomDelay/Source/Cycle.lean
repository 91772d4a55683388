import RandomDelay.Failure

/-!
# Cycles of given numbers

A source that gives a fixed list of numbers over and over and counts how many it has given. Draw
`i`, counted from zero, is the number at place `i` modulo the length of the list.
-/

set_option autoImplicit false

namespace RandomDelay

/-- A list of numbers to give, at least one, and the count of those already given. -/
structure Cycle where
  values : List Binary64
  nonempty : values ≠ []
  drawn : Nat
deriving DecidableEq

namespace Cycle

/-- Cycle through a list of numbers from its start; a list without numbers is refused. -/
def ofValues (values : List Binary64) : Except Failure Cycle :=
  if h : values ≠ [] then .ok ⟨values, h, 0⟩ else .error .noValues

/-- Number that is given next. -/
def current (c : Cycle) : Binary64 :=
  c.values.get ⟨c.drawn % c.values.length, Nat.mod_lt _ (List.length_pos_iff.2 c.nonempty)⟩

/-- Next number, and the cycle with it counted. -/
def next (c : Cycle) : Binary64 × Cycle := (c.current, { c with drawn := c.drawn + 1 })

end Cycle

end RandomDelay
