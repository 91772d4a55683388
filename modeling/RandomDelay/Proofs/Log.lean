import Mathlib.Data.List.Induction
import RandomDelay.Log
import RandomDelay.Proofs.Outcome

/-!
# Rows of configurations

A logger starts without a level and without a handler. However many names it is configured by, what
it has become is told by two things (`configured_fresh`): whether there was a name at all, for the
first one makes the only handler, known name or not; and the level of the last known name
(`Level.lastKnown`), which the logger and its handler share.

A record of the level `INFO` then passes both levels or neither, and is written once or not at all
(`written_configured_fresh`). Where the handlers of any logger share its level, they too write a
record together or not at all (`written_atLevel`).
-/

set_option autoImplicit false

namespace RandomDelay

namespace Level

/-- Level of the last name in a row that has one, or no level. -/
def lastKnown (names : List String) : Level := Outcome.lastGiven ofName? unset names

theorem lastKnown_append (names : List String) (name : String) :
    lastKnown (names ++ [name]) = (ofName? name).getD (lastKnown names) :=
  Outcome.lastGiven_append ofName? unset names name

/-- The levels that have names, and so the only ones that are ever set. -/
theorem ofName?_mem {name : String} {level : Level} (h : ofName? name = some level) :
    level ∈ [0, 10, 20, 30, 40, 50] := by
  rw [ofName?.eq_def] at h
  split at h <;> cases h <;> decide

theorem lastKnown_mem (names : List String) : lastKnown names ∈ [0, 10, 20, 30, 40, 50] :=
  Outcome.lastGiven_of_forall (P := (· ∈ [0, 10, 20, 30, 40, 50])) List.mem_cons_self
    (fun _ _ h => ofName?_mem h) names

end Level

namespace Logger

/-- Logger after it was configured by some names in turn. -/
def configured (l : Logger) (names : List String) : Logger :=
  names.foldl (fun l name => (l.configure name).2) l

theorem configured_append (l : Logger) (earlier later : List String) :
    l.configured (earlier ++ later) = (l.configured earlier).configured later := List.foldl_append

/-- Loggers that write records of the level `INFO`: there is a handler, and the level is `DEBUG` or
`INFO`. -/
def Heeds (l : Logger) : Prop := l.attached ≠ [] ∧ (l.level = 10 ∨ l.level = 20)

instance : DecidablePred Heeds := fun _ => inferInstanceAs (Decidable (_ ∧ _))

/-- Logger with its one handler, both at one level. -/
def withHandler (level : Level) : Logger := ⟨level, [⟨0, level⟩], 1⟩

theorem installed_withHandler (level : Level) :
    (withHandler level).installed = withHandler level := rfl

/-- Configuring a logger with its handler changes no more than the common level. -/
theorem configure_withHandler (level : Level) (name : String) :
    ((withHandler level).configure name).2 = withHandler ((Level.ofName? name).getD level) := by
  cases hname : Level.ofName? name with
  | none =>
    rw [configure_of_no_level hname]
    rfl
  | some next =>
    rw [configure_of_level hname]
    rfl

/-- Configuring the fresh logger makes its handler, also by a name without a level. -/
theorem configure_fresh (name : String) :
    (configure {} name).2 = withHandler ((Level.ofName? name).getD .unset) := by
  cases hname : Level.ofName? name with
  | none =>
    rw [configure_of_no_level hname]
    rfl
  | some next =>
    rw [configure_of_level hname]
    rfl

/-- What a row of configurations makes of the fresh logger: the first one makes the handler, and the
last known name gives the level. -/
theorem configured_fresh (names : List String) :
    configured {} names = if names = [] then {} else withHandler (Level.lastKnown names) := by
  -- the last name decides, so the row is taken apart at its end
  induction names using List.reverseRecOn with
  | nil => rfl
  | append_singleton names name ih =>
    have hne : names ++ [name] ≠ [] :=
      List.append_ne_nil_of_right_ne_nil names (List.cons_ne_nil name [])
    rw [configured_append, ih, if_neg hne, Level.lastKnown_append]
    by_cases hnil : names = []
    · rw [if_pos hnil, hnil]
      exact configure_fresh name
    · rw [if_neg hnil]
      exact configure_withHandler _ name

theorem length_attached_configured_fresh (names : List String) :
    (configured {} names).attached.length ≤ 1 := by
  rw [configured_fresh]
  split
  · exact Nat.zero_le 1
  · exact Nat.le_refl 1

/-- The handler that there is after some names is the one that there is after more. -/
theorem isPrefix_numbers_configured (earlier later : List String) :
    (configured {} earlier).attached.map Handler.number <+:
      (configured {} (earlier ++ later)).attached.map Handler.number := by
  rw [configured_fresh, configured_fresh]
  by_cases hnil : earlier = []
  · rw [if_pos hnil]
    exact List.nil_prefix
  · rw [if_neg hnil, if_neg (List.append_ne_nil_of_left_ne_nil hnil later)]
    exact List.prefix_refl [0]

theorem levels_configured_fresh (names : List String) :
    (configured {} names).level = Level.lastKnown names ∧
      ∀ handler ∈ (configured {} names).attached, handler.level = Level.lastKnown names := by
  rw [configured_fresh]
  by_cases hnil : names = []
  · rw [if_pos hnil, hnil]
    exact ⟨rfl, nofun⟩
  · rw [if_neg hnil]
    exact ⟨rfl, List.forall_mem_singleton.2 rfl⟩

/-- A handler and its logger at one level with a name write every record once, at `DEBUG` and at
`INFO`, or none. -/
theorem written_withHandler {level : Level} (h : level ∈ [0, 10, 20, 30, 40, 50])
    (record : Record) :
    (withHandler level).written record =
      if (withHandler level).Heeds then [record] else [] := by
  simp only [List.mem_cons, List.not_mem_nil, or_false] at h
  rcases h with rfl | rfl | rfl | rfl | rfl | rfl <;> rfl

/-- Whatever handlers there are, at one level with a name each of them writes every record, at
`DEBUG` and at `INFO`, or none of them does. -/
theorem written_atLevel (l : Logger) {level : Level} (h : level ∈ [0, 10, 20, 30, 40, 50])
    (record : Record) :
    (l.atLevel level).written record =
      if level = 10 ∨ level = 20 then l.attached.map fun _ => record else [] := by
  have hwriters : (l.atLevel level).writers =
      if level = 10 ∨ level = 20 then (l.atLevel level).attached else [] := by
    simp only [List.mem_cons, List.not_mem_nil, or_false] at h
    rcases h with rfl | rfl | rfl | rfl | rfl | rfl <;>
      simp [writers, threshold, atLevel, Level.unset, Level.surrounding, Level.info]
  rw [written, hwriters]
  split
  · rw [atLevel, List.map_map]
    rfl
  · rfl

/-- After any configurations a record is written once where the logger heeds it, and else not at
all. -/
theorem written_configured_fresh (names : List String) (record : Record) :
    (configured {} names).written record =
      if (configured {} names).Heeds then [record] else [] := by
  rw [configured_fresh]
  by_cases hnil : names = []
  · rw [if_pos hnil]
    rfl
  · rw [if_neg hnil]
    exact written_withHandler (Level.lastKnown_mem names) record

end Logger

end RandomDelay
