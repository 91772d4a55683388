import RandomDelay.Failure

/-!
# Outcomes of computations that may fail

A computation that went through is taken apart into its steps: `bind_eq_ok` for two of them in turn,
`map_eq_ok` where the result of one is told in other terms, and `mapError_eq_ok` where its failure
is. A row of steps that are refused for what they are, whatever came before them, ends with the
first one that is (`foldlM_eq_error_iff`).
-/

set_option autoImplicit false

namespace RandomDelay.Outcome

variable {ε ε' α β : Type}

theorem bind_eq_ok {x : Except ε α} {f : α → Except ε β} {b : β} :
    x >>= f = .ok b ↔ ∃ a, x = .ok a ∧ f a = .ok b := by
  constructor
  · intro h
    cases x with
    | error e => cases h
    | ok a => exact ⟨a, rfl, h⟩
  · rintro ⟨a, rfl, h⟩
    exact h

/-- What follows a computation counts only for its results. -/
theorem bind_congr_of_ok {x : Except ε α} {f g : α → Except ε β}
    (h : ∀ a, x = .ok a → f a = g a) : x >>= f = x >>= g := by
  cases x with
  | error e => rfl
  | ok a => exact h a rfl

theorem mapError_eq_ok {x : Except ε α} {f : ε → ε'} {a : α} :
    x.mapError f = .ok a ↔ x = .ok a := by
  cases x with
  | error e =>
    constructor
    · intro h
      cases h
    · intro h
      cases h
  | ok b =>
    constructor
    · intro h
      exact congrArg Except.ok (Except.ok.inj h)
    · rintro ⟨⟩
      rfl

theorem map_eq_ok {x : Except ε α} {f : α → β} {b : β} :
    x.map f = .ok b ↔ ∃ a, x = .ok a ∧ f a = b := by
  constructor
  · intro h
    cases x with
    | error e => cases h
    | ok a => exact ⟨a, rfl, Except.ok.inj h⟩
  · rintro ⟨a, rfl, rfl⟩
    rfl

theorem map_eq_error {x : Except ε α} {f : α → β} {e : ε} :
    x.map f = .error e ↔ x = .error e := by
  constructor
  · intro h
    cases x with
    | error first => exact congrArg Except.error (Except.error.inj h)
    | ok a => cases h
  · rintro ⟨⟩
    rfl

/-- Where the steps of a fold fail regardless of the state, the fold fails with the first that
does. -/
theorem foldlM_eq_error_iff {step : β → α → Except ε β} {refusal? : α → Option ε}
    (hstep : ∀ state a error, step state a = .error error ↔ refusal? a = some error) (as : List α)
    (state : β) (error : ε) :
    as.foldlM step state = .error error ↔ as.findSome? refusal? = some error := by
  induction as generalizing state with
  | nil =>
    constructor
    · intro h
      cases h
    · intro h
      cases h
  | cons a rest ih =>
    rw [List.foldlM_cons]
    cases ha : refusal? a with
    | some first =>
      rw [(hstep state a first).2 ha, List.findSome?_cons_of_isSome (by simp [ha]), ha]
      constructor
      · rintro ⟨⟩
        rfl
      · rintro ⟨⟩
        rfl
    | none =>
      rw [List.findSome?_cons_of_isNone (by simp [ha])]
      cases hnext : step state a with
      | error first =>
        rw [hstep, ha] at hnext
        cases hnext
      -- the state has changed, and later refusals do not depend on it
      | ok next => exact ih next

/-- What the last member of a row that gives something gives; the fallback where none does. -/
def lastGiven (give? : α → Option β) (fallback : β) (row : List α) : β :=
  (row.filterMap give?).getLast?.getD fallback

/-- The end of a row decides, if it gives something. -/
theorem lastGiven_append (give? : α → Option β) (fallback : β) (row : List α) (a : α) :
    lastGiven give? fallback (row ++ [a]) = (give? a).getD (lastGiven give? fallback row) := by
  rw [lastGiven, List.filterMap_append]
  cases ha : give? a with
  | none => rw [List.filterMap_cons_none ha, List.filterMap_nil, List.append_nil]; rfl
  | some b => rw [List.filterMap_cons_some ha, List.filterMap_nil, List.getLast?_concat]; rfl

/-- Where something is given, what is given last is given by a member of the row. -/
theorem exists_lastGiven (give? : α → Option β) {row : List α} {a : α} {b : β} (ha : a ∈ row)
    (hb : give? a = some b) (fallback : β) :
    ∃ c ∈ row, give? c = some (lastGiven give? fallback row) := by
  have hmem : b ∈ row.filterMap give? := List.mem_filterMap.2 ⟨a, ha, hb⟩
  rw [lastGiven, List.getLast?_eq_some_getLast (List.ne_nil_of_mem hmem)]
  exact List.mem_filterMap.1 (List.getLast_mem _)

/-- What holds of the fallback and of everything that may be given holds of what is. -/
theorem lastGiven_of_forall {P : β → Prop} {give? : α → Option β} {fallback : β}
    (hfallback : P fallback) (hgive : ∀ a b, give? a = some b → P b) (row : List α) :
    P (lastGiven give? fallback row) := by
  rw [lastGiven]
  cases hlast : (row.filterMap give?).getLast? with
  | none => exact hfallback
  | some b =>
    obtain ⟨a, -, ha⟩ := List.mem_filterMap.1 (List.mem_of_getLast? hlast)
    exact hgive a b ha

end RandomDelay.Outcome
