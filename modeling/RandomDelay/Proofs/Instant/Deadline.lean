import RandomDelay.Proofs.Instant.Order

/-!
# Deadlines after several delays

Durations that are not negative act on the instants: to wait for one and then for another leads to
the same instant as to wait for their sum (`Instant.saturatingAdd_saturatingAdd`). An instant is
never earlier than what it was put off from, and the latest instant stays where it is; and the
longest duration is longer than all the years of the calendar, so a sum that saturates leads to the
latest instant as its exact value would.

A row of delays may therefore be summed up in parts of any length, and the deadline stays the same
(`Instant.after_combined`, `Instant.saturatingAdd_in_parts`).
-/

set_option autoImplicit false

namespace RandomDelay

/-- Sum of a row of durations, each of which is added to the sum of those after it. -/
def Duration.combined : List Duration → Duration
  | [] => .zero
  | d :: rest => d.saturatingAdd (combined rest)

theorem Duration.combined_nonneg {delays : List Duration} (h : ∀ d ∈ delays, 0 ≤ d.micros) :
    0 ≤ (combined delays).micros := by
  induction delays with
  | nil => exact le_rfl
  | cons d rest ih =>
    obtain ⟨hd, hrest⟩ := List.forall_mem_cons.1 h
    exact saturatingAdd_nonneg hd (ih hrest)

namespace Instant

/-- Instant that is reached by waiting for one duration after the other. -/
def after (t : Instant) (delays : List Duration) : Instant := delays.foldl saturatingAdd t

variable {a b c : Duration} {delays : List Duration}

theorem after_cons (t : Instant) (d : Duration) (rest : List Duration) :
    t.after (d :: rest) = (t.saturatingAdd d).after rest := List.foldl_cons ..

theorem after_append (t : Instant) (delays others : List Duration) :
    t.after (delays ++ others) = (t.after delays).after others := List.foldl_append

/-- The whole calendar is shorter than the longest duration. -/
theorem position_latest_le_longest (offset : Option Duration) :
    ((latest offset).position : ℤ) ≤ Duration.longest.micros := by
  have hend := position_latest offset
  have hlong : ((Calendar.daysBeforeYear 10000 * Duration.microsPerDay : ℕ) : ℤ) ≤
      Duration.longest.micros := by decide
  omega

/-- Two delays lead to the same instant as their sum. -/
theorem saturatingAdd_saturatingAdd (t : Instant) (ha : 0 ≤ a.micros) (hb : 0 ≤ b.micros) :
    (t.saturatingAdd a).saturatingAdd b = t.saturatingAdd (a.saturatingAdd b) := by
  obtain ⟨-, hoffset, -⟩ := t.position_saturatingAdd a
  obtain ⟨-, hoffset', hrepeated'⟩ := (t.saturatingAdd a).position_saturatingAdd b
  obtain ⟨-, hoffset'', hrepeated''⟩ := t.position_saturatingAdd (a.saturatingAdd b)
  apply eq_of_position_eq
  · have hfirst := t.position_saturatingAdd_of_nonneg ha
    have hsecond := (t.saturatingAdd a).position_saturatingAdd_of_nonneg hb
    have hsum := t.position_saturatingAdd_of_nonneg (Duration.saturatingAdd_nonneg ha hb)
    have hcalendar := position_latest_le_longest t.offset
    -- each of the three sums is cut at a limit, and no later sum can tell where
    rw [hoffset] at hsecond
    rw [Duration.micros_saturatingAdd_of_nonneg ha] at hsum
    omega
  · rw [hoffset', hoffset, hoffset'']
  · rw [hrepeated', hrepeated'']

/-- A row of delays leads to the same instant as its sum. With no delay in the row, the instant
itself would be reached, while a sum takes the mark of a second passage off. -/
theorem after_combined (t : Instant) (hne : delays ≠ []) (h : ∀ d ∈ delays, 0 ≤ d.micros) :
    t.saturatingAdd (Duration.combined delays) = t.after delays := by
  -- the instant is general, for the rest of the row is waited from where the first delay leads
  induction delays generalizing t with
  | nil => exact absurd rfl hne
  | cons d rest ih =>
    obtain ⟨hd, hrest⟩ := List.forall_mem_cons.1 h
    cases rest with
    | nil => exact congrArg t.saturatingAdd d.saturatingAdd_zero
    | cons e others =>
      have hothers := Duration.combined_nonneg hrest
      rw [Duration.combined, ← t.saturatingAdd_saturatingAdd hd hothers, after_cons]
      exact ih (t.saturatingAdd d) (List.cons_ne_nil e others) hrest

/-- Parts of a row of delays may be summed up. -/
theorem after_map_combined (t : Instant) {parts : List (List Duration)}
    (h : ∀ part ∈ parts, part ≠ [] ∧ ∀ d ∈ part, 0 ≤ d.micros) :
    t.after (parts.map Duration.combined) = t.after parts.flatten := by
  induction parts generalizing t with
  | nil => rfl
  | cons part rest ih =>
    obtain ⟨⟨hne, hpart⟩, hrest⟩ := List.forall_mem_cons.1 h
    rw [List.map_cons, List.flatten_cons, after_cons, after_append, t.after_combined hne hpart]
    exact ih (t.after part) hrest

/-- Delays that are not negative may be added to an instant one after the other or as their sum, and
durations may be added to each other in any grouping, also where some of the sums saturate. So a row
of delays leads to one deadline, into whatever parts it is split, each of which is summed up
before. -/
theorem saturatingAdd_in_parts (t : Instant) (ha : 0 ≤ a.micros) (hb : 0 ≤ b.micros)
    (hc : 0 ≤ c.micros) :
    (t.saturatingAdd a).saturatingAdd b = t.saturatingAdd (a.saturatingAdd b) ∧
    (a.saturatingAdd b).saturatingAdd c = a.saturatingAdd (b.saturatingAdd c) ∧
    ∀ parts : List (List Duration), (∀ part ∈ parts, part ≠ [] ∧ ∀ d ∈ part, 0 ≤ d.micros) →
      t.after (parts.map Duration.combined) = t.after parts.flatten := by
  refine ⟨?_, ?_, ?_⟩
  · exact t.saturatingAdd_saturatingAdd ha hb
  · exact Duration.saturatingAdd_assoc ha hb hc
  · intro parts hparts
    exact t.after_map_combined hparts

/-- From the second passage of the last second but one before a leap day, with sums on both sides of
both limits. -/
theorem saturatingAdd_in_parts_leapDay :
    let t : Instant := ⟨⟨2024, 2, 28, by decide⟩, ⟨23, 59, 58, 0, by decide⟩, some .second, true⟩
    (t.saturatingAdd .second).saturatingAdd .longest =
      t.saturatingAdd (Duration.second.saturatingAdd .longest) ∧
      (Duration.second.saturatingAdd .longest).saturatingAdd .longest =
        Duration.second.saturatingAdd (Duration.longest.saturatingAdd .longest) ∧
      t.after [Duration.combined [.second, .second], Duration.combined [.longest, .longest]] =
        t.after [.second, .second, .longest, .longest] := by
  intro t
  have hsecond : 0 ≤ Duration.second.micros := by decide
  have hlongest : 0 ≤ Duration.longest.micros := by decide
  obtain ⟨haction, hassoc, hparts⟩ := saturatingAdd_in_parts t hsecond hlongest hlongest
  refine ⟨haction, hassoc, hparts [[.second, .second], [.longest, .longest]] ?_⟩
  simp [hsecond, hlongest]

end Instant

end RandomDelay
