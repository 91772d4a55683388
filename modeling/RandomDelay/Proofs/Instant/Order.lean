import RandomDelay.Proofs.Duration.Saturation
import RandomDelay.Proofs.Instant

/-!
# The order of instants on a wall clock

`Instant.Earlier` compares what the clock shows, from the year down to the microsecond. This is the
order of the positions (`Instant.earlier_iff`); an instant is made up of its position, its offset
and its mark (`Instant.eq_of_position_eq`).

A longer duration leads to no earlier instant, as long as the shorter one does not lead back before
year 1. From there a sum is the latest instant, as a sum of durations that is too short is the
longest duration. `saturatingAdd_order` puts this together for both kinds of sums: it says exactly
when the order is kept, and when a negative duration gives more than what it was added to.
-/

set_option autoImplicit false

namespace RandomDelay

/-! ## What the clock shows -/

namespace TimeOfDay

/-- The first of hour, minute, second and microsecond in which the times differ is smaller in
`t`. -/
def Earlier (t u : TimeOfDay) : Prop :=
  t.hour < u.hour ∨ t.hour = u.hour ∧ (t.minute < u.minute ∨ t.minute = u.minute ∧
    (t.second < u.second ∨ t.second = u.second ∧ t.micro < u.micro))

theorem earlier_iff {t u : TimeOfDay} : t.Earlier u ↔ t.position < u.position := by
  obtain ⟨-, hminute, hsecond, hmicro⟩ := t.valid
  obtain ⟨-, hminute', hsecond', hmicro'⟩ := u.valid
  simp only [Earlier, position]
  omega

end TimeOfDay

namespace Instant

/-- The clock shows an earlier date for `t`, or an earlier time of the same date. -/
def Earlier (t u : Instant) : Prop :=
  t.date.Earlier u.date ∨ t.date = u.date ∧ t.time.Earlier u.time

/-- The clock does not show `u` before `t`. -/
def NoLater (t u : Instant) : Prop := ¬ u.Earlier t

variable {t u : Instant} {d e : Duration}

theorem earlier_iff : t.Earlier u ↔ t.position < u.position := by
  have hdate : t.date = u.date ↔ t.date.dayNumber = u.date.dayNumber :=
    Date.dayNumber_injective.eq_iff.symm
  have htime := t.time.position_lt
  have htime' := u.time.position_lt
  rw [Earlier, Date.earlier_iff, hdate, TimeOfDay.earlier_iff]
  -- a position is the number of the day and a time that is less than a day
  simp only [position, Duration.microsPerDay] at htime htime' ⊢
  omega

theorem noLater_iff : t.NoLater u ↔ t.position ≤ u.position := by
  rw [NoLater, earlier_iff, not_lt]

/-- Position, offset and mark leave one instant only. -/
theorem eq_of_position_eq (hposition : t.position = u.position) (hoffset : t.offset = u.offset)
    (hrepeated : t.repeated = u.repeated) : t = u := by
  have hfirst : { t with repeated := false } = { u with repeated := false } := by
    apply Option.some.inj
    rw [← ofPosition?_position t, ← ofPosition?_position u, hposition, hoffset]
  cases t
  cases u
  simp_all

/-! ## Sums -/

/-- A sum that leads back before year 1 is the latest instant. -/
theorem saturatingAdd_of_lt (h : t.position + d.micros < 0) :
    t.saturatingAdd d = latest t.offset := by
  rw [saturatingAdd, add?, ofPosition?_eq_none t.offset (Or.inl h), Option.getD_none]

theorem saturatingAdd_eq_latest_iff :
    t.saturatingAdd d = latest t.offset ↔
      (latest t.offset).position ≤ (t.saturatingAdd d).position := by
  obtain ⟨-, hoffset, hrepeated⟩ := t.position_saturatingAdd d
  constructor
  · intro h
    rw [h]
  · intro h
    exact eq_of_position_eq (Nat.le_antisymm (position_le_latest _ _) h) hoffset hrepeated

/-- The order of the terms is kept unless the shorter one leads back before year 1, and then only if
the other sum is the latest instant as well. -/
theorem saturatingAdd_noLater_iff (hde : d ≤ e) :
    (t.saturatingAdd d).NoLater (t.saturatingAdd e) ↔
      0 ≤ t.position + d.micros ∨ t.saturatingAdd e = latest t.offset := by
  have hmicros : d.micros ≤ e.micros := hde
  rcases le_or_gt 0 (t.position + d.micros) with hle | hlt
  · have hsum := t.position_saturatingAdd_of_le hle
    have hsum' := t.position_saturatingAdd_of_le (hle.trans (Int.add_le_add_left hmicros _))
    refine iff_of_true ?_ (Or.inl hle)
    rw [noLater_iff]
    omega
  · rw [saturatingAdd_of_lt hlt, noLater_iff, saturatingAdd_eq_latest_iff]
    exact (or_iff_right (not_le.2 hlt)).symm

/-- A negative duration leads to a later instant exactly if it leads back before year 1, and not
from the latest instant. -/
theorem earlier_saturatingAdd_iff (hd : d.micros < 0) :
    t.Earlier (t.saturatingAdd d) ↔ t.position + d.micros < 0 ∧ t.Earlier (latest t.offset) := by
  rcases le_or_gt 0 (t.position + d.micros) with hle | hlt
  · have hsum := t.position_saturatingAdd_of_le hle
    rw [earlier_iff]
    omega
  · rw [saturatingAdd_of_lt hlt]
    exact (and_iff_right hlt).symm

end Instant

/-! ## Both kinds of sums -/

/-- Of two durations the longer one gives no less when both are added, with one exception: an exact
sum that is below the shortest duration, or before year 1, counts as the longest duration, or the
latest instant. Then the order is kept only if the other sum is that as well. A negative duration
gives more than what it is added to in this case alone. -/
theorem saturatingAdd_order (a : Duration) (t : Instant) {b c : Duration} (h : b ≤ c) :
    ((a.saturatingAdd b ≤ a.saturatingAdd c ↔
        Duration.shortest.micros ≤ a.micros + b.micros ∨ a.saturatingAdd c = .longest) ∧
      (a.micros + b.micros < Duration.shortest.micros → a.saturatingAdd b = .longest) ∧
      (b.micros < 0 → (a < a.saturatingAdd b ↔ a.micros + b.micros < Duration.shortest.micros))) ∧
    ((t.saturatingAdd b).NoLater (t.saturatingAdd c) ↔
        0 ≤ t.position + b.micros ∨ t.saturatingAdd c = .latest t.offset) ∧
      (t.position + b.micros < 0 → t.saturatingAdd b = .latest t.offset) ∧
      (b.micros < 0 →
        (t.Earlier (t.saturatingAdd b) ↔ t.position + b.micros < 0 ∧
          t.Earlier (.latest t.offset))) := by
  refine ⟨⟨?_, ?_, ?_⟩, ?_, ?_, ?_⟩
  · exact Duration.saturatingAdd_le_iff h
  · exact Duration.saturatingAdd_of_lt_shortest
  · exact Duration.lt_saturatingAdd_iff
  · exact Instant.saturatingAdd_noLater_iff h
  · exact Instant.saturatingAdd_of_lt
  · exact Instant.earlier_saturatingAdd_iff

/-- One microsecond back and one second on, from no time at all and from the last second of a leap
day. -/
theorem saturatingAdd_order_leapDay :
    let b : Duration := ⟨-1, by decide⟩
    let t : Instant := ⟨⟨2024, 2, 29, by decide⟩, ⟨23, 59, 59, 0, by decide⟩, none, false⟩
    b ≤ .second ∧ Duration.zero.saturatingAdd b ≤ Duration.zero.saturatingAdd .second ∧
      ¬ Duration.zero < Duration.zero.saturatingAdd b ∧
      (t.saturatingAdd b).NoLater (t.saturatingAdd .second) ∧ ¬ t.Earlier (t.saturatingAdd b) := by
  intro b t
  have hle : b ≤ .second := by decide
  have hneg : b.micros < 0 := by decide
  have hposition : 0 ≤ t.position + b.micros := by decide
  obtain ⟨⟨hsum, -, hlonger⟩, hinstant, -, hlater⟩ := saturatingAdd_order .zero t hle
  refine ⟨hle, hsum.2 (Or.inl (by decide)), ?_, hinstant.2 (Or.inl hposition), ?_⟩
  · rw [hlonger hneg]
    decide
  · intro h
    exact absurd ((hlater hneg).1 h).1 (not_lt.2 hposition)

/-- The order is lost at the lower ends: a microsecond less than the shortest duration is more than
it, and a microsecond before the first instant is after it. -/
theorem order_lost_at_lower_ends :
    let b : Duration := ⟨-1, by decide⟩
    let t : Instant := ⟨⟨1, 1, 1, by decide⟩, ⟨0, 0, 0, 0, by decide⟩, none, false⟩
    b ≤ .zero ∧
      ¬ Duration.shortest.saturatingAdd b ≤ Duration.shortest.saturatingAdd .zero ∧
      Duration.shortest < Duration.shortest.saturatingAdd b ∧
      ¬ (t.saturatingAdd b).NoLater (t.saturatingAdd .zero) ∧ t.Earlier (t.saturatingAdd b) := by
  intro b t
  have hneg : b.micros < 0 := by decide
  have hbefore : t.position + b.micros < 0 := by decide
  refine ⟨by decide, by decide, by decide, ?_, ?_⟩
  · rw [Instant.saturatingAdd_of_lt hbefore, Instant.noLater_iff]
    decide
  · rw [Instant.saturatingAdd_of_lt hbefore, Instant.earlier_iff]
    decide

end RandomDelay
