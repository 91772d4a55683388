import RandomDelay.Proofs.Duration.Order

/-!
# Saturating sums of durations

As long as an exact sum is not below the shortest duration, the sum is the exact one, cut at the
longest duration (`micros_saturatingAdd_of_le`). A term that is not negative is enough for that;
such sums keep the order of both terms (`saturatingAdd_mono`), and how three of them are grouped
makes no difference (`saturatingAdd_assoc`).

An exact sum below the shortest duration gives the longest one, too. There the order of the second
terms is lost: `saturatingAdd_le_iff` says exactly when it is kept, and `lt_saturatingAdd_iff` when
a negative duration lengthens another one.
-/

set_option autoImplicit false

namespace RandomDelay.Duration

/-- The shortest duration, which is the most negative one. -/
def shortest : Duration := ⟨-86399999913600000000, by decide⟩

variable {a b c d : Duration}

theorem le_longest (d : Duration) : d ≤ longest := d.representable.2

/-! ## Sums that do not fall below the range -/

theorem micros_saturatingAdd_of_le (h : shortest.micros ≤ a.micros + b.micros) :
    (a.saturatingAdd b).micros = min longest.micros (a.micros + b.micros) := by
  rw [micros_saturatingAdd]
  by_cases hlong : a.micros + b.micros ≤ longest.micros
  · rw [if_pos ⟨h, hlong⟩, min_eq_right hlong]
  · rw [if_neg fun hrep => hlong hrep.2, min_eq_left (not_le.1 hlong).le]

/-- The sum of a duration that is not negative and any other leaves the range only above. -/
theorem micros_saturatingAdd_of_nonneg (ha : 0 ≤ a.micros) :
    (a.saturatingAdd b).micros = min longest.micros (a.micros + b.micros) := by
  have hb : shortest.micros ≤ b.micros := b.representable.1
  exact micros_saturatingAdd_of_le (hb.trans (le_add_of_nonneg_left ha))

theorem saturatingAdd_nonneg (ha : 0 ≤ a.micros) (hb : 0 ≤ b.micros) :
    0 ≤ (a.saturatingAdd b).micros := by
  rw [micros_saturatingAdd_of_nonneg ha]
  exact le_min (by decide) (add_nonneg ha hb)

theorem saturatingAdd_mono (ha : 0 ≤ a.micros) (hab : a ≤ b) (hcd : c ≤ d) :
    a.saturatingAdd c ≤ b.saturatingAdd d := by
  have hab' : a.micros ≤ b.micros := hab
  have hcd' : c.micros ≤ d.micros := hcd
  show (a.saturatingAdd c).micros ≤ (b.saturatingAdd d).micros
  rw [micros_saturatingAdd_of_nonneg ha, micros_saturatingAdd_of_nonneg (ha.trans hab')]
  exact min_le_min_left _ (add_le_add hab' hcd')

/-- A sum that has saturated stays the longest duration, so all groupings are the exact sum, cut
once. -/
theorem saturatingAdd_assoc (ha : 0 ≤ a.micros) (hb : 0 ≤ b.micros) (hc : 0 ≤ c.micros) :
    (a.saturatingAdd b).saturatingAdd c = a.saturatingAdd (b.saturatingAdd c) := by
  apply ext_micros
  rw [micros_saturatingAdd_of_nonneg (saturatingAdd_nonneg ha hb),
    micros_saturatingAdd_of_nonneg ha, micros_saturatingAdd_of_nonneg ha,
    micros_saturatingAdd_of_nonneg hb]
  omega

theorem zero_saturatingAdd (d : Duration) : zero.saturatingAdd d = d := by
  have hzero : 0 ≤ zero.micros := le_rfl
  have hsum : zero.micros + d.micros = d.micros := Int.zero_add _
  apply ext_micros
  rw [micros_saturatingAdd_of_nonneg hzero, hsum]
  exact min_eq_right d.le_longest

theorem saturatingAdd_zero (d : Duration) : d.saturatingAdd zero = d := by
  have hsum : d.micros + zero.micros = d.micros := Int.add_zero _
  apply ext_micros
  rw [micros_saturatingAdd, hsum, if_pos d.representable]

/-! ## Sums below the range -/

/-- A sum that is too short for a duration is the longest one. -/
theorem saturatingAdd_of_lt_shortest (h : a.micros + b.micros < shortest.micros) :
    a.saturatingAdd b = longest := by
  apply ext_micros
  rw [micros_saturatingAdd, if_neg fun hrep => absurd h (not_lt.2 hrep.1)]

/-- The order of the second terms is kept unless the smaller sum is too short for a duration, and
then only if the other one is the longest duration as well. -/
theorem saturatingAdd_le_iff (hbc : b ≤ c) :
    a.saturatingAdd b ≤ a.saturatingAdd c ↔
      shortest.micros ≤ a.micros + b.micros ∨ a.saturatingAdd c = longest := by
  have hmicros : b.micros ≤ c.micros := hbc
  rcases le_or_gt shortest.micros (a.micros + b.micros) with hle | hlt
  · have hle' : shortest.micros ≤ a.micros + c.micros := hle.trans (Int.add_le_add_left hmicros _)
    refine iff_of_true ?_ (Or.inl hle)
    rw [le_iff, micros_saturatingAdd_of_le hle, micros_saturatingAdd_of_le hle']
    exact min_le_min_left _ (Int.add_le_add_left hmicros _)
  · rw [saturatingAdd_of_lt_shortest hlt]
    constructor
    · intro hlong
      exact Or.inr (ext_micros (le_antisymm (le_longest _) hlong))
    · rintro (hle | hlong)
      · exact absurd hle (not_le.2 hlt)
      · rw [hlong]
        exact le_longest longest

/-- A negative duration lengthens another one exactly if the sum is too short for a duration. -/
theorem lt_saturatingAdd_iff (hb : b.micros < 0) :
    a < a.saturatingAdd b ↔ a.micros + b.micros < shortest.micros := by
  have ha : a.micros ≤ longest.micros := a.le_longest
  have hlow : shortest.micros ≤ b.micros := b.representable.1
  show a.micros < (a.saturatingAdd b).micros ↔ _
  rcases le_or_gt shortest.micros (a.micros + b.micros) with hle | hlt
  · rw [micros_saturatingAdd_of_le hle]
    omega
  · -- the sum of the two is that short only if both are negative
    have hneg : a.micros < 0 := by omega
    rw [saturatingAdd_of_lt_shortest hlt]
    exact iff_of_true (hneg.trans (by decide)) hlt

end RandomDelay.Duration
