import RandomDelay.Interval
import RandomDelay.Proofs.Duration.ClockText
import RandomDelay.Proofs.Duration.Saturation

/-!
# The text of an interval

The text of an interval shows its two bounds on a clock. The comma that parts them may also stand
inside each of them, between days and time of day; but as a clock text ends in one way only, the
text still belongs to one pair of bounds (`text_eq_iff_bounds`).

The width is what lies between the bounds, unless the upper bound is cut at the longest duration. Of
the intervals with one lower bound, those that reach the longest duration have all one text, and
each of the others has a text of its own (`text_eq_text_iff`). As only one of them reaches the
longest duration and no further, a text tells the interval among all that do not reach further
(`text_eq_iff`).
-/

set_option autoImplicit false

namespace RandomDelay.Interval

variable {a b : Interval}

/-- An interval is its lower bound and its width. -/
theorem eq_iff : a = b ↔ a.lower = b.lower ∧ a.span = b.span := by
  cases a
  cases b
  simp only [mk.injEq]

theorem micros_upper (i : Interval) :
    i.upper.micros = min Duration.longest.micros (i.lower.micros + i.span.micros) :=
  Duration.micros_saturatingAdd_of_nonneg i.lower_nonneg

/-- The bounds in a text, each before what follows it. -/
theorem text_eq_append (i : Interval) :
    i.text = '[' :: (i.lower.clockText ++ (", ".toList ++ (i.upper.clockText ++ [')']))) := by
  simp only [text, List.cons_append, List.append_assoc]

/-- A text shows one lower and one upper bound. -/
theorem text_eq_iff_bounds : a.text = b.text ↔ a.lower = b.lower ∧ a.upper = b.upper := by
  constructor
  · intro h
    have hcomma : ∀ tail : List Char, (", ".toList ++ tail).head? ≠ some '.' := fun _ => nofun
    have hbracket : [')'].head? ≠ some '.' := nofun
    rw [text_eq_append, text_eq_append] at h
    obtain ⟨hlower, h⟩ := Duration.clockText_append_inj (hcomma _) (hcomma _) (List.cons.inj h).2
    obtain ⟨hupper, -⟩ :=
      Duration.clockText_append_inj hbracket hbracket (List.append_cancel_left h)
    exact ⟨hlower, hupper⟩
  · rintro ⟨hlower, hupper⟩
    rw [text, text, hlower, hupper]

/-- Over one lower bound, an upper bound tells the width unless it is cut at the longest
duration. -/
theorem upper_eq_iff (h : a.lower = b.lower) :
    a.upper = b.upper ↔ a.span = b.span ∨
      (Duration.longest.micros ≤ a.lower.micros + a.span.micros ∧
        Duration.longest.micros ≤ b.lower.micros + b.span.micros) := by
  have hmicros := congrArg Duration.micros h
  constructor
  · intro hupper
    have hcut := congrArg Duration.micros hupper
    rw [micros_upper, micros_upper] at hcut
    by_cases hspan : a.span.micros = b.span.micros
    · exact Or.inl (Duration.ext_micros hspan)
    · refine Or.inr ⟨?_, ?_⟩ <;> omega
  · rintro (hspan | ⟨ha, hb⟩)
    · rw [upper, upper, h, hspan]
    · apply Duration.ext_micros
      rw [micros_upper, micros_upper, min_eq_left ha, min_eq_left hb]

/-- Two intervals have one text exactly if they have one lower bound, and one width or upper bounds
that both reach the longest duration. -/
theorem text_eq_text_iff :
    a.text = b.text ↔ a.lower = b.lower ∧ (a.span = b.span ∨
      (Duration.longest.micros ≤ a.lower.micros + a.span.micros ∧
        Duration.longest.micros ≤ b.lower.micros + b.span.micros)) := by
  rw [text_eq_iff_bounds]
  exact and_congr_right upper_eq_iff

example : (⟨.second, .longest, by decide, by decide⟩ : Interval).text =
    (⟨.second, ⟨86399999999998999999, by decide⟩, by decide, by decide⟩ : Interval).text := by
  decide

/-- Intervals that do not reach past the longest duration have one text exactly if they are the
same. -/
theorem text_eq_iff (a b : Interval) (ha : a.lower.micros + a.span.micros ≤ Duration.longest.micros)
    (hb : b.lower.micros + b.span.micros ≤ Duration.longest.micros) : a.text = b.text ↔ a = b := by
  rw [text_eq_text_iff, eq_iff]
  constructor
  · rintro ⟨hlower, hspan | ⟨hfrom, hfrom'⟩⟩
    · exact ⟨hlower, hspan⟩
    · -- neither reaches past the longest duration, so both end there and are equally wide
      have hmicros := congrArg Duration.micros hlower
      exact ⟨hlower, Duration.ext_micros (by omega)⟩
  · rintro ⟨hlower, hspan⟩
    exact ⟨hlower, Or.inl hspan⟩

/-- From one day up to the longest duration, and up to a microsecond less, intervals have different
texts. -/
theorem text_eq_iff_longest :
    let a : Interval :=
      ⟨⟨86400000000, by decide⟩, ⟨86399999913599999999, by decide⟩, by decide, by decide⟩
    let b : Interval :=
      ⟨⟨86400000000, by decide⟩, ⟨86399999913599999998, by decide⟩, by decide, by decide⟩
    a.lower.micros + a.span.micros = Duration.longest.micros ∧
      b.lower.micros + b.span.micros < Duration.longest.micros ∧ a.text ≠ b.text := by
  intro a b
  refine ⟨by decide, by decide, ?_⟩
  rw [Ne, text_eq_iff a b (by decide) (by decide)]
  decide

end RandomDelay.Interval
