import RandomDelay.Proofs.Duration.Order
import RandomDelay.Proofs.Text.Integer

/-!
# The text of a duration on a clock

The text on a clock has the days, if there are any, and the time of day that is left over. Where it
ends is clear in every longer text that does not go on with a point (`clockText_append_inj`). The
first number ends at a blank if it counts days and at a colon if it counts hours; minutes and
seconds have two digits each; and six places follow exactly if there is a point. So every duration,
of either sign, has a text of its own (`clockText_injective`).
-/

set_option autoImplicit false

namespace RandomDelay.Duration

variable {rest rest' : List Char}

/-! ## The time of day -/

/-- Microseconds after the seconds of a time of day, nothing if there are none. -/
def partText (part : ℕ) : List Char := if part = 0 then [] else '.' :: Text.padded 6 part

theorem partText_zero : partText 0 = [] := rfl

theorem partText_of_ne_zero {part : ℕ} (h : part ≠ 0) :
    partText part = '.' :: Text.padded 6 part := if_neg h

/-- The numbers of a time of day, each before what follows it. -/
theorem timeText_append (n : ℕ) (rest : List Char) :
    timeText n ++ rest = Text.plain (n / microsPerSecond / 3600) ++ ':' ::
      (Text.padded 2 (n / microsPerSecond / 60 % 60) ++ ':' ::
        (Text.padded 2 (n / microsPerSecond % 60) ++
          (partText (n % microsPerSecond) ++ rest))) := by
  simp only [timeText, partText, List.append_assoc, List.cons_append]

/-- The point tells whether there are microseconds, so no other point may follow. -/
theorem partText_append_inj {p q : ℕ} (hp : p < microsPerSecond) (hq : q < microsPerSecond)
    (hrest : rest.head? ≠ some '.') (hrest' : rest'.head? ≠ some '.')
    (h : partText p ++ rest = partText q ++ rest') : p = q ∧ rest = rest' := by
  rcases eq_or_ne p 0 with rfl | hp0
  · rcases eq_or_ne q 0 with rfl | hq0
    · exact ⟨rfl, h⟩
    · rw [partText_zero, partText_of_ne_zero hq0] at h
      exact absurd (congrArg List.head? h) hrest
  · rcases eq_or_ne q 0 with rfl | hq0
    · rw [partText_zero, partText_of_ne_zero hp0] at h
      exact absurd (congrArg List.head? h).symm hrest'
    · rw [partText_of_ne_zero hp0, partText_of_ne_zero hq0] at h
      exact Text.padded_append_inj (by decide : 0 < 6) hp hq (List.cons.inj h).2

/-- A time of day ends after its seconds, or after the six places that follow their point. -/
theorem timeText_append_inj {m n : ℕ} (hrest : rest.head? ≠ some '.')
    (hrest' : rest'.head? ≠ some '.') (h : timeText m ++ rest = timeText n ++ rest') :
    m = n ∧ rest = rest' := by
  have hsixty : ∀ k, k % 60 < Nat.pow 10 2 := fun k => (Nat.mod_lt k (by decide)).trans (by decide)
  have hpart : ∀ k, k % microsPerSecond < microsPerSecond := fun k => Nat.mod_lt k (by decide)
  rw [timeText_append, timeText_append] at h
  obtain ⟨hhours, -, h⟩ := Text.plain_append_cons_inj (by decide) (by decide) h
  obtain ⟨hminutes, h⟩ := Text.padded_append_inj (by decide) (hsixty _) (hsixty _) h
  obtain ⟨hseconds, h⟩ :=
    Text.padded_append_inj (by decide) (hsixty _) (hsixty _) (List.cons.inj h).2
  obtain ⟨hmicros, h⟩ := partText_append_inj (hpart m) (hpart n) hrest hrest' h
  refine ⟨?_, h⟩
  -- hours, minutes, seconds and microseconds make up the whole number again
  unfold microsPerSecond at *
  omega

/-! ## Days -/

/-- Word for a number of days, with the comma and the blank after it. -/
def dayWord (days : ℤ) : List Char := (if days.natAbs = 1 then "day, " else "days, ").toList

theorem daysText_of_ne_zero {days : ℤ} (h : days ≠ 0) :
    daysText days = Text.signed days ++ ' ' :: dayWord days := by
  have hword : (if days.natAbs = 1 then " day, " else " days, ").toList = ' ' :: dayWord days := by
    unfold dayWord
    split <;> rfl
  rw [daysText, if_neg h, hword]

/-- The first number is followed by a colon if it counts hours, and by a blank if it counts days. -/
theorem timeText_append_ne {days : ℤ} (h : days ≠ 0) (n : ℕ) (rest rest' : List Char) :
    timeText n ++ rest ≠ daysText days ++ rest' := by
  rw [timeText_append, daysText_of_ne_zero h, ← Text.signed_natCast, List.append_assoc,
    List.cons_append]
  intro heq
  obtain ⟨-, hmark, -⟩ := Text.signed_append_cons_inj (by decide) (by decide) heq
  exact absurd hmark (by decide)

/-- The days end where the time of day begins. -/
theorem daysText_append_inj {x y : ℤ} {m n : ℕ}
    (h : daysText x ++ (timeText m ++ rest) = daysText y ++ (timeText n ++ rest')) :
    x = y ∧ timeText m ++ rest = timeText n ++ rest' := by
  rcases eq_or_ne x 0 with rfl | hx
  · rcases eq_or_ne y 0 with rfl | hy
    · exact ⟨rfl, h⟩
    · exact absurd h (timeText_append_ne hy m _ _)
  · rcases eq_or_ne y 0 with rfl | hy
    · exact absurd h.symm (timeText_append_ne hx n _ _)
    · -- the word for the days depends on their number only, so it is the same on both sides
      have hnumbers := h
      rw [daysText_of_ne_zero hx, daysText_of_ne_zero hy,
        List.append_assoc, List.append_assoc] at hnumbers
      obtain ⟨rfl, -⟩ := Text.signed_append_cons_inj (by decide) (by decide) hnumbers
      exact ⟨rfl, List.append_cancel_left h⟩

/-! ## Days and time of day -/

/-- A text that begins with a duration on a clock, and does not go on with a point, begins with no
other duration and goes on in one way only. -/
theorem clockText_append_inj {d e : Duration} (hrest : rest.head? ≠ some '.')
    (hrest' : rest'.head? ≠ some '.') (h : d.clockText ++ rest = e.clockText ++ rest') :
    d = e ∧ rest = rest' := by
  rw [clockText, clockText, List.append_assoc, List.append_assoc] at h
  obtain ⟨hdays, h⟩ := daysText_append_inj h
  obtain ⟨htime, h⟩ := timeText_append_inj hrest hrest' h
  refine ⟨ext_micros ?_, h⟩
  -- the time of day is what the whole days, rounded down, leave over
  unfold microsPerDay at *
  omega

/-- Different durations have different texts on a clock. -/
theorem clockText_injective : Function.Injective clockText := by
  intro d e h
  have hend : ([] : List Char).head? ≠ some '.' := nofun
  exact (clockText_append_inj hend hend (congrArg (· ++ []) h)).1

example : (⟨-1, by decide⟩ : Duration).clockText = "-1 day, 23:59:59.999999".toList := by decide

end RandomDelay.Duration
