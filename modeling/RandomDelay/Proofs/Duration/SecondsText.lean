import RandomDelay.Proofs.Binary64.Nearest
import RandomDelay.Proofs.Duration.RoundTrip

/-!
# The text of a duration in seconds

The text in seconds is the exact decimal (`exactText`) of a whole number of microseconds, but not
always of those of the duration: it shows the microseconds nearest to the seconds in binary64
(`secondsText_eq_exactText`). Different numbers of microseconds have different exact decimals
(`exactText_injective`), so two durations have one text exactly if they show the same.

Up to `2 ^ 33` seconds on both sides of zero a duration shows its own microseconds
(`shownMicros_eq`). From there on the numbers of binary64 are almost two microseconds apart and
more, and of four durations in a row two have the same text (`exists_secondsText_eq`).
-/

set_option autoImplicit false

namespace RandomDelay

open RandomDelay.Binary64 RandomDelay.Rounding

namespace Rounding

/-- Rounding the magnitude leaves out the sign. -/
theorem nearestInt_abs (q : ℚ) : nearestInt |q| = |nearestInt q| := by
  rcases le_total 0 q with h | h
  · rw [abs_of_nonneg h, abs_of_nonneg (nearestInt_nonneg h)]
  · have hneg := nearestInt_nonneg (neg_nonneg.2 h)
    rw [nearestInt_neg] at hneg
    rw [abs_of_nonpos h, nearestInt_neg, abs_of_nonpos (by omega)]

end Rounding

namespace Duration

/-! ## Exact decimals -/

/-- Decimal of a count of microseconds in seconds: the whole seconds, six places for the
microseconds, and the letter `s`. -/
def placesText (n : ℕ) : List Char :=
  Text.plain (n / microsPerSecond) ++ '.' :: (Text.padded 6 (n % microsPerSecond) ++ ['s'])

/-- Exact decimal of a number of microseconds in seconds, with a minus sign exactly if the number is
negative. -/
def exactText (micros : ℤ) : List Char := Text.minus (micros < 0) ++ placesText micros.natAbs

theorem exactText_of_neg {micros : ℤ} (h : micros < 0) :
    exactText micros = '-' :: placesText micros.natAbs := by
  simp [exactText, Text.minus, h]

theorem exactText_of_nonneg {micros : ℤ} (h : 0 ≤ micros) :
    exactText micros = placesText micros.natAbs := by
  simp [exactText, Text.minus, not_lt.2 h]

/-- The decimal is read back as the count. -/
theorem ofText?_placesText (n : ℕ) : Written.ofText? (placesText n) = some ⟨⟨n, 6⟩, .second⟩ := by
  have hread := Written.ofText?_places (by decide : 0 < 6) n .second
  exact hread

theorem placesText_injective : Function.Injective placesText := by
  intro m n h
  have hread := congrArg Written.ofText? h
  rw [ofText?_placesText, ofText?_placesText] at hread
  simpa using hread

/-- A decimal has digits, a point, the letter and perhaps a sign, and nothing else. -/
theorem mem_exactText {micros : ℤ} {c : Char} (hc : c ∈ exactText micros) :
    c.isDigit = true ∨ c ∈ ['-', '.', 's'] := by
  rw [exactText, placesText, List.mem_append, List.mem_append, List.mem_cons, List.mem_append] at hc
  rcases hc with hminus | hwhole | hpoint | hpart | hletter
  · refine Or.inr ?_
    unfold Text.minus at hminus
    split at hminus <;> simp_all
  · exact Or.inl (Text.isDigit_of_mem_plain hwhole)
  · simp [hpoint]
  · exact Or.inl (Text.isDigit_of_mem_padded hpart)
  · simp_all

/-- Without a sign the decimal starts with a digit. -/
theorem head?_placesText (n : ℕ) : (placesText n).head? ≠ some '-' := by
  intro h
  rw [placesText, List.head?_append_of_ne_nil _ (Text.plain_ne_nil _)] at h
  have hdigit := Text.isDigit_of_mem_plain (List.mem_of_mem_head? h)
  exact absurd hdigit (by decide)

/-- Different numbers of microseconds have different exact decimals. -/
theorem exactText_injective : Function.Injective exactText := by
  intro m n h
  rcases lt_or_ge m 0 with hm | hm
  · rcases lt_or_ge n 0 with hn | hn
    · rw [exactText_of_neg hm, exactText_of_neg hn] at h
      have := placesText_injective (List.cons.inj h).2
      omega
    · rw [exactText_of_neg hm, exactText_of_nonneg hn] at h
      exact absurd (congrArg List.head? h).symm (head?_placesText n.natAbs)
  · rcases lt_or_ge n 0 with hn | hn
    · rw [exactText_of_nonneg hm, exactText_of_neg hn] at h
      exact absurd (congrArg List.head? h) (head?_placesText m.natAbs)
    · rw [exactText_of_nonneg hm, exactText_of_nonneg hn] at h
      have := placesText_injective h
      omega

/-! ## The microseconds that are shown -/

/-- Whole number of microseconds nearest to the seconds in binary64. -/
def shownMicros (d : Duration) : ℤ := nearestInt (d.seconds.toRat * 10 ^ 6)

variable {d e : Duration}

theorem shownMicros_eq_nearestInt (d : Duration) :
    d.shownMicros = nearestInt (rounded (d.micros / 10 ^ 6) * 10 ^ 6) := by
  rw [shownMicros, (toRat_seconds d).2]

theorem shownMicros_mono (h : d.micros ≤ e.micros) : d.shownMicros ≤ e.shownMicros := by
  have hseconds : (d.micros : ℚ) / 10 ^ 6 ≤ e.micros / 10 ^ 6 :=
    div_le_div_of_nonneg_right (by exact_mod_cast h) (by positivity)
  rw [shownMicros_eq_nearestInt, shownMicros_eq_nearestInt]
  apply nearestInt_mono
  exact mul_le_mul_of_nonneg_right (rounded_mono hseconds) (by positivity)

/-- Up to `2 ^ 33` seconds a duration shows its own microseconds. -/
theorem shownMicros_eq (h : |d.micros| ≤ 2 ^ 33 * 10 ^ 6) : d.shownMicros = d.micros := by
  have herror := abs_seconds_sub_le h
  apply nearestInt_eq_of_abs_sub_lt
  rw [abs_sub_comm]
  exact herror.trans_lt (by norm_num)

/-- Rounding keeps the sign, for one microsecond to either side of zero is shown. -/
theorem shownMicros_lt_zero_iff (d : Duration) : d.shownMicros < 0 ↔ d.micros < 0 := by
  have hbefore : shownMicros ⟨-1, by decide⟩ = -1 := shownMicros_eq (by decide)
  have hzero : shownMicros .zero = 0 := shownMicros_eq (by decide)
  constructor
  · intro h
    by_contra hnonneg
    have := shownMicros_mono (d := .zero) (e := d) (not_lt.1 hnonneg)
    omega
  · intro h
    have hle : d.micros ≤ -1 := by omega
    have := shownMicros_mono (d := d) (e := ⟨-1, by decide⟩) hle
    omega

/-- The sign that is written is that of the duration. -/
theorem isNegative_seconds_eq (d : Duration) :
    d.seconds.isNegative = decide (d.shownMicros < 0) := by
  rw [seconds, nearest, isNegative_nearestUnits]
  exact decide_eq_decide.2 d.shownMicros_lt_zero_iff.symm

theorem lastPlaces_eq_natAbs (d : Duration) : d.seconds.lastPlaces 6 = d.shownMicros.natAbs := by
  have hplaces := natCast_lastPlaces 6 d.seconds
  have hscale : |d.seconds.toRat| * 10 ^ 6 = |d.seconds.toRat * 10 ^ 6| := by
    rw [abs_mul, abs_of_pos (by positivity : (0 : ℚ) < 10 ^ 6)]
  rw [hscale, nearestInt_abs, ← shownMicros, ← Int.natCast_natAbs] at hplaces
  exact Int.natCast_inj.1 hplaces

/-- The text is the exact decimal of the microseconds that are shown. -/
theorem secondsText_eq_exactText (d : Duration) : d.secondsText = exactText d.shownMicros := by
  have hpower : Nat.pow 10 6 = microsPerSecond := by decide
  rw [secondsText, fixedPlaces_of_isFinite 6 (toRat_seconds d).1, d.isNegative_seconds_eq,
    d.lastPlaces_eq_natAbs, hpower, exactText, placesText, List.append_assoc, List.append_assoc,
    List.cons_append]

/-- The text of a duration in seconds is a word. -/
theorem blank_not_mem_secondsText (d : Duration) : ' ' ∉ d.secondsText := by
  rw [secondsText_eq_exactText]
  intro hmem
  rcases mem_exactText hmem with hdigit | hother
  · exact absurd hdigit (by decide)
  · exact absurd hother (by decide)

theorem secondsText_eq_iff : d.secondsText = e.secondsText ↔ d.shownMicros = e.shownMicros := by
  rw [secondsText_eq_exactText, secondsText_eq_exactText, exactText_injective.eq_iff]

/-! ## Past `2 ^ 33` seconds -/

/-- The grid of binary64 from `2 ^ 33` seconds on is wider than a microsecond and a half. -/
theorem exists_rounded_seconds_eq {n : ℤ} (h : 2 ^ 33 * 10 ^ 6 ≤ n) :
    ∃ i j : ℤ, n ≤ i ∧ i < j ∧ j ≤ n + 3 ∧ rounded ((i : ℚ) / 10 ^ 6) = rounded (j / 10 ^ 6) := by
  have hspacing : spacing 1055 = 1 / 2 ^ 19 := by
    rw [spacing_eq_zpow, unitPlaces]
    norm_num
  have hstep : ∀ i j : ℤ, i ≤ j → (i : ℚ) / 10 ^ 6 ≤ j / 10 ^ 6 := by
    intro i j hij
    exact div_le_div_of_nonneg_right (by exact_mod_cast hij) (by positivity)
  have hlow : 2 ^ 52 * spacing 1055 ≤ (n : ℚ) / 10 ^ 6 := by
    have hn : (2 ^ 33 * 10 ^ 6 : ℚ) ≤ n := by exact_mod_cast h
    rw [hspacing, le_div_iff₀ (by positivity)]
    norm_num at hn ⊢
    exact hn
  have hclose : ((n + 3 : ℤ) : ℚ) / 10 ^ 6 - n / 10 ^ 6 < 2 * spacing 1055 := by
    rw [hspacing]
    push_cast
    ring_nf
    norm_num
  -- of four neighbours within two steps of the grid, two have to share a number
  rcases rounded_eq_of_close (hstep n (n + 1) (by omega)) (hstep _ (n + 2) (by omega))
    (hstep _ (n + 3) (by omega)) hlow hclose with heq | heq | heq
  · exact ⟨n, n + 1, by omega, by omega, by omega, heq⟩
  · exact ⟨n + 1, n + 2, by omega, by omega, by omega, heq⟩
  · exact ⟨n + 2, n + 3, by omega, by omega, by omega, heq⟩

/-- Durations with the same seconds in binary64 have one text. -/
theorem exists_secondsText_eq_of_rounded {i j : ℤ} (hi : Representable i) (hj : Representable j)
    (hne : i ≠ j) (heq : rounded ((i : ℚ) / 10 ^ 6) = rounded (j / 10 ^ 6)) :
    ∃ a b : Duration, a.micros = i ∧ b.micros = j ∧ a ≠ b ∧ a.secondsText = b.secondsText := by
  refine ⟨⟨i, hi⟩, ⟨j, hj⟩, rfl, rfl, fun h => hne (congrArg micros h), ?_⟩
  rw [secondsText_eq_iff, shownMicros_eq_nearestInt, shownMicros_eq_nearestInt, heq]

/-- From `2 ^ 33` seconds on there are two durations next to every one that have one text. -/
theorem exists_secondsText_eq (h : 2 ^ 33 * 10 ^ 6 ≤ |d.micros|) :
    ∃ a b : Duration, a ≠ b ∧ |a.micros - d.micros| ≤ 3 ∧ |b.micros - d.micros| ≤ 3 ∧
      a.secondsText = b.secondsText := by
  obtain ⟨hlow, hhigh⟩ := d.representable
  rcases le_total 0 d.micros with hd | hd
  · -- four durations up from this one, or up to the longest
    rw [abs_of_nonneg hd] at h
    obtain ⟨i, j, hi, hij, hj, heq⟩ :=
      exists_rounded_seconds_eq (n := min d.micros (86399999999999999999 - 3)) (by omega)
    obtain ⟨a, b, ha, hb, hne, htext⟩ := exists_secondsText_eq_of_rounded
      ⟨by omega, by omega⟩ ⟨by omega, by omega⟩ hij.ne heq
    exact ⟨a, b, hne, abs_le.2 ⟨by omega, by omega⟩, abs_le.2 ⟨by omega, by omega⟩, htext⟩
  · -- the same with the signs changed, down to the least duration
    rw [abs_of_nonpos hd] at h
    obtain ⟨i, j, hi, hij, hj, heq⟩ :=
      exists_rounded_seconds_eq (n := min (-d.micros) (86399999913600000000 - 3)) (by omega)
    have hneg : rounded (((-i : ℤ) : ℚ) / 10 ^ 6) = rounded (((-j : ℤ) : ℚ) / 10 ^ 6) := by
      push_cast
      rw [neg_div, neg_div, rounded_neg, rounded_neg, heq]
    obtain ⟨a, b, ha, hb, hne, htext⟩ := exists_secondsText_eq_of_rounded
      ⟨by omega, by omega⟩ ⟨by omega, by omega⟩ (by omega) hneg
    exact ⟨a, b, hne, abs_le.2 ⟨by omega, by omega⟩, abs_le.2 ⟨by omega, by omega⟩, htext⟩

/-- The text of a duration in seconds is the exact decimal of the microseconds that it shows, with
its sign; so it is the exact decimal of the duration if and only if these are its own, and two
durations have one text if and only if they show the same. Up to `2 ^ 33` seconds every duration
shows its own microseconds. From there on two of four durations in a row have the same text. -/
theorem secondsText_exact (d : Duration) :
    d.secondsText = exactText d.shownMicros ∧ (d.shownMicros < 0 ↔ d.micros < 0) ∧
      (d.secondsText = exactText d.micros ↔ d.shownMicros = d.micros) ∧
      (∀ e : Duration, d.secondsText = e.secondsText ↔ d.shownMicros = e.shownMicros) ∧
      (|d.micros| ≤ 2 ^ 33 * 10 ^ 6 → d.shownMicros = d.micros) ∧
      (2 ^ 33 * 10 ^ 6 ≤ |d.micros| → ∃ a b : Duration, a ≠ b ∧ |a.micros - d.micros| ≤ 3 ∧
        |b.micros - d.micros| ≤ 3 ∧ a.secondsText = b.secondsText) := by
  refine ⟨d.secondsText_eq_exactText, d.shownMicros_lt_zero_iff, ?_, fun _ => secondsText_eq_iff,
    shownMicros_eq, exists_secondsText_eq⟩
  rw [secondsText_eq_exactText, exactText_injective.eq_iff]

/-- The longest duration shows one microsecond more than it has. -/
theorem secondsText_exact_longest :
    longest.secondsText = exactText (longest.micros + 1) ∧
      longest.secondsText ≠ exactText longest.micros := by
  obtain ⟨htext, -, hexact, -⟩ := secondsText_exact longest
  have hshown : longest.shownMicros = longest.micros + 1 := by decide +kernel
  constructor
  · rw [htext, hshown]
  · rw [Ne, hexact, hshown]
    decide

end Duration

end RandomDelay
