import RandomDelay.Proofs.Duration.Amount
import RandomDelay.Proofs.Text.Numeral

/-!
# Durations read back from their text

The text of a duration in seconds has six decimal places of the binary64 number nearest to the
seconds, and is read as that many units of the sixth place (`Written.ofText?_fixedPlaces`). Up to
`2 ^ 33` seconds the binary64 number is off by less than half a microsecond, so the places are the
microseconds (`lastPlaces_seconds`). What is read is then the same binary64 number again, and its
conversion is off by less than half a microsecond as well (`microsOf_seconds`).
-/

set_option autoImplicit false

namespace RandomDelay

open RandomDelay.Binary64 RandomDelay.Rounding

/-! ## The text -/

theorem Binary64.fixedPlaces_of_isFinite (places : ℕ) {x : Binary64} (hfin : x.IsFinite) :
    x.fixedPlaces places = Text.minus x.isNegative ++
      Text.plain (x.lastPlaces places / Nat.pow 10 places) ++
      '.' :: Text.padded places (x.lastPlaces places % Nat.pow 10 places) := by
  obtain ⟨negative, m, e, hc, rfl⟩ := hfin
  rfl

theorem Binary64.fixedPlaces_of_nonneg (places : ℕ) {x : Binary64} (hfin : x.IsFinite)
    (hsign : x.isNegative = false) :
    x.fixedPlaces places = Text.plain (x.lastPlaces places / Nat.pow 10 places) ++
      '.' :: Text.padded places (x.lastPlaces places % Nat.pow 10 places) := by
  rw [fixedPlaces_of_isFinite places hfin, hsign]
  rfl

/-- The places that are written are those of the magnitude, rounded once. -/
theorem Binary64.natCast_lastPlaces (places : ℕ) (x : Binary64) :
    (x.lastPlaces places : ℤ) = nearestInt (|x.toRat| * 10 ^ places) := by
  have hscale : ((x.magnitude * Nat.pow 10 places : ℕ) : ℚ) / unitsPerOne =
      |x.toRat| * 10 ^ places := by
    rw [abs_toRat]
    show ((x.magnitude * 10 ^ places : ℕ) : ℚ) / unitsPerOne = _
    push_cast
    ring
  rw [lastPlaces, halfEven_eq_nearestInt _ unitsPerOne_pos, hscale]

/-- A numeral with a point and the symbol of a unit after it are read as what they are. -/
theorem Written.ofText?_point {whole part : List Char} (hne : whole ≠ [])
    (hwhole : ∀ c ∈ whole, c.isDigit = true) (hpart : ∀ c ∈ part, c.isDigit = true)
    (unit : TimeUnit) :
    Written.ofText? (whole ++ '.' :: (part ++ unit.symbol)) =
      some ⟨.ofDigits whole part, unit⟩ := by
  have hfront : ∀ c ∈ (whole ++ '.' :: (part ++ unit.symbol)).head?, Text.isBlank c = false := by
    intro c hc
    cases whole with
    | nil => exact absurd rfl hne
    | cons d rest =>
      obtain rfl : d = c := Option.some.inj hc
      exact Text.isBlank_of_isDigit (hwhole d List.mem_cons_self)
  have hsymbol : ∀ c ∈ unit.symbol.head?, Text.isDecimalDigit c = false := by
    intro c hc
    cases unit <;> cases hc <;> decide
  have hnumeral := Numeral.ofText?_point (Or.inl hne)
    (fun c hc => Text.isDecimalDigit_of_isDigit (hwhole c hc))
    (fun c hc => Text.isDecimalDigit_of_isDigit (hpart c hc)) hsymbol
  rw [Written.ofText?, (Text.takeWhile_of_head hfront).2, hnumeral]
  cases unit <;> rfl

/-- A number of units of the last place, written in places, is read back with the unit. -/
theorem Written.ofText?_places {places : ℕ} (hp : 0 < places) (n : ℕ) (unit : TimeUnit) :
    Written.ofText? (Text.plain (n / Nat.pow 10 places) ++
        '.' :: (Text.padded places (n % Nat.pow 10 places) ++ unit.symbol)) =
      some ⟨⟨n, places⟩, unit⟩ := by
  have hdigits : ∀ c ∈ Text.padded places (n % Nat.pow 10 places), c.isDigit = true :=
    fun c => Text.isDigit_of_mem_padded
  have hlt : n % Nat.pow 10 places < Nat.pow 10 places := Nat.mod_lt _ (Nat.pow_pos (by decide))
  rw [Written.ofText?_point (Text.plain_ne_nil _) (fun c => Text.isDigit_of_mem_plain) hdigits unit,
    Numeral.ofDigits, Text.length_padded hp hlt, Text.number_plain_append_padded hp]

/-- The units of the last place are read back with their unit. -/
theorem Written.ofText?_fixedPlaces {places : ℕ} (hp : 0 < places) {x : Binary64}
    (hfin : x.IsFinite) (hsign : x.isNegative = false) (unit : TimeUnit) :
    Written.ofText? (x.fixedPlaces places ++ unit.symbol) =
      some ⟨⟨x.lastPlaces places, places⟩, unit⟩ := by
  rw [fixedPlaces_of_nonneg places hfin hsign, List.append_assoc, List.cons_append,
    Written.ofText?_places hp]

/-! ## The numbers -/

namespace Duration

variable {d : Duration}

theorem isNegative_seconds (h0 : 0 ≤ d.micros) : d.seconds.isNegative = false := by
  rw [seconds, nearest, isNegative_nearestUnits]
  exact decide_eq_false (not_lt.2 h0)

/-- Digits, the point and the letter are all the characters of the text. -/
theorem mem_secondsText (h0 : 0 ≤ d.micros) {c : Char} (hc : c ∈ d.secondsText) :
    c.isDigit = true ∨ c = '.' ∨ c = 's' := by
  rw [secondsText, fixedPlaces_of_nonneg 6 (toRat_seconds d).1 (isNegative_seconds h0)] at hc
  simp only [List.mem_append, List.mem_cons, List.not_mem_nil, or_false] at hc
  rcases hc with (hwhole | hpoint | hpart) | hletter
  · exact Or.inl (Text.isDigit_of_mem_plain hwhole)
  · exact Or.inr (Or.inl hpoint)
  · exact Or.inl (Text.isDigit_of_mem_padded hpart)
  · exact Or.inr (Or.inr hletter)

/-- Up to `2 ^ 33` seconds the seconds in binary64 are off by less than half a microsecond. -/
theorem abs_seconds_sub_le (h : |d.micros| ≤ 2 ^ 33 * 10 ^ 6) :
    |d.seconds.toRat * 10 ^ 6 - d.micros| ≤ 10 ^ 6 / 2 ^ 21 := by
  obtain ⟨-, hval⟩ := toRat_seconds d
  have hsize : |(d.micros : ℚ) / 10 ^ 6| ≤ 2 ^ (33 : ℤ) := by
    have hq : |(d.micros : ℚ)| ≤ 2 ^ 33 * 10 ^ 6 := by exact_mod_cast h
    rw [abs_div, abs_of_pos (by positivity : (0 : ℚ) < 10 ^ 6), div_le_iff₀ (by norm_num)]
    norm_num at hq ⊢
    exact hq
  have herr := abs_rounded_sub_le (by decide) hsize
  rw [← hval] at herr
  have hscale : d.seconds.toRat * 10 ^ 6 - d.micros =
      (d.seconds.toRat - d.micros / 10 ^ 6) * 10 ^ 6 := by ring
  rw [hscale, abs_mul]
  norm_num at herr ⊢
  linarith

/-- The six places that are written are the microseconds. -/
theorem lastPlaces_seconds (h0 : 0 ≤ d.micros) (h : d.micros ≤ 2 ^ 33 * 10 ^ 6) :
    (d.seconds.lastPlaces 6 : ℤ) = d.micros := by
  have hpos : 0 ≤ d.seconds.toRat := toRat_nonneg (isNegative_seconds h0)
  have herr := abs_seconds_sub_le (abs_le.2 ⟨by omega, h⟩)
  rw [natCast_lastPlaces, abs_of_nonneg hpos]
  apply nearestInt_eq_of_abs_sub_lt
  rw [abs_sub_comm]
  exact herr.trans_lt (by norm_num)

/-- The seconds in binary64 are converted back to the microseconds. -/
theorem microsOf_seconds (h0 : 0 ≤ d.micros) (h : d.micros ≤ 2 ^ 33 * 10 ^ 6) :
    microsOf .second (.float d.seconds) = .ok d.micros := by
  have hfin : (Number.float d.seconds).IsFinite := (toRat_seconds d).1
  have hunit : ((TimeUnit.second.micros : ℕ) : ℚ) ≤ 2 ^ (20 : ℤ) := by norm_num [TimeUnit.micros]
  have hconvert := abs_unrounded_sub_le (by norm_num) hunit d.seconds.toRat
  have hseconds := abs_seconds_sub_le (abs_le.2 ⟨by omega, h⟩)
  -- the error of the seconds leaves about a fortieth of a microsecond for the conversion
  have herr : |(d.micros : ℚ) - unrounded .second d.seconds.toRat| < 1 / 2 := by
    rw [abs_le] at hconvert hseconds
    rw [abs_lt]
    norm_num [TimeUnit.micros] at hconvert hseconds ⊢
    constructor
    · linarith [hconvert.2, hseconds.2]
    · linarith [hconvert.1, hseconds.1]
  rw [microsOf_eq_ok .second hfin]
  exact congrArg Except.ok (nearestInt_eq_of_abs_sub_lt herr)

/-- The seconds in binary64 are the duration again. -/
theorem ofSeconds_seconds (h0 : 0 ≤ d.micros) (h : d.micros ≤ 2 ^ 33 * 10 ^ 6) :
    ofSeconds (.float d.seconds) = .ok d := by
  rw [ofSeconds, ofAmount, microsOf_seconds h0 h]
  exact ofMicros_of_representable d.representable

/-- The text is read as a number of seconds, which in binary64 is the number that was written; so
nothing is rounded to binary64 a second time. -/
theorem exists_written_secondsText (h0 : 0 ≤ d.micros) (h : d.micros ≤ 2 ^ 33 * 10 ^ 6) :
    ∃ w, Written.ofText? d.secondsText = some w ∧ w.duration = .ok d := by
  refine ⟨⟨⟨d.seconds.lastPlaces 6, 6⟩, .second⟩, ?_, ?_⟩
  · exact Written.ofText?_fixedPlaces (by decide) (toRat_seconds d).1 (isNegative_seconds h0)
      .second
  · have hcount : d.seconds.lastPlaces 6 = d.micros.natAbs := by
      have := lastPlaces_seconds h0 h
      omega
    have hsign : decide (d.micros < 0) = false := decide_eq_false (not_lt.2 h0)
    have hscale : Nat.pow 10 6 = microsPerSecond := by decide
    have hnearest : Numeral.nearest ⟨d.seconds.lastPlaces 6, 6⟩ = d.seconds := by
      rw [Numeral.nearest, hcount, hscale, seconds, hsign]
    rw [Written.duration, hnearest]
    exact ofSeconds_seconds h0 h

theorem ofText_of_written {text : String} {w : Written}
    (hread : Written.ofText? text.toList = some w) (hduration : w.duration = .ok d) :
    Duration.ofText text = .ok d := by
  rw [Duration.ofText, hread]
  show w.duration.mapError _ = _
  rw [hduration]
  rfl

/-- Durations of at most `2 ^ 33` seconds are read back from their text in seconds. -/
theorem ofText_secondsText (d : Duration) (h0 : 0 ≤ d.micros) (h : d.micros ≤ 2 ^ 33 * 10 ^ 6) :
    Duration.ofText (String.ofList d.secondsText) = .ok d := by
  obtain ⟨w, hread, hduration⟩ := exists_written_secondsText h0 h
  refine ofText_of_written ?_ hduration
  rw [String.toList_ofList]
  exact hread

/-- The last microsecond before `2 ^ 33` seconds is read back. -/
theorem ofText_secondsText_last :
    Duration.ofText (String.ofList (secondsText ⟨8589934591999999, by decide⟩)) =
      .ok ⟨8589934591999999, by decide⟩ :=
  ofText_secondsText ⟨8589934591999999, by decide⟩ (by decide) (by decide)

end Duration

end RandomDelay
