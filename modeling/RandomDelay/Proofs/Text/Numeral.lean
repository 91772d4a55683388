import Mathlib.Data.List.Induction
import Mathlib.Data.List.TakeWhile
import Mathlib.Tactic.Ring
import RandomDelay.Duration.Written
import RandomDelay.Text.Numeral

/-!
# Reading written numerals

Numerals are written with the usual digits (`isDigit_of_mem_padded`), and a row of these has the
same value for the reader of digits of all scripts (`number_eq_value`). What a row is worth is put
together from its parts (`number_append`) and depends on the values of the digits only
(`number_congr`).

A reader that takes a digit row off the front of a text finds the row that was written, as long as
no digit follows it (`Numeral.ofText?_digits`, `Numeral.ofText?_point`).

Without a reader the same is said of two texts at once: if they begin with a decimal and are equal,
the decimals are of one number and end at one place (`plain_append_cons_inj`, `padded_append_inj`).
-/

set_option autoImplicit false

namespace RandomDelay

namespace Text

/-! ## Digits -/

theorem plain_ne_nil (n : Nat) : plain n ≠ [] := Nat.toDigits_ne_nil

theorem isDigit_of_mem_plain {n : Nat} {c : Char} (h : c ∈ plain n) : c.isDigit = true :=
  Nat.isDigit_of_mem_toDigits (by decide) (by decide) h

theorem isDigit_of_mem_padded {width n : Nat} {c : Char} (h : c ∈ padded width n) :
    c.isDigit = true := by
  rw [padded, List.mem_append] at h
  cases h with
  | inl hzero =>
    obtain rfl := List.eq_of_mem_replicate hzero
    rfl
  | inr hplain => exact isDigit_of_mem_plain hplain

theorem toNat_of_isDigit {c : Char} (h : c.isDigit = true) : 48 ≤ c.toNat ∧ c.toNat ≤ 57 := by
  simp [Char.isDigit, UInt32.le_iff_toNat_le] at h
  exact h

/-- The usual digits are those of the first row. -/
theorem digitValue?_of_isDigit {c : Char} (h : c.isDigit = true) :
    digitValue? c = some (c.toNat - '0'.toNat) := by
  obtain ⟨hlow, hhigh⟩ := toNat_of_isDigit h
  have hrow : 0x30 ≤ c.toNat ∧ c.toNat < 0x30 + 10 := ⟨hlow, by omega⟩
  have hrows : digitZeros = 0x30 :: digitZeros.tail := rfl
  rw [digitValue?, hrows, List.find?_cons_of_pos (by simp [hrow])]
  rfl

theorem isDecimalDigit_of_isDigit {c : Char} (h : c.isDigit = true) : isDecimalDigit c = true := by
  rw [isDecimalDigit, digitValue?_of_isDigit h]
  rfl

/-- The blank runs and the rows of digits lie apart. -/
theorem blankRuns_apart_from_digits :
    ∀ run ∈ blankRuns, ∀ first ∈ digitZeros, run.2 < first ∨ first + 10 ≤ run.1 := by
  decide

/-- No digit of any script is blank. -/
theorem isBlank_of_isDecimalDigit {c : Char} (h : isDecimalDigit c = true) : isBlank c = false := by
  obtain ⟨v, hv⟩ := Option.isSome_iff_exists.1 h
  obtain ⟨first, hfirst, -⟩ := Option.map_eq_some_iff.1 hv
  have hrow := List.find?_some hfirst
  simp only [Bool.and_eq_true, decide_eq_true_eq] at hrow
  apply Bool.eq_false_iff.2
  intro hblank
  obtain ⟨run, hrun, hin⟩ := List.any_eq_true.1 hblank
  simp only [Bool.and_eq_true, decide_eq_true_eq] at hin
  have hapart := blankRuns_apart_from_digits run hrun first (List.mem_of_find?_eq_some hfirst)
  omega

theorem isBlank_of_isDigit {c : Char} (h : c.isDigit = true) : isBlank c = false :=
  isBlank_of_isDecimalDigit (isDecimalDigit_of_isDigit h)

/-! ## Values of digit rows -/

/-- A row of the usual digits has one value for both readers. -/
theorem number_eq_value {digits : List Char} (h : ∀ c ∈ digits, c.isDigit = true) :
    number digits = value digits := by
  rw [number, value, Nat.ofDigitChars_eq_foldl]
  -- the value of the digits before is where the rest starts from
  suffices hall : ∀ before, digits.foldl (fun n c => 10 * n + (digitValue? c).getD 0) before =
      digits.foldl (fun n c => 10 * n + (c.toNat - '0'.toNat)) before from hall 0
  intro before
  induction digits generalizing before with
  | nil => rfl
  | cons c rest ih =>
    rw [List.foldl_cons, List.foldl_cons, digitValue?_of_isDigit (h c List.mem_cons_self)]
    exact ih (fun d hd => h d (List.mem_cons_of_mem c hd)) _

/-- The digits that follow move those before them up by their number. -/
theorem number_append (whole part : List Char) :
    number (whole ++ part) = number whole * Nat.pow 10 part.length + number part := by
  rw [number, List.foldl_append, ← number]
  -- what the digits before are worth is where the others start from
  generalize number whole = before
  rw [number]
  induction part using List.reverseRecOn with
  | nil => simp
  | append_singleton part c ih =>
    simp only [List.foldl_append, List.foldl_cons, List.foldl_nil, List.length_append,
      List.length_singleton, ih]
    show 10 * (before * 10 ^ part.length + _) + _ = before * 10 ^ (part.length + 1) + _
    ring

/-- Zeros of any scripts are worth nothing. -/
theorem number_of_zeros {zeros : List Char} (h : ∀ c ∈ zeros, digitValue? c = some 0) :
    number zeros = 0 := by
  induction zeros with
  | nil => rfl
  | cons c rest ih =>
    obtain ⟨hc, hrest⟩ := List.forall_mem_cons.1 h
    have hfirst : number [c] = 0 := by simp [number, hc]
    rw [← List.singleton_append, number_append, hfirst, ih hrest, Nat.zero_mul]

/-- Rows of digits with the same values have the same value, whatever the scripts. -/
theorem number_congr {digits digits' : List Char}
    (h : digits.map digitValue? = digits'.map digitValue?) : number digits = number digits' := by
  have hvalues (row : List Char) :
      number row = (row.map digitValue?).foldl (fun n v => 10 * n + v.getD 0) 0 := by
    rw [List.foldl_map]
    rfl
  rw [hvalues, hvalues, h]

/-- Quotient and remainder written next to each other are the number. -/
theorem number_plain_append_padded {places : Nat} (hp : 0 < places) (n : Nat) :
    number (plain (n / Nat.pow 10 places) ++ padded places (n % Nat.pow 10 places)) = n := by
  have hlt : n % Nat.pow 10 places < Nat.pow 10 places :=
    Nat.mod_lt n (Nat.pow_pos (by decide))
  rw [number_append, number_eq_value fun _ => isDigit_of_mem_plain,
    number_eq_value fun _ => isDigit_of_mem_padded, value_plain, value_padded, length_padded hp hlt]
  exact Nat.div_add_mod' n (Nat.pow 10 places)

/-! ## Rows at the start of a text -/

/-- A text that starts with another character has nothing to take off its front. -/
theorem takeWhile_of_head {p : Char → Bool} {text : List Char}
    (h : ∀ c ∈ text.head?, p c = false) : text.takeWhile p = [] ∧ text.dropWhile p = text := by
  cases text with
  | nil => exact ⟨rfl, rfl⟩
  | cons c rest =>
    have hc : ¬ p c = true := by
      rw [h c rfl]
      exact Bool.false_ne_true
    exact ⟨List.takeWhile_cons_of_neg hc, List.dropWhile_cons_of_neg hc⟩

/-- A row of one class of characters is taken off the front of a text, up to the first other
character. -/
theorem takeWhile_append_of_head {p : Char → Bool} {row rest : List Char}
    (hrow : ∀ c ∈ row, p c = true) (hrest : ∀ c ∈ rest.head?, p c = false) :
    (row ++ rest).takeWhile p = row ∧ (row ++ rest).dropWhile p = rest := by
  obtain ⟨htake, hdrop⟩ := takeWhile_of_head hrest
  rw [List.takeWhile_append_of_pos hrow, List.dropWhile_append_of_pos hrow, htake, hdrop,
    List.append_nil]
  exact ⟨rfl, rfl⟩

/-- Where a row of one class of characters ends is clear if another character follows it. -/
theorem append_cons_inj {p : Char → Bool} {row row' rest rest' : List Char} {c d : Char}
    (hrow : ∀ x ∈ row, p x = true) (hrow' : ∀ x ∈ row', p x = true) (hc : p c = false)
    (hd : p d = false) (h : row ++ c :: rest = row' ++ d :: rest') :
    row = row' ∧ c = d ∧ rest = rest' := by
  have hrest : ∀ x ∈ (c :: rest).head?, p x = false := by
    rintro x ⟨⟩
    exact hc
  have hrest' : ∀ x ∈ (d :: rest').head?, p x = false := by
    rintro x ⟨⟩
    exact hd
  obtain ⟨htake, hdrop⟩ := takeWhile_append_of_head hrow hrest
  obtain ⟨htake', hdrop'⟩ := takeWhile_append_of_head hrow' hrest'
  rw [h] at htake hdrop
  obtain ⟨hchar, htail⟩ := List.cons.inj (hdrop.symm.trans hdrop')
  exact ⟨htake.symm.trans htake', hchar, htail⟩

/-- A decimal ends where its digits end. -/
theorem plain_append_cons_inj {m n : Nat} {c d : Char} {rest rest' : List Char}
    (hc : c.isDigit = false) (hd : d.isDigit = false)
    (h : plain m ++ c :: rest = plain n ++ d :: rest') :
    m = n ∧ c = d ∧ rest = rest' := by
  obtain ⟨hrow, htail⟩ :=
    append_cons_inj (fun _ => isDigit_of_mem_plain) (fun _ => isDigit_of_mem_plain) hc hd h
  have hvalue := congrArg value hrow
  rw [value_plain, value_plain] at hvalue
  exact ⟨hvalue, htail⟩

/-- A padded decimal ends where its width ends, whatever follows. -/
theorem padded_append_inj {width m n : Nat} {rest rest' : List Char} (hwidth : 0 < width)
    (hm : m < Nat.pow 10 width) (hn : n < Nat.pow 10 width)
    (h : padded width m ++ rest = padded width n ++ rest') : m = n ∧ rest = rest' := by
  have hlength : (padded width m).length = (padded width n).length :=
    (length_padded hwidth hm).trans (length_padded hwidth hn).symm
  obtain ⟨hrow, htail⟩ := List.append_inj h hlength
  have hvalue := congrArg value hrow
  rw [value_padded, value_padded] at hvalue
  exact ⟨hvalue, htail⟩

/-- What is taken off the front of a text is a row of the class, and the text goes on with what is
left. -/
theorem exists_row (p : Char → Bool) (text : List Char) :
    ∃ row rest, text = row ++ rest ∧ (∀ c ∈ row, p c = true) ∧
      (row ++ rest).takeWhile p = row ∧ (row ++ rest).dropWhile p = rest := by
  have htext : text.takeWhile p ++ text.dropWhile p = text := List.takeWhile_append_dropWhile
  refine ⟨text.takeWhile p, text.dropWhile p, htext.symm,
    fun c hc => List.mem_takeWhile_imp hc, ?_, ?_⟩
  · rw [htext]
  · rw [htext]

end Text

/-- Digits, a point and digits are read as one numeral up to the first other character. The digits
may be missing on one side of the point. -/
theorem Numeral.ofText?_point {whole part rest : List Char} (hne : whole ≠ [] ∨ part ≠ [])
    (hwhole : ∀ c ∈ whole, Text.isDecimalDigit c = true)
    (hpart : ∀ c ∈ part, Text.isDecimalDigit c = true)
    (hrest : ∀ c ∈ rest.head?, Text.isDecimalDigit c = false) :
    Numeral.ofText? (whole ++ '.' :: (part ++ rest)) = some (.ofDigits whole part, rest) := by
  have hpoint : ∀ c ∈ ('.' :: (part ++ rest)).head?, Text.isDecimalDigit c = false := by
    intro c hc
    cases hc
    decide
  obtain ⟨htake, hdrop⟩ := Text.takeWhile_append_of_head hwhole hpoint
  obtain ⟨htake', hdrop'⟩ := Text.takeWhile_append_of_head hpart hrest
  have hdigits : ¬ (whole.isEmpty && part.isEmpty) = true := by
    rcases hne with h | h <;> simp [h]
  simp only [Numeral.ofText?, htake, hdrop, htake', hdrop', hdigits]
  rfl

/-- Digits with no point after them are read as one numeral up to the first other character. -/
theorem Numeral.ofText?_digits {whole rest : List Char} (hne : whole ≠ [])
    (hwhole : ∀ c ∈ whole, Text.isDecimalDigit c = true)
    (hrest : ∀ c ∈ rest.head?, Text.isDecimalDigit c = false ∧ c ≠ '.') :
    Numeral.ofText? (whole ++ rest) = some (.ofDigits whole [], rest) := by
  obtain ⟨htake, hdrop⟩ := Text.takeWhile_append_of_head hwhole fun c hc => (hrest c hc).1
  simp only [Numeral.ofText?, htake, hdrop]
  split
  · -- the text goes on with a point only if its first character is one
    exact absurd rfl (hrest '.' rfl).2
  · simp [hne]

end RandomDelay
