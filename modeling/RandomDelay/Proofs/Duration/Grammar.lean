import RandomDelay.Proofs.Duration.Overflow
import RandomDelay.Proofs.Text.Numeral

/-!
# The grammar of written durations

A written duration is a numeral and a unit with blanks around them (`Written.Form`). A numeral has
digits of any scripts before a point, after it or on both sides, and needs no point if it has digits
before it (`Numeral.Form`); the symbol of the unit may be missing. The reader accepts the texts of
this form and no others, and finds the digits and the unit (`Written.ofText?_eq_some_iff`).

What becomes of an accepted text depends on the unit and on the exact value of the numeral only
(`Written.duration_eq_ofValue`). `Duration.ofText_grammar` puts both together: the texts that are
refused, and the changes of a text that change nothing.
-/

set_option autoImplicit false

namespace RandomDelay

/-! ## Forms -/

/-- Rows of decimal digits, of any scripts. -/
def Text.Digits (row : List Char) : Prop := ∀ c ∈ row, isDecimalDigit c = true

/-- Rows of blanks. -/
def Text.Blanks (row : List Char) : Prop := ∀ c ∈ row, isBlank c = true

instance : DecidablePred Text.Digits := fun row =>
  decidable_of_iff (row.all Text.isDecimalDigit = true) List.all_eq_true

instance : DecidablePred Text.Blanks := fun row =>
  decidable_of_iff (row.all Text.isBlank = true) List.all_eq_true

/-- Texts of a numeral with the given digits before and after the point. -/
inductive Numeral.Form : List Char → List Char → List Char → Prop where
  | digits {whole : List Char} : whole ≠ [] → Text.Digits whole → Form whole [] whole
  | point {whole part : List Char} : whole ≠ [] → Text.Digits whole → Text.Digits part →
      Form whole part (whole ++ '.' :: part)
  | fraction {part : List Char} : part ≠ [] → Text.Digits part → Form [] part ('.' :: part)

/-- Texts of a unit: its symbol, and for the second also nothing. -/
inductive TimeUnit.Form : TimeUnit → List Char → Prop where
  | symbol (unit : TimeUnit) : Form unit unit.symbol
  | missing : Form .second []

/-- Texts of a duration: a numeral and a unit, with blanks before, between and after them. -/
inductive Written.Form (whole part : List Char) (unit : TimeUnit) : List Char → Prop where
  | parts {before numeral between symbol after : List Char} : Text.Blanks before →
      Numeral.Form whole part numeral → Text.Blanks between → TimeUnit.Form unit symbol →
      Text.Blanks after →
        Form whole part unit (before ++ (numeral ++ (between ++ (symbol ++ after))))

/-- Exact value of the digits before and after a point. -/
def Numeral.exactValue (whole part : List Char) : ℚ :=
  Text.number whole + Text.number part / 10 ^ part.length

/-! ## The reader of units -/

theorem TimeUnit.ofSymbol?_eq_some_iff {symbol : List Char} {unit : TimeUnit} :
    ofSymbol? symbol = some unit ↔ symbol = unit.symbol := by
  constructor
  · intro h
    unfold ofSymbol? at h
    split at h <;> cases h <;> rfl
  · rintro rfl
    exact unit.ofSymbol?_symbol

theorem Written.unit?_eq_some_iff {symbol : List Char} {unit : TimeUnit} :
    unit? symbol = some unit ↔ TimeUnit.Form unit symbol := by
  constructor
  · intro h
    cases symbol with
    | nil =>
      obtain rfl : TimeUnit.second = unit := Option.some.inj h
      exact .missing
    | cons c rest =>
      have hsymbol : TimeUnit.ofSymbol? (c :: rest) = some unit := h
      rw [TimeUnit.ofSymbol?_eq_some_iff.1 hsymbol]
      exact .symbol unit
  · intro h
    cases h with
    | symbol => cases unit <;> rfl
    | missing => rfl

/-- The characters of a symbol are neither blank nor part of a numeral. -/
theorem TimeUnit.Form.of_mem {unit : TimeUnit} {symbol : List Char} (h : TimeUnit.Form unit symbol)
    {c : Char} (hc : c ∈ symbol) :
    Text.isBlank c = false ∧ Text.isDecimalDigit c = false ∧ c ≠ '.' := by
  cases h with
  | symbol =>
    have hall : unit.symbol.all fun c => !Text.isBlank c && !Text.isDecimalDigit c && c != '.' := by
      cases unit <;> decide
    simpa [and_assoc] using List.all_eq_true.1 hall c hc
  | missing => cases hc

/-- Blanks are no part of a numeral. -/
theorem Text.of_isBlank {c : Char} (h : isBlank c = true) : isDecimalDigit c = false ∧ c ≠ '.' := by
  constructor
  · apply Bool.eq_false_iff.2
    intro hdigit
    rw [isBlank_of_isDecimalDigit hdigit] at h
    cases h
  · rintro rfl
    cases h

/-! ## The reader of numerals -/

namespace Numeral

theorem ofText?_of_form {whole part numeral rest : List Char} (h : Form whole part numeral)
    (hrest : ∀ c ∈ rest.head?, Text.isDecimalDigit c = false ∧ c ≠ '.') :
    ofText? (numeral ++ rest) = some (.ofDigits whole part, rest) := by
  have hdigit : ∀ c ∈ rest.head?, Text.isDecimalDigit c = false := fun c hc => (hrest c hc).1
  cases h with
  | digits hne hwhole => exact ofText?_digits hne hwhole hrest
  | point hne hwhole hpart =>
    rw [List.append_assoc, List.cons_append]
    exact ofText?_point (Or.inl hne) hwhole hpart hdigit
  | @fraction part hne hpart =>
    show ofText? ([] ++ '.' :: (part ++ rest)) = _
    exact ofText?_point (Or.inr hne) nofun hpart hdigit

/-- A numeral does not begin with a blank. -/
theorem Form.isBlank_head? {whole part numeral : List Char} (h : Form whole part numeral)
    (rest : List Char) : ∀ c ∈ (numeral ++ rest).head?, Text.isBlank c = false := by
  have hrow : ∀ row tail : List Char, row ≠ [] → Text.Digits row →
      ∀ c ∈ (row ++ tail).head?, Text.isBlank c = false := by
    intro row tail hne hdigits c hc
    cases row with
    | nil => exact absurd rfl hne
    | cons d row =>
      obtain rfl : d = c := Option.some.inj hc
      exact Text.isBlank_of_isDecimalDigit (hdigits d List.mem_cons_self)
  cases h with
  | digits hne hwhole => exact hrow _ rest hne hwhole
  | point hne hwhole _ =>
    rw [List.append_assoc]
    exact hrow _ _ hne hwhole
  | fraction _ _ =>
    intro c hc
    cases hc
    decide

/-- What is read is a numeral at the start of the text. -/
theorem form_of_ofText? {text rest : List Char} {n : Numeral} (h : ofText? text = some (n, rest)) :
    ∃ whole part numeral,
      n = .ofDigits whole part ∧ Form whole part numeral ∧ text = numeral ++ rest := by
  obtain ⟨whole, left, rfl, hwhole, htake, hdrop⟩ := Text.exists_row Text.isDecimalDigit text
  simp only [ofText?, htake, hdrop] at h
  split at h
  · -- a point follows the digits, and more digits may follow the point
    rename_i tail
    obtain ⟨part, left, rfl, hpart, htake', hdrop'⟩ := Text.exists_row Text.isDecimalDigit tail
    simp only [htake', hdrop'] at h
    split at h
    · cases h
    · rename_i hdigits
      obtain ⟨rfl, rfl⟩ := Prod.mk.inj (Option.some.inj h)
      cases whole with
      | nil =>
        have hne : part ≠ [] := by simpa using hdigits
        exact ⟨[], part, '.' :: part, rfl, .fraction hne hpart, rfl⟩
      | cons c rest =>
        exact ⟨c :: rest, part, (c :: rest) ++ '.' :: part, rfl,
          .point (List.cons_ne_nil c rest) hwhole hpart,
          (List.append_assoc (c :: rest) ('.' :: part) left).symm⟩
  · split at h
    · cases h
    · rename_i hdigits
      obtain ⟨rfl, rfl⟩ := Prod.mk.inj (Option.some.inj h)
      have hne : whole ≠ [] := by simpa using hdigits
      exact ⟨whole, [], whole, rfl, .digits hne hwhole, rfl⟩

end Numeral

/-! ## The reader of durations -/

namespace Written

/-- After a numeral come blanks or a unit, neither of which goes on with it. -/
theorem head?_after_numeral {between symbol after : List Char} {unit : TimeUnit}
    (hbetween : Text.Blanks between) (hunit : TimeUnit.Form unit symbol)
    (hafter : Text.Blanks after) :
    ∀ c ∈ (between ++ (symbol ++ after)).head?, Text.isDecimalDigit c = false ∧ c ≠ '.' := by
  intro c hc
  have hmem : c ∈ between ++ (symbol ++ after) := List.mem_of_mem_head? hc
  rw [List.mem_append, List.mem_append] at hmem
  rcases hmem with hin | hin | hin
  · exact Text.of_isBlank (hbetween c hin)
  · exact (hunit.of_mem hin).2
  · exact Text.of_isBlank (hafter c hin)

theorem ofText?_of_form {whole part text : List Char} {unit : TimeUnit}
    (h : Form whole part unit text) : ofText? text = some ⟨.ofDigits whole part, unit⟩ := by
  cases h with
  | @parts before numeral between symbol after hbefore hnumeral hbetween hunit hafter =>
  have hstart := (Text.takeWhile_append_of_head hbefore
    (hnumeral.isBlank_head? (between ++ (symbol ++ after)))).2
  have hread := Numeral.ofText?_of_form hnumeral (head?_after_numeral hbetween hunit hafter)
  rw [ofText?, hstart, hread]
  cases hunit with
  | symbol =>
    have hfirst : ∀ c ∈ (unit.symbol ++ after).head?, Text.isBlank c = false := by
      intro c hc
      cases unit <;> cases hc <;> decide
    have hsymbol : ∀ c ∈ unit.symbol, (!Text.isBlank c) = true := by
      intro c hc
      rw [((TimeUnit.Form.symbol unit).of_mem hc).1]
      rfl
    have hend : ∀ c ∈ after.head?, (!Text.isBlank c) = false := by
      intro c hc
      rw [hafter c (List.mem_of_mem_head? hc)]
      rfl
    have hdrop := (Text.takeWhile_append_of_head hbetween hfirst).2
    obtain ⟨htake, hdrop'⟩ := Text.takeWhile_append_of_head hsymbol hend
    have hunit : unit? unit.symbol = some unit := unit?_eq_some_iff.2 (.symbol unit)
    simp only [bind, Option.bind, hdrop, htake, hdrop', hunit]
    exact if_pos (List.all_eq_true.2 hafter)
  | missing =>
    -- the blanks between and after cannot be told apart, and need not be
    have hdrop : (between ++ ([] ++ after)).dropWhile Text.isBlank = [] := by
      rw [List.nil_append, List.dropWhile_eq_nil_iff]
      intro c hc
      rcases List.mem_append.1 hc with hin | hin
      · exact hbetween c hin
      · exact hafter c hin
    simp only [bind, Option.bind, hdrop]
    rfl

theorem form_of_ofText? {text : List Char} {w : Written} (h : ofText? text = some w) :
    ∃ whole part, w.amount = .ofDigits whole part ∧ Form whole part w.unit text := by
  obtain ⟨before, left, rfl, hbefore, -, hdrop⟩ := Text.exists_row Text.isBlank text
  rw [ofText?, hdrop] at h
  obtain ⟨⟨amount, tail⟩, hnumeral, hunit⟩ := Option.bind_eq_some_iff.1 h
  obtain ⟨whole, part, numeral, rfl, hform, rfl⟩ := Numeral.form_of_ofText? hnumeral
  obtain ⟨between, rest, rfl, hbetween, -, hdrop⟩ := Text.exists_row Text.isBlank tail
  obtain ⟨symbol, after, rfl, -, htake, hdrop'⟩ := Text.exists_row (!Text.isBlank ·) rest
  simp only [hdrop, htake, hdrop'] at hunit
  obtain ⟨unit, hsymbol, hend⟩ := Option.bind_eq_some_iff.1 hunit
  split at hend
  · rename_i hafter
    obtain rfl := Option.some.inj hend
    exact ⟨whole, part, rfl, .parts hbefore hform hbetween (unit?_eq_some_iff.1 hsymbol)
      (List.all_eq_true.1 hafter)⟩
  · cases hend

/-- The reader accepts the texts of the form and finds their digits and unit. -/
theorem ofText?_eq_some_iff {text : List Char} {w : Written} :
    ofText? text = some w ↔
      ∃ whole part, w.amount = .ofDigits whole part ∧ Form whole part w.unit text := by
  constructor
  · exact form_of_ofText?
  · rintro ⟨whole, part, hamount, hform⟩
    rw [ofText?_of_form hform, ← hamount]

end Written

/-! ## Values -/

namespace Numeral

theorem value_ofDigits (whole part : List Char) :
    (ofDigits whole part).value = exactValue whole part := by
  have hpow : (10 : ℚ) ^ part.length ≠ 0 := by positivity
  rw [value, ofDigits, exactValue, Text.number_append]
  show ((Text.number whole * 10 ^ part.length + Text.number part : ℕ) : ℚ) /
    (10 ^ part.length : ℕ) = _
  push_cast
  rw [add_div, mul_div_cancel_right₀ _ hpow]

/-- Leading zeros, trailing zeros after the point, and the scripts of the digits do not count. -/
theorem exactValue_zeros_append {zeros zeros' whole whole' part part' : List Char}
    (hzeros : ∀ c ∈ zeros, Text.digitValue? c = some 0)
    (hzeros' : ∀ c ∈ zeros', Text.digitValue? c = some 0)
    (hwhole : whole'.map Text.digitValue? = whole.map Text.digitValue?)
    (hpart : part'.map Text.digitValue? = part.map Text.digitValue?) :
    exactValue (zeros ++ whole') (part' ++ zeros') = exactValue whole part := by
  have hlength : part'.length = part.length := by simpa using congrArg List.length hpart
  have hpow : (10 : ℚ) ^ zeros'.length ≠ 0 := by positivity
  rw [exactValue, exactValue, Text.number_append, Text.number_append, Text.number_of_zeros hzeros,
    Text.number_of_zeros hzeros', Text.number_congr hwhole, Text.number_congr hpart,
    List.length_append, hlength, pow_add, Nat.zero_mul, Nat.zero_add, Nat.add_zero]
  show _ + ((Text.number part * 10 ^ zeros'.length : ℕ) : ℚ) / _ = _
  push_cast
  rw [mul_div_mul_right _ _ hpow]

end Numeral

/-- Duration of an exact number of units: the number is rounded to binary64, and then to
microseconds. -/
def Duration.ofValue (unit : TimeUnit) (q : ℚ) : Except ArithmeticError Duration :=
  if Binary64.rounded q < Binary64.limit then
    ofMicros (Rounding.nearestInt (unrounded unit (Binary64.rounded q)))
  else .error .overflow

/-- Only the unit and the exact value of the numeral count. -/
theorem Written.duration_eq_ofValue (w : Written) :
    w.duration = Duration.ofValue w.unit w.amount.value := by
  rw [duration, Duration.ofAmount, Duration.ofValue]
  rcases w.amount.nearest_cases with ⟨hfin, hval⟩ | ⟨hinf, hlimit⟩
  · have hnumber : (Number.float w.amount.nearest).IsFinite := hfin
    have hrat : (Number.float w.amount.nearest).toRat = Binary64.rounded w.amount.value := hval
    have hlt : Binary64.rounded w.amount.value < Binary64.limit := by
      rw [← hval]
      exact (le_abs_self _).trans_lt (Binary64.abs_toRat_lt_limit _)
    rw [if_pos hlt, Duration.microsOf_eq_ok w.unit hnumber, hrat]
    rfl
  · rw [if_neg (not_lt.2 hlimit), hinf]
    rfl

namespace Duration

variable {whole part : List Char} {unit : TimeUnit} {text : String}

theorem ofText_of_form (h : Written.Form whole part unit text.toList) :
    ofText text = (ofValue unit (Numeral.exactValue whole part)).mapError .arithmetic := by
  rw [ofText, Written.ofText?_of_form h]
  show (Written.duration _).mapError _ = _
  rw [Written.duration_eq_ofValue, Numeral.value_ofDigits]

/-- A text is malformed exactly if it is not of the form. -/
theorem ofText_eq_malformed_iff :
    ofText text = .error (.malformedDuration text) ↔
      ¬ ∃ whole part unit, Written.Form whole part unit text.toList := by
  constructor
  · rintro h ⟨whole, part, unit, hform⟩
    rw [ofText_of_form hform] at h
    cases hvalue : ofValue unit (Numeral.exactValue whole part) with
    | error error =>
      rw [hvalue] at h
      cases h
    | ok d =>
      rw [hvalue] at h
      cases h
  · intro hno
    rw [ofText]
    cases hread : Written.ofText? text.toList with
    | none => rfl
    | some w =>
      obtain ⟨whole, part, -, hform⟩ := Written.form_of_ofText? hread
      exact absurd ⟨whole, part, w.unit, hform⟩ hno

/-- A text is refused as malformed, and quoted, exactly if it is not of the form of a written
duration. Every text of the form is a duration or one that is too long. Which of them depends on the
unit and the exact value of the numeral only; so blanks, leading zeros, trailing zeros after the
point and the scripts of the digits change nothing. -/
theorem ofText_grammar (text : String) :
    (ofText text = .error (.malformedDuration text) ↔
      ¬ ∃ whole part unit, Written.Form whole part unit text.toList) ∧
    Failure.message? (.malformedDuration text) =
      some ("Could not parse duration: '" ++ text ++ "'") ∧
    ∀ whole part unit, Written.Form whole part unit text.toList →
      ((∃ d, ofText text = .ok d) ∨ ofText text = .error (.arithmetic .overflow)) ∧
      (∀ other whole' part', Written.Form whole' part' unit other.toList →
        Numeral.exactValue whole' part' = Numeral.exactValue whole part →
          ofText other = ofText text) ∧
      ∀ other zeros zeros' whole' part',
        Written.Form (zeros ++ whole') (part' ++ zeros') unit other.toList →
        (∀ c ∈ zeros ++ zeros', Text.digitValue? c = some 0) →
        whole'.map Text.digitValue? = whole.map Text.digitValue? →
        part'.map Text.digitValue? = part.map Text.digitValue? → ofText other = ofText text := by
  refine ⟨ofText_eq_malformed_iff, rfl, ?_⟩
  intro whole part unit hform
  have hsame : ∀ other whole' part', Written.Form whole' part' unit other.toList →
      Numeral.exactValue whole' part' = Numeral.exactValue whole part →
      ofText other = ofText text := by
    intro other whole' part' hother hvalue
    rw [ofText_of_form hother, ofText_of_form hform, hvalue]
  refine ⟨?_, hsame, ?_⟩
  · rcases ofText_cases text with ⟨w, d, -, -, hd⟩ | ⟨w, -, -, hd⟩ | ⟨-, hd⟩
    · exact Or.inl ⟨d, hd⟩
    · exact Or.inr hd
    · exact absurd ⟨whole, part, unit, hform⟩ (ofText_eq_malformed_iff.1 hd)
  · intro other zeros zeros' whole' part' hother hzeros hwhole hpart
    refine hsame other _ _ hother (Numeral.exactValue_zeros_append ?_ ?_ hwhole hpart)
    · intro c hc
      exact hzeros c (List.mem_append_left _ hc)
    · intro c hc
      exact hzeros c (List.mem_append_right _ hc)

/-- One and a half hours, and the same with blanks, zeros on both sides and digits of another
script. -/
theorem ofText_grammar_scripts :
    Written.Form ['1'] ['5'] .hour "1.5h".toList ∧
      ofText "\u3000\u0660\u0661.\u06650 h" = ofText "1.5h" := by
  have hform : Written.Form ['1'] ['5'] .hour "1.5h".toList := by
    have htext : "1.5h".toList =
        [] ++ ((['1'] ++ '.' :: ['5']) ++ ([] ++ (TimeUnit.hour.symbol ++ []))) := by decide
    rw [htext]
    exact .parts (by decide) (.point (by decide) (by decide) (by decide)) (by decide)
      (.symbol .hour) (by decide)
  have hother : Written.Form (['\u0660'] ++ ['\u0661']) (['\u0665'] ++ ['0']) .hour
      "\u3000\u0660\u0661.\u06650 h".toList := by
    have htext : "\u3000\u0660\u0661.\u06650 h".toList =
        ['\u3000'] ++ ((['\u0660', '\u0661'] ++ '.' :: ['\u0665', '0']) ++
          ([' '] ++ (TimeUnit.hour.symbol ++ []))) := by decide
    rw [htext]
    exact .parts (by decide) (.point (by decide) (by decide) (by decide)) (by decide)
      (.symbol .hour) (by decide)
  obtain ⟨-, -, hall⟩ := ofText_grammar "1.5h"
  obtain ⟨-, -, hsame⟩ := hall ['1'] ['5'] .hour hform
  have hzeros : ∀ c ∈ ['\u0660'] ++ ['0'], Text.digitValue? c = some 0 :=
    List.forall_mem_cons.2 ⟨by decide, List.forall_mem_singleton.2 (by decide)⟩
  exact ⟨hform,
    hsame _ ['\u0660'] ['0'] ['\u0661'] ['\u0665'] hother hzeros (by decide) (by decide)⟩

end Duration

end RandomDelay
