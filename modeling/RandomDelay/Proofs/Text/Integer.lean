import RandomDelay.Proofs.Text.Numeral
import RandomDelay.Text.Integer

/-!
# Reading written integers

An integer in decimal has no padding and no underscores, so its digits are read as they stand, as
long as there are not too many of them (`integer?_signed`). Where it ends in a longer text is clear
from the first character that is no digit (`signed_append_cons_inj`).
-/

set_option autoImplicit false

namespace RandomDelay.Text

theorem isPadding_of_isDigit {c : Char} (h : c.isDigit = true) : isPadding c = false := by
  rw [isPadding, isBlank_of_isDigit h]
  rfl

/-- A text without padding at its ends is not shortened. -/
theorem unpadded_of_ends {text : List Char} (hfirst : ∀ c ∈ text.head?, isPadding c = false)
    (hlast : ∀ c ∈ text.getLast?, isPadding c = false) : unpadded text = text := by
  rw [← List.head?_reverse] at hlast
  rw [unpadded, (takeWhile_of_head hfirst).2, (takeWhile_of_head hlast).2, List.reverse_reverse]

/-- A row of digits without underscores is taken as it is. -/
theorem ungrouped?_of_digits {digits : List Char} (hne : digits ≠ [])
    (h : ∀ c ∈ digits, isDecimalDigit c = true) : ungrouped? digits = some digits := by
  induction digits with
  | nil => exact absurd rfl hne
  | cons c rest ih =>
    obtain ⟨hc, hrest⟩ := List.forall_mem_cons.1 h
    cases rest with
    | nil => rw [ungrouped?, if_pos hc]
    | cons d rest =>
      have hunderscore : d = '_' → False := by
        rintro rfl
        have hdigit := hrest '_' List.mem_cons_self
        revert hdigit
        decide
      rw [ungrouped?, if_pos hc, ih (List.cons_ne_nil d rest) hrest]
      · rfl
      · exact hunderscore

theorem natural?_plain {n : Nat} (h : (plain n).length ≤ digitLimit) :
    natural? (plain n) = some n := by
  have hdigits : ∀ c ∈ plain n, c.isDigit = true := fun c => isDigit_of_mem_plain
  have hungrouped := ungrouped?_of_digits (plain_ne_nil n) fun c hc =>
    isDecimalDigit_of_isDigit (hdigits c hc)
  have hvalue : number (plain n) = n := (number_eq_value hdigits).trans (value_plain n)
  rw [natural?, hungrouped]
  show (if (plain n).length ≤ digitLimit then some (number (plain n)) else none) = some n
  rw [if_pos h, hvalue]

theorem signed_of_neg {n : Int} (h : n < 0) : signed n = '-' :: plain n.natAbs := by
  rw [signed, minus, decide_eq_true h]
  rfl

theorem signed_of_not_neg {n : Int} (h : ¬ n < 0) : signed n = plain n.natAbs := by
  rw [signed, minus, decide_eq_false h]
  rfl

/-- A numeral begins with a digit, and so without a sign. -/
theorem exists_plain_eq_cons (n : Nat) : ∃ c rest, plain n = c :: rest ∧ c.isDigit = true := by
  obtain ⟨c, rest, heq⟩ := List.exists_cons_of_ne_nil (plain_ne_nil n)
  have hmem : c ∈ plain n := by
    rw [heq]
    exact List.mem_cons_self
  exact ⟨c, rest, heq, isDigit_of_mem_plain hmem⟩

theorem signed_natCast (n : Nat) : signed n = plain n := signed_of_not_neg (by omega)

/-- A text does not begin with a minus sign and with a digit. -/
theorem signed_append_ne {m n : Int} (hm : m < 0) (hn : ¬ n < 0) (rest rest' : List Char) :
    signed m ++ rest ≠ signed n ++ rest' := by
  obtain ⟨first, tail, heq, hfirst⟩ := exists_plain_eq_cons n.natAbs
  rw [signed_of_neg hm, signed_of_not_neg hn, heq]
  intro h
  obtain ⟨rfl, -⟩ := List.cons.inj h
  exact absurd hfirst (by decide)

/-- An integer ends where its digits end. -/
theorem signed_append_cons_inj {m n : Int} {c d : Char} {rest rest' : List Char}
    (hc : c.isDigit = false) (hd : d.isDigit = false)
    (h : signed m ++ c :: rest = signed n ++ d :: rest') :
    m = n ∧ c = d ∧ rest = rest' := by
  by_cases hm : m < 0
  · by_cases hn : n < 0
    · rw [signed_of_neg hm, signed_of_neg hn] at h
      obtain ⟨habs, htail⟩ := plain_append_cons_inj hc hd (List.cons.inj h).2
      exact ⟨by omega, htail⟩
    · exact absurd h (signed_append_ne hm hn _ _)
  · by_cases hn : n < 0
    · exact absurd h.symm (signed_append_ne hn hm _ _)
    · rw [signed_of_not_neg hm, signed_of_not_neg hn] at h
      obtain ⟨habs, htail⟩ := plain_append_cons_inj hc hd h
      exact ⟨by omega, htail⟩

theorem isPadding_getLast?_signed (n : Int) : ∀ c ∈ (signed n).getLast?, isPadding c = false := by
  intro c hc
  have hlast := List.getLast?_eq_some_getLast (plain_ne_nil n.natAbs)
  rw [signed, List.getLast?_append, hlast, Option.some_or, ← hlast] at hc
  exact isPadding_of_isDigit (isDigit_of_mem_plain (List.mem_of_getLast? hc))

theorem unpadded_signed (n : Int) : unpadded (signed n) = signed n := by
  refine unpadded_of_ends ?_ (isPadding_getLast?_signed n)
  obtain ⟨first, rest, heq, hfirst⟩ := exists_plain_eq_cons n.natAbs
  intro c hc
  by_cases hneg : n < 0
  · rw [signed_of_neg hneg] at hc
    cases hc
    decide
  · rw [signed_of_not_neg hneg, heq] at hc
    cases hc
    exact isPadding_of_isDigit hfirst

/-- An integer of at most `digitLimit` digits is read back. -/
theorem integer?_signed {n : Int} (h : (plain n.natAbs).length ≤ digitLimit) :
    integer? (signed n) = some n := by
  rw [integer?, unpadded_signed]
  by_cases hneg : n < 0
  · rw [signed_of_neg hneg]
    show (natural? (plain n.natAbs) >>= _).map _ = some n
    rw [natural?_plain h]
    show some (-(n.natAbs : Int)) = some n
    congr 1
    omega
  · have hread : (natural? (plain n.natAbs)).map Int.ofNat = some n := by
      rw [natural?_plain h]
      show some (n.natAbs : Int) = some n
      congr 1
      omega
    obtain ⟨first, rest, heq, hfirst⟩ := exists_plain_eq_cons n.natAbs
    rw [signed_of_not_neg hneg]
    split
    · rename_i hminus
      rw [heq] at hminus
      obtain ⟨rfl, -⟩ := List.cons.inj hminus
      cases hfirst
    · rename_i hplus
      rw [heq] at hplus
      obtain ⟨rfl, -⟩ := List.cons.inj hplus
      cases hfirst
    · exact hread

end RandomDelay.Text
