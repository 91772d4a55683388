import RandomDelay.Proofs.Text.Numeral

/-!
# Decimals with commas

A decimal of more than three digits is written in groups. The commas part groups of three digits, of
which the first may be shorter but is not empty, and the groups joined again are the plain decimal
(`IsGrouped`). This leaves one text for every number, and it is the text that `groups` makes from
the end of the number (`isGrouped_groups`).
-/

set_option autoImplicit false

namespace RandomDelay.Text

/-- Decimals of `n` with a comma between groups of three digits. -/
def IsGrouped (n : ℕ) (text : List Char) : Prop :=
  ∃ first rest, text.splitOn ',' = first :: rest ∧ 1 ≤ first.length ∧ first.length ≤ 3 ∧
    (∀ group ∈ rest, group.length = 3) ∧ (first :: rest).flatten = plain n

/-- The last digit of a decimal stands apart. -/
theorem plain_eq_append {n : ℕ} (h : 10 ≤ n) : plain n = plain (n / 10) ++ plain (n % 10) := by
  have hsplit := Nat.toDigits_append_toDigits (b := 10) (n := n / 10) (d := n % 10) (by decide)
    (Nat.div_pos h (by decide)) (Nat.mod_lt n (by decide))
  rw [Nat.div_add_mod] at hsplit
  exact hsplit.symm

theorem length_plain_of_lt {n : ℕ} (h : n < 10) : (plain n).length = 1 := by
  rw [plain, Nat.toDigits_of_lt_base h]
  rfl

/-- The last digit of a padded decimal stands apart, and the others are padded to one less. -/
theorem padded_succ {width : ℕ} (hwidth : 0 < width) (n : ℕ) :
    padded (width + 1) n = padded width (n / 10) ++ plain (n % 10) := by
  rw [padded, padded]
  rcases lt_or_ge n 10 with hlt | hge
  · -- a single digit has nothing but zeros before it
    have hzero : plain 0 = List.replicate 1 '0' := rfl
    have hlength : (plain 0).length = 1 := rfl
    rw [length_plain_of_lt hlt, Nat.div_eq_of_lt hlt, Nat.mod_eq_of_lt hlt, hlength, hzero,
      List.replicate_append_replicate, Nat.sub_add_cancel hwidth, Nat.add_sub_cancel]
  · have hlength := length_plain_of_lt (Nat.mod_lt n (by decide : 0 < 10))
    rw [plain_eq_append hge, List.length_append, hlength, Nat.add_sub_add_right, List.append_assoc]

/-- The last digits of a decimal, with the zeros that they begin with, stand apart. -/
theorem plain_div_append_padded {width : ℕ} (hwidth : 0 < width) {n : ℕ} (h : 10 ^ width ≤ n) :
    plain (n / 10 ^ width) ++ padded width (n % 10 ^ width) = plain n := by
  induction width, hwidth using Nat.le_induction generalizing n with
  | base =>
    have hlength := length_plain_of_lt (Nat.mod_lt n (by decide : 0 < 10))
    rw [pow_one] at h ⊢
    rw [padded, hlength, plain_eq_append h]
    rfl
  | succ width hwidth ih =>
    have hten : 10 ≤ n := (Nat.le_self_pow (Nat.succ_ne_zero width) 10).trans h
    have hrest : 10 ^ width ≤ n / 10 := by
      rw [Nat.le_div_iff_mul_le (by decide)]
      rwa [pow_succ] at h
    have hwhole : n / 10 ^ (width + 1) = n / 10 / 10 ^ width := by
      rw [pow_succ', Nat.div_div_eq_div_mul]
    have hpart : n % 10 ^ (width + 1) / 10 = n / 10 % 10 ^ width := by
      rw [pow_succ', Nat.mod_mul_right_div_self]
    have hlast : n % 10 ^ (width + 1) % 10 = n % 10 := by
      rw [pow_succ', Nat.mod_mul_right_mod]
    rw [padded_succ hwidth, hwhole, hpart, hlast, ← List.append_assoc, ih hrest,
      ← plain_eq_append hten]

theorem comma_not_mem {digits : List Char} (h : ∀ c ∈ digits, c.isDigit = true) : ',' ∉ digits := by
  intro hmem
  exact absurd (h ',' hmem) (by decide)

/-- The groups of a number are those of its decimal. -/
theorem isGrouped_groups (n : ℕ) : IsGrouped n (groups n) := by
  induction n using groups.induct with
  | case1 n hlt =>
    have hlength : (plain n).length ≤ 3 :=
      (Nat.length_toDigits_le_iff (by decide) (by decide)).2 hlt
    refine ⟨plain n, [], ?_, List.length_pos_iff.2 (plain_ne_nil n), hlength, nofun,
      List.flatten_singleton⟩
    rw [groups, if_pos hlt]
    exact List.splitOn_eq_singleton (comma_not_mem fun c => isDigit_of_mem_plain)
  | case2 n hge ih =>
    obtain ⟨first, rest, hsplit, hpos, hle, hrest, hjoined⟩ := ih
    have hlength : (padded 3 (n % 1000)).length = 3 :=
      length_padded (by decide) (Nat.mod_lt n (by decide))
    refine ⟨first, rest ++ [padded 3 (n % 1000)], ?_, hpos, hle, ?_, ?_⟩
    · -- the last comma is before the last group
      have hdigits : ∀ c ∈ padded 3 (n % 1000), c.isDigit = true := fun c => isDigit_of_mem_padded
      have hlast := List.splitOn_eq_singleton (comma_not_mem hdigits)
      have happend : (groups (n / 1000) ++ ',' :: padded 3 (n % 1000)).splitOn ',' =
          (groups (n / 1000)).splitOn ',' ++ (padded 3 (n % 1000)).splitOn ',' :=
        List.splitOnP_append_cons _ _ rfl
      rw [groups, if_neg hge, happend, hsplit, hlast]
      rfl
    · intro group hgroup
      rcases List.mem_append.1 hgroup with h | h
      · exact hrest group h
      · obtain rfl := List.mem_singleton.1 h
        exact hlength
    · rw [← List.cons_append, List.flatten_append, hjoined, List.flatten_singleton]
      exact plain_div_append_padded (by decide : 0 < 3) (not_lt.1 hge)

/-- A number that is not negative is written in the groups of its decimal. -/
theorem isGrouped_grouped (n : ℕ) : IsGrouped n (grouped n) := isGrouped_groups n

example : grouped 1020034 = "1,020,034".toList := by cbv

end RandomDelay.Text
