import RandomDelay.Number
import RandomDelay.Proofs.Binary64.Arithmetic

/-!
# Values of numbers of seconds

`Number.toRat` is the exact value of a whole number or of a finite binary64 number. Comparisons of
finite numbers are those of the values (`lt_iff`, `le_iff`), and the larger number has the larger
value (`toRat_larger`).

Numbers of moderate size (`IsModerate`) are binary64 numbers without rounding, whichever form they
have. Their sums and differences are therefore the exact ones rounded once (`exists_add`,
`exists_sub`). A sum of two numbers that are not negative is only small if both terms are
(`le_of_add_le`).
-/

set_option autoImplicit false

namespace RandomDelay.Number

open RandomDelay.Binary64

/-- Numbers that are neither infinite nor `nan`. -/
def IsFinite : Number → Prop
  | .whole _ => True
  | .float x => x.IsFinite

/-- Exact value of a finite number. -/
def toRat : Number → ℚ
  | .whole n => n
  | .float x => x.toRat

/-- Finite numbers that are binary64 numbers as they are: those of at most 52 bits before the
point. -/
def IsModerate (a : Number) : Prop := a.IsFinite ∧ |a.toRat| ≤ 2 ^ 52

/-- Numbers that binary64 holds as they are: its finite numbers, and whole numbers of at most 53
bits. -/
def IsExact : Number → Prop
  | .whole n => |n| ≤ 2 ^ 53
  | .float x => x.IsFinite

theorem isFinite_whole (n : ℤ) : (whole n).IsFinite := trivial

theorem isFinite_float {x : Binary64} (h : x.IsFinite) : (float x).IsFinite := h

/-! ## Order -/

/-- A finite number has its value as place on the line. -/
theorem position?_of_isFinite {a : Number} (ha : a.IsFinite) :
    ∃ n : ℤ, a.position? = some (.units n) ∧ a.toRat = n / unitsPerOne := by
  cases a with
  | whole n =>
    refine ⟨n * unitsPerOne, rfl, ?_⟩
    push_cast
    rw [mul_div_cancel_right₀ _ unitsPerOne_cast_pos.ne']
    rfl
  | float x =>
    obtain ⟨s, m, e, h, rfl⟩ := ha
    exact ⟨_, rfl, rfl⟩

theorem lt_iff {a b : Number} (ha : a.IsFinite) (hb : b.IsFinite) :
    a.lt b = true ↔ a.toRat < b.toRat := by
  obtain ⟨m, hm, hma⟩ := position?_of_isFinite ha
  obtain ⟨n, hn, hnb⟩ := position?_of_isFinite hb
  rw [lt, hm, hn, hma, hnb, div_lt_div_iff_of_pos_right unitsPerOne_cast_pos, Int.cast_lt]
  exact decide_eq_true_iff

theorem le_iff {a b : Number} (ha : a.IsFinite) (hb : b.IsFinite) :
    a.le b = true ↔ a.toRat ≤ b.toRat := by
  obtain ⟨m, hm, hma⟩ := position?_of_isFinite ha
  obtain ⟨n, hn, hnb⟩ := position?_of_isFinite hb
  rw [le, hm, hn, hma, hnb, div_le_div_iff_of_pos_right unitsPerOne_cast_pos, Int.cast_le, ← not_lt]
  show (!decide (n < m)) = true ↔ ¬ n < m
  rw [Bool.not_eq_true', decide_eq_false_iff_not]

theorem isFinite_larger {a b : Number} (ha : a.IsFinite) (hb : b.IsFinite) :
    (a.larger b).IsFinite := by
  unfold larger
  split
  · exact hb
  · exact ha

theorem toRat_larger {a b : Number} (ha : a.IsFinite) (hb : b.IsFinite) :
    (a.larger b).toRat = max a.toRat b.toRat := by
  unfold larger
  by_cases h : a.lt b = true
  · rw [if_pos h, max_eq_right ((lt_iff ha hb).1 h).le]
  · rw [if_neg h]
    rw [lt_iff ha hb, not_lt] at h
    exact (max_eq_left h).symm

theorem Position.lt_asymm {p q : Position} (h : p.lt q = true) : q.lt p = false := by
  cases p <;> cases q <;> simp [Position.lt] at h ⊢
  omega

theorem Position.lt_of_lt_of_not_lt {p q r : Position} (hpq : p.lt q = true)
    (hrq : r.lt q = false) : p.lt r = true := by
  cases p <;> cases q <;> cases r <;> simp [Position.lt] at hpq hrq ⊢
  omega

theorem lt_eq_true_iff {a b : Number} :
    a.lt b = true ↔ ∃ p q, a.position? = some p ∧ b.position? = some q ∧ p.lt q = true := by
  rw [lt]
  cases a.position? <;> cases b.position? <;> simp

theorem le_eq_true_iff {a b : Number} :
    a.le b = true ↔ ∃ p q, a.position? = some p ∧ b.position? = some q ∧ q.lt p = false := by
  rw [le]
  cases a.position? <;> cases b.position? <;> simp

/-- No comparison holds of `nan`. -/
theorem ne_nan_of_le {a b : Number} (h : a.le b = true) : a ≠ .float .nan ∧ b ≠ .float .nan := by
  obtain ⟨p, q, hp, hq, -⟩ := le_eq_true_iff.1 h
  constructor
  · rintro rfl
    cases hp
  · rintro rfl
    cases hq

theorem lt_asymm {a b : Number} (h : a.lt b = true) : b.lt a = false := by
  obtain ⟨p, q, hp, hq, hlt⟩ := lt_eq_true_iff.1 h
  rw [lt, hp, hq]
  exact Position.lt_asymm hlt

theorem le_of_lt {a b : Number} (h : a.lt b = true) : a.le b = true := by
  obtain ⟨p, q, hp, hq, hlt⟩ := lt_eq_true_iff.1 h
  exact le_eq_true_iff.2 ⟨p, q, hp, hq, Position.lt_asymm hlt⟩

theorem lt_of_lt_of_le {a b c : Number} (hab : a.lt b = true) (hbc : b.le c = true) :
    a.lt c = true := by
  obtain ⟨p, q, hp, hq, hlt⟩ := lt_eq_true_iff.1 hab
  obtain ⟨q', r, hq', hr, hle⟩ := le_eq_true_iff.1 hbc
  obtain rfl : q = q' := Option.some.inj (hq.symm.trans hq')
  exact lt_eq_true_iff.2 ⟨p, r, hp, hr, Position.lt_of_lt_of_not_lt hlt hle⟩

theorem le_trans {a b c : Number} (hab : a.le b = true) (hbc : b.le c = true) :
    a.le c = true := by
  obtain ⟨p, q, hp, hq, hle⟩ := le_eq_true_iff.1 hab
  obtain ⟨q', r, hq', hr, hle'⟩ := le_eq_true_iff.1 hbc
  obtain rfl : q = q' := Option.some.inj (hq.symm.trans hq')
  refine le_eq_true_iff.2 ⟨p, r, hp, hr, ?_⟩
  by_contra hlt
  have hrq := Position.lt_of_lt_of_not_lt (Bool.eq_true_of_not_eq_false hlt) hle
  rw [hle'] at hrq
  cases hrq

/-- The larger of two numbers is at least the first one, unless that is `nan`. -/
theorem le_larger {a b : Number} (ha : a.IsFinite) : a.le (a.larger b) = true := by
  rw [larger]
  split
  · rename_i h
    exact le_of_lt h
  · exact (le_iff ha ha).2 le_rfl

/-! ## Sums and differences of moderate numbers -/

theorem bounded_of_isFinite {x : Binary64} (h : x.IsFinite) : bounded x = .ok x := by
  obtain ⟨s, m, e, hc, rfl⟩ := h
  rfl

theorem toBinary64_whole {n : ℤ} (h : (ofInt n).IsFinite) :
    (whole n).toBinary64 = .ok (ofInt n) := bounded_of_isFinite h

/-- What binary64 holds is converted without rounding. -/
theorem exists_toBinary64_of_isExact {a : Number} (ha : a.IsExact) :
    ∃ x, a.toBinary64 = .ok x ∧ x.IsFinite ∧ x.toRat = a.toRat := by
  cases a with
  | float x => exact ⟨x, rfl, ha, rfl⟩
  | whole n =>
    have hn : |(n : ℚ)| ≤ 2 ^ (53 : ℤ) := by exact_mod_cast (ha : |n| ≤ 2 ^ 53)
    obtain ⟨hxfin, hxval⟩ := toRat_ofInt n (rounded_lt_limit (by decide) (by decide) hn)
    rw [rounded_of_representable (representable_intCast ha)] at hxval
    exact ⟨ofInt n, toBinary64_whole hxfin, hxfin, hxval⟩

theorem IsModerate.isExact {a : Number} (ha : a.IsModerate) : a.IsExact := by
  obtain ⟨hfin, hsize⟩ := ha
  cases a with
  | float x => exact hfin
  | whole n =>
    have hn : |n| ≤ 2 ^ 52 := by exact_mod_cast (show |(n : ℚ)| ≤ 2 ^ 52 from hsize)
    show |n| ≤ 2 ^ 53
    linarith

theorem exists_toBinary64 {a : Number} (ha : a.IsModerate) :
    ∃ x, a.toBinary64 = .ok x ∧ x.IsFinite ∧ x.toRat = a.toRat :=
  exists_toBinary64_of_isExact ha.isExact

theorem representable_of_isModerate {a : Number} (ha : a.IsModerate) : Representable a.toRat := by
  obtain ⟨x, -, -, hval⟩ := exists_toBinary64 ha
  rw [← hval]
  exact representable_toRat x

theorem abs_add_le_of_isModerate {a b : Number} (ha : a.IsModerate) (hb : b.IsModerate) :
    |a.toRat + b.toRat| ≤ 2 ^ (53 : ℤ) := by
  have := abs_add_le a.toRat b.toRat
  have h1 := ha.2
  have h2 := hb.2
  norm_num at h1 h2 ⊢
  linarith

theorem abs_sub_le_of_isModerate {a b : Number} (ha : a.IsModerate) (hb : b.IsModerate) :
    |a.toRat - b.toRat| ≤ 2 ^ (53 : ℤ) := by
  have := abs_sub a.toRat b.toRat
  have h1 := ha.2
  have h2 := hb.2
  norm_num at h1 h2 ⊢
  linarith

/-- An operation on moderate numbers that is exact on whole numbers and rounds once on others rounds
once on all. -/
theorem exists_combine (op : ℚ → ℚ → ℚ) {exact : ℤ → ℤ → ℤ} {float : Binary64 → Binary64 → Binary64}
    (hexact : ∀ m n : ℤ, ((exact m n : ℤ) : ℚ) = op m n)
    (hfloat : ∀ x y : Binary64, x.IsFinite → y.IsFinite → rounded |op x.toRat y.toRat| < limit →
      (float x y).IsFinite ∧ (float x y).toRat = rounded (op x.toRat y.toRat))
    {a b : Number} (ha : a.IsModerate) (hb : b.IsModerate)
    (hop : |op a.toRat b.toRat| ≤ 2 ^ (53 : ℤ)) :
    ∃ c, combine exact float a b = .ok c ∧ c.IsFinite ∧ c.toRat = rounded (op a.toRat b.toRat) := by
  have hmixed : ∃ x y, a.toBinary64 = .ok x ∧ b.toBinary64 = .ok y ∧ (float x y).IsFinite ∧
      (float x y).toRat = rounded (op a.toRat b.toRat) := by
    obtain ⟨x, hx, hxfin, hxval⟩ := exists_toBinary64 ha
    obtain ⟨y, hy, hyfin, hyval⟩ := exists_toBinary64 hb
    have hlt : rounded |op x.toRat y.toRat| < limit := by
      rw [hxval, hyval]
      exact rounded_lt_limit (by decide) (by decide) hop
    obtain ⟨hfin, hval⟩ := hfloat x y hxfin hyfin hlt
    rw [hxval, hyval] at hval
    exact ⟨x, y, hx, hy, hfin, hval⟩
  obtain ⟨x, y, hx, hy, hfin, hval⟩ := hmixed
  -- two whole numbers are not converted, but the exact result is a binary64 number as it is
  cases a with
  | whole m =>
    cases b with
    | whole n =>
      refine ⟨_, rfl, trivial, ?_⟩
      have hint : |exact m n| ≤ 2 ^ 53 := by
        have : |((exact m n : ℤ) : ℚ)| ≤ 2 ^ (53 : ℤ) := by
          rw [hexact]
          exact hop
        exact_mod_cast this
      have hround := rounded_of_representable (representable_intCast hint)
      show ((exact m n : ℤ) : ℚ) = rounded (op m n)
      rw [← hexact, hround]
    | float y' =>
      refine ⟨.float (float x y), ?_, hfin, hval⟩
      simp only [combine, hx, hy]
      rfl
  | float x' =>
    refine ⟨.float (float x y), ?_, hfin, hval⟩
    simp only [combine, hx, hy]
    rfl

theorem exists_add {a b : Number} (ha : a.IsModerate) (hb : b.IsModerate) :
    ∃ c, a.add b = .ok c ∧ c.IsFinite ∧ c.toRat = rounded (a.toRat + b.toRat) :=
  exists_combine (· + ·) (fun _ _ => Int.cast_add _ _) (fun _ _ hx hy => toRat_add hx hy) ha hb
    (abs_add_le_of_isModerate ha hb)

theorem exists_sub {a b : Number} (ha : a.IsModerate) (hb : b.IsModerate) :
    ∃ c, a.sub b = .ok c ∧ c.IsFinite ∧ c.toRat = rounded (a.toRat - b.toRat) :=
  exists_combine (· - ·) (fun _ _ => Int.cast_sub _ _) (fun _ _ hx hy => toRat_sub hx hy) ha hb
    (abs_sub_le_of_isModerate ha hb)

/-! ## Numbers that are not negative -/

/-- A number that is not negative is finite or the positive infinity. -/
theorem finite_or_infinity_of_nonneg {a : Number} (ha : (whole 0).le a = true) :
    (a.IsFinite ∧ 0 ≤ a.toRat) ∨ a = .float (.infinity false) := by
  have hzero : (whole 0).toRat = 0 := Int.cast_zero
  cases a with
  | whole n =>
    rw [le_iff (isFinite_whole 0) (isFinite_whole n), hzero] at ha
    exact Or.inl ⟨isFinite_whole n, ha⟩
  | float x =>
    cases x with
    | nan => exact absurd ha Bool.false_ne_true
    | infinity negative =>
      cases negative with
      | false => exact Or.inr rfl
      | true => exact absurd ha Bool.false_ne_true
    | finite s m e h =>
      have hfin : (Number.float (.finite s m e h)).IsFinite := isFinite_finite s h
      rw [le_iff (isFinite_whole 0) hfin, hzero] at ha
      exact Or.inl ⟨hfin, ha⟩

theorem infinity_le_whole (n : ℤ) : (float (.infinity false)).le (whole n) = false := rfl

theorem infinity_add {y : Binary64} (h : y.IsFinite ∨ y = .infinity false) :
    (Binary64.infinity false).add y = .infinity false ∧
      y.add (.infinity false) = .infinity false := by
  rcases h with ⟨s, m, e, hc, rfl⟩ | rfl
  · exact ⟨rfl, rfl⟩
  · exact ⟨rfl, rfl⟩

theorem zero_le_iff {a : Number} (ha : a.IsFinite) : (whole 0).le a = true ↔ 0 ≤ a.toRat := by
  have hzero : (whole 0).toRat = 0 := Int.cast_zero
  rw [le_iff (isFinite_whole 0) ha, hzero]

/-- The larger of two numbers that are not negative is only finite if both are. -/
theorem isFinite_of_isFinite_larger {a b : Number} (ha : (whole 0).le a = true)
    (hb : (whole 0).le b = true) (h : (a.larger b).IsFinite) : a.IsFinite ∧ b.IsFinite := by
  rcases finite_or_infinity_of_nonneg ha with ⟨hafin, -⟩ | rfl
  · rcases finite_or_infinity_of_nonneg hb with ⟨hbfin, -⟩ | rfl
    · exact ⟨hafin, hbfin⟩
    · obtain ⟨n, hn, -⟩ := position?_of_isFinite hafin
      have hlt : a.lt (.float (.infinity false)) = true := by
        rw [lt, hn]
        rfl
      rw [larger, if_pos hlt] at h
      exact absurd h (not_isFinite_infinity false)
  · have hlt : (Number.float (.infinity false)).lt b = false := by
      rcases finite_or_infinity_of_nonneg hb with ⟨hbfin, -⟩ | rfl
      · obtain ⟨n, hn, -⟩ := position?_of_isFinite hbfin
        rw [lt, hn]
        rfl
      · rfl
    rw [larger, hlt] at h
    exact absurd h (not_isFinite_infinity false)

/-- A delay that is a number and not below zero is at least zero. -/
theorem zero_le_of_not_lt {a : Number} (hnan : a ≠ .float .nan) (h : ¬ a.lt (.whole 0) = true) :
    (whole 0).le a = true := by
  cases a with
  | whole n =>
    rw [lt_iff (isFinite_whole n) (isFinite_whole 0), not_lt] at h
    exact (le_iff (isFinite_whole 0) (isFinite_whole n)).2 h
  | float x =>
    cases x with
    | nan => exact absurd rfl hnan
    | infinity negative =>
      cases negative with
      | false => rfl
      | true => exact absurd rfl h
    | finite t m e hc =>
      have hfin : (Number.float (.finite t m e hc)).IsFinite := isFinite_finite t hc
      rw [lt_iff hfin (isFinite_whole 0), not_lt] at h
      exact (le_iff (isFinite_whole 0) hfin).2 h

theorem larger_nonneg {a b : Number} (ha : (whole 0).le a = true) (hb : (whole 0).le b = true) :
    (whole 0).le (a.larger b) = true := by
  rw [larger]
  split
  · exact hb
  · exact ha

/-- A finite sum of finite numbers is rounded once, and one that becomes infinite has a positive
sign if the terms are not negative. -/
theorem add_cases_of_nonneg {x y : Binary64} (hx : x.IsFinite) (hy : y.IsFinite) (hx0 : 0 ≤ x.toRat)
    (hy0 : 0 ≤ y.toRat) :
    ((x.add y).IsFinite ∧ (x.add y).toRat = rounded (x.toRat + y.toRat)) ∨
      x.add y = .infinity false := by
  have hsum : 0 ≤ x.toRat + y.toRat := add_nonneg hx0 hy0
  rcases lt_or_ge (rounded |x.toRat + y.toRat|) limit with hlt | hge
  · exact Or.inl (toRat_add hx hy hlt)
  · right
    have hpos : 0 < x.toRat + y.toRat := by
      apply lt_of_le_of_ne hsum
      intro hzero
      rw [← hzero, abs_zero, rounded_zero] at hge
      exact absurd hge (not_le.2 limit_pos)
    rw [add_eq_infinity hx hy hge, sumIsNegative_of_pos hpos]

/-- The binary64 form of a finite number is its value, rounded once; an infinity is its own. -/
theorem toBinary64_cases {a : Number} (hnan : a ≠ .float .nan) {x : Binary64}
    (h : a.toBinary64 = .ok x) :
    (a.IsFinite ∧ x.IsFinite ∧ x.toRat = rounded a.toRat) ∨
      ∃ negative, a = .float (.infinity negative) ∧ x = .infinity negative := by
  cases a with
  | float y =>
    obtain rfl : y = x := Except.ok.inj h
    cases y with
    | nan => exact absurd rfl hnan
    | infinity negative => exact Or.inr ⟨negative, rfl, rfl⟩
    | finite negative m e hc =>
      have hfin := isFinite_finite negative hc
      exact Or.inl ⟨hfin, hfin, (rounded_toRat _).symm⟩
  | whole n =>
    have hbounded : bounded (ofInt n) = .ok x := h
    rcases lt_or_ge (rounded |(n : ℚ)|) limit with hlt | hge
    · obtain ⟨hfin, hval⟩ := toRat_ofInt n hlt
      rw [bounded_of_isFinite hfin] at hbounded
      obtain rfl := Except.ok.inj hbounded
      exact Or.inl ⟨isFinite_whole n, hfin, hval⟩
    · rw [ofInt_eq_infinity hge] at hbounded
      cases hbounded

/-- Binary64 form of a number that is not negative. -/
theorem toBinary64_of_nonneg {a : Number} (ha : (whole 0).le a = true) {x : Binary64}
    (h : a.toBinary64 = .ok x) :
    (a.IsFinite ∧ x.IsFinite ∧ 0 ≤ x.toRat ∧ x.toRat = rounded a.toRat) ∨ x = .infinity false := by
  rcases toBinary64_cases (ne_nan_of_le ha).2 h with ⟨hafin, hxfin, hval⟩ | ⟨negative, rfl, rfl⟩
  · have hx0 : 0 ≤ x.toRat := by
      rw [hval]
      exact rounded_nonneg ((zero_le_iff hafin).1 ha)
    exact Or.inl ⟨hafin, hxfin, hx0, hval⟩
  · cases negative with
    | false => exact Or.inr rfl
    | true => exact absurd ha Bool.false_ne_true

/-- A sum in which a binary64 number takes part is the sum of the binary64 forms. -/
theorem toBinary64_of_add_eq_ok {a b c : Number} (hwhole : ¬ ∃ k l, a = whole k ∧ b = whole l)
    (h : a.add b = .ok c) :
    ∃ x y, a.toBinary64 = .ok x ∧ b.toBinary64 = .ok y ∧ c = .float (x.add y) := by
  have hbind : (a.toBinary64 >>= fun x => b.toBinary64 >>= fun y => pure (.float (x.add y))) =
      Except.ok c := by
    cases a with
    | float x => exact h
    | whole k =>
      cases b with
      | float y => exact h
      | whole l => exact absurd ⟨k, l, rfl, rfl⟩ hwhole
  cases hx : a.toBinary64 with
  | error e =>
    rw [hx] at hbind
    cases hbind
  | ok x =>
    cases hy : b.toBinary64 with
    | error e =>
      rw [hx, hy] at hbind
      cases hbind
    | ok y =>
      rw [hx, hy] at hbind
      exact ⟨x, y, rfl, rfl, (Except.ok.inj hbind).symm⟩

/-- A number whose rounded value is at most a whole number is so itself. -/
theorem toRat_le_of_rounded_le {a : Number} {n : ℤ} (hn0 : 0 ≤ n) (hn : n < 2 ^ 53)
    (h : rounded a.toRat ≤ n) : a.toRat ≤ n := by
  cases a with
  | float x => rwa [toRat, rounded_toRat] at h
  | whole k =>
    -- the next whole number is on the grid, and rounding does not pass it
    by_contra hlt
    have hk : n + 1 ≤ k := by
      have : (n : ℚ) < k := not_le.1 hlt
      exact_mod_cast this
    have hrep : Representable ((n + 1 : ℤ) : ℚ) := by
      apply representable_intCast
      rw [abs_of_nonneg (by omega)]
      omega
    have hge : ((n + 1 : ℤ) : ℚ) ≤ rounded (k : ℚ) := le_rounded hrep (by exact_mod_cast hk)
    have hle : rounded (k : ℚ) ≤ n := h
    push_cast at hge
    linarith

/-- A sum of binary64 numbers that are not negative is only below a whole number if none is
infinite. -/
theorem isFinite_of_add_le {x y : Binary64} {n : ℤ}
    (hx : (x.IsFinite ∧ 0 ≤ x.toRat) ∨ x = .infinity false)
    (hy : (y.IsFinite ∧ 0 ≤ y.toRat) ∨ y = .infinity false)
    (h : (float (x.add y)).le (whole n) = true) :
    x.IsFinite ∧ y.IsFinite ∧ rounded (x.toRat + y.toRat) ≤ n := by
  have hinfinity : x.add y ≠ .infinity false := by
    intro hinf
    rw [hinf, infinity_le_whole] at h
    cases h
  rcases hx with ⟨hxfin, hx0⟩ | rfl
  · rcases hy with ⟨hyfin, hy0⟩ | rfl
    · rcases add_cases_of_nonneg hxfin hyfin hx0 hy0 with ⟨hfin, hval⟩ | hinf
      · rw [le_iff (isFinite_float hfin) (isFinite_whole n)] at h
        exact ⟨hxfin, hyfin, hval ▸ h⟩
      · exact absurd hinf hinfinity
    · exact absurd (infinity_add (Or.inl hxfin)).2 hinfinity
  · have hy' : y.IsFinite ∨ y = .infinity false := hy.imp And.left id
    exact absurd (infinity_add hy').1 hinfinity

/-- A sum of two numbers that are not negative is only as small as a whole number if both are. -/
theorem le_of_add_le {a b c : Number} {n : ℤ} (ha : (whole 0).le a = true)
    (hb : (whole 0).le b = true) (hn0 : 0 ≤ n) (hn : n < 2 ^ 53) (h : a.add b = .ok c)
    (hc : c.le (whole n) = true) :
    (a.IsFinite ∧ a.toRat ≤ n) ∧ (b.IsFinite ∧ b.toRat ≤ n) := by
  by_cases hwhole : ∃ k l, a = whole k ∧ b = whole l
  · obtain ⟨k, l, rfl, rfl⟩ := hwhole
    obtain rfl : whole (k + l) = c := Except.ok.inj h
    rw [le_iff (isFinite_whole _) (isFinite_whole _)] at ha hb hc
    have hk : (0 : ℚ) ≤ k := by simpa [toRat] using ha
    have hl : (0 : ℚ) ≤ l := by simpa [toRat] using hb
    have hsum : (k : ℚ) + l ≤ n := by simpa [toRat] using hc
    refine ⟨⟨isFinite_whole k, ?_⟩, ⟨isFinite_whole l, ?_⟩⟩
    · show (k : ℚ) ≤ n
      linarith
    · show (l : ℚ) ≤ n
      linarith
  · obtain ⟨x, y, hx, hy, rfl⟩ := toBinary64_of_add_eq_ok hwhole h
    have hx' := toBinary64_of_nonneg ha hx
    have hy' := toBinary64_of_nonneg hb hy
    obtain ⟨hxfin, hyfin, hsum⟩ := isFinite_of_add_le (hx'.imp (fun h => ⟨h.2.1, h.2.2.1⟩) id)
      (hy'.imp (fun h => ⟨h.2.1, h.2.2.1⟩) id) hc
    rcases hx' with ⟨hafin, -, hx0, hxval⟩ | rfl
    · rcases hy' with ⟨hbfin, -, hy0, hyval⟩ | rfl
      · -- rounding the sum does not bring it below either term
        have hxle : x.toRat ≤ rounded (x.toRat + y.toRat) :=
          le_rounded (representable_toRat x) (by linarith)
        have hyle : y.toRat ≤ rounded (x.toRat + y.toRat) :=
          le_rounded (representable_toRat y) (by linarith)
        refine ⟨⟨hafin, ?_⟩, ⟨hbfin, ?_⟩⟩
        · apply toRat_le_of_rounded_le hn0 hn
          rw [← hxval]
          exact hxle.trans hsum
        · apply toRat_le_of_rounded_le hn0 hn
          rw [← hyval]
          exact hyle.trans hsum
      · exact absurd hyfin (not_isFinite_infinity false)
    · exact absurd hxfin (not_isFinite_infinity false)

/-- A sum that rounds, or becomes infinite, stays at least a binary64 number below its first
term. -/
theorem le_float_add {m x y : Binary64} {a : Number} (hm : m.IsFinite) (ha : (whole 0).le a = true)
    (hma : (float m).le a = true) (hx : a.toBinary64 = .ok x) (hy : y.IsFinite)
    (hy0 : 0 ≤ y.toRat) :
    (float m).le (float (x.add y)) = true := by
  have hmfin := isFinite_float hm
  have hinfinity : (float m).le (float (.infinity false)) = true := by
    obtain ⟨n, hn, -⟩ := position?_of_isFinite hmfin
    rw [le, hn]
    rfl
  rcases toBinary64_of_nonneg ha hx with ⟨hafin, hxfin, hx0, hxval⟩ | rfl
  · rcases add_cases_of_nonneg hxfin hy hx0 hy0 with ⟨hfin, hval⟩ | hinf
    · rw [le_iff hmfin (isFinite_float hfin)]
      rw [le_iff hmfin hafin] at hma
      have hmx : m.toRat ≤ x.toRat := by
        rw [hxval]
        exact le_rounded (representable_toRat m) hma
      show m.toRat ≤ (x.add y).toRat
      rw [hval]
      exact le_rounded (representable_toRat m) (by linarith)
    · rw [hinf]
      exact hinfinity
  · rw [(infinity_add (Or.inl hy)).1]
    exact hinfinity

end RandomDelay.Number
