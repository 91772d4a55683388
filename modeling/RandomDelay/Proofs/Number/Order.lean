import RandomDelay.Proofs.Number

/-!
# Order of rounded sums

With the infinities at the ends of the range, `Binary64.extended` puts all numbers but `nan` on one
line, in the order of `Number.le` (`Number.le_float_iff`). A sum of finite numbers is the exact one,
rounded and then cut at the ends (`Binary64.extended_add`), and all of this keeps the order. So do
sums with an infinite term, which is the result (`Number.le_float_add_add`), and the conversion of
whole numbers (`Number.le_toBinary64`).
-/

set_option autoImplicit false

namespace RandomDelay

namespace Binary64

/-- Value of a number, with the infinities at the ends of the range. -/
def extended : Binary64 → ℚ
  | .infinity negative => withSign negative limit
  | x => x.toRat

/-- A rational cut at the ends of the range. -/
def clamp (q : ℚ) : ℚ := max (-limit) (min limit q)

variable {x y : Binary64}

theorem clamp_mono {q r : ℚ} (h : q ≤ r) : clamp q ≤ clamp r :=
  max_le_max_left _ (min_le_min_left _ h)

theorem clamp_of_abs_lt {q : ℚ} (h : |q| < limit) : clamp q = q := by
  obtain ⟨hlow, hhigh⟩ := abs_lt.1 h
  rw [clamp, min_eq_right hhigh.le, max_eq_right hlow.le]

theorem clamp_withSign {q : ℚ} (negative : Bool) (h : limit ≤ q) :
    clamp (withSign negative q) = withSign negative limit := by
  have hpos := limit_pos
  cases negative with
  | false =>
    show max (-limit) (min limit q) = limit
    rw [min_eq_left h, max_eq_right (by linarith)]
  | true =>
    show max (-limit) (min limit (-q)) = -limit
    rw [min_eq_right (by linarith), max_eq_left (by linarith)]

theorem extended_of_isFinite (h : x.IsFinite) : x.extended = x.toRat := by
  obtain ⟨negative, m, e, hc, rfl⟩ := h
  rfl

theorem abs_extended_le (x : Binary64) : |x.extended| ≤ limit := by
  cases x with
  | nan => exact (abs_toRat_lt_limit .nan).le
  | infinity negative => exact (abs_withSign negative limit).trans_le (abs_of_pos limit_pos).le
  | finite negative m e hc => exact (abs_toRat_lt_limit (.finite negative m e hc)).le

/-- A sum of finite numbers is rounded, and cut at the ends. -/
theorem extended_add (hx : x.IsFinite) (hy : y.IsFinite) :
    (x.add y).extended = clamp (rounded (x.toRat + y.toRat)) := by
  rcases lt_or_ge (rounded |x.toRat + y.toRat|) limit with hlt | hge
  · obtain ⟨hfin, hval⟩ := toRat_add hx hy hlt
    have habs : |rounded (x.toRat + y.toRat)| < limit := by
      rw [← hval]
      exact abs_toRat_lt_limit _
    rw [extended_of_isFinite hfin, hval, clamp_of_abs_lt habs]
  · rw [add_eq_infinity hx hy hge, ← withSign_sum, clamp_withSign _ hge]
    rfl

/-- The ends are beyond the finite numbers. -/
theorem withSign_limit_le_iff {q : ℚ} (negative : Bool) (h : |q| < limit) :
    withSign negative limit ≤ q ↔ negative = true := by
  obtain ⟨hlow, hhigh⟩ := abs_lt.1 h
  cases negative with
  | false => exact iff_of_false (not_le.2 hhigh) Bool.false_ne_true
  | true => exact iff_of_true hlow.le rfl

theorem le_withSign_limit_iff {q : ℚ} (negative : Bool) (h : |q| < limit) :
    q ≤ withSign negative limit ↔ negative = false := by
  obtain ⟨hlow, hhigh⟩ := abs_lt.1 h
  cases negative with
  | false => exact iff_of_true hhigh.le rfl
  | true => exact iff_of_false (not_le.2 hlow) Bool.noConfusion

/-- An infinite term outweighs a finite one. -/
theorem infinity_add_of_isFinite (negative : Bool) (hy : y.IsFinite) :
    (infinity negative).add y = .infinity negative := by
  obtain ⟨t, m, e, hc, rfl⟩ := hy
  rfl

theorem add_ne_nan (hx : x ≠ .nan) (hy : y.IsFinite) : x.add y ≠ .nan := by
  cases x with
  | nan => exact absurd rfl hx
  | infinity negative =>
    rw [infinity_add_of_isFinite negative hy]
    exact nofun
  | finite negative m e hc =>
    have hxfin := isFinite_finite negative hc
    rcases lt_or_ge (rounded |(finite negative m e hc).toRat + y.toRat|) limit with hlt | hge
    · obtain ⟨_, _, _, _, hsum⟩ := (toRat_add hxfin hy hlt).1
      rw [hsum]
      exact nofun
    · rw [add_eq_infinity hxfin hy hge]
      exact nofun

end Binary64

namespace Number

open RandomDelay.Binary64

variable {a b : Number} {x x' y y' : Binary64}

theorem le_infinity_iff (ha : a.IsFinite) (negative : Bool) :
    a.le (.float (.infinity negative)) = true ↔ negative = false := by
  obtain ⟨n, hn, -⟩ := position?_of_isFinite ha
  rw [le, hn]
  cases negative <;> simp [position?, Position.lt]

theorem infinity_le_iff (hb : b.IsFinite) (negative : Bool) :
    le (.float (.infinity negative)) b = true ↔ negative = true := by
  obtain ⟨n, hn, -⟩ := position?_of_isFinite hb
  rw [le, hn]
  cases negative <;> simp [position?, Position.lt]

theorem infinity_le_infinity_iff (negative negative' : Bool) :
    le (.float (.infinity negative)) (.float (.infinity negative')) = true ↔
      (negative' = true → negative = true) := by
  cases negative <;> cases negative' <;> decide

/-- Numbers other than `nan` are in the order of the line. -/
theorem le_float_iff (hx : x ≠ .nan) (hy : y ≠ .nan) :
    le (.float x) (.float y) = true ↔ x.extended ≤ y.extended := by
  cases x with
  | nan => exact absurd rfl hx
  | infinity s =>
    cases y with
    | nan => exact absurd rfl hy
    | infinity t =>
      have hpos := limit_pos
      rw [infinity_le_infinity_iff]
      show _ ↔ withSign s limit ≤ withSign t limit
      cases s <;> cases t <;> simp [withSign] <;> linarith
    | finite t m e hc =>
      have hfin := isFinite_float (isFinite_finite t hc)
      rw [infinity_le_iff hfin]
      exact (withSign_limit_le_iff s (abs_toRat_lt_limit _)).symm
  | finite s m e hc =>
    have hfin := isFinite_float (isFinite_finite s hc)
    cases y with
    | nan => exact absurd rfl hy
    | infinity t =>
      rw [le_infinity_iff hfin]
      exact (le_withSign_limit_iff t (abs_toRat_lt_limit _)).symm
    | finite t k f hk => exact le_iff hfin (isFinite_float (isFinite_finite t hk))

/-- Sums keep the order, also of infinite terms and past the largest number. -/
theorem le_float_add_add (h : le (.float x) (.float x') = true) (hy : y.IsFinite)
    (hy' : y'.IsFinite) (hle : y.toRat ≤ y'.toRat) :
    le (.float (x.add y)) (.float (x'.add y')) = true := by
  have hx : x ≠ .nan := fun hnan => (ne_nan_of_le h).1 (congrArg float hnan)
  have hx' : x' ≠ .nan := fun hnan => (ne_nan_of_le h).2 (congrArg float hnan)
  rw [le_float_iff (add_ne_nan hx hy) (add_ne_nan hx' hy')]
  cases x with
  | nan => exact absurd rfl hx
  | infinity s =>
    rw [infinity_add_of_isFinite s hy]
    cases x' with
    | nan => exact absurd rfl hx'
    | infinity t =>
      rw [infinity_add_of_isFinite t hy']
      exact (le_float_iff hx hx').1 h
    | finite t k f hk =>
      -- only the negative infinity is less than a finite number
      have hfin := isFinite_float (isFinite_finite t hk)
      obtain rfl := (infinity_le_iff hfin s).1 h
      exact (abs_le.1 (abs_extended_le _)).1
  | finite s m e hm =>
    have hfin := isFinite_float (isFinite_finite s hm)
    cases x' with
    | nan => exact absurd rfl hx'
    | infinity t =>
      -- and only the positive one is greater
      obtain rfl := (le_infinity_iff hfin t).1 h
      rw [infinity_add_of_isFinite false hy']
      exact (abs_le.1 (abs_extended_le _)).2
    | finite t k f hk =>
      have hfin' := isFinite_float (isFinite_finite t hk)
      have hterm := (le_iff hfin hfin').1 h
      rw [extended_add hfin hy, extended_add hfin' hy']
      exact clamp_mono (rounded_mono (add_le_add hterm hle))

/-- The conversion to binary64 keeps the order. -/
theorem le_toBinary64 (h : a.le b = true) (hx : a.toBinary64 = .ok x) (hy : b.toBinary64 = .ok y) :
    le (.float x) (.float y) = true := by
  obtain ⟨ha, hb⟩ := ne_nan_of_le h
  rcases toBinary64_cases ha hx with ⟨hafin, hxfin, hxval⟩ | ⟨s, rfl, rfl⟩
  · rcases toBinary64_cases hb hy with ⟨hbfin, hyfin, hyval⟩ | ⟨t, rfl, rfl⟩
    · have hmono := rounded_mono ((le_iff hafin hbfin).1 h)
      rw [← hxval, ← hyval] at hmono
      exact (le_iff (isFinite_float hxfin) (isFinite_float hyfin)).2 hmono
    · exact (le_infinity_iff (isFinite_float hxfin) t).2 ((le_infinity_iff hafin t).1 h)
  · rcases toBinary64_cases hb hy with ⟨hbfin, hyfin, -⟩ | ⟨t, rfl, rfl⟩
    · exact (infinity_le_iff (isFinite_float hyfin) s).2 ((infinity_le_iff hbfin s).1 h)
    · exact h

end Number

end RandomDelay
