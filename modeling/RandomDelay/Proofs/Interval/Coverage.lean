import Mathlib.Data.Finset.Card
import Mathlib.Data.Nat.Log
import RandomDelay.Proofs.Source.Uniform

/-!
# Uniformity of samples

A generator draws `j / 2 ^ 53` for the numerators `j` below `2 ^ 53`. The product with the span
crosses a whole number `m` close to where the exact product does: rounding reaches `m` for every
product that is at least `m`, and for none that is below `m` by more than `m / 2 ^ 53`
(`rounded_lt_of_lt_margin`). The numerators whose offset is below `m` are therefore `m / span` of
all of them, up to at most one less (`le_card_drawsBelow`) and less than one more
(`card_drawsBelow_lt`), and the clamp at the upper bound changes nothing about that.

Every duration of an interval has the difference of two such counts as the number of its draws,
which is off from the even share by less than two (`abs_card_draws_sub_lt`), and not zero while the
span is at most `2 ^ 52` microseconds (`card_draws_bounds`).
-/

set_option autoImplicit false

namespace RandomDelay

open RandomDelay.Binary64

/-! ## Rounding up to a whole number -/

/-- A number is rounded up to a whole number only across a small part of it. -/
theorem Binary64.rounded_lt_of_lt_margin {m : ℕ} {q : ℚ} (hq : 0 ≤ q) (h : q < m - m / 2 ^ 53) :
    rounded q < m := by
  have hmargin : (0 : ℚ) ≤ m / 2 ^ 53 := by positivity
  have hpos : 0 < m := by
    have : (0 : ℚ) < m := by linarith
    exact_mod_cast this
  -- the power of two next to the whole number bounds the error by the margin
  have hlow : (2 : ℚ) ^ Nat.log 2 m ≤ m := by exact_mod_cast Nat.pow_log_le_self 2 hpos.ne'
  have hhigh : (m : ℚ) < 2 ^ (Nat.log 2 m + 1) := by
    exact_mod_cast Nat.lt_pow_succ_log_self one_lt_two m
  have hbits : |q| ≤ 2 ^ ((Nat.log 2 m + 1 : ℕ) : ℤ) := by
    rw [abs_of_nonneg hq, zpow_natCast]
    linarith
  have herror := (abs_le.1 (abs_rounded_sub_le (by omega) hbits)).2
  have hmarginLe : (2 : ℚ) ^ (((Nat.log 2 m + 1 : ℕ) : ℤ) - 54) ≤ m / 2 ^ 53 := by
    rw [zpow_sub₀ two_ne_zero, zpow_natCast, pow_succ,
      div_le_div_iff₀ (by positivity) (by positivity)]
    norm_num
    linarith
  linarith

namespace Interval

/-- Numerators of the draws with an offset below `m`. -/
def drawsBelow (i : Interval) (m : ℕ) : Finset ℕ :=
  (Finset.range 0x20000000000000).filter fun j => i.offsetAt (j / 2 ^ 53) < m

/-- Numerators of the draws that give the sample `d`. -/
def draws (i : Interval) (d : Duration) : Finset ℕ :=
  (Finset.range 0x20000000000000).filter fun j => (i.sample (.constant (ofNumerator j))).1 = .ok d

section

variable {i : Interval}

/-- A span of at most 53 bits is not rounded. -/
theorem rounded_span (h : i.span.micros ≤ 2 ^ 53) :
    rounded (i.span.micros : ℚ) = i.span.micros := by
  apply rounded_of_representable
  apply representable_intCast
  rw [abs_of_nonneg i.span_nonneg]
  exact h

/-- The offset reaches what the exact product reaches, up to the clamp. -/
theorem le_offsetAt {m : ℕ} (hspan : i.span.micros ≤ 2 ^ 53) (hm : m < i.span.micros) {r : ℚ}
    (h : m ≤ i.span.micros * r) : m ≤ i.offsetAt r := by
  have hrep : Representable (m : ℚ) := by
    have hsize : |(m : ℤ)| ≤ 2 ^ 53 := by
      rw [abs_of_nonneg (Int.natCast_nonneg m)]
      omega
    exact_mod_cast representable_intCast hsize
  have hfloor : (m : ℤ) ≤ ⌊rounded (rounded i.span.micros * r)⌋ := by
    rw [Int.le_floor, rounded_span hspan]
    exact_mod_cast le_rounded hrep h
  exact le_min hfloor (by omega)

/-- The offset reaches nothing that is further than the margin above the exact product. -/
theorem offsetAt_lt {m : ℕ} (hspan : i.span.micros ≤ 2 ^ 53) {r : ℚ} (hr : 0 ≤ r)
    (h : i.span.micros * r < m - m / 2 ^ 53) : i.offsetAt r < m := by
  have hproduct : (0 : ℚ) ≤ i.span.micros * r := by
    have : (0 : ℚ) ≤ i.span.micros := by exact_mod_cast i.span_nonneg
    positivity
  have hfloor : ⌊rounded (rounded i.span.micros * r)⌋ < (m : ℤ) := by
    rw [Int.floor_lt, rounded_span hspan]
    exact_mod_cast rounded_lt_of_lt_margin hproduct h
  exact lt_of_le_of_lt (min_le_left _ _) hfloor

/-- Below a whole number of microseconds the draws have at most one less than their share, for the
rounding reaches the number only across the margin. -/
theorem le_card_drawsBelow (hpos : 0 < i.span.micros) (hspan : i.span.micros ≤ 2 ^ 53) {m : ℕ}
    (hm : m ≤ i.span.micros) :
    m * (2 ^ 53 - 1) / i.span.micros ≤ ((i.drawsBelow m).card : ℚ) := by
  have hs : (0 : ℚ) < i.span.micros := by exact_mod_cast hpos
  have hms : (m : ℚ) ≤ i.span.micros := by exact_mod_cast hm
  have hsub : Finset.range ⌈(m : ℚ) * (2 ^ 53 - 1) / i.span.micros⌉₊ ⊆ i.drawsBelow m := by
    intro j hj
    rw [Finset.mem_range, Nat.lt_ceil, lt_div_iff₀ hs] at hj
    rw [drawsBelow, Finset.mem_filter, Finset.mem_range]
    constructor
    · have hj53 : (j : ℚ) < 2 ^ 53 := by
        by_contra hge
        have := mul_le_mul_of_nonneg_right (not_lt.1 hge) hs.le
        linarith
      norm_num at hj53
      exact_mod_cast hj53
    · -- the product stays a margin below the number, which rounding does not cross
      apply offsetAt_lt hspan (by positivity)
      rw [mul_div_assoc', div_lt_iff₀ (by positivity), sub_mul, div_mul_cancel₀ _ (by positivity)]
      linarith
  calc (m : ℚ) * (2 ^ 53 - 1) / i.span.micros ≤ ⌈(m : ℚ) * (2 ^ 53 - 1) / i.span.micros⌉₊ :=
        Nat.le_ceil _
    _ ≤ (i.drawsBelow m).card := by
      have hcard := Finset.card_le_card hsub
      rw [Finset.card_range] at hcard
      exact_mod_cast hcard

/-- They have less than one more than their share, for the rounding reaches what the exact product
reaches. -/
theorem card_drawsBelow_lt (hpos : 0 < i.span.micros) (hspan : i.span.micros ≤ 2 ^ 53) (m : ℕ) :
    ((i.drawsBelow m).card : ℚ) < m * 2 ^ 53 / i.span.micros + 1 := by
  have hs : (0 : ℚ) < i.span.micros := by exact_mod_cast hpos
  have hsub : i.drawsBelow m ⊆ Finset.range ⌈(m : ℚ) * 2 ^ 53 / i.span.micros⌉₊ := by
    intro j hj
    rw [drawsBelow, Finset.mem_filter, Finset.mem_range] at hj
    obtain ⟨hj53, hoffset⟩ := hj
    have hj53 : (j : ℚ) < 2 ^ 53 := by
      norm_num
      exact_mod_cast hj53
    rw [Finset.mem_range, Nat.lt_ceil, lt_div_iff₀ hs]
    by_contra hge
    rw [not_lt] at hge
    -- a whole number that the product reaches is below the clamp
    have hlt : (m : ℤ) < i.span.micros := by
      have : (m : ℚ) * 2 ^ 53 < i.span.micros * 2 ^ 53 :=
        lt_of_le_of_lt hge (by rw [mul_comm]; exact mul_lt_mul_of_pos_left hj53 hs)
      have := lt_of_mul_lt_mul_right this (by positivity)
      exact_mod_cast this
    have hreached : (m : ℚ) ≤ i.span.micros * (j / 2 ^ 53) := by
      rw [mul_div_assoc', le_div_iff₀ (by positivity)]
      linarith
    exact absurd (le_offsetAt hspan hlt hreached) (not_le.2 hoffset)
  calc ((i.drawsBelow m).card : ℚ) ≤ ⌈(m : ℚ) * 2 ^ 53 / i.span.micros⌉₊ := by
        have hcard := Finset.card_le_card hsub
        rw [Finset.card_range] at hcard
        exact_mod_cast hcard
    _ < m * 2 ^ 53 / i.span.micros + 1 := Nat.ceil_lt_add_one (by positivity)

/-- Draws of a duration are those with its offset. -/
theorem mem_draws_iff (hpos : 0 < i.span.micros)
    (hfits : i.lower.micros + i.span.micros ≤ Duration.longest.micros) {d : Duration} {k : ℕ}
    (hd : d.micros = i.lower.micros + k) {j : ℕ} :
    j ∈ i.draws d ↔ j < 0x20000000000000 ∧ i.offsetAt (j / 2 ^ 53) = k := by
  rw [draws, Finset.mem_filter, Finset.mem_range]
  refine and_congr_right fun hj => ?_
  obtain ⟨v, hv, hmicros⟩ := sampleAt_eq_ok hpos (inUnit_ofNumerator hj)
  have hoffset := i.offsetAt_lt_span ((j : ℚ) / 2 ^ 53)
  rw [(toRat_ofNumerator hj).2, min_eq_right (by omega)] at hmicros
  rw [sample_of_span_pos hpos, Source.next_constant, hv]
  constructor
  · intro h
    obtain rfl : v = d := Except.ok.inj h
    omega
  · intro h
    have hvd : v = d := by
      cases v
      cases d
      simp only [Duration.mk.injEq] at hmicros hd ⊢
      omega
    rw [hvd]
    rfl

/-- The draws of a duration are those below the next microsecond, without those below its own. -/
theorem card_draws_add (hpos : 0 < i.span.micros)
    (hfits : i.lower.micros + i.span.micros ≤ Duration.longest.micros) {d : Duration} {k : ℕ}
    (hd : d.micros = i.lower.micros + k) :
    (i.draws d).card + (i.drawsBelow k).card = (i.drawsBelow (k + 1)).card := by
  have hdisjoint : Disjoint (i.draws d) (i.drawsBelow k) := by
    rw [Finset.disjoint_left]
    intro j hj hbelow
    have hoffset := ((mem_draws_iff hpos hfits hd).1 hj).2
    have hlt := (Finset.mem_filter.1 hbelow).2
    omega
  have hunion : i.draws d ∪ i.drawsBelow k = i.drawsBelow (k + 1) := by
    ext j
    rw [Finset.mem_union, mem_draws_iff hpos hfits hd, drawsBelow, drawsBelow, Finset.mem_filter,
      Finset.mem_filter, Finset.mem_range, ← and_or_left]
    refine and_congr_right fun _ => ?_
    push_cast
    omega
  rw [← Finset.card_union_of_disjoint hdisjoint, hunion]

/-- A duration of the interval has its even share of the draws, up to less than two. -/
theorem abs_card_draws_sub_lt (hspan : i.span.micros ≤ 2 ^ 53)
    (hfits : i.lower.micros + i.span.micros ≤ Duration.longest.micros) {d : Duration} {k : ℕ}
    (hk : k < i.span.micros) (hd : d.micros = i.lower.micros + k) :
    |((i.draws d).card : ℚ) - 2 ^ 53 / i.span.micros| < 2 := by
  have hpos : 0 < i.span.micros := by omega
  have hs : (0 : ℚ) < i.span.micros := by exact_mod_cast hpos
  have hbelow := le_card_drawsBelow hpos hspan hk.le
  have hbelow' := card_drawsBelow_lt hpos hspan k
  have hnext := le_card_drawsBelow hpos hspan (m := k + 1) (by omega)
  have hnext' := card_drawsBelow_lt hpos hspan (k + 1)
  have hcount : ((i.draws d).card : ℚ) + (i.drawsBelow k).card = (i.drawsBelow (k + 1)).card := by
    exact_mod_cast card_draws_add hpos hfits hd
  -- both ends are off by the part of one draw that their share of the interval is
  have hpart : (k : ℚ) / i.span.micros + 1 / i.span.micros ≤ 1 := by
    rw [← add_div, div_le_one hs]
    exact_mod_cast hk
  have hpart' : (k : ℚ) / i.span.micros < 1 := by
    rw [div_lt_one hs]
    exact_mod_cast hk
  have hshare : (k : ℚ) * (2 ^ 53 - 1) / i.span.micros =
      k * 2 ^ 53 / i.span.micros - k / i.span.micros := by ring
  have hshare' : ((k + 1 : ℕ) : ℚ) * 2 ^ 53 / i.span.micros =
      k * 2 ^ 53 / i.span.micros + 2 ^ 53 / i.span.micros := by
    push_cast
    ring
  have hshare'' : ((k + 1 : ℕ) : ℚ) * (2 ^ 53 - 1) / i.span.micros =
      k * 2 ^ 53 / i.span.micros + 2 ^ 53 / i.span.micros -
        (k / i.span.micros + 1 / i.span.micros) := by
    push_cast
    ring
  rw [abs_lt]
  constructor <;> linarith

end

/-- Every microsecond of an interval of at most `2 ^ 52` microseconds that does not reach past the
longest duration is a sample: of at least one of the `2 ^ 53` draws of a generator, and of less than
two more or fewer of them than the even share of a microsecond. -/
theorem card_draws_bounds (i : Interval) (hspan : i.span.micros ≤ 2 ^ 52)
    (hfits : i.lower.micros + i.span.micros ≤ Duration.longest.micros) (k : ℕ)
    (hk : k < i.span.micros) :
    ∃ d : Duration, d.micros = i.lower.micros + k ∧ 1 ≤ (i.draws d).card ∧
      |((i.draws d).card : ℚ) - 2 ^ 53 / i.span.micros| < 2 := by
  have hrep : Duration.Representable (i.lower.micros + k) := by
    have hlow := i.lower_nonneg
    have hmax : Duration.longest.micros = 86399999999999999999 := rfl
    unfold Duration.Representable
    omega
  have hclose := abs_card_draws_sub_lt (d := ⟨_, hrep⟩) (by omega) hfits hk rfl
  refine ⟨⟨_, hrep⟩, rfl, ?_, hclose⟩
  -- the even share of a span this short is at least two draws
  have htwo : (2 : ℚ) ≤ 2 ^ 53 / i.span.micros := by
    have hs : (0 : ℚ) < i.span.micros := by exact_mod_cast (by omega : 0 < i.span.micros)
    rw [le_div_iff₀ hs]
    have : (i.span.micros : ℚ) ≤ 2 ^ 52 := by exact_mod_cast hspan
    linarith
  have hcard : (0 : ℚ) < (i.draws ⟨_, hrep⟩).card := by
    have := (abs_lt.1 hclose).1
    linarith
  exact_mod_cast hcard

/-- The last sample of the widest such interval, before the longest duration, has a share of two
draws. -/
theorem card_draws_bounds_last :
    let i : Interval :=
      ⟨⟨86395496400372629503, by decide⟩, ⟨4503599627370496, by decide⟩, by decide, by decide⟩
    ∃ d : Duration, d.micros = 86399999999999999998 ∧ 1 ≤ (i.draws d).card ∧
      |((i.draws d).card : ℚ) - 2| < 2 := by
  intro i
  obtain ⟨d, hd, hone, hclose⟩ :=
    card_draws_bounds i (by decide) (by decide) 4503599627370495 (by decide)
  have hshare : (2 : ℚ) ^ 53 / (i.span.micros : ℚ) = 2 := by
    show (2 : ℚ) ^ 53 / ((4503599627370496 : ℤ) : ℚ) = 2
    norm_num
  rw [hshare] at hclose
  exact ⟨d, hd.trans (by decide), hone, hclose⟩

end Interval

end RandomDelay
