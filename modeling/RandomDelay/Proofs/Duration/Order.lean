import RandomDelay.Duration
import RandomDelay.Proofs.Rounding

/-!
# The order of durations

Durations are in the order of their microseconds. A list that is sorted by this order begins with
its least duration and ends with its greatest (`exists_least`, `exists_greatest`). A quotient by a
count is the exact one, rounded to a microsecond, and stays between any bounds of it
(`dividedBy_bounds`).
-/

set_option autoImplicit false

namespace RandomDelay.Duration

open RandomDelay.Rounding

theorem ext_micros {a b : Duration} (h : a.micros = b.micros) : a = b := by
  cases a
  cases b
  simp only [mk.injEq]
  exact h

theorem le_iff {a b : Duration} : a ≤ b ↔ a.micros ≤ b.micros := Iff.rfl

/-- Sorting puts every duration before those that are not less. -/
theorem pairwise_mergeSort (durations : List Duration) : durations.mergeSort.Pairwise (· ≤ ·) := by
  have htrans : ∀ a b c : Duration, decide (a ≤ b) = true → decide (b ≤ c) = true →
      decide (a ≤ c) = true := by
    intro a b c hab hbc
    simp only [decide_eq_true_eq, le_iff] at *
    omega
  have htotal : ∀ a b : Duration, (decide (a ≤ b) || decide (b ≤ a)) = true := by
    intro a b
    simp only [Bool.or_eq_true, decide_eq_true_eq, le_iff]
    omega
  exact (List.pairwise_mergeSort htrans htotal durations).imp of_decide_eq_true

/-- What a list that is sorted by any order begins with comes before all of it. -/
theorem exists_head? {order : Duration → Duration → Prop} (hrefl : ∀ d, order d d)
    {durations : List Duration} (h : durations.Pairwise order) (hne : durations ≠ []) :
    ∃ first, durations.head? = some first ∧ first ∈ durations ∧ ∀ d ∈ durations, order first d := by
  cases durations with
  | nil => exact absurd rfl hne
  | cons first rest =>
    refine ⟨first, rfl, List.mem_cons_self, ?_⟩
    exact List.forall_mem_cons.2 ⟨hrefl first, (List.pairwise_cons.1 h).1⟩

/-- A list that is not empty begins with its least duration when it is sorted. -/
theorem exists_least {durations : List Duration} (h : durations ≠ []) :
    ∃ least, durations.mergeSort.head? = some least ∧ least ∈ durations ∧
      ∀ d ∈ durations, least ≤ d := by
  have hne : durations.mergeSort ≠ [] := by simpa [← List.length_pos_iff] using h
  obtain ⟨least, hhead, hmem, hall⟩ :=
    exists_head? (fun d => Int.le_refl d.micros) (pairwise_mergeSort durations) hne
  exact ⟨least, hhead, List.mem_mergeSort.1 hmem, fun d hd => hall d (List.mem_mergeSort.2 hd)⟩

/-- A list that is not empty ends with its greatest duration when it is sorted. -/
theorem exists_greatest {durations : List Duration} (h : durations ≠ []) :
    ∃ greatest, durations.mergeSort.getLast? = some greatest ∧ greatest ∈ durations ∧
      ∀ d ∈ durations, d ≤ greatest := by
  have hne : durations.mergeSort.reverse ≠ [] := by simpa [← List.length_pos_iff] using h
  have hsorted : durations.mergeSort.reverse.Pairwise (· ≥ ·) :=
    List.pairwise_reverse.2 (pairwise_mergeSort durations)
  obtain ⟨greatest, hhead, hmem, hall⟩ := exists_head? (fun d => Int.le_refl d.micros) hsorted hne
  rw [List.head?_reverse] at hhead
  simp only [List.mem_reverse, List.mem_mergeSort] at hmem hall
  exact ⟨greatest, hhead, hmem, hall⟩

/-- A quotient by a count is the exact one, rounded to the nearest microsecond. -/
theorem micros_dividedBy (d : Duration) {count : ℕ} (h : 0 < count) :
    (d.dividedBy count).micros = nearestInt (d.micros / count) :=
  halfEvenInt_eq_nearestInt d.micros h

/-- A quotient by a count is between two durations if the exact one is. -/
theorem dividedBy_bounds {low high d : Duration} {count : ℕ} (h : 0 < count)
    (hlow : count * low.micros ≤ d.micros) (hhigh : d.micros ≤ count * high.micros) :
    low ≤ d.dividedBy count ∧ d.dividedBy count ≤ high := by
  have hcount : (0 : ℚ) < count := by exact_mod_cast h
  have hlow' : (low.micros : ℚ) ≤ d.micros / count := by
    rw [le_div_iff₀ hcount, mul_comm]
    exact_mod_cast hlow
  have hhigh' : (d.micros : ℚ) / count ≤ high.micros := by
    rw [div_le_iff₀ hcount, mul_comm]
    exact_mod_cast hhigh
  -- whole numbers are rounded to themselves, so rounding does not leave them
  rw [le_iff, le_iff, micros_dividedBy d h]
  constructor
  · have := nearestInt_mono hlow'
    rwa [nearestInt_intCast] at this
  · have := nearestInt_mono hhigh'
    rwa [nearestInt_intCast] at this

end RandomDelay.Duration
