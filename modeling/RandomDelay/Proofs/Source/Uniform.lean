import RandomDelay.Proofs.Interval.Bounds

/-!
# Draws of a generator

A uniform number of a generator is a whole number of `2 ^ 53`-ths (`toRat_ofNumerator`), which
binary64 holds exactly, so every draw lies in `[0, 1)` whatever the seed and however many draws came
before. A generator stays one when it is drawn from (`Source.isGenerator_next`); what holds of one
draw of a generator therefore holds of every draw in a row (`Drawn.repeated_eq_ok`), and an interval
can be sampled any number of times without failure (`Interval.exists_repeated_sample`).
-/

set_option autoImplicit false

namespace RandomDelay

open RandomDelay.Binary64

namespace Binary64

/-- Uniform number with the given numerator over `2 ^ 53`. -/
def ofNumerator (n : ℕ) : Binary64 := nearest false n 0x20000000000000

variable {n : ℕ}

/-- A uniform number is its numerator over `2 ^ 53`, without rounding. -/
theorem toRat_ofNumerator (h : n < 0x20000000000000) :
    (ofNumerator n).IsFinite ∧ (ofNumerator n).toRat = n / 2 ^ 53 := by
  have hrep : Representable ((n : ℚ) / (0x20000000000000 : ℕ)) := by
    have hsize : |(n : ℤ)| ≤ 2 ^ 53 := by
      rw [abs_of_nonneg (Int.natCast_nonneg _)]
      omega
    have h := representable_mul_zpow hsize (k := -53) (by decide)
    norm_num [div_eq_mul_inv] at h ⊢
    exact h
  have hbound : rounded ((n : ℚ) / (0x20000000000000 : ℕ)) < limit := by
    refine rounded_lt_limit (k := 0) (by decide) (by decide) ?_
    have hle : (n : ℚ) ≤ 0x20000000000000 := by exact_mod_cast h.le
    norm_num
    linarith
  obtain ⟨hfin, hval⟩ := toRat_nearest false n (by decide) hbound
  rw [rounded_of_representable hrep] at hval
  refine ⟨hfin, hval.trans ?_⟩
  norm_num [withSign]

theorem inUnit_ofNumerator (h : n < 0x20000000000000) : (ofNumerator n).InUnit := by
  obtain ⟨hfin, hval⟩ := toRat_ofNumerator h
  have hlt : (n : ℚ) < 2 ^ 53 := by
    norm_num
    exact_mod_cast h
  refine ⟨hfin, ?_, ?_⟩
  · rw [hval]
    positivity
  · rw [hval, div_lt_one (by norm_num)]
    exact hlt

end Binary64

/-- Generators give uniform numbers only. -/
theorem Twister.uniform_eq_ofNumerator (t : Twister) : t.uniform.1 = ofNumerator t.nextBits.1 := by
  rw [uniform, ofNumerator]

theorem Twister.inUnit_uniform (t : Twister) : t.uniform.1.InUnit := by
  rw [t.uniform_eq_ofNumerator]
  exact inUnit_ofNumerator t.nextBits_lt

namespace Source

/-- Sources of uniform numbers. -/
def IsGenerator (s : Source) : Prop := ∃ state, s = .twister state

theorem isGenerator_ofSeed (seed : ℤ) : (ofSeed seed).IsGenerator := ⟨_, rfl⟩

variable {s : Source}

theorem isGenerator_next (h : s.IsGenerator) : s.next.2.IsGenerator := by
  obtain ⟨state, rfl⟩ := h
  exact ⟨_, rfl⟩

theorem inUnit_next (h : s.IsGenerator) : s.next.1.InUnit := by
  obtain ⟨state, rfl⟩ := h
  exact state.inUnit_uniform

end Source

/-- A computation that goes through on some sources, and leaves one of them, goes through any number
of times in a row. -/
theorem Drawn.repeated_eq_ok {α : Type} {draw : Source → Drawn α} {P : Source → Prop} {Q : α → Prop}
    (hdraw : ∀ s, P s → ∃ a, (draw s).1 = .ok a ∧ Q a ∧ P (draw s).2) (n : ℕ) {s : Source}
    (hs : P s) :
    ∃ as, (repeated draw n s).1 = .ok as ∧ as.length = n ∧ ∀ a ∈ as, Q a := by
  induction n generalizing s with
  | zero => exact ⟨[], rfl, rfl, nofun⟩
  | succ n ih =>
    obtain ⟨a, ha, hQ, hnext⟩ := hdraw s hs
    obtain ⟨as, has, hlength, hall⟩ := ih hnext
    refine ⟨a :: as, ?_, ?_, ?_⟩
    · rw [repeated_succ_of_ok (Prod.ext ha rfl), Drawn.map, has]
      rfl
    · rw [List.length_cons, hlength]
    · exact List.forall_mem_cons.2 ⟨hQ, hall⟩

namespace Interval

/-- Durations that an interval can have as samples: those in it, and its lower bound if it is
empty. -/
structure IsSample (i : Interval) (d : Duration) : Prop where
  lower_le : i.lower.micros ≤ d.micros
  lt_upper : 0 < i.span.micros → d.micros < i.lower.micros + i.span.micros
  eq_lower : i.span.micros = 0 → d = i.lower

theorem IsSample.micros_le {i : Interval} {d : Duration} (h : i.IsSample d) :
    d.micros ≤ i.lower.micros + i.span.micros := by
  rcases lt_or_eq_of_le i.span_nonneg with hspan | hspan
  · exact (h.lt_upper hspan).le
  · rw [h.eq_lower hspan.symm]
    omega

theorem exists_sample (i : Interval) {source : Source} (hr : source.next.1.InUnit) :
    ∃ d, (i.sample source).1 = .ok d ∧ i.IsSample d := by
  obtain ⟨d, hd, hzero, hpos⟩ := i.sample_eq_ok hr
  refine ⟨d, hd, ?_, ?_, hzero⟩
  · rcases lt_or_eq_of_le i.span_nonneg with hspan | hspan
    · have hlow := offsetAt_nonneg hspan hr.2.1
      have hrep : i.lower.micros ≤ Duration.longest.micros := i.lower.representable.2
      rw [hpos hspan]
      exact le_min hrep (by omega)
    · rw [hzero hspan.symm]
  · intro hspan
    have hhigh := i.offsetAt_lt_span source.next.1.toRat
    have hmin :=
      min_le_right Duration.longest.micros (i.lower.micros + i.offsetAt source.next.1.toRat)
    rw [hpos hspan]
    omega

theorem isGenerator_sample (i : Interval) {source : Source} (h : source.IsGenerator) :
    (i.sample source).2.IsGenerator := by
  rw [sample]
  split
  · exact h
  · exact Source.isGenerator_next h

/-- A generator gives as many samples of an interval as are asked for. -/
theorem exists_repeated_sample (i : Interval) (n : ℕ) {source : Source} (h : source.IsGenerator) :
    ∃ samples, (Drawn.repeated i.sample n source).1 = .ok samples ∧ samples.length = n ∧
      ∀ d ∈ samples, i.IsSample d := by
  refine Drawn.repeated_eq_ok ?_ n h
  intro s hs
  obtain ⟨d, hd, hsample⟩ := i.exists_sample (Source.inUnit_next hs)
  exact ⟨d, hd, hsample, i.isGenerator_sample hs⟩

end Interval

end RandomDelay
