import Mathlib

/-! The instants at whole steps from a start, and how many of them lie before a time. -/
namespace BeeAgent.Data

def instants (start step : ℤ) : Set ℤ := {x | ∃ k : ℕ, x = start + k * step}

variable {start step p t : ℤ}

theorem injective_instant (hstep : 0 < step) :
    Function.Injective fun k : ℕ => start + k * step := by
  intro k k' h
  have hmul : (k : ℤ) * step = k' * step := by simpa using h
  exact_mod_cast mul_right_cancel₀ hstep.ne' hmul

theorem instants_inter_Iic (hstep : 0 < step) (h : start ≤ t) :
    instants start step ∩ Set.Iic t =
      (fun k : ℕ => start + k * step) '' (Finset.range (((t - start) / step).toNat + 1) : Set ℕ) := by
  have hpos : 0 ≤ (t - start) / step := Int.ediv_nonneg (by omega) hstep.le
  ext x
  simp only [instants, Set.mem_inter_iff, Set.mem_ofPred_eq, Set.mem_Iic, Set.mem_image,
    Finset.coe_range, Set.mem_Iio, Nat.lt_succ_iff]
  constructor
  · rintro ⟨⟨k, rfl⟩, hle⟩
    have hk : (k : ℤ) ≤ (t - start) / step := (Int.le_ediv_iff_mul_le hstep).mpr (by omega)
    exact ⟨k, by omega, rfl⟩
  · rintro ⟨k, hk, rfl⟩
    have hle := (Int.le_ediv_iff_mul_le hstep).mp (show (k : ℤ) ≤ (t - start) / step by omega)
    exact ⟨⟨k, rfl⟩, by omega⟩

theorem ncard_instants_Iic (hstep : 0 < step) (h : start ≤ t) :
    (instants start step ∩ Set.Iic t).ncard = ((t - start) / step).toNat + 1 := by
  rw [instants_inter_Iic hstep h, Set.ncard_image_of_injective _ (injective_instant hstep),
    Set.ncard_coe_finset, Finset.card_range]

theorem ncard_instants_Ioc (hstep : 0 < step) (hp : p ∈ instants start step) (h : p ≤ t) :
    (instants start step ∩ Set.Ioc p t).ncard = ((t - p) / step).toNat := by
  obtain ⟨k, rfl⟩ := hp
  have hstart : start ≤ start + k * step := by
    have := Int.mul_nonneg (Int.natCast_nonneg k) hstep.le
    omega
  have hsplit : instants start step ∩ Set.Iic t =
      instants start step ∩ Set.Iic (start + k * step) ∪
        instants start step ∩ Set.Ioc (start + k * step) t := by
    rw [← Set.inter_union_distrib_left, Set.Iic_union_Ioc_eq_Iic h]
  have hfinite : ∀ {x : ℤ}, start ≤ x → (instants start step ∩ Set.Iic x).Finite := fun hx => by
    rw [instants_inter_Iic hstep hx]
    exact (Finset.finite_toSet _).image _
  have hcount := congrArg Set.ncard hsplit
  rw [Set.ncard_union_eq
      (Set.disjoint_left.mpr fun x hx hx' => not_lt_of_ge hx.2 hx'.2.1) (hfinite hstart)
      ((hfinite (hstart.trans h)).subset (Set.inter_subset_inter_right _ Set.Ioc_subset_Iic_self)),
    ncard_instants_Iic hstep (hstart.trans h), ncard_instants_Iic hstep hstart] at hcount
  have hbefore : (start + k * step - start) / step = k := by
    rw [add_sub_cancel_left, Int.mul_ediv_cancel _ hstep.ne']
  have hafter : (t - start) / step = (t - (start + k * step)) / step + k := by
    rw [← Int.add_mul_ediv_right _ _ hstep.ne']
    congr 1
    ring
  have hpos : 0 ≤ (t - (start + k * step)) / step := Int.ediv_nonneg (by omega) hstep.le
  omega

theorem max_instant_eq_iff (hstep : 0 < step) :
    max (p + ((t - p) / step + 1) * step) (t + step) = p + ((t - p) / step + 1) * step ↔
      step ∣ t - p := by
  have hdivision := Int.emod_add_mul_ediv (t - p) step
  have hremainder := Int.emod_nonneg (t - p) hstep.ne'
  have hnext : ((t - p) / step + 1) * step = step * ((t - p) / step) + step := by ring
  rw [max_eq_left_iff, Int.dvd_iff_emod_eq_zero, hnext]
  omega

/-- What keeps a cadence: a firing that is a whole number of steps late, with the instants missed so
far and the next one. -/
theorem instants_late (hstep : 0 < step) {n : ℕ} (hp : p = start + n * step) (hle : p ≤ t)
    (hlate : step ∣ t - p) :
    max (p + (((t - p) / step).toNat + 1) * step) (t + step) =
        start + (n + (1 + ((t - p) / step).toNat) : ℕ) * step ∧
      t < start + (n + (1 + ((t - p) / step).toNat) : ℕ) * step ∧
      n + (1 + ((t - p) / step).toNat) = (instants start step ∩ Set.Iic t).ncard := by
  have hpos : 0 ≤ (t - p) / step := Int.ediv_nonneg (by omega) hstep.le
  have hmissed : (((t - p) / step).toNat : ℤ) = (t - p) / step := Int.toNat_of_nonneg hpos
  have hnext : p + ((t - p) / step + 1) * step =
      start + (n + (1 + ((t - p) / step).toNat) : ℕ) * step := by
    push_cast [hmissed]
    rw [hp]
    ring
  have hwhole : (t - p) / step * step = t - p := Int.ediv_mul_cancel hlate
  have hstart : start ≤ p := by
    have := Int.mul_nonneg (Int.natCast_nonneg n) hstep.le
    omega
  refine ⟨?_, ?_, ?_⟩
  · rw [← hnext, hmissed]
    exact (max_instant_eq_iff hstep).mpr hlate
  · have : ((t - p) / step + 1) * step = (t - p) / step * step + step := by ring
    omega
  · have hbefore : (t - start) / step = (t - p) / step + n := by
      rw [← Int.add_mul_ediv_right _ _ hstep.ne', hp]
      congr 1
      ring
    rw [ncard_instants_Iic hstep (hstart.trans hle), hbefore]
    omega

end BeeAgent.Data
