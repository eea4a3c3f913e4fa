import BeeAgent.Transition.Machine
import Mathlib.Data.Set.Finite.Lattice
import Mathlib.Order.Interval.Finset.Nat
import Mathlib.Order.WellFounded

/-! Infinite runs of a machine, and ranks that bound what happens in them only finitely often. -/
namespace Transition

/-- A sequence that never rises in a well-founded order descends finitely often. -/
theorem finite_descents {α : Type*} [LinearOrder α] [WellFoundedLT α] {f : ℕ → α}
    (hf : Antitone f) : {n | f (n + 1) < f n}.Finite := by
  obtain ⟨_, ⟨N, rfl⟩, hmin⟩ := wellFounded_lt.has_min (Set.range f) ⟨f 0, 0, rfl⟩
  refine (Set.finite_Iio N).subset fun n hn => ?_
  by_contra hle
  have hbelow : f n ≤ f N := hf (not_lt.mp hle)
  exact hmin (f (n + 1)) ⟨n + 1, rfl⟩ (lt_of_lt_of_le hn hbelow)

namespace Machine
variable {σ ι : Type*} {M : Machine σ ι}

/-- A run that goes on forever. -/
def IsRun (M : Machine σ ι) (run : ℕ → σ) (inputs : ℕ → ι) : Prop :=
  ∀ n, M.step (run n) (inputs n) = some (run (n + 1))

variable {run : ℕ → σ} {inputs : ℕ → ι}

theorem IsRun.invariant {P : σ → Prop} (h : M.IsRun run inputs) (h0 : P (run 0))
    (hstep : ∀ s i t, P s → M.step s i = some t → P t) (n : ℕ) : P (run n) := by
  induction n with
  | zero => exact h0
  | succ n ih => exact hstep _ _ _ ih (h n)

theorem IsRun.finite {α : Type*} [LinearOrder α] [WellFoundedLT α] {P : σ → Prop} (rank : σ → α)
    (counted : ι → Prop) (h : M.IsRun run inputs) (hP : ∀ n, P (run n))
    (hle : ∀ s i t, P s → M.step s i = some t → rank t ≤ rank s)
    (hlt : ∀ s i t, P s → M.step s i = some t → counted i → rank t < rank s) :
    {n | counted (inputs n)}.Finite := by
  have hf : Antitone fun n => rank (run n) :=
    antitone_nat_of_succ_le fun n => hle _ _ _ (hP n) (h n)
  exact (finite_descents hf).subset fun n hn => hlt _ _ _ (hP n) (h n) hn

end Machine
end Transition
