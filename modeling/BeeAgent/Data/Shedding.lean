import Mathlib.Algebra.Order.BigOperators.Group.List
import Mathlib.Algebra.Order.Ring.Nat
import Mathlib.Data.List.Infix

/-! Shedding weight from the front of a list until a total is within its budget. -/
namespace BeeAgent.Data.Shedding
variable {α : Type*} (weight : α → ℕ)

def load (xs : List α) : ℕ := (xs.map weight).sum

/-- What is taken off the front, one after another, while the total is over the budget. -/
def shed (budget : ℕ) : ℕ → List α → List α
  | _, [] => []
  | total, x :: xs =>
    if total ≤ budget then [] else x :: shed budget (total - weight x) xs

/-- The shortest run from the front of `xs` without which the total is within the budget, or all
of `xs` where none is. -/
structure IsShortestRun (budget total : ℕ) (xs run : List α) : Prop where
  front : run <+: xs
  enough : total ≤ budget + load weight run ∨ run = xs
  shortest : ∀ shorter, shorter <+: xs → shorter.length < run.length →
    budget + load weight shorter < total

variable {weight} {budget total : ℕ} {x : α} {xs run run' : List α}

@[simp] theorem load_nil : load weight [] = 0 := rfl

@[simp] theorem load_cons : load weight (x :: xs) = weight x + load weight xs := by simp [load]

@[simp] theorem load_append (xs ys : List α) :
    load weight (xs ++ ys) = load weight xs + load weight ys := by simp [load]

theorem load_lt_load {weight' : α → ℕ} (hne : xs ≠ []) (h : ∀ x ∈ xs, weight x < weight' x) :
    load weight xs < load weight' xs :=
  List.sum_lt_sum_of_ne_nil hne _ _ h

theorem shed_isShortestRun (budget total : ℕ) (xs : List α) :
    IsShortestRun weight budget total xs (shed weight budget total xs) := by
  induction xs generalizing total with
  | nil => exact ⟨List.prefix_rfl, .inr rfl, fun _ _ h => absurd h (Nat.not_lt_zero _)⟩
  | cons x xs ih =>
    rw [shed]
    split
    · next hle =>
      exact ⟨List.nil_prefix, .inl hle, fun _ _ h => absurd h (Nat.not_lt_zero _)⟩
    next hover =>
    obtain ⟨hfront, henough, hshortest⟩ := ih (total - weight x)
    refine ⟨(List.prefix_cons_inj x).mpr hfront, ?_, fun shorter hpre hlt => ?_⟩
    · obtain hle | hall := henough
      · refine .inl ?_
        rw [load_cons]
        omega
      · exact .inr (by rw [hall])
    · cases shorter with
      | nil => simpa using hover
      | cons y shorter =>
        obtain ⟨rfl, htail⟩ := List.cons_prefix_cons.mp hpre
        have := hshortest shorter htail (Nat.lt_of_succ_lt_succ hlt)
        rw [load_cons]
        omega

namespace IsShortestRun

theorem length_le (h : IsShortestRun weight budget total xs run)
    (h' : IsShortestRun weight budget total xs run') : run.length ≤ run'.length := by
  by_contra hlt
  have hover := h.shortest run' h'.front (Nat.lt_of_not_le hlt)
  obtain hle | rfl := h'.enough
  · omega
  · exact hlt h.front.length_le

theorem unique (h : IsShortestRun weight budget total xs run)
    (h' : IsShortestRun weight budget total xs run') : run = run' :=
  (List.prefix_of_prefix_length_le h.front h'.front (h.length_le h')).eq_of_length
    (Nat.le_antisymm (h.length_le h') (h'.length_le h))

end IsShortestRun

theorem filter_mem_of_sublist [DecidableEq α] (h : run.Sublist xs) (hnodup : xs.Nodup) :
    xs.filter (· ∈ run) = run := by
  have hkept : run.filter (· ∈ run) = run := List.filter_eq_self.mpr fun x hx => by simpa using hx
  have hsub := h.filter (· ∈ run)
  rw [hkept] at hsub
  have hsubset : xs.filter (· ∈ run) ⊆ run := fun x hx => by simpa using (List.mem_filter.mp hx).2
  exact (hsub.eq_of_length_le (List.subperm_of_subset (hnodup.filter _) hsubset).length_le).symm

theorem load_replace [DecidableEq α] (weight' : α → ℕ) (h : run.Sublist xs) (hnodup : xs.Nodup) :
    load (fun x => if x ∈ run then weight' x else weight x) xs + load weight run =
      load weight xs + load weight' run := by
  induction h with
  | slnil => rfl
  | @cons run xs x hsub ih =>
    have hnot : x ∉ run := fun hx => (List.nodup_cons.mp hnodup).1 (hsub.subset hx)
    rw [load_cons, load_cons, if_neg hnot, Nat.add_assoc, ih (List.nodup_cons.mp hnodup).2,
      Nat.add_assoc]
  | @cons_cons run xs x hsub ih =>
    obtain ⟨hnot, hnodup⟩ := List.nodup_cons.mp hnodup
    have hcongr : load (fun y => if y ∈ x :: run then weight' y else weight y) xs =
        load (fun y => if y ∈ run then weight' y else weight y) xs := by
      unfold load
      congr 1
      refine List.map_congr_left fun y hy => ?_
      have hne : y ≠ x := fun he => hnot (he ▸ hy)
      simp [hne]
    have := ih hnodup
    simp only [load_cons, List.mem_cons, true_or, if_true] at hcongr ⊢
    rw [hcongr]
    omega

end BeeAgent.Data.Shedding
