import Mathlib.Algebra.Group.Defs
import Mathlib.Data.List.Basic

/-! Arrays that are assigned to at any index: what is not assigned is a hole. -/
namespace Sparse
variable {α : Type*} {a : α} {l : List (Option α)} {i j : ℕ}

/-- `l[i] = a`; an array that is too short is filled up with holes. -/
def assign (a : α) : List (Option α) → ℕ → List (Option α)
  | [], 0 => [some a]
  | [], i + 1 => none :: assign a [] i
  | _ :: l, 0 => some a :: l
  | x :: l, i + 1 => x :: assign a l i

def slot (l : List (Option α)) (i : ℕ) : Option α := l[i]?.join

@[simp] theorem slot_nil : slot ([] : List (Option α)) i = none := rfl

@[simp] theorem slot_cons_zero {x : Option α} : slot (x :: l) 0 = x := rfl

@[simp] theorem slot_cons_succ {x : Option α} : slot (x :: l) (i + 1) = slot l i := rfl

theorem slot_assign : slot (assign a l i) j = if j = i then some a else slot l j := by
  induction l generalizing i j with
  | nil =>
    induction i generalizing j with
    | zero => cases j <;> simp [assign]
    | succ i ih =>
      cases j with
      | zero => simp [assign]
      | succ j => simpa [assign] using ih
  | cons x l ih =>
    cases i with
    | zero => cases j <;> simp [assign]
    | succ i =>
      cases j with
      | zero => simp [assign]
      | succ j => simpa [assign] using ih

@[simp] theorem slot_assign_self : slot (assign a l i) i = some a := by
  rw [slot_assign, if_pos rfl]

theorem slot_assign_of_ne (h : j ≠ i) : slot (assign a l i) j = slot l j := by
  rw [slot_assign, if_neg h]

theorem length_assign : (assign a l i).length = max l.length (i + 1) := by
  induction l generalizing i with
  | nil =>
    induction i with
    | zero => rfl
    | succ i ih =>
      rw [assign, List.length_cons, ih]
      simp
  | cons x l ih =>
    cases i with
    | zero => simp [assign]
    | succ i =>
      rw [assign, List.length_cons, ih, List.length_cons]
      omega

/-- The sum of a quantity over what is assigned. -/
def total {β : Type*} [Zero β] [Add β] (f : α → β) : List (Option α) → β
  | [] => 0
  | none :: l => total f l
  | some a :: l => f a + total f l

section Total
variable {β : Type*} [AddCommMonoid β] {f : α → β}

theorem total_assign (h : slot l i = none) : total f (assign a l i) = total f l + f a := by
  induction l generalizing i with
  | nil =>
    induction i with
    | zero => simp [assign, total]
    | succ i ih => simpa [assign, total] using ih rfl
  | cons x l ih =>
    cases i with
    | zero =>
      obtain rfl : x = none := h
      simp [assign, total, add_comm]
    | succ i =>
      have htail := ih (i := i) h
      cases x with
      | none => exact htail
      | some b => rw [assign, total, total, htail, add_assoc]

end Total

end Sparse
