import Mathlib.Data.List.Perm.Basic

/-! The most recent elements of a list, and those at the end of lists that are read in turn until
there are enough. -/
namespace BeeAgent.Data.Recent
variable {α : Type*} {noLater : α → α → Prop} {n : ℕ}

/-- There are `n` elements kept of a list, or all of them, and none left that is later than one
kept. -/
def MostRecent (noLater : α → α → Prop) (n : ℕ) (kept all : List α) : Prop :=
  ∃ left, (kept ++ left).Perm all ∧ kept.length = min n all.length ∧
    ∀ k ∈ kept, ∀ x ∈ left, noLater x k

/-- Lists are read in turn until there are `n` elements. -/
def fill (n : ℕ) : List α → List (List α) → List α
  | filled, [] => filled
  | filled, items :: lists => if n ≤ filled.length then filled else fill n (filled ++ items) lists

def unread (n : ℕ) : List α → List (List α) → List α
  | _, [] => []
  | filled, items :: lists =>
    if n ≤ filled.length then items ++ lists.flatten else unread n (filled ++ items) lists

def window (n : ℕ) (lists : List (List α)) : List α :=
  (fill n [] lists).drop ((fill n [] lists).length - n)

def passed (n : ℕ) (lists : List (List α)) : List α :=
  (fill n [] lists).take ((fill n [] lists).length - n) ++ unread n [] lists

theorem fill_append_unread (filled : List α) (lists : List (List α)) :
    fill n filled lists ++ unread n filled lists = filled ++ lists.flatten := by
  induction lists generalizing filled with
  | nil => rfl
  | cons items lists ih =>
    simp only [fill, unread, List.flatten_cons]
    split
    · rfl
    · rw [ih, List.append_assoc]

theorem le_length_fill (filled : List α) (lists : List (List α)) :
    n ≤ (fill n filled lists).length ∨ unread n filled lists = [] := by
  induction lists generalizing filled with
  | nil => exact .inr rfl
  | cons items lists ih =>
    simp only [fill, unread]
    split
    · next hfull => exact .inl hfull
    · exact ih _

theorem window_perm (n : ℕ) (lists : List (List α)) :
    (window n lists ++ passed n lists).Perm lists.flatten := by
  have hall := @fill_append_unread _ n [] lists
  rw [List.nil_append] at hall
  rw [← hall, window, passed, ← List.append_assoc]
  exact (List.perm_append_comm.trans (.of_eq (List.take_append_drop ..))).append_right _

theorem length_window (n : ℕ) (lists : List (List α)) :
    (window n lists).length = min n lists.flatten.length := by
  have hall := congrArg List.length (@fill_append_unread _ n [] lists)
  rw [List.nil_append, List.length_append] at hall
  rw [window, List.length_drop]
  obtain hfull | hread := @le_length_fill _ n [] lists
  · omega
  · rw [hread, List.length_nil] at hall
    omega

/-- The window holds the most recent elements exactly when nothing that it passes is later. -/
theorem mostRecent_window_iff (lists : List (List α)) :
    MostRecent noLater n (window n lists) lists.flatten ↔
      ∀ k ∈ window n lists, ∀ x ∈ passed n lists, noLater x k := by
  constructor
  · rintro ⟨left, hperm, -, hlater⟩ k hk x hx
    have hleft := (List.perm_append_left_iff _).mp (hperm.trans (window_perm n lists).symm)
    exact hlater k hk x (hleft.mem_iff.mpr hx)
  · exact fun hlater => ⟨passed n lists, window_perm n lists, length_window n lists, hlater⟩

theorem fill_map {β : Type*} (f : α → β) (filled : List α) (lists : List (List α)) :
    fill n (filled.map f) (lists.map (List.map f)) = (fill n filled lists).map f := by
  induction lists generalizing filled with
  | nil => rfl
  | cons items lists ih =>
    simp only [fill, List.map_cons, List.length_map]
    split
    · rfl
    · rw [← List.map_append, ih]

theorem fill_zero (lists : List (List α)) : fill 0 [] lists = [] := by
  cases lists <;> rfl

theorem exists_last (p : α → Prop) (items : List α) :
    (∀ x ∈ items, ¬ p x) ∨
      ∃ before x after, items = before ++ x :: after ∧ p x ∧ ∀ y ∈ after, ¬ p y := by
  induction items with
  | nil => exact .inl (by simp)
  | cons a items ih =>
    obtain hnone | ⟨before, x, after, rfl, hx, hafter⟩ := ih
    · by_cases ha : p a
      · exact .inr ⟨[], a, items, rfl, ha, hnone⟩
      · exact .inl (List.forall_mem_cons.mpr ⟨ha, hnone⟩)
    · exact .inr ⟨a :: before, x, after, rfl, hx, hafter⟩

theorem eq_of_map_eq {β : Type*} {f : α → β} {l m : List α}
    (hinj : ∀ x ∈ l, ∀ y ∈ m, f x = f y → x = y) (h : l.map f = m.map f) : l = m := by
  induction l generalizing m with
  | nil => exact (List.map_eq_nil_iff.mp h.symm).symm
  | cons a l ih =>
    obtain ⟨b, m, rfl, hab, hrest⟩ := List.map_eq_cons_iff.mp h.symm
    rw [hinj a (List.mem_cons_self ..) b (List.mem_cons_self ..) hab.symm, ih
      (fun x hx y hy => hinj x (List.mem_cons_of_mem _ hx) y (List.mem_cons_of_mem _ hy))
      hrest.symm]

end BeeAgent.Data.Recent
