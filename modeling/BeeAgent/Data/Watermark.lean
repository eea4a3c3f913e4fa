import Mathlib.Data.List.Basic
import Mathlib.Order.Lattice
import Mathlib.Tactic.Common

/-! Numbered items that pass a watermark: an item goes through when its number is above the
watermark, which then rises to it. -/
namespace Watermark
variable {α : Type*} (number : α → ℕ)

/-- What goes through, and the watermark after it. -/
def sift : ℕ → List α → List α × ℕ
  | w, [] => ([], w)
  | w, a :: q =>
    if number a ≤ w then sift w q else (a :: (sift (number a) q).1, (sift (number a) q).2)

def reach (w : ℕ) (q : List α) : ℕ := q.foldl (fun w a => max w (number a)) w

/-- No item lies more than one beyond all before it. -/
def Gapless : ℕ → List α → Prop
  | _, [] => True
  | w, a :: q => number a ≤ w + 1 ∧ Gapless (max w (number a)) q

def Numbered (l : List α) : Prop := l.map number = List.range' 1 l.length

variable {number} {w w' v n : ℕ} {q q' l : List α} {a : α}

@[simp] theorem reach_nil : reach number w [] = w := rfl

@[simp] theorem reach_cons : reach number w (a :: q) = reach number (max w (number a)) q := rfl

theorem reach_append : reach number w (q ++ q') = reach number (reach number w q) q' :=
  List.foldl_append

theorem le_reach : w ≤ reach number w q := by
  induction q generalizing w with
  | nil => exact le_rfl
  | cons a q ih => exact (le_max_left ..).trans ih

theorem reach_eq_max (h : w ≤ w') : reach number w' q = max w' (reach number w q) := by
  induction q generalizing w w' with
  | nil => exact (max_eq_left h).symm
  | cons a q ih =>
    have hmax : max w (number a) ≤ max w' (number a) := by omega
    rw [reach_cons, reach_cons, ih hmax]
    have hle : max w (number a) ≤ reach number (max w (number a)) q := le_reach
    omega

theorem gapless_append :
    Gapless number w (q ++ q') ↔ Gapless number w q ∧ Gapless number (reach number w q) q' := by
  induction q generalizing w with
  | nil => simp [Gapless]
  | cons a q ih => simp [Gapless, ih, and_assoc]

theorem Gapless.mono (h : Gapless number w q) (hw : w ≤ w') : Gapless number w' q := by
  induction q generalizing w w' with
  | nil => trivial
  | cons a q ih => exact ⟨h.1.trans (by omega), ih h.2 (by omega)⟩

theorem filter_spec (h : Gapless number w q) (hv : v ≤ w) :
    Gapless number w (q.filter (v < number ·)) ∧
      reach number w (q.filter (v < number ·)) = reach number w q := by
  induction q generalizing w with
  | nil => exact ⟨trivial, rfl⟩
  | cons a q ih =>
    obtain ⟨hgapless, hreach⟩ := ih h.2 (hv.trans (le_max_left ..))
    by_cases ha : v < number a
    · rw [List.filter_cons, if_pos (by simpa using ha)]
      exact ⟨⟨h.1, hgapless⟩, hreach⟩
    · have hmax : max w (number a) = w := by omega
      rw [List.filter_cons, if_neg (by simpa using ha)]
      rw [hmax] at hgapless hreach
      rw [reach_cons, hmax]
      exact ⟨hgapless, hreach⟩

theorem run_spec (h : q.map number = List.range' n q.length) (hn : n ≤ w + 1) :
    Gapless number w q ∧ reach number w q + 1 = max (w + 1) (n + q.length) := by
  induction q generalizing w n with
  | nil =>
    refine ⟨trivial, ?_⟩
    rw [reach_nil, List.length_nil]
    omega
  | cons a q ih =>
    simp only [List.map_cons, List.length_cons, List.range'_succ, List.cons.injEq] at h
    obtain ⟨hgapless, hreach⟩ := ih (w := max w (number a)) h.2 (by omega)
    refine ⟨⟨by omega, hgapless⟩, ?_⟩
    rw [reach_cons, hreach, List.length_cons]
    omega

theorem Numbered.drop_eq (h : Numbered number l) (ha : a ∈ l) (hw : number a = w + 1) :
    l.drop w = a :: l.drop (w + 1) := by
  obtain ⟨i, hi, rfl⟩ := List.getElem_of_mem ha
  have hnumber : number l[i] = 1 + i := by
    have hget : (l.map number)[i]? = (List.range' 1 l.length)[i]? := by rw [h]
    simpa [hi] using hget
  obtain rfl : w = i := by omega
  exact List.drop_eq_getElem_cons hi

theorem filter_eq_drop (h : l.map number = List.range' n l.length) :
    l.filter (v < number ·) = l.drop (v + 1 - n) := by
  induction l generalizing n with
  | nil => simp
  | cons a l ih =>
    simp only [List.map_cons, List.length_cons, List.range'_succ, List.cons.injEq] at h
    rw [List.filter_cons, ih h.2, h.1]
    by_cases hv : v < n
    · rw [if_pos (decide_eq_true hv), show v + 1 - (n + 1) = 0 by omega,
        show v + 1 - n = 0 by omega]
      rfl
    · rw [if_neg (by simpa using hv), show v + 1 - n = v + 1 - (n + 1) + 1 by omega,
        List.drop_succ_cons]

theorem Numbered.window (h : Numbered number l) (hn : 1 ≤ n) (k : ℕ) :
    ((l.drop (n - 1)).take k).map number = List.range' n ((l.drop (n - 1)).take k).length := by
  rw [List.map_take, List.map_drop, h, List.drop_range', List.length_take, List.length_drop,
    show 1 + (n - 1) * 1 = n by omega]
  rcases le_total k (l.length - (n - 1)) with hk | hk
  · rw [List.take_range'_of_length_ge hk, min_eq_left hk]
  · rw [List.take_range'_of_length_le hk, min_eq_right hk]

theorem Numbered.filter_eq (h : Numbered number l) : l.filter (v < number ·) = l.drop v :=
  filter_eq_drop h

/-- Of a queue without gaps exactly the items of the log between the two watermarks go through. -/
theorem Numbered.sift_eq (h : Numbered number l) (hq : ∀ a ∈ q, a ∈ l)
    (hgapless : Gapless number w q) :
    sift number w q = ((l.drop w).take (reach number w q - w), reach number w q) := by
  induction q generalizing w with
  | nil => simp [sift]
  | cons a q ih =>
    have ih := fun {v} => ih (w := v) fun b hb => hq b (List.mem_cons_of_mem _ hb)
    rw [sift, reach_cons]
    split
    · next hle =>
      rw [max_eq_left hle]
      rw [Gapless, max_eq_left hle] at hgapless
      exact ih hgapless.2
    · next hlt =>
      obtain ⟨hone, hrest⟩ := hgapless
      have hnumber : number a = w + 1 := by omega
      rw [max_eq_right (by omega), hnumber] at hrest ⊢
      have hle : w + 1 ≤ reach number (w + 1) q := le_reach
      rw [ih hrest, h.drop_eq (hq a List.mem_cons_self) hnumber,
        show reach number (w + 1) q - w = reach number (w + 1) q - (w + 1) + 1 by omega,
        List.take_succ_cons]

theorem mem_of_mem_sift (ha : a ∈ (sift number w q).1) : a ∈ q := by
  induction q generalizing w with
  | nil => exact ha
  | cons b q ih =>
    rw [sift] at ha
    split at ha
    · exact List.mem_cons_of_mem _ (ih ha)
    · rcases List.mem_cons.mp ha with rfl | ha
      · exact List.mem_cons_self
      · exact List.mem_cons_of_mem _ (ih ha)

theorem Numbered.mem_drop_iff (h : Numbered number l) : a ∈ l.drop w ↔ a ∈ l ∧ w < number a := by
  rw [← h.filter_eq, List.mem_filter, decide_eq_true_eq]

theorem Numbered.mem_queue (h : Numbered number l) (hq : ∀ a ∈ q, a ∈ l)
    (hgapless : Gapless number w q) (hreach : reach number w q = l.length) (ha : a ∈ l)
    (hw : w < number a) : a ∈ q := by
  have hsift : a ∈ (sift number w q).1 := by
    rw [h.sift_eq hq hgapless, hreach, List.take_of_length_le (by rw [List.length_drop])]
    exact h.mem_drop_iff.mpr ⟨ha, hw⟩
  exact mem_of_mem_sift hsift

theorem Numbered.lt_of_mem_right (h : Numbered number (l ++ q)) (ha : a ∈ q) :
    l.length < number a :=
  (h.mem_drop_iff.mp (by simpa using ha)).2

theorem take_drop_append {i j k : ℕ} (hij : i ≤ j) (hjk : j ≤ k) :
    (l.drop i).take (j - i) ++ (l.drop j).take (k - j) = (l.drop i).take (k - i) := by
  rw [show k - i = (j - i) + (k - j) by omega, List.take_add, List.drop_drop,
    show i + (j - i) = j by omega]

end Watermark
