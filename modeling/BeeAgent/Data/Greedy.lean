import Mathlib.Data.List.Nodup
import Mathlib.Data.List.Perm.Basic

/-! Filling greedily: items come one after another, and each one that is admitted beside what was
taken so far is taken, the others are left. -/
namespace BeeAgent.Data.Greedy
variable {α σ : Type*} {fit : σ → α → Option σ}

/-- The items are gone through from one state to another, with what is taken and what is left. -/
inductive Fills (fit : σ → α → Option σ) : σ → List α → σ → List α → List α → Prop where
  | nil {s} : Fills fit s [] s [] []
  | take {s s₁ s' a items taken left} : fit s a = some s₁ →
      Fills fit s₁ items s' taken left → Fills fit s (a :: items) s' (a :: taken) left
  | leave {s s' a items taken left} : fit s a = none →
      Fills fit s items s' taken left → Fills fit s (a :: items) s' taken (a :: left)

namespace Fills
variable {s s' : σ} {a : α} {items taken left before after : List α}

theorem perm (h : Fills fit s items s' taken left) : (taken ++ left).Perm items := by
  induction h with
  | nil => exact .nil
  | take _ _ ih => exact ih.cons _
  | leave _ _ ih => exact List.perm_middle.trans (ih.cons _)

theorem sublist (h : Fills fit s items s' taken left) : taken.Sublist items := by
  induction h with
  | nil => exact .slnil
  | take _ _ ih => exact ih.cons_cons _
  | leave _ _ ih => exact ih.cons _

theorem accumulate (P : List α → σ → Prop) (hstart : P [] s)
    (hstep : ∀ taken s a s', P taken s → fit s a = some s' → P (taken ++ [a]) s')
    (h : Fills fit s items s' taken left) : P taken s' := by
  suffices ∀ done, P done s → P (done ++ taken) s' from this [] hstart
  clear hstart
  induction h with
  | nil => exact fun done hdone => by rwa [List.append_nil]
  | take ha _ ih =>
    intro done hdone
    have hnext := ih (done ++ [_]) (hstep done _ _ _ hdone ha)
    rwa [List.append_assoc] at hnext
  | leave _ _ ih => exact ih

/-- An item is left where it is not admitted beside what was taken of the items before it. -/
theorem refused (h : Fills fit s items s' taken left) (ha : a ∈ left) :
    ∃ before after s₁ taken₁ left₁, items = before ++ a :: after ∧
      Fills fit s before s₁ taken₁ left₁ ∧ fit s₁ a = none ∧
        ∃ taken₂, taken = taken₁ ++ taken₂ ∧ taken₂.Sublist after := by
  induction h with
  | nil => cases ha
  | @take s s₁ s' b items taken left hb h ih =>
    obtain ⟨before, after, s₂, taken₁, left₁, rfl, hfills, hrefused, taken₂, rfl, hsub⟩ := ih ha
    exact ⟨b :: before, after, s₂, b :: taken₁, left₁, rfl, .take hb hfills, hrefused, taken₂, rfl,
      hsub⟩
  | @leave s s' b items taken left hb h ih =>
    obtain rfl | ha := List.mem_cons.mp ha
    · exact ⟨[], items, s, [], [], rfl, .nil, hb, taken, rfl, h.sublist⟩
    · obtain ⟨before, after, s₂, taken₁, left₁, rfl, hfills, hrefused, taken₂, rfl, hsub⟩ := ih ha
      exact ⟨b :: before, after, s₂, taken₁, b :: left₁, rfl, .leave hb hfills, hrefused, taken₂,
        rfl, hsub⟩

theorem taken_before [DecidableEq α] {taken₁ taken₂ left₁ : List α} {s₁ : σ}
    (hnodup : (before ++ a :: after).Nodup) (h : Fills fit s before s₁ taken₁ left₁)
    (hsub : taken₂.Sublist after) :
    before.filter (· ∈ taken₁ ++ taken₂) = taken₁ := by
  have hdisjoint : ∀ b ∈ before, b ∉ taken₂ := fun b hb hb' =>
    (List.nodup_append.mp hnodup).2.2 b hb b (List.mem_cons_of_mem _ (hsub.subset hb')) rfl
  have hfilter : before.filter (· ∈ taken₁ ++ taken₂) = before.filter (· ∈ taken₁) :=
    List.filter_congr fun b hb => by simp [hdisjoint b hb]
  rw [hfilter]
  have hnodup' := (List.nodup_append.mp hnodup).1
  clear hfilter hdisjoint hnodup hsub
  induction h with
  | nil => rfl
  | @take s s₁ s' b items taken left hb h ih =>
    rw [List.nodup_cons] at hnodup'
    have hrest : items.filter (· ∈ b :: taken) = items.filter (· ∈ taken) :=
      List.filter_congr fun c hc => by
        have hne : c ≠ b := fun heq => hnodup'.1 (heq ▸ hc)
        simp [hne]
    rw [List.filter_cons_of_pos (by simp), hrest, ih hnodup'.2]
  | @leave s s' b items taken left hb h ih =>
    rw [List.nodup_cons] at hnodup'
    have hnot : b ∉ taken := fun hmem => hnodup'.1 (h.sublist.subset hmem)
    rw [List.filter_cons_of_neg (by simpa using hnot), ih hnodup'.2]

theorem refused_of_nil (h : Fills fit s items s' [] left) : ∀ a ∈ items, fit s a = none := by
  generalize htaken : ([] : List α) = taken at h
  induction h with
  | nil => exact nofun
  | take => cases htaken
  | leave ha _ ih =>
    intro b hb
    obtain rfl | hb := List.mem_cons.mp hb
    · exact ha
    · exact ih htaken b hb

theorem nil_of_refused (h : Fills fit s items s' taken left)
    (hnone : ∀ a ∈ items, fit s a = none) : taken = [] := by
  induction h with
  | nil => rfl
  | take ha _ _ => simp [hnone _ List.mem_cons_self] at ha
  | leave _ _ ih => exact ih fun b hb => hnone b (List.mem_cons_of_mem _ hb)

theorem admits_head (h : Fills fit s items s' (a :: taken) left) : fit s a ≠ none := by
  generalize htaken : a :: taken = all at h
  induction h with
  | nil => cases htaken
  | take ha =>
    obtain ⟨rfl, -⟩ := List.cons.inj htaken
    simp [ha]
  | leave _ _ ih => exact ih htaken

/-- The items at the front are taken, and no others, exactly when nothing is admitted any more
behind the first one that is not. -/
theorem front_iff (h : Fills fit s items s' taken left) : taken <+: items ↔
    ∀ before a after s₁, items = before ++ a :: after → before.foldlM fit s = some s₁ →
      fit s₁ a = none → ∀ b ∈ after, fit s₁ b = none := by
  induction h with
  | nil => simp
  | @take s s₁ s' a items taken left ha h ih =>
    rw [List.prefix_cons_inj, ih]
    constructor
    · intro hfront before b after s₂ heq hbefore hb
      cases before with
      | nil =>
        obtain ⟨rfl, rfl⟩ := List.cons.inj heq
        obtain rfl : s = s₂ := Option.some.inj hbefore
        simp [ha] at hb
      | cons a' before =>
        obtain ⟨rfl, rfl⟩ := List.cons.inj heq
        rw [List.foldlM_cons, ha] at hbefore
        exact hfront before b after s₂ rfl hbefore hb
    · intro hall before b after s₂ heq hbefore hb
      refine hall (a :: before) b after s₂ (congrArg _ heq) ?_ hb
      rw [List.foldlM_cons, ha]
      exact hbefore
  | @leave s s' a items taken left ha h ih =>
    constructor
    · intro hfront before b after s₂ heq hbefore hb
      -- the first item taken would be one that is not admitted
      have hnil : taken = [] := by
        cases htaken : taken with
        | nil => rfl
        | cons c taken =>
          subst htaken
          obtain rfl := (List.cons_prefix_cons.mp hfront).1
          exact absurd ha h.admits_head
      subst hnil
      cases before with
      | nil =>
        obtain ⟨rfl, rfl⟩ := List.cons.inj heq
        obtain rfl : s = s₂ := Option.some.inj hbefore
        exact h.refused_of_nil
      | cons a' before =>
        obtain ⟨rfl, rfl⟩ := List.cons.inj heq
        rw [List.foldlM_cons, ha] at hbefore
        cases hbefore
    · intro hall
      rw [h.nil_of_refused fun b hb => hall [] a items s rfl rfl ha b hb]
      exact List.nil_prefix

end Fills

end BeeAgent.Data.Greedy
