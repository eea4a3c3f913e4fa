import Mathlib.Data.List.Basic

/-! Lists that grow at their end, and what holds of each entry with those before and after it. -/
namespace Transition
variable {α : Type*}

/-- Each entry has the property with what was there before it. -/
def Justified (P : List α → α → Prop) (history : List α) : Prop :=
  ∀ before x after, history = before ++ x :: after → P before x

variable {P : List α → α → Prop} {history : List α} {x : α}

theorem justified_nil : Justified P [] := fun before x after h => by
  simp at h

theorem Justified.concat (h : Justified P history) (hx : P history x) :
    Justified P (history ++ [x]) := by
  intro before y after heq
  obtain rfl | ⟨after, z, rfl⟩ := List.eq_nil_or_concat' after
  · obtain ⟨rfl, hlast⟩ := List.append_inj' heq rfl
    obtain rfl := List.head_eq_of_cons_eq hlast
    exact hx
  · have hassoc : history ++ [x] = (before ++ y :: after) ++ [z] := by simpa using heq
    exact h before y after (List.append_inj' hassoc rfl).1

/-- Each entry has the property with what came before it and what has come after it. -/
def Throughout (Q : List α → α → List α → Prop) (history : List α) : Prop :=
  ∀ before x after, history = before ++ x :: after → Q before x after

variable {Q : List α → α → List α → Prop} {new : List α}

theorem throughout_nil : Throughout Q [] := fun before x after h => by
  simp at h

theorem Throughout.append (h : Throughout Q history)
    (hmono : ∀ before x after, Q before x after → Q before x (after ++ new))
    (hnew : ∀ before x after, new = before ++ x :: after → Q (history ++ before) x after) :
    Throughout Q (history ++ new) := by
  intro before x after heq
  obtain ⟨rest, rfl, hrest⟩ | ⟨rest, rfl, hrest⟩ := List.append_eq_append_iff.mp heq
  · exact hnew rest x after hrest
  · cases rest with
    | nil => simpa using hnew [] x after hrest.symm
    | cons y rest =>
      obtain ⟨rfl, rfl⟩ := List.cons.inj hrest
      exact hmono before x rest (h before x rest rfl)

theorem Justified.append (h : Justified P history)
    (hnew : ∀ before x after, new = before ++ x :: after → P (history ++ before) x) :
    Justified P (history ++ new) :=
  Throughout.append (Q := fun before x _ => P before x) h (fun _ _ _ hx => hx) hnew

theorem sublist_of_not_mem {pattern : List α} (h : pattern.Sublist (history ++ new))
    (hlast : pattern.getLast? = some x) (hx : x ∉ new) : pattern.Sublist history := by
  obtain ⟨first, second, rfl, hfirst, hsecond⟩ := List.sublist_append_iff.mp h
  obtain rfl | ⟨second, y, rfl⟩ := List.eq_nil_or_concat' second
  · rwa [List.append_nil]
  · rw [← List.append_assoc, List.getLast?_concat] at hlast
    cases hlast
    exact absurd (hsecond.subset (by simp)) hx

end Transition
