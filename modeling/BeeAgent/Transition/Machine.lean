import Mathlib.Logic.Relation

/-! Machines whose step is a partial function of state and input, the states their runs reach,
and the induction rules for invariants. A guard restricts runs to the steps that meet a
condition on the state before the step and its input. -/
namespace Transition

/-- A machine over states `σ` and inputs `ι`; an input that is not enabled has no successor. -/
structure Machine (σ ι : Type*) where
  step : σ → ι → Option σ

namespace Machine
variable {σ ι : Type*} (M : Machine σ ι)

/-- One step that meets the guard. -/
def Step (G : σ → ι → Prop) (s t : σ) : Prop :=
  ∃ i, G s i ∧ M.step s i = some t

/-- The states reached by runs whose every step meets the guard. -/
def Reaches (G : σ → ι → Prop) : σ → σ → Prop :=
  Relation.ReflTransGen (M.Step G)

def anyStep : σ → ι → Prop := fun _ _ => True

/-- The state after a list of inputs, when each is enabled in turn. -/
def exec : σ → List ι → Option σ
  | s, [] => some s
  | s, i :: is =>
    match M.step s i with
    | none => none
    | some t => exec t is

/-- Each input of the list meets the guard in the state it is taken in. -/
def Guarded (G : σ → ι → Prop) : σ → List ι → Prop
  | _, [] => True
  | s, i :: is => G s i ∧
    match M.step s i with
    | none => True
    | some t => Guarded G t is

variable {M} {G G' : σ → ι → Prop} {s t u : σ}

theorem Reaches.refl : M.Reaches G s s := Relation.ReflTransGen.refl

theorem Reaches.tail {i : ι} (h : M.Reaches G s t) (hg : G t i) (hs : M.step t i = some u) :
    M.Reaches G s u :=
  Relation.ReflTransGen.tail h ⟨i, hg, hs⟩

theorem Reaches.head {i : ι} (hg : G s i) (hs : M.step s i = some t) (h : M.Reaches G t u) :
    M.Reaches G s u :=
  Relation.ReflTransGen.head ⟨i, hg, hs⟩ h

theorem Reaches.trans (h : M.Reaches G s t) (h' : M.Reaches G t u) : M.Reaches G s u :=
  Relation.ReflTransGen.trans h h'

theorem Reaches.mono (hG : ∀ s i, G s i → G' s i) (h : M.Reaches G s t) : M.Reaches G' s t :=
  Relation.ReflTransGen.mono (fun _ _ ⟨i, hg, hs⟩ => ⟨i, hG _ i hg, hs⟩) _ _ h

/-- A property of the start that every guarded step keeps holds in every state reached. -/
theorem Reaches.invariant {P : σ → Prop} (h : M.Reaches G s t) (h0 : P s)
    (hstep : ∀ s i t, P s → G s i → M.step s i = some t → P t) : P t := by
  induction h with
  | refl => exact h0
  | tail _ hs ih =>
    obtain ⟨i, hg, hs⟩ := hs
    exact hstep _ i _ ih hg hs

theorem Reaches.invariant₂ {P Q : σ → Prop} (h : M.Reaches G s t) (hQ : ∀ t, M.Reaches G s t → Q t)
    (h0 : P s) (hstep : ∀ s i t, Q s → P s → G s i → M.step s i = some t → P t) : P t := by
  induction h with
  | refl => exact h0
  | tail hr hs ih =>
    obtain ⟨i, hg, hs⟩ := hs
    exact hstep _ i _ (hQ _ hr) ih hg hs

theorem exec_reaches (is : List ι) (hg : M.Guarded G s is) (h : M.exec s is = some t) :
    M.Reaches G s t := by
  induction is generalizing s with
  | nil =>
    cases h
    exact .refl
  | cons i is ih =>
    simp only [exec] at h
    simp only [Guarded] at hg
    cases hs : M.step s i with
    | none => simp [hs] at h
    | some s' =>
      simp only [hs] at h hg
      exact .head hg.1 hs (ih hg.2 h)

theorem guarded_anyStep (is : List ι) : M.Guarded anyStep s is := by
  induction is generalizing s with
  | nil => trivial
  | cons i is ih =>
    refine ⟨trivial, ?_⟩
    cases M.step s i with
    | none => trivial
    | some t => exact ih

/-- A check of every step of a list of inputs, as far as they are enabled. -/
def allSteps (M : Machine σ ι) (check : σ → ι → Bool) : σ → List ι → Bool
  | _, [] => true
  | s, i :: is => check s i &&
    match M.step s i with
    | none => true
    | some t => allSteps M check t is

theorem guarded_of_allSteps {check : σ → ι → Bool} (hcheck : ∀ s i, check s i → G s i)
    (is : List ι) (h : M.allSteps check s is) : M.Guarded G s is := by
  induction is generalizing s with
  | nil => trivial
  | cons i is ih =>
    simp only [allSteps, Bool.and_eq_true] at h
    refine ⟨hcheck s i h.1, ?_⟩
    cases hs : M.step s i with
    | none => trivial
    | some t => exact ih (by simpa only [hs] using h.2)

def execGet (M : Machine σ ι) (s : σ) (is : List ι) (h : (M.exec s is).isSome) : σ :=
  (M.exec s is).get h

theorem execGet_reaches (is : List ι) (h : (M.exec s is).isSome) (hg : M.Guarded G s is) :
    M.Reaches G s (M.execGet s is h) :=
  exec_reaches is hg (Option.some_get h).symm

/-- What is read off the end of a run that goes through is read off a state that is reached. -/
theorem Guarded.exists_reaches {α : Type*} {f : σ → α} {a : α} {is : List ι}
    (hg : M.Guarded G s is) (h : (M.exec s is).map f = some a) : ∃ t, M.Reaches G s t ∧ f t = a := by
  obtain ⟨t, ht, hf⟩ := Option.map_eq_some_iff.mp h
  exact ⟨t, exec_reaches is hg ht, hf⟩

theorem exists_reaches_of_exec_map {α : Type*} {f : σ → α} {a : α} (is : List ι)
    (h : (M.exec s is).map f = some a) : ∃ t, M.Reaches anyStep s t ∧ f t = a :=
  (guarded_anyStep is).exists_reaches h

end Machine
end Transition
