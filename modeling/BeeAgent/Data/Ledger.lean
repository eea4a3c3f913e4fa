import Mathlib.Data.List.Induction
import Mathlib.Data.List.Nodup
import Mathlib.Data.List.Perm.Basic

/-! Ledgers: what the events of a list open and close, and what they leave open. -/
namespace Ledger

section Throughout
variable {ε : Type*} {P Q : List ε → ε → Prop} {es es' : List ε} {e : ε}

def Throughout (P : List ε → ε → Prop) (es : List ε) : Prop :=
  ∀ before e after, es = before ++ e :: after → P before e

theorem Throughout.nil : Throughout P [] := by
  intro before e after h
  simp at h

theorem Throughout.append (h : Throughout P es)
    (h' : Throughout (fun before e => P (es ++ before) e) es') : Throughout P (es ++ es') := by
  intro before e after heq
  obtain ⟨rest, rfl, hrest⟩ | ⟨rest, hes, hrest⟩ := List.append_eq_append_iff.mp heq
  · exact h' rest e after hrest
  · cases rest with
    | nil =>
      rw [List.append_nil] at hes
      subst hes
      have hfirst : P (es ++ []) e := h' [] e after hrest.symm
      rwa [List.append_nil] at hfirst
    | cons a rest =>
      obtain ⟨rfl, -⟩ := List.cons.inj hrest
      exact h before e rest hes

theorem Throughout.left (h : Throughout P (es ++ es')) : Throughout P es :=
  fun before e after heq => h before e (after ++ es') (by simp [heq])

theorem Throughout.last (h : Throughout P (es ++ [e])) : P es e := h es e [] rfl

theorem throughout_singleton : Throughout P [e] ↔ P [] e := by
  refine ⟨fun h => h [] e [] rfl, fun h before e' after heq => ?_⟩
  cases before with
  | nil =>
    cases heq
    exact h
  | cons a before => simp at heq

theorem Throughout.concat (h : Throughout P es) (he : P es e) : Throughout P (es ++ [e]) :=
  h.append (throughout_singleton.mpr (by rwa [List.append_nil]))

theorem Throughout.imp (h : Throughout P es) (hPQ : ∀ before e, P before e → Q before e) :
    Throughout Q es :=
  fun before e after heq => hPQ before e (h before e after heq)

end Throughout

/-- What an event opens, the key of what it closes, and the keys of what is opened. -/
structure Account (ε α κ : Type*) where
  opens : ε → Option α
  closes : ε → Option κ
  key : α → κ

namespace Account
variable {ε α κ : Type*} (A : Account ε α κ)

def openedKeys (es : List ε) : List κ := (es.filterMap A.opens).map A.key

def closedKeys (es : List ε) : List κ := es.filterMap A.closes

@[simp] theorem openedKeys_append (es es' : List ε) :
    A.openedKeys (es ++ es') = A.openedKeys es ++ A.openedKeys es' := by
  simp [openedKeys]

@[simp] theorem closedKeys_append (es es' : List ε) :
    A.closedKeys (es ++ es') = A.closedKeys es ++ A.closedKeys es' :=
  List.filterMap_append

theorem closedKeys_concat {es : List ε} {e : ε} {k : κ} :
    k ∈ A.closedKeys (es ++ [e]) ↔ k ∈ A.closedKeys es ∨ A.closes e = some k := by
  simp [closedKeys]

variable [DecidableEq κ]

def post (items : List α) (e : ε) : List α :=
  (items.filter fun x => A.closes e ≠ some (A.key x)) ++ (A.opens e).toList

def opened (es : List ε) : List α := es.foldl A.post []

theorem opened_concat (es : List ε) (e : ε) : A.opened (es ++ [e]) = A.post (A.opened es) e := by
  rw [opened, List.foldl_append, List.foldl_cons, List.foldl_nil, opened]

/-- The event opens what was not opened before, and closes what is open. -/
structure Admits (before : List ε) (e : ε) : Prop where
  opens : ∀ x, A.opens e = some x → A.key x ∉ A.openedKeys before
  closes : ∀ k, A.closes e = some k → k ∈ (A.opened before).map A.key

def Fair (es : List ε) : Prop := Throughout A.Admits es

variable {A} {es : List ε} {e : ε} {x : α} {k : κ}

theorem mem_post {items : List α} :
    x ∈ A.post items e ↔ (x ∈ items ∧ A.closes e ≠ some (A.key x)) ∨ A.opens e = some x := by
  simp [post]

theorem mem_opens_of_opened (h : x ∈ A.opened es) : x ∈ es.filterMap A.opens := by
  induction es using List.reverseRecOn with
  | nil => cases h
  | append_singleton es e ih =>
    rw [opened_concat, mem_post] at h
    rw [List.filterMap_append, List.mem_append]
    obtain ⟨h, -⟩ | h := h
    · exact .inl (ih h)
    · exact .inr (by simp [h])

theorem openedKeys_of_opened (h : k ∈ (A.opened es).map A.key) : k ∈ A.openedKeys es := by
  obtain ⟨x, hx, rfl⟩ := List.mem_map.mp h
  exact List.mem_map_of_mem (mem_opens_of_opened hx)

namespace Fair

theorem left {es' : List ε} (h : A.Fair (es ++ es')) : A.Fair es := Throughout.left h

theorem last (h : A.Fair (es ++ [e])) : A.Admits es e := Throughout.last h

theorem openedKeys_of_closed (h : A.Fair es) (hk : k ∈ A.closedKeys es) : k ∈ A.openedKeys es := by
  induction es using List.reverseRecOn with
  | nil => cases hk
  | append_singleton es e ih =>
    rw [openedKeys_append, List.mem_append]
    obtain hk | hk := A.closedKeys_concat.mp hk
    · exact .inl (ih h.left hk)
    · exact .inl (openedKeys_of_opened (h.last.closes k hk))

theorem mem_opened_iff (h : A.Fair es) :
    x ∈ A.opened es ↔ x ∈ es.filterMap A.opens ∧ A.key x ∉ A.closedKeys es := by
  induction es using List.reverseRecOn with
  | nil => simp [opened]
  | append_singleton es e ih =>
    have hnew : A.opens e = some x → A.key x ∉ A.closedKeys (es ++ [e]) := by
      intro hopens hclosed
      refine h.last.opens x hopens ?_
      obtain hclosed | hclosed := A.closedKeys_concat.mp hclosed
      · exact openedKeys_of_closed h.left hclosed
      · exact openedKeys_of_opened (h.last.closes _ hclosed)
    rw [opened_concat, mem_post, ih h.left, List.filterMap_append, List.mem_append]
    constructor
    · rintro (⟨⟨hopened, hclosed⟩, hcloses⟩ | hopens)
      · exact ⟨.inl hopened, fun hmem => (A.closedKeys_concat.mp hmem).elim hclosed hcloses⟩
      · exact ⟨.inr (by simp [hopens]), hnew hopens⟩
    · rintro ⟨hopened, hclosed⟩
      rw [closedKeys_concat, not_or] at hclosed
      obtain hopened | hopened := hopened
      · exact .inl ⟨⟨hopened, hclosed.1⟩, hclosed.2⟩
      · exact .inr (by simpa using hopened)

theorem closedKeys_nodup (h : A.Fair es) : (A.closedKeys es).Nodup := by
  induction es using List.reverseRecOn with
  | nil => exact List.nodup_nil
  | append_singleton es e ih =>
    rw [closedKeys_append]
    refine List.nodup_append.mpr ⟨ih h.left, ?_, ?_⟩
    · rw [closedKeys, List.filterMap_cons]
      split <;> simp
    · rintro k hk _ hk' rfl
      have hcloses : A.closes e = some k := by simpa [closedKeys] using hk'
      obtain ⟨x, hx, rfl⟩ := List.mem_map.mp (h.last.closes k hcloses)
      exact (h.left.mem_opened_iff.mp hx).2 hk

theorem openedKeys_nodup (h : A.Fair es) : (A.openedKeys es).Nodup := by
  induction es using List.reverseRecOn with
  | nil => exact List.nodup_nil
  | append_singleton es e ih =>
    rw [openedKeys_append]
    cases hopens : A.opens e with
    | none => simpa [openedKeys, hopens] using ih h.left
    | some x =>
      have hnew := h.last.opens x hopens
      refine List.nodup_append.mpr ⟨ih h.left, by simp [openedKeys, hopens], ?_⟩
      rintro k hk _ hk' rfl
      have : k = A.key x := by simpa [openedKeys, hopens] using hk'
      exact hnew (this ▸ hk)

theorem opened_keys_nodup (h : A.Fair es) : ((A.opened es).map A.key).Nodup := by
  have hsub : (A.opened es).Sublist (es.filterMap A.opens) := by
    clear h
    induction es using List.reverseRecOn with
    | nil => exact List.Sublist.refl _
    | append_singleton es e ih =>
      rw [opened_concat, post, List.filterMap_append]
      refine List.Sublist.append (List.filter_sublist.trans ih) ?_
      cases hopens : A.opens e <;> simp [hopens]
  exact (hsub.map A.key).nodup h.openedKeys_nodup

theorem eq_of_key (h : A.Fair es) {y : α} (hx : x ∈ es.filterMap A.opens)
    (hy : y ∈ es.filterMap A.opens) (hkey : A.key x = A.key y) : x = y :=
  List.inj_on_of_nodup_map h.openedKeys_nodup hx hy hkey

end Fair

theorem post_opens {items : List α} (hopens : A.opens e = some x) (hcloses : A.closes e = none) :
    A.post items e = items ++ [x] := by
  simp [post, hopens, hcloses]

theorem post_closes {items rest : List α} (hopens : A.opens e = none)
    (hcloses : A.closes e = some (A.key x)) (hnodup : (items.map A.key).Nodup)
    (hperm : items.Perm (x :: rest)) : (A.post items e).Perm rest := by
  have hkeys : (A.key x :: rest.map A.key).Nodup := (hperm.map A.key).nodup_iff.mp hnodup
  rw [post, hopens, Option.toList_none, List.append_nil]
  refine (hperm.filter _).trans (List.Perm.of_eq ?_)
  rw [List.filter_cons_of_neg (by simp [hcloses])]
  refine List.filter_eq_self.mpr fun y hy => ?_
  simp only [hcloses, ne_eq, Option.some.injEq, decide_not, Bool.not_eq_eq_eq_not, Bool.not_true,
    decide_eq_false_iff_not]
  intro hkey
  exact (List.nodup_cons.mp hkeys).1 (hkey ▸ List.mem_map_of_mem hy)

theorem post_quiet {items : List α} (hopens : A.opens e = none) (hcloses : A.closes e = none) :
    A.post items e = items := by
  simp [post, hopens, hcloses]

end Account
end Ledger
