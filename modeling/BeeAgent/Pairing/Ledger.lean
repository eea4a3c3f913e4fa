import Mathlib.Data.List.Perm.Subperm
import Mathlib.Data.List.TakeWhile

/-! Sequences in which entries ask under keys and later entries answer: what is outstanding after
a sequence, the conditions under which its entries come, and the sequences that pair each request
with one answer before the next entry that is not an answer. -/
namespace Pairing

/-- What an entry does: `plain` may come only when nothing is outstanding, `neutral` anywhere. -/
inductive Kind (κ : Type*) where
  | ask (keys : List κ)
  | answer (key : κ)
  | plain
  | neutral
  deriving DecidableEq

namespace Kind
variable {κ : Type*}

def answerKey? : Kind κ → Option κ
  | answer key => some key
  | _ => none

def isAsk : Kind κ → Bool
  | ask _ => true
  | _ => false

/-- The entries that a request has to be answered before. -/
def isBarrier : Kind κ → Bool
  | ask _ | plain => true
  | _ => false

/-- An entry comes in order: an answer to what is outstanding, a barrier when nothing is. -/
def InOrder (pending : List κ) : Kind κ → Prop
  | ask _ | plain => pending = []
  | answer key => key ∈ pending
  | neutral => True

/-- An entry asks only when nothing is outstanding. -/
def AsksSettled (pending : List κ) (kind : Kind κ) : Prop := kind.isAsk → pending = []

theorem InOrder.asksSettled {pending : List κ} {kind : Kind κ} (h : kind.InOrder pending) :
    kind.AsksSettled pending := by
  intro hask
  cases kind with
  | ask => exact h
  | _ => cases hask

variable [DecidableEq κ]

def next (pending : List κ) : Kind κ → List κ
  | ask keys => keys
  | answer key => pending.erase key
  | _ => pending

instance (pending : List κ) : DecidablePred (InOrder pending) := fun kind => by
  cases kind <;> unfold InOrder <;> infer_instance

end Kind

variable {κ : Type*}

def answerKeys (kinds : List (Kind κ)) : List κ := kinds.filterMap Kind.answerKey?

@[simp] theorem answerKeys_append (kinds kinds' : List (Kind κ)) :
    answerKeys (kinds ++ kinds') = answerKeys kinds ++ answerKeys kinds' :=
  List.filterMap_append

variable [DecidableEq κ]

def outstanding (pending : List κ) (kinds : List (Kind κ)) : List κ :=
  kinds.foldl Kind.next pending

/-- A condition on what is outstanding, at each entry. -/
def Along (P : List κ → Kind κ → Prop) : List κ → List (Kind κ) → Prop
  | _, [] => True
  | pending, kind :: kinds => P pending kind ∧ Along P (kind.next pending) kinds

instance Along.decidable {P : List κ → Kind κ → Prop} [∀ pending, DecidablePred (P pending)] :
    ∀ pending kinds, Decidable (Along P pending kinds)
  | _, [] => inferInstanceAs (Decidable True)
  | pending, kind :: kinds =>
    have := Along.decidable (P := P) (kind.next pending) kinds
    inferInstanceAs (Decidable (P pending kind ∧ Along P (kind.next pending) kinds))

/-- Every entry comes in order, and nothing is left outstanding. -/
def Paired (kinds : List (Kind κ)) : Prop :=
  Along Kind.InOrder [] kinds ∧ outstanding [] kinds = []

instance : DecidablePred (Paired (κ := κ)) := fun kinds =>
  inferInstanceAs (Decidable (Along Kind.InOrder [] kinds ∧ outstanding [] kinds = []))

variable {pending keys : List κ} {kinds kinds' : List (Kind κ)} {P : List κ → Kind κ → Prop}

@[simp] theorem outstanding_nil : outstanding pending [] = pending := rfl

@[simp] theorem outstanding_cons (kind : Kind κ) :
    outstanding pending (kind :: kinds) = outstanding (kind.next pending) kinds := rfl

@[simp] theorem outstanding_append :
    outstanding pending (kinds ++ kinds') = outstanding (outstanding pending kinds) kinds' :=
  List.foldl_append

theorem along_append :
    Along P pending (kinds ++ kinds') ↔
      Along P pending kinds ∧ Along P (outstanding pending kinds) kinds' := by
  induction kinds generalizing pending with
  | nil => simp [Along]
  | cons kind kinds ih => simp only [List.cons_append, Along, ih, outstanding_cons, and_assoc]

theorem Along.mono {Q : List κ → Kind κ → Prop} (hPQ : ∀ pending kind, P pending kind → Q pending kind)
    (h : Along P pending kinds) : Along Q pending kinds := by
  induction kinds generalizing pending with
  | nil => trivial
  | cons kind kinds ih => exact ⟨hPQ _ _ h.1, ih h.2⟩

theorem outstanding_answers (keys rest : List κ) :
    outstanding (keys ++ rest) (keys.map .answer) = rest := by
  induction keys with
  | nil => rfl
  | cons key keys ih => simpa [Kind.next] using ih

theorem along_answers (keys rest : List κ) :
    Along Kind.InOrder (keys ++ rest) (keys.map .answer) := by
  induction keys with
  | nil => trivial
  | cons key keys ih =>
    refine ⟨List.mem_append_left _ (List.mem_cons_self ..), ?_⟩
    simpa [Kind.next] using ih

theorem mem_outstanding {key : κ} (h : key ∈ outstanding pending kinds) :
    key ∈ pending ∨ ∃ keys, .ask keys ∈ kinds ∧ key ∈ keys := by
  induction kinds generalizing pending with
  | nil => exact .inl h
  | cons kind kinds ih =>
    obtain h | ⟨keys, hmem, hkey⟩ := ih h
    · cases kind with
      | ask keys => exact .inr ⟨keys, List.mem_cons_self .., h⟩
      | answer key' => exact .inl (List.mem_of_mem_erase h)
      | plain | neutral => exact .inl h
    · exact .inr ⟨keys, List.mem_cons_of_mem _ hmem, hkey⟩

theorem filter_erase {p : κ → Bool} {key : κ} (h : p key = false) :
    (pending.erase key).filter p = pending.filter p := by
  induction pending with
  | nil => rfl
  | cons k pending ih =>
    rw [List.erase_cons]
    split
    · next heq => rw [List.filter_cons_of_neg (by simp_all)]
    · rw [List.filter_cons, List.filter_cons, ih]

section WithoutAsk
variable (hask : ∀ kind ∈ kinds, kind.isAsk = false)
include hask

theorem subperm_outstanding_answers :
    pending.Subperm (outstanding pending kinds ++ answerKeys kinds) := by
  induction kinds generalizing pending with
  | nil => simpa [answerKeys] using List.Subperm.refl pending
  | cons kind kinds ih =>
    have hrest := @ih (kind.next pending) fun k hk => hask k (List.mem_cons_of_mem _ hk)
    cases kind with
    | ask keys => cases hask _ (List.mem_cons_self ..)
    | answer key =>
      have hkey : pending.Subperm (key :: pending.erase key) := List.subperm_cons_erase key pending
      refine hkey.trans (((List.subperm_cons key).mpr hrest).trans ?_)
      exact (List.perm_middle.symm).subperm
    | plain | neutral => exact hrest

theorem outstanding_sublist : (outstanding pending kinds).Sublist pending := by
  induction kinds generalizing pending with
  | nil => exact List.Sublist.refl _
  | cons kind kinds ih =>
    refine (ih fun k hk => hask k (List.mem_cons_of_mem _ hk)).trans ?_
    cases kind with
    | ask keys => cases hask _ (List.mem_cons_self ..)
    | answer key => exact List.erase_sublist
    | plain | neutral => exact List.Sublist.refl _

theorem outstanding_eq_filter {answered : List κ} (hsub : ∀ key ∈ answerKeys kinds, key ∈ answered)
    (hfresh : ∀ key ∈ outstanding pending kinds, key ∉ answered) :
    outstanding pending kinds = pending.filter (· ∉ answered) := by
  induction kinds generalizing pending with
  | nil => exact (List.filter_eq_self.mpr fun key hkey => by simpa using hfresh key hkey).symm
  | cons kind kinds ih =>
    have hrest := @ih (kind.next pending) (fun k hk => hask k (List.mem_cons_of_mem _ hk))
      (fun key hkey => hsub key (by
        cases kind with
        | answer key' => exact List.mem_cons_of_mem _ hkey
        | _ => exact hkey)) hfresh
    rw [outstanding_cons, hrest]
    cases kind with
    | ask keys => cases hask _ (List.mem_cons_self ..)
    | answer key =>
      have hkey : key ∈ answered := hsub key (List.mem_cons_self ..)
      exact filter_erase (by simpa using hkey)
    | plain | neutral => rfl

theorem perm_outstanding_answers (h : Along Kind.InOrder pending kinds) :
    (outstanding pending kinds ++ answerKeys kinds).Perm pending := by
  induction kinds generalizing pending with
  | nil => simp [answerKeys]
  | cons kind kinds ih =>
    have hrest := ih (fun k hk => hask k (List.mem_cons_of_mem _ hk)) h.2
    cases kind with
    | ask keys => cases hask _ (List.mem_cons_self ..)
    | answer key =>
      refine List.perm_middle.trans ((hrest.cons key).trans ?_)
      exact (List.perm_cons_erase h.1).symm
    | plain | neutral => exact hrest

end WithoutAsk

theorem Paired.asked {before after : List (Kind κ)} {key : κ}
    (h : Paired (before ++ .answer key :: after)) : ∃ keys, .ask keys ∈ before ∧ key ∈ keys :=
  (mem_outstanding (along_append.mp h.1).2.1).resolve_left List.not_mem_nil

/-- Nothing is outstanding where the entries first stop to meet `p`, when that is where the others
come only if nothing is. -/
theorem outstanding_takeWhile {p : Kind κ → Bool}
    (hp : ∀ pending kind, p kind = false → P pending kind → pending = [])
    (h : Along P pending kinds) (hend : outstanding pending kinds = []) :
    outstanding pending (kinds.takeWhile p) = [] := by
  induction kinds generalizing pending with
  | nil => exact hend
  | cons kind kinds ih =>
    rw [List.takeWhile_cons]
    split
    · exact ih h.2 hend
    · next hkind => exact hp pending kind (by simpa using hkind) h.1

theorem Paired.answered {before after : List (Kind κ)}
    (h : Paired (before ++ .ask keys :: after)) :
    (answerKeys (after.takeWhile fun kind => !kind.isBarrier)).Perm keys := by
  obtain ⟨-, -, halong⟩ := along_append.mp h.1
  have hend := h.2
  rw [outstanding_append, outstanding_cons] at hend
  have hnone := outstanding_takeWhile (p := fun kind => !kind.isBarrier) (fun pending kind hk hin => by
    cases kind with
    | ask | plain => exact hin
    | answer | neutral => cases hk) halong hend
  have hask : ∀ kind ∈ after.takeWhile (fun kind => !kind.isBarrier), kind.isAsk = false := by
    intro kind hkind
    have := List.mem_takeWhile_imp hkind
    cases kind <;> simp_all [Kind.isBarrier, Kind.isAsk]
  have hsegment := (along_append.mp ((List.takeWhile_append_dropWhile
    (p := fun kind : Kind κ => !kind.isBarrier) (l := after)).symm ▸ halong)).1
  have hperm := perm_outstanding_answers hask hsegment
  rwa [hnone, List.nil_append] at hperm

/-- Where a request comes only when nothing is outstanding, one that is followed by a settled
sequence is answered under each of its keys before the next. -/
theorem subperm_answers_of_settled (h : Along Kind.AsksSettled pending kinds)
    (hend : outstanding pending kinds = []) :
    pending.Subperm (answerKeys (kinds.takeWhile fun kind => !kind.isAsk)) := by
  have hnone := outstanding_takeWhile (p := fun kind => !kind.isAsk)
    (fun pending kind hk hs => hs (by simpa using hk)) h hend
  have hsub : pending.Subperm (outstanding pending (kinds.takeWhile fun kind => !kind.isAsk) ++ _) :=
    subperm_outstanding_answers fun kind hkind => by simpa using List.mem_takeWhile_imp hkind
  rwa [hnone, List.nil_append] at hsub

theorem along_asksSettled_of_no_ask (hask : ∀ kind ∈ kinds, kind.isAsk = false) :
    Along Kind.AsksSettled pending kinds := by
  induction kinds generalizing pending with
  | nil => trivial
  | cons kind kinds ih =>
    refine ⟨fun h => ?_, ih fun k hk => hask k (List.mem_cons_of_mem _ hk)⟩
    rw [hask kind (List.mem_cons_self ..)] at h
    cases h

theorem Paired.append (h : Paired kinds) (h' : Paired kinds') : Paired (kinds ++ kinds') :=
  ⟨along_append.mpr ⟨h.1, by rw [h.2]; exact h'.1⟩, by rw [outstanding_append, h.2]; exact h'.2⟩

theorem Paired.drop (h : Paired kinds) {n : ℕ} (hcut : outstanding [] (kinds.take n) = []) :
    Paired (kinds.drop n) := by
  rw [← List.take_append_drop n kinds] at h
  obtain ⟨halong, hend⟩ := h
  rw [outstanding_append, hcut] at hend
  have := (along_append.mp halong).2
  rw [hcut] at this
  exact ⟨this, hend⟩

end Pairing
