import Mathlib.Data.List.Induction
import Mathlib.Data.List.Nodup

/-! Maps that list their entries in the order in which the keys came in, as JavaScript's `Map`
does. -/
namespace BeeAgent.Data

structure OrderedMap (κ α : Type*) where
  entries : List (κ × α)
  nodup : (entries.map Prod.fst).Nodup

namespace OrderedMap
variable {κ α β : Type*} [DecidableEq κ]

omit [DecidableEq κ] in
@[ext]
theorem ext {m m' : OrderedMap κ α} (h : m.entries = m'.entries) : m = m' := by
  obtain ⟨entries, nodup⟩ := m
  obtain ⟨entries', nodup'⟩ := m'
  cases h
  rfl

def empty : OrderedMap κ α := ⟨[], List.nodup_nil⟩

def keys (m : OrderedMap κ α) : List κ := m.entries.map Prod.fst

def values (m : OrderedMap κ α) : List α := m.entries.map Prod.snd

def size (m : OrderedMap κ α) : ℕ := m.entries.length

def get (m : OrderedMap κ α) (k : κ) : Option α :=
  (m.entries.find? fun e => e.1 = k).map Prod.snd

/-- A key that is there keeps its place. -/
def set (m : OrderedMap κ α) (k : κ) (a : α) : OrderedMap κ α :=
  if h : k ∈ m.keys then
    { entries := m.entries.map fun e => if e.1 = k then (k, a) else e
      nodup := by
        have hkeys : (m.entries.map fun e => if e.1 = k then (k, a) else e).map Prod.fst =
            m.entries.map Prod.fst := by
          rw [List.map_map]
          refine List.map_congr_left fun e _ => ?_
          by_cases he : e.1 = k <;> simp [he]
        rw [hkeys]
        exact m.nodup }
  else
    { entries := m.entries ++ [(k, a)]
      nodup := by
        rw [List.map_append, List.map_cons, List.map_nil, List.nodup_append]
        refine ⟨m.nodup, List.nodup_singleton k, fun k' hk' k'' hk'' heq => ?_⟩
        obtain rfl : k'' = k := List.mem_singleton.mp hk''
        exact h (heq ▸ hk') }

def delete (m : OrderedMap κ α) (k : κ) : OrderedMap κ α :=
  ⟨m.entries.filter fun e => e.1 ≠ k, m.nodup.sublist (List.filter_sublist.map Prod.fst)⟩

omit [DecidableEq κ] in
theorem keys_mapEntries (m : OrderedMap κ α) (f : α → β) :
    (m.entries.map fun e => (e.1, f e.2)).map Prod.fst = m.entries.map Prod.fst := by
  rw [List.map_map]
  rfl

def mapValues (m : OrderedMap κ α) (f : α → β) : OrderedMap κ β :=
  ⟨m.entries.map fun e => (e.1, f e.2), by rw [keys_mapEntries]; exact m.nodup⟩

variable {m : OrderedMap κ α} {k k' : κ} {a b : α}

theorem mapValues_set (m : OrderedMap κ α) (k : κ) (a : α) (f : α → β) :
    (m.set k a).mapValues f = (m.mapValues f).set k (f a) := by
  ext1
  have hkeys : k ∈ (m.mapValues f).keys ↔ k ∈ m.keys := by
    rw [keys, mapValues, keys_mapEntries, keys]
  unfold set
  by_cases h : k ∈ m.keys
  · rw [dif_pos h, dif_pos (hkeys.mpr h)]
    simp only [mapValues, List.map_map]
    refine List.map_congr_left fun e _ => ?_
    by_cases he : e.1 = k <;> simp [he]
  · rw [dif_neg h, dif_neg fun h' => h (hkeys.mp h')]
    simp [mapValues]

theorem mapValues_delete (m : OrderedMap κ α) (k : κ) (f : α → β) :
    (m.delete k).mapValues f = (m.mapValues f).delete k := by
  ext1
  simp only [mapValues, delete, List.filter_map]
  rfl

@[simp] theorem get_empty (k : κ) : (empty : OrderedMap κ α).get k = none := rfl

theorem mem_entries_iff : (k, a) ∈ m.entries ↔ m.get k = some a := by
  obtain ⟨entries, hnodup⟩ := m
  simp only [get]
  induction entries with
  | nil => simp
  | cons e entries ih =>
    simp only [List.map_cons, List.nodup_cons] at hnodup
    by_cases he : e.1 = k
    · subst he
      have hnot : ∀ b, (e.1, b) ∉ entries := fun b hb =>
        hnodup.1 (List.mem_map.mpr ⟨_, hb, rfl⟩)
      simp only [List.mem_cons, hnot, or_false, List.find?_cons, decide_true, Option.map_some,
        Option.some.injEq]
      constructor
      · intro h
        rw [← h]
      · rintro rfl
        rfl
    · have hne : (k, a) ≠ e := fun h => he (h ▸ rfl)
      simp only [List.mem_cons, hne, false_or, List.find?_cons, he, decide_false]
      exact ih hnodup.2

theorem mem_values_iff : a ∈ m.values ↔ ∃ k, m.get k = some a := by
  constructor
  · intro h
    obtain ⟨⟨k, b⟩, hb, rfl⟩ := List.mem_map.mp h
    exact ⟨k, mem_entries_iff.mp hb⟩
  · rintro ⟨k, h⟩
    exact List.mem_map.mpr ⟨(k, a), mem_entries_iff.mpr h, rfl⟩

theorem mem_keys_iff : k ∈ m.keys ↔ ∃ a, m.get k = some a := by
  constructor
  · intro h
    obtain ⟨⟨k, a⟩, ha, rfl⟩ := List.mem_map.mp h
    exact ⟨a, mem_entries_iff.mp ha⟩
  · rintro ⟨a, h⟩
    exact List.mem_map.mpr ⟨(k, a), mem_entries_iff.mpr h, rfl⟩

theorem get_eq_none_iff : m.get k = none ↔ k ∉ m.keys := by
  rw [mem_keys_iff, Option.eq_none_iff_forall_ne_some, not_exists]

theorem mem_entries_set : (k', b) ∈ (m.set k a).entries ↔
    k' = k ∧ b = a ∨ k' ≠ k ∧ (k', b) ∈ m.entries := by
  unfold set
  split
  · next h =>
    obtain ⟨⟨k₀, a₀⟩, ha₀, rfl⟩ := List.mem_map.mp h
    simp only [List.mem_map]
    constructor
    · rintro ⟨e, he, heq⟩
      split at heq
      · cases heq
        exact .inl ⟨rfl, rfl⟩
      · next hne =>
        subst heq
        exact .inr ⟨hne, he⟩
    · rintro (⟨rfl, rfl⟩ | ⟨hne, he⟩)
      · exact ⟨_, ha₀, by simp⟩
      · exact ⟨_, he, by simp [hne]⟩
  · next h =>
    have hnot : (k', b) ∈ m.entries → k' ≠ k := fun hb heq =>
      h (heq ▸ List.mem_map.mpr ⟨_, hb, rfl⟩)
    simp only [List.mem_append, List.mem_singleton, Prod.mk.injEq]
    constructor
    · rintro (hb | hb)
      · exact .inr ⟨hnot hb, hb⟩
      · exact .inl hb
    · rintro (hb | hb)
      · exact .inr hb
      · exact .inl hb.2

@[simp] theorem get_set_self (m : OrderedMap κ α) (k : κ) (a : α) : (m.set k a).get k = some a :=
  mem_entries_iff.mp (mem_entries_set.mpr (.inl ⟨rfl, rfl⟩))

theorem get_set_of_ne (h : k' ≠ k) (m : OrderedMap κ α) (a : α) :
    (m.set k a).get k' = m.get k' := by
  ext b
  rw [← mem_entries_iff, ← mem_entries_iff, mem_entries_set]
  simp [h]

theorem get_set (m : OrderedMap κ α) (k k' : κ) (a : α) :
    (m.set k a).get k' = if k' = k then some a else m.get k' := by
  by_cases h : k' = k
  · subst h
    simp
  · rw [get_set_of_ne h, if_neg h]

theorem mem_entries_delete : (k', b) ∈ (m.delete k).entries ↔ k' ≠ k ∧ (k', b) ∈ m.entries := by
  simp [delete, and_comm]

theorem get_delete (m : OrderedMap κ α) (k k' : κ) :
    (m.delete k).get k' = if k' = k then none else m.get k' := by
  ext b
  rw [← mem_entries_iff, mem_entries_delete, mem_entries_iff]
  by_cases h : k' = k <;> simp [h]

theorem size_set_le (m : OrderedMap κ α) (k : κ) (a : α) : (m.set k a).size ≤ m.size + 1 := by
  unfold set size
  split <;> simp

theorem size_delete_le (m : OrderedMap κ α) (k : κ) : (m.delete k).size ≤ m.size :=
  List.length_filter_le ..

end OrderedMap

namespace OrderedMap

section Overlay
variable {κ α β : Type*} {settings : List (κ × α)} {k : κ} {a : α}

/-- The last setting of a key. -/
def LastOf (settings : List (κ × α)) (k : κ) (a : α) : Prop :=
  ∃ before after, settings = before ++ (k, a) :: after ∧ k ∉ after.map Prod.fst

theorem LastOf.mem (h : LastOf settings k a) : (k, a) ∈ settings := by
  obtain ⟨before, after, rfl, -⟩ := h
  simp

theorem not_lastOf_nil : ¬ LastOf ([] : List (κ × α)) k a := by
  rintro ⟨before, after, h, -⟩
  simp at h

theorem lastOf_append {later : List (κ × α)} : LastOf (settings ++ later) k a ↔
    LastOf later k a ∨ LastOf settings k a ∧ k ∉ later.map Prod.fst := by
  constructor
  · rintro ⟨before, after, heq, hnot⟩
    obtain ⟨middle, rfl, hrest⟩ | ⟨middle, rfl, hrest⟩ := List.append_eq_append_iff.mp heq
    · exact .inl ⟨middle, after, hrest, hnot⟩
    · cases middle with
      | nil => exact .inl ⟨[], after, hrest.symm, hnot⟩
      | cons e middle =>
        obtain ⟨rfl, rfl⟩ := List.cons.inj hrest
        change k ∉ (middle ++ later).map Prod.fst at hnot
        rw [List.map_append, List.mem_append, not_or] at hnot
        exact .inr ⟨⟨before, middle, rfl, hnot.1⟩, hnot.2⟩
  · rintro (⟨before, after, rfl, hnot⟩ | ⟨⟨before, after, rfl, hnot⟩, hlater⟩)
    · exact ⟨settings ++ before, after, by simp, hnot⟩
    · refine ⟨before, after ++ later, by simp, ?_⟩
      rw [List.map_append, List.mem_append, not_or]
      exact ⟨hnot, hlater⟩

theorem lastOf_singleton {e : κ × α} : LastOf [e] k a ↔ e = (k, a) := by
  constructor
  · intro h
    exact (List.mem_singleton.mp h.mem).symm
  · rintro rfl
    exact ⟨[], [], rfl, by simp⟩

theorem lastOf_flatMap {layers : List β} {layer : β → List (κ × α)} :
    LastOf (layers.flatMap layer) k a ↔ ∃ before b after, layers = before ++ b :: after ∧
      LastOf (layer b) k a ∧ ∀ b' ∈ after, k ∉ (layer b').map Prod.fst := by
  induction layers using List.reverseRecOn with
  | nil =>
    constructor
    · intro h
      exact absurd h not_lastOf_nil
    · rintro ⟨before, b, after, h, -⟩
      simp at h
  | append_singleton layers last ih =>
    rw [List.flatMap_append, List.flatMap_singleton, lastOf_append, ih]
    constructor
    · rintro (h | ⟨⟨before, b, after, rfl, hb, hafter⟩, hlast⟩)
      · exact ⟨layers, last, [], rfl, h, by simp⟩
      · refine ⟨before, b, after ++ [last], by simp, hb, fun b' hb' => ?_⟩
        obtain hb' | rfl := List.mem_append.mp hb' |>.imp_right List.mem_singleton.mp
        · exact hafter b' hb'
        · exact hlast
    · rintro ⟨before, b, after, heq, hb, hafter⟩
      obtain rfl | ⟨after', b', rfl⟩ := after.eq_nil_or_concat
      · obtain ⟨-, hlast⟩ := List.append_inj' heq rfl
        exact .inl (List.singleton_inj.mp hlast ▸ hb)
      · have hlayers : layers ++ [last] = (before ++ b :: after') ++ [b'] := heq.trans (by simp)
        obtain ⟨rfl, hlast⟩ := List.append_inj' hlayers rfl
        obtain rfl := List.singleton_inj.mp hlast
        exact .inr ⟨⟨before, b, after', rfl, hb, fun c hc => hafter c (by simp [hc])⟩,
          hafter _ (by simp)⟩

theorem lastOf_of_nodup (hnodup : (settings.map Prod.fst).Nodup) (h : (k, a) ∈ settings) :
    LastOf settings k a := by
  obtain ⟨before, after, rfl⟩ := List.append_of_mem h
  rw [List.map_append, List.map_cons, List.nodup_append, List.nodup_cons] at hnodup
  exact ⟨before, after, rfl, hnodup.2.1.1⟩

variable [DecidableEq κ]

def setAll (m : OrderedMap κ α) (settings : List (κ × α)) : OrderedMap κ α :=
  settings.foldl (fun m e => m.set e.1 e.2) m

theorem setAll_append (m : OrderedMap κ α) (settings later : List (κ × α)) :
    m.setAll (settings ++ later) = (m.setAll settings).setAll later := List.foldl_append

theorem get_setAll : ((empty : OrderedMap κ α).setAll settings).get k = some a ↔
    LastOf settings k a := by
  induction settings using List.reverseRecOn with
  | nil => exact ⟨nofun, fun h => absurd h not_lastOf_nil⟩
  | append_singleton settings e ih =>
    obtain ⟨k', a'⟩ := e
    rw [setAll_append, lastOf_append, lastOf_singleton, ← ih]
    show ((empty.setAll settings).set k' a').get k = some a ↔ _
    rw [get_set]
    by_cases heq : k = k'
    · subst heq
      simp
    · simp [heq, Ne.symm heq]

theorem mem_values_setAll : a ∈ ((empty : OrderedMap κ α).setAll settings).values ↔
    ∃ k, LastOf settings k a := by
  simp only [mem_values_iff, get_setAll]

theorem mem_keys_setAll : k ∈ ((empty : OrderedMap κ α).setAll settings).keys ↔
    k ∈ settings.map Prod.fst := by
  induction settings using List.reverseRecOn with
  | nil => exact ⟨nofun, nofun⟩
  | append_singleton settings e ih =>
    rw [setAll_append, List.map_append, List.mem_append, ← ih, mem_keys_iff, mem_keys_iff]
    show (∃ a, ((empty.setAll settings).set e.1 e.2).get k = some a) ↔ _
    by_cases heq : k = e.1
    · simp [heq]
    · simp [get_set_of_ne heq, heq]

end Overlay

section Group
variable {κ α : Type*} [DecidableEq κ]

/-- The elements of a list by their keys, those of one key in their order. -/
def group (key : α → κ) (xs : List α) : OrderedMap κ (List α) :=
  xs.foldl (fun groups x => groups.set (key x) ((groups.get (key x)).getD [] ++ [x])) empty

theorem get_group (key : α → κ) (xs : List α) (k : κ) :
    (group key xs).get k =
      if xs.filter (key · = k) = [] then none else some (xs.filter (key · = k)) := by
  induction xs using List.reverseRecOn with
  | nil => rfl
  | append_singleton xs x ih =>
    have hgroup : group key (xs ++ [x]) =
        (group key xs).set (key x) (((group key xs).get (key x)).getD [] ++ [x]) := by
      simp [group]
    rw [hgroup, get_set, List.filter_append]
    by_cases hk : k = key x
    · subst hk
      rw [if_pos rfl, ih]
      split <;> simp_all
    · rw [if_neg hk, ih]
      simp [Ne.symm hk]

theorem mem_values_group {key : α → κ} {xs ys : List α} :
    ys ∈ (group key xs).values ↔ ∃ k, ys = xs.filter (key · = k) ∧ ys ≠ [] := by
  simp only [mem_values_iff, get_group]
  constructor
  · rintro ⟨k, hk⟩
    split at hk
    · cases hk
    · next hne =>
      obtain rfl := Option.some.inj hk
      exact ⟨k, rfl, hne⟩
  · rintro ⟨k, rfl, hne⟩
    exact ⟨k, by rw [if_neg hne]⟩

end Group

end OrderedMap

/-- A map whose entries are numbered as they come in, so that an iterator over the live map is the
number it goes on from: it visits what is added behind it and skips what is deleted. -/
structure LiveMap (κ α : Type*) where
  numbered : OrderedMap κ (ℕ × α)
  count : ℕ

namespace LiveMap
variable {κ α : Type*} [DecidableEq κ]

def empty : LiveMap κ α := ⟨.empty, 0⟩

def get (m : LiveMap κ α) (k : κ) : Option α := (m.numbered.get k).map Prod.snd

def set (m : LiveMap κ α) (k : κ) (a : α) : LiveMap κ α :=
  match m.numbered.get k with
  | some (n, _) => { m with numbered := m.numbered.set k (n, a) }
  | none => { numbered := m.numbered.set k (m.count, a), count := m.count + 1 }

def delete (m : LiveMap κ α) (k : κ) : LiveMap κ α := { m with numbered := m.numbered.delete k }

def values (m : LiveMap κ α) : List α := m.numbered.values.map Prod.snd

/-- The next value that an iterator finds which takes those with `p` only, and its number. -/
def findFrom (m : LiveMap κ α) (n : ℕ) (p : α → Bool) : Option (ℕ × α) :=
  m.numbered.values.find? fun e => n ≤ e.1 && p e.2

variable {m : LiveMap κ α} {k : κ} {a : α} {n : ℕ} {p : α → Bool}

@[simp] theorem get_empty (k : κ) : (empty : LiveMap κ α).get k = none := rfl

theorem get_set (m : LiveMap κ α) (k k' : κ) (a : α) :
    (m.set k a).get k' = if k' = k then some a else m.get k' := by
  unfold set
  split <;>
    · rw [get, OrderedMap.get_set]
      split <;> rfl

theorem get_delete (m : LiveMap κ α) (k k' : κ) :
    (m.delete k).get k' = if k' = k then none else m.get k' := by
  rw [get, delete, OrderedMap.get_delete]
  split <;> rfl

theorem mem_values_iff : a ∈ m.values ↔ ∃ k, m.get k = some a := by
  simp only [values, get, List.mem_map, OrderedMap.mem_values_iff, Option.map_eq_some_iff]
  constructor
  · rintro ⟨e, ⟨k, hk⟩, rfl⟩
    exact ⟨k, e, hk, rfl⟩
  · rintro ⟨k, e, hk, rfl⟩
    exact ⟨e, ⟨k, hk⟩, rfl⟩

theorem findFrom_eq_none (h : m.findFrom n p = none) {j : ℕ} (hk : m.numbered.get k = some (j, a))
    (hn : n ≤ j) : p a = false := by
  have hall := List.find?_eq_none.mp h (j, a) (OrderedMap.mem_values_iff.mpr ⟨k, hk⟩)
  simpa [hn] using hall

theorem findFrom_some {i : ℕ} (h : m.findFrom n p = some (i, a)) : p a ∧ ∃ k, m.get k = some a := by
  have hmem := OrderedMap.mem_values_iff.mp (List.mem_of_find?_eq_some h)
  have hp := List.find?_some h
  rw [Bool.and_eq_true] at hp
  obtain ⟨k, hk⟩ := hmem
  exact ⟨hp.2, k, by rw [get, hk]; rfl⟩

/-! ### Numbers -/

/-- The number under which a key came in. -/
def number (m : LiveMap κ α) (k : κ) : Option ℕ := (m.numbered.get k).map Prod.fst

theorem numbered_get (h : m.get k = some a) :
    ∃ n, m.number k = some n ∧ m.numbered.get k = some (n, a) := by
  obtain ⟨⟨n, b⟩, hb, rfl⟩ := Option.map_eq_some_iff.mp h
  exact ⟨n, by rw [number, hb]; rfl, hb⟩

theorem number_set {k' : κ} (h : m.number k = some n) (a : α) :
    (m.set k' a).number k = some n := by
  obtain ⟨⟨n', b⟩, hb, rfl⟩ := Option.map_eq_some_iff.mp h
  unfold set
  split
  · next n'' b'' hk' =>
    rw [number, OrderedMap.get_set]
    split
    · next heq =>
      rw [heq, hk'] at hb
      cases hb
      rfl
    · rw [hb]
      rfl
  · next hk' =>
    rw [number, OrderedMap.get_set, if_neg, hb]
    · rfl
    · rintro rfl
      simp [hk'] at hb

theorem number_delete {k' : κ} (h : m.number k = some n) (hne : k ≠ k') :
    (m.delete k').number k = some n := by
  rw [number, delete, OrderedMap.get_delete, if_neg hne]
  exact h

def numbers (m : LiveMap κ α) : List ℕ := m.numbered.values.map Prod.fst

def Sorted (m : LiveMap κ α) : Prop := (m.numbers ++ [m.count]).Pairwise (· < ·)

omit [DecidableEq κ] in
theorem sorted_empty : (empty : LiveMap κ α).Sorted := List.pairwise_singleton ..

theorem numbers_set_of_some {b : α} (h : m.numbered.get k = some (n, b)) (a : α) :
    (m.numbered.set k (n, a)).values.map Prod.fst = m.numbers := by
  have hkey : k ∈ m.numbered.keys := OrderedMap.mem_keys_iff.mpr ⟨_, h⟩
  rw [OrderedMap.set, dif_pos hkey, numbers, OrderedMap.values, OrderedMap.values, List.map_map,
    List.map_map, List.map_map]
  refine List.map_congr_left fun e he => ?_
  by_cases heq : e.1 = k
  · have hget := OrderedMap.mem_entries_iff.mp he
    rw [heq, h] at hget
    simp [heq, ← Option.some.inj hget]
  · simp [heq]

theorem Sorted.set (h : m.Sorted) (k : κ) (a : α) : (m.set k a).Sorted := by
  unfold LiveMap.set
  split
  · next n b hk =>
    rw [Sorted, numbers, numbers_set_of_some hk]
    exact h
  · next hk =>
    have hkey : k ∉ m.numbered.keys := by simp [OrderedMap.mem_keys_iff, hk]
    have hnumbers : (m.numbered.set k (m.count, a)).values.map Prod.fst = m.numbers ++ [m.count] := by
      simp [OrderedMap.set, hkey, numbers, OrderedMap.values]
    rw [Sorted, numbers, hnumbers]
    refine List.pairwise_append.mpr ⟨h, List.pairwise_singleton .., fun i hi j hj => ?_⟩
    obtain rfl := List.mem_singleton.mp hj
    obtain hi | hi := List.mem_append.mp hi
    · exact Nat.lt_succ_of_lt ((List.pairwise_append.mp h).2.2 i hi _ (List.mem_singleton_self _))
    · exact List.mem_singleton.mp hi ▸ Nat.lt_succ_self _

theorem Sorted.delete (h : m.Sorted) (k : κ) : (m.delete k).Sorted :=
  h.sublist (((List.filter_sublist.map Prod.snd).map Prod.fst).append (List.Sublist.refl _))

theorem Sorted.findFrom_le (h : m.Sorted) {i j : ℕ} {b : α} (hfind : m.findFrom n p = some (i, a))
    (hk : m.numbered.get k = some (j, b)) (hn : n ≤ j) (hp : p b) : i < j ∨ i = j ∧ a = b := by
  obtain ⟨-, before, after, hvalues, hbefore⟩ := List.find?_eq_some_iff_append.mp hfind
  have hmem : (j, b) ∈ m.numbered.values := OrderedMap.mem_values_iff.mpr ⟨k, hk⟩
  have horder : ((i, a) :: after).Pairwise (·.1 < ·.1) := by
    have hall := (List.pairwise_append.mp h).1
    rw [numbers, hvalues, List.pairwise_map] at hall
    exact (List.pairwise_append.mp hall).2.1
  rw [hvalues] at hmem
  obtain hmem | hmem := List.mem_append.mp hmem
  · have hnot := hbefore _ hmem
    simp [hn, hp] at hnot
  obtain heq | hmem := List.mem_cons.mp hmem
  · cases heq
    exact .inr ⟨rfl, rfl⟩
  · exact .inl ((List.pairwise_cons.mp horder).1 _ hmem)

end LiveMap

end BeeAgent.Data
