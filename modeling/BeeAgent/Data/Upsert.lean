import BeeAgent.Data.OrderedMap

/-! Maps that are filled element by element, where each element is merged into what its key holds
already; and what comes out when the merged values are merged once more. -/
namespace BeeAgent.Data.OrderedMap

section
variable {κ : Type*} [DecidableEq κ]

def addKeys (keys later : List κ) : List κ :=
  later.foldl (fun keys k => if k ∈ keys then keys else keys ++ [k]) keys

theorem addKeys_append (keys later more : List κ) :
    addKeys keys (later ++ more) = addKeys (addKeys keys later) more := List.foldl_append

theorem addKeys_eq_self {keys later : List κ} (h : later ⊆ keys) : addKeys keys later = keys := by
  induction later with
  | nil => rfl
  | cons k later ih =>
    obtain ⟨hk, hlater⟩ := List.cons_subset.mp h
    rw [addKeys, List.foldl_cons, if_pos hk]
    exact ih hlater

theorem addKeys_fresh {keys later : List κ} (h : (keys ++ later).Nodup) :
    addKeys keys later = keys ++ later := by
  induction later generalizing keys with
  | nil => exact (List.append_nil keys).symm
  | cons k later ih =>
    have hfresh : k ∉ keys := fun hk =>
      (List.nodup_append.mp h).2.2 k hk k List.mem_cons_self rfl
    rw [addKeys, List.foldl_cons, if_neg hfresh]
    have hsplit : keys ++ k :: later = keys ++ [k] ++ later := by simp
    rw [hsplit] at h ⊢
    exact ih h

theorem addKeys_prefix {keys all : List κ} (h : keys <+: all) (hnodup : all.Nodup) :
    addKeys keys all = all := by
  obtain ⟨later, rfl⟩ := h
  rw [addKeys_append, addKeys_eq_self (List.Subset.refl keys), addKeys_fresh hnodup]

theorem prefix_addKeys (keys later : List κ) : keys <+: addKeys keys later := by
  induction later generalizing keys with
  | nil => exact List.prefix_refl keys
  | cons k later ih =>
    rw [addKeys, List.foldl_cons]
    split
    · exact ih keys
    · exact (List.prefix_append keys [k]).trans (ih (keys ++ [k]))

theorem mem_addKeys {keys later : List κ} {k : κ} (h : k ∈ later) : k ∈ addKeys keys later := by
  obtain ⟨before, after, rfl⟩ := List.append_of_mem h
  rw [addKeys_append]
  have hin : k ∈ if k ∈ addKeys keys before then addKeys keys before
      else addKeys keys before ++ [k] := by
    split
    · assumption
    · exact List.mem_append_right _ List.mem_cons_self
  exact (prefix_addKeys _ after).subset hin

end

section
variable {κ α β : Type*} [DecidableEq κ] {m n : OrderedMap κ α}

theorem entries_eq (m : OrderedMap κ α) :
    m.entries = m.keys.filterMap fun k => (m.get k).map fun a => (k, a) := by
  rw [keys, List.filterMap_map]
  have hget : ∀ e ∈ m.entries,
      ((fun k => (m.get k).map fun a => (k, a)) ∘ Prod.fst) e = some e := by
    intro e he
    rw [Function.comp_apply, mem_entries_iff.mp he]
    rfl
  rw [List.filterMap_congr hget, List.filterMap_some]

theorem ext_get (hkeys : m.keys = n.keys) (hget : ∀ k, m.get k = n.get k) : m = n := by
  refine ext ?_
  rw [entries_eq m, entries_eq n, hkeys]
  exact List.filterMap_congr fun k _ => by rw [hget]

theorem keys_set (m : OrderedMap κ α) (k : κ) (a : α) :
    (m.set k a).keys = if k ∈ m.keys then m.keys else m.keys ++ [k] := by
  unfold set
  split
  · simp only [keys, List.map_map]
    refine List.map_congr_left fun e _ => ?_
    by_cases he : e.1 = k <;> simp [he]
  · simp [keys]

/-- Each element is merged into what its key holds. -/
def upsertAll (key : β → κ) (merge : Option α → β → α) (m : OrderedMap κ α) (xs : List β) :
    OrderedMap κ α :=
  xs.foldl (fun m x => m.set (key x) (merge (m.get (key x)) x)) m

variable {key : β → κ} {merge : Option α → β → α}

theorem keys_upsertAll (m : OrderedMap κ α) (xs : List β) :
    (m.upsertAll key merge xs).keys = addKeys m.keys (xs.map key) := by
  induction xs generalizing m with
  | nil => rfl
  | cons x xs ih =>
    rw [upsertAll, List.foldl_cons, ← upsertAll, ih, keys_set]
    rfl

theorem get_upsertAll (m : OrderedMap κ α) (xs : List β) (k : κ) :
    (m.upsertAll key merge xs).get k =
      (xs.filter fun x => key x = k).foldl (fun o x => some (merge o x)) (m.get k) := by
  induction xs generalizing m with
  | nil => rfl
  | cons x xs ih =>
    rw [upsertAll, List.foldl_cons, ← upsertAll, ih, get_set]
    by_cases hk : key x = k
    · subst hk
      simp
    · simp [hk, Ne.symm hk]

theorem get_upsertAll_of_notMem {xs : List β} {k : κ} (h : k ∉ xs.map key) :
    (m.upsertAll key merge xs).get k = m.get k := by
  have hnone : (xs.filter fun x => key x = k) = [] := by
    refine List.filter_eq_nil_iff.mpr fun x hx heq => h ?_
    exact List.mem_map.mpr ⟨x, hx, of_decide_eq_true heq⟩
  rw [get_upsertAll, hnone]
  rfl

theorem key_of_upsertAll {key : α → κ} {xs : List α} {k : κ} {a : α} (hk : k ∈ xs.map key)
    (h : (m.upsertAll key (fun _ x => x) xs).get k = some a) : key a = k := by
  obtain ⟨x, hx, rfl⟩ := List.mem_map.mp hk
  have hmem : x ∈ xs.filter fun y => key y = key x :=
    List.mem_filter.mpr ⟨hx, decide_eq_true rfl⟩
  rw [get_upsertAll] at h
  obtain hnil | ⟨before, last, hlast⟩ := (xs.filter fun y => key y = key x).eq_nil_or_concat
  · rw [hnil] at hmem
    cases hmem
  · rw [hlast, List.concat_eq_append, List.foldl_append] at h
    obtain rfl := Option.some.inj h
    have hin : last ∈ xs.filter fun y => key y = key x := by
      rw [hlast, List.concat_eq_append]
      exact List.mem_append_right _ List.mem_cons_self
    exact of_decide_eq_true (List.mem_filter.mp hin).2

theorem foldl_absorb {σ γ : Type*} {step : σ → γ → σ} {xs : List γ} {s t : σ} (hne : xs ≠ [])
    (h : ∀ x ∈ xs, step s x = t ∧ step t x = t) : xs.foldl step s = t := by
  have hstay : ∀ ys, ys ⊆ xs → ys.foldl step t = t := by
    intro ys hys
    induction ys with
    | nil => rfl
    | cons y ys ih =>
      obtain ⟨hy, hrest⟩ := List.cons_subset.mp hys
      rw [List.foldl_cons, (h y hy).2]
      exact ih hrest
  cases xs with
  | nil => exact absurd rfl hne
  | cons x xs =>
    rw [List.foldl_cons, (h x List.mem_cons_self).1]
    exact hstay xs (List.subset_cons_self x xs)

theorem map_filterMap_eq {γ δ ε : Type*} {f : γ → Option δ} {g : δ → ε} {g' : γ → ε} {xs : List γ}
    (h : ∀ x ∈ xs, ∃ y, f x = some y ∧ g y = g' x) : (xs.filterMap f).map g = xs.map g' := by
  induction xs with
  | nil => rfl
  | cons x xs ih =>
    obtain ⟨y, hy, hg⟩ := h x List.mem_cons_self
    rw [List.filterMap_cons_some hy, List.map_cons, List.map_cons, hg,
      ih fun x' hx' => h x' (List.mem_cons_of_mem _ hx')]

/-- What is merged into a map once, and once more as the map then holds it, leaves the same map
when each value that it holds is what the value merges to. -/
theorem upsertAll_again {key' : α → κ} {merge' : Option α → α → α} {xs : List β}
    (hn : n = m.upsertAll key merge xs)
    (h : ∀ x ∈ xs, ∀ a, n.get (key x) = some a →
      key' a = key x ∧ merge' (m.get (key x)) a = a ∧ merge' (some a) a = a) :
    m.upsertAll key' merge' (xs.filterMap fun x => n.get (key x)) = n := by
  have hheld : ∀ x ∈ xs, ∃ a, n.get (key x) = some a := by
    intro x hx
    refine mem_keys_iff.mp ?_
    rw [hn, keys_upsertAll]
    exact mem_addKeys (List.mem_map_of_mem hx)
  have hkeys : (xs.filterMap fun x => n.get (key x)).map key' = xs.map key := by
    refine map_filterMap_eq fun x hx => ?_
    obtain ⟨a, ha⟩ := hheld x hx
    exact ⟨a, ha, (h x hx a ha).1⟩
  refine ext_get (by rw [keys_upsertAll, hkeys, hn, keys_upsertAll]) fun k => ?_
  by_cases hk : k ∈ xs.map key
  · obtain ⟨x, hx, rfl⟩ := List.mem_map.mp hk
    obtain ⟨a, ha⟩ := hheld x hx
    have hmem : a ∈ xs.filterMap fun x => n.get (key x) := List.mem_filterMap.mpr ⟨x, hx, ha⟩
    rw [get_upsertAll, ha]
    refine foldl_absorb (List.ne_nil_of_mem (List.mem_filter.mpr ⟨hmem, ?_⟩)) fun b hb => ?_
    · simpa using (h x hx a ha).1
    · obtain ⟨hb, hkey⟩ := List.mem_filter.mp hb
      obtain ⟨y, hy, hyb⟩ := List.mem_filterMap.mp hb
      have hsame : key y = key x := by
        rw [← (h y hy b hyb).1]
        simpa using hkey
      rw [hsame, ha] at hyb
      obtain rfl := Option.some.inj hyb
      exact ⟨congrArg some (h x hx a ha).2.1, congrArg some (h x hx a ha).2.2⟩
  · rw [get_upsertAll_of_notMem (hkeys ▸ hk), hn, get_upsertAll_of_notMem hk]

theorem setAll_eq_upsertAll (m : OrderedMap κ α) (settings : List (κ × α)) :
    m.setAll settings = m.upsertAll Prod.fst (fun _ e => e.2) settings := rfl

theorem prefix_setAll (m : OrderedMap κ α) (settings : List (κ × α)) :
    m.keys <+: (m.setAll settings).keys := by
  rw [setAll_eq_upsertAll, keys_upsertAll]
  exact prefix_addKeys _ _

theorem setAll_entries (h : m.keys <+: n.keys) : m.setAll n.entries = n := by
  rw [setAll_eq_upsertAll]
  refine ext_get (by rw [keys_upsertAll]; exact addKeys_prefix h n.nodup) fun k => ?_
  by_cases hk : k ∈ n.keys
  · obtain ⟨a, ha⟩ := mem_keys_iff.mp hk
    have hmem : (k, a) ∈ n.entries.filter fun e => e.1 = k :=
      List.mem_filter.mpr ⟨mem_entries_iff.mpr ha, decide_eq_true rfl⟩
    rw [get_upsertAll, ha]
    refine foldl_absorb (List.ne_nil_of_mem hmem) fun e he => ?_
    obtain ⟨he, hkey⟩ := List.mem_filter.mp he
    have hsame := mem_entries_iff.mp he
    rw [of_decide_eq_true hkey, ha] at hsame
    exact ⟨hsame.symm, hsame.symm⟩
  · rw [get_upsertAll_of_notMem hk, get_eq_none_iff.mpr hk]
    exact get_eq_none_iff.mpr fun hk' => hk (h.subset hk')

theorem setAll_self (m : OrderedMap κ α) : (empty : OrderedMap κ α).setAll m.entries = m :=
  setAll_entries (List.nil_prefix)

end

end BeeAgent.Data.OrderedMap
