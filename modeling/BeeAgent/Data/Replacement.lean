import Mathlib.Data.List.Infix

/-! Replacing every occurrence of a key in a text by a marker, for a list of keys in turn. The text
carries which of its letters come from a marker: what is left of a key afterwards is spelled with
the help of one. -/
namespace Replacement
variable {α : Type*} [DecidableEq α] {key word marker : List α}

/-- The text with the leftmost occurrences of `key`, none overlapping another, replaced; the first
`skip` letters belong to an occurrence that is replaced already. -/
def replaceFrom (key marker : List α) : ℕ → List α → List α
  | _, [] => []
  | skip + 1, _ :: text => replaceFrom key marker skip text
  | 0, c :: text =>
    if key <+: c :: text then marker ++ replaceFrom key marker (key.length - 1) text
    else c :: replaceFrom key marker 0 text

/-- `text.split(key).join(marker)` for a key that is not empty. -/
def replaceAll (key marker text : List α) : List α := replaceFrom key marker 0 text

/-- A text whose letters remember whether a marker brought them in. -/
abbrev MarkedText (α : Type*) := List (α × Bool)

omit [DecidableEq α] in
def plain (text : List α) : MarkedText α := text.map (·, false)

def cutFrom (key marker : List α) : ℕ → MarkedText α → MarkedText α
  | _, [] => []
  | skip + 1, _ :: text => cutFrom key marker skip text
  | 0, c :: text =>
    if key <+: (c :: text).map Prod.fst then
      marker.map (·, true) ++ cutFrom key marker (key.length - 1) text
    else c :: cutFrom key marker 0 text

def cutAll (keys : List (List α)) (marker text : List α) : MarkedText α :=
  keys.foldl (fun marked key => cutFrom key marker 0 marked) (plain text)

def Spelled (key : List α) (text : MarkedText α) : Prop :=
  ∃ word, word <:+: text ∧ word.map Prod.fst = key ∧ ∃ c ∈ word, c.2 = true

instance (key : List α) (text : MarkedText α) : Decidable (Spelled key text) :=
  decidable_of_iff
    (∃ word ∈ text.tails.flatMap List.inits, word.map Prod.fst = key ∧ ∃ c ∈ word, c.2 = true)
    (by simp [Spelled, List.infix_iff_prefix_suffix, and_comm])

variable {skip : ℕ} {text : MarkedText α} {letters : List α} {keys : List (List α)}

theorem map_fst_cutFrom (key marker : List α) (skip : ℕ) (text : MarkedText α) :
    (cutFrom key marker skip text).map Prod.fst =
      replaceFrom key marker skip (text.map Prod.fst) := by
  fun_induction cutFrom key marker skip text with
  | case1 => rfl
  | case2 skip c text ih => exact ih
  | case3 c text hkey ih => simp_all [replaceFrom, Function.comp_def]
  | case4 c text hkey ih => simp_all [replaceFrom]

theorem map_fst_cutAll (keys : List (List α)) (marker text : List α) :
    (cutAll keys marker text).map Prod.fst =
      keys.foldl (fun text key => replaceAll key marker text) text := by
  suffices h : ∀ marked : MarkedText α,
      (keys.foldl (fun marked key => cutFrom key marker 0 marked) marked).map Prod.fst =
        keys.foldl (fun text key => replaceAll key marker text) (marked.map Prod.fst) by
    simpa [cutAll, plain, Function.comp_def] using h (plain text)
  induction keys with
  | nil => exact fun _ => rfl
  | cons key keys ih =>
    intro marked
    rw [List.foldl_cons, List.foldl_cons, ih, map_fst_cutFrom, replaceAll]

theorem replaceAll_eq_nil_iff (hmarker : marker ≠ []) :
    replaceAll key marker letters = [] ↔ letters = [] := by
  cases letters with
  | nil => simp [replaceAll, replaceFrom]
  | cons c letters =>
    simp only [replaceAll, replaceFrom]
    split <;> simp [hmarker]

theorem foldl_replaceAll_eq_nil_iff (hmarker : marker ≠ []) :
    keys.foldl (fun text key => replaceAll key marker text) letters = [] ↔ letters = [] := by
  induction keys generalizing letters with
  | nil => rfl
  | cons key keys ih => rw [List.foldl_cons, ih, replaceAll_eq_nil_iff hmarker]

omit [DecidableEq α] in
theorem plain_prefix_marked {rest : MarkedText α} (hmarker : marker ≠ [])
    (h : plain word <+: marker.map (·, true) ++ rest) : word = [] := by
  cases word with
  | nil => rfl
  | cons a word =>
    cases marker with
    | nil => exact absurd rfl hmarker
    | cons b marker => simp [plain] at h

omit [DecidableEq α] in
theorem plain_infix_marked {rest : MarkedText α} (hword : word ≠ [])
    (h : plain word <:+: marker.map (·, true) ++ rest) : plain word <:+: rest := by
  induction marker with
  | nil => exact h
  | cons b marker ih =>
    rw [List.map_cons, List.cons_append, List.infix_cons_iff] at h
    rcases h with h | h
    · have hb : plain word <+: [b].map (·, true) ++ (marker.map (·, true) ++ rest) := h
      exact absurd (plain_prefix_marked (List.cons_ne_nil b []) hb) hword
    · exact ih h

theorem plain_prefix_of_cut (key : List α) (hmarker : marker ≠ [])
    (h : plain word <+: cutFrom key marker 0 text) : plain word <+: text := by
  induction text generalizing word with
  | nil => exact h
  | cons c text ih =>
    rw [cutFrom] at h
    split at h
    · rw [plain_prefix_marked hmarker h]
      exact List.nil_prefix
    · cases word with
      | nil => exact List.nil_prefix
      | cons a word =>
        obtain ⟨rfl, hrest⟩ := List.cons_prefix_cons.mp h
        exact List.cons_prefix_cons.mpr ⟨rfl, ih hrest⟩

theorem plain_infix_of_cut (hmarker : marker ≠ []) (hword : word ≠ [])
    (h : plain word <:+: cutFrom key marker skip text) : plain word <:+: text := by
  induction text generalizing skip with
  | nil => cases skip <;> exact h
  | cons c text ih =>
    cases skip with
    | succ skip => exact List.infix_cons (ih h)
    | zero =>
      rw [cutFrom] at h
      split at h
      · exact List.infix_cons (ih (plain_infix_marked hword h))
      · rcases List.infix_cons_iff.mp h with h | h
        · refine (plain_prefix_of_cut key hmarker ?_).isInfix
          rwa [cutFrom, if_neg ‹_›]
        · exact List.infix_cons (ih h)

/-- A cut leaves no occurrence of its key but with letters of a marker. -/
theorem not_plain_infix_cut (hmarker : marker ≠ []) (hkey : key ≠ []) :
    ¬ plain key <:+: cutFrom key marker skip text := by
  intro h
  induction text generalizing skip with
  | nil =>
    cases skip <;> exact hkey (List.map_eq_nil_iff.mp (List.infix_nil.mp h))
  | cons c text ih =>
    cases skip with
    | succ skip => exact ih h
    | zero =>
      rw [cutFrom] at h
      split at h
      · exact ih (plain_infix_marked hkey h)
      next hno =>
      rcases List.infix_cons_iff.mp h with h | h
      · have hplain : plain key <+: c :: text :=
          plain_prefix_of_cut key hmarker (by rwa [cutFrom, if_neg hno])
        exact hno (by simpa [plain, Function.comp_def] using hplain.map Prod.fst)
      · exact ih h

theorem not_plain_infix_cutAll (hmarker : marker ≠ []) (hkey : key ≠ []) (hmem : key ∈ keys) :
    ¬ plain key <:+: cutAll keys marker letters := by
  suffices h : ∀ marked : MarkedText α, key ∈ keys ∨ ¬ plain key <:+: marked →
      ¬ plain key <:+: keys.foldl (fun marked key => cutFrom key marker 0 marked) marked from
    h _ (.inl hmem)
  clear hmem
  induction keys with
  | nil => exact fun marked h => h.resolve_left List.not_mem_nil
  | cons first keys ih =>
    refine fun marked h => ih _ ?_
    rcases h with h | h
    · rcases List.mem_cons.mp h with rfl | h
      · exact .inr (not_plain_infix_cut hmarker hkey)
      · exact .inl h
    · exact .inr fun hin => h (plain_infix_of_cut hmarker hkey hin)

omit [DecidableEq α] in
theorem infix_map_fst_iff :
    key <:+: text.map Prod.fst ↔ Spelled key text ∨ plain key <:+: text := by
  constructor
  · rintro ⟨before, after, h⟩
    obtain ⟨left, right, rfl, hleft, rfl⟩ := List.map_eq_append_iff.mp h.symm
    obtain ⟨first, word, rfl, -, hword⟩ := List.map_eq_append_iff.mp hleft
    have hin : word <:+: first ++ word ++ right := ⟨first, right, rfl⟩
    by_cases hmarked : ∃ c ∈ word, c.2 = true
    · exact .inl ⟨word, hin, hword, hmarked⟩
    · have hplain : plain key = word := by
        rw [plain, ← hword, List.map_map]
        refine (List.map_congr_left fun c hc => ?_).trans (List.map_id word)
        have hc2 : c.2 = false := Bool.eq_false_iff.mpr fun h => hmarked ⟨c, hc, h⟩
        simp [← hc2]
      exact .inr (hplain ▸ hin)
  · rintro (⟨word, hin, rfl, -⟩ | h)
    · exact hin.map Prod.fst
    · simpa [plain, Function.comp_def] using h.map Prod.fst

/-- After every key of a list is replaced, a key is in the text only where a marker spells it. -/
theorem infix_replaced_iff (hmarker : marker ≠ []) (hkey : key ≠ []) (hmem : key ∈ keys) :
    key <:+: keys.foldl (fun text key => replaceAll key marker text) letters ↔
      Spelled key (cutAll keys marker letters) := by
  rw [← map_fst_cutAll, infix_map_fst_iff,
    or_iff_left (not_plain_infix_cutAll hmarker hkey hmem)]

end Replacement
