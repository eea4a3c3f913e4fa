import BeeAgent.Data.Replacement

/-! Keys that overlap the marker: those that replacing other keys can bring in, and no others. -/
namespace Replacement
variable {α : Type*} [DecidableEq α] {key word marker text : List α}

/-- A piece of the key is a piece of the marker, and where one goes on at an end of the piece, the
other one does not. -/
def Overlaps (key marker : List α) : Prop :=
  ∃ before piece after start rest, key = before ++ piece ++ after ∧ piece ≠ [] ∧
    marker = start ++ piece ++ rest ∧ (before = [] ∨ start = []) ∧ (after = [] ∨ rest = [])

theorem cutFrom_plain (key marker : List α) (c : α) (text : List α) :
    cutFrom key marker 0 (plain (c :: text)) =
      if key <+: c :: text then
        marker.map (·, true) ++ cutFrom key marker (key.length - 1) (plain text)
      else (c, false) :: cutFrom key marker 0 (plain text) := by
  have hplain : ((c, false) :: plain text).map Prod.fst = c :: text := by
    simp [plain, Function.comp_def]
  show cutFrom key marker 0 ((c, false) :: plain text) = _
  rw [cutFrom, hplain]

omit [DecidableEq α] in
theorem Overlaps.exists_mem (h : Overlaps key marker) : ∃ c ∈ key, c ∈ marker := by
  obtain ⟨before, piece, after, start, rest, rfl, hpiece, rfl, -, -⟩ := h
  obtain ⟨c, piece, rfl⟩ := List.exists_cons_of_ne_nil hpiece
  exact ⟨c, by simp, by simp⟩

/-- A word that begins the text after a replacement began it before, or runs into a marker. -/
theorem prefix_replaceFrom (hmarker : marker ≠ []) (h : word <+: replaceFrom key marker 0 text) :
    plain word <+: cutFrom key marker 0 (plain text) ∨
      ∃ before piece after rest, word = before ++ piece ++ after ∧ piece ≠ [] ∧
        marker = piece ++ rest ∧ (after = [] ∨ rest = []) := by
  induction text generalizing word with
  | nil => exact .inl (by rw [List.prefix_nil.mp h]; exact List.nil_prefix)
  | cons c text ih =>
    cases word with
    | nil => exact .inl List.nil_prefix
    | cons a word =>
      rw [replaceFrom] at h
      rw [cutFrom_plain]
      split at h
      · obtain hshort | hlong := List.prefix_or_prefix_of_prefix h (List.prefix_append marker _)
        · obtain ⟨rest, hrest⟩ := hshort
          exact .inr ⟨[], a :: word, [], rest, by simp, by simp, hrest.symm, .inl rfl⟩
        · obtain ⟨after, hafter⟩ := hlong
          exact .inr ⟨[], marker, after, [], hafter.symm, hmarker, by simp, .inr rfl⟩
      · obtain ⟨rfl, hrest⟩ := List.cons_prefix_cons.mp h
        obtain hplain | ⟨before, piece, after, rest, rfl, hpiece, hmarker', hend⟩ := ih hrest
        · left
          rw [if_neg ‹_›]
          exact List.cons_prefix_cons.mpr ⟨rfl, hplain⟩
        · exact .inr ⟨a :: before, piece, after, rest, rfl, hpiece, hmarker', hend⟩

omit [DecidableEq α] in
/-- A word that stands behind the beginning of a marker stands behind all of it, or they overlap. -/
theorem infix_marker_append {rest : List α} (hword : word ≠ []) (hover : ¬ Overlaps word marker)
    (h : word <:+: marker ++ rest) : word <:+: rest := by
  suffices hgo : ∀ start piece, marker = start ++ piece → word <:+: piece ++ rest →
      word <:+: rest from hgo [] marker rfl h
  intro start piece hmarker h
  induction piece generalizing start with
  | nil => exact h
  | cons c piece ih =>
    rw [List.cons_append, List.infix_cons_iff] at h
    obtain h | h := h
    · rw [← List.cons_append] at h
      refine absurd ?_ hover
      obtain hshort | hlong := List.prefix_or_prefix_of_prefix h (List.prefix_append (c :: piece) _)
      · obtain ⟨after, hafter⟩ := hshort
        exact ⟨[], word, [], start, after, by simp, hword, by rw [hmarker, ← hafter]; simp,
          .inl rfl, .inl rfl⟩
      · obtain ⟨after, hafter⟩ := hlong
        exact ⟨[], c :: piece, after, start, [], hafter.symm, by simp, by simp [hmarker],
          .inl rfl, .inr rfl⟩
    · exact ih (start ++ [c]) (by simp [hmarker]) h

theorem infix_replaceFrom {skip : ℕ} (hmarker : marker ≠ []) (hword : word ≠ [])
    (hover : ¬ Overlaps word marker) (h : word <:+: replaceFrom key marker skip text) :
    plain word <:+: cutFrom key marker skip (plain text) := by
  induction text generalizing skip with
  | nil =>
    have hnil : replaceFrom key marker skip [] = [] := by cases skip <;> rfl
    rw [hnil] at h
    exact absurd (List.infix_nil.mp h) hword
  | cons c text ih =>
    cases skip with
    | succ skip => exact ih h
    | zero =>
      by_cases hkey : key <+: c :: text
      · rw [replaceFrom, if_pos hkey] at h
        rw [cutFrom_plain, if_pos hkey]
        exact (ih (infix_marker_append hword hover h)).trans (List.suffix_append _ _).isInfix
      · have hstep : replaceFrom key marker 0 (c :: text) = c :: replaceFrom key marker 0 text := by
          rw [replaceFrom, if_neg hkey]
        rw [hstep, List.infix_cons_iff, ← hstep] at h
        obtain h | h := h
        · obtain hplain | ⟨before, piece, after, rest, hsplit, hpiece, hmarker', hend⟩ :=
            prefix_replaceFrom hmarker h
          · exact hplain.isInfix
          · exact absurd ⟨before, piece, after, [], rest, hsplit, hpiece, hmarker', .inr rfl, hend⟩
              hover
        · rw [cutFrom_plain, if_neg hkey]
          exact List.infix_cons (ih h)

/-- A word that does not overlap the marker is not brought in by a replacement, and a key that does
not is gone. -/
theorem infix_replaceAll (hmarker : marker ≠ []) (hword : word ≠ [])
    (hover : ¬ Overlaps word marker) (h : word <:+: replaceAll key marker text) :
    word <:+: text ∧ key ≠ word := by
  have hplain := infix_replaceFrom hmarker hword hover h
  refine ⟨?_, ?_⟩
  · have hin := plain_infix_of_cut hmarker hword hplain
    simpa [plain, Function.comp_def] using hin.map Prod.fst
  · rintro rfl
    exact not_plain_infix_cut hmarker hword hplain

theorem replaced_hides {keys : List (List α)} (hmarker : marker ≠ []) (hword : word ≠ [])
    (hover : ¬ Overlaps word marker) (hmem : word ∈ keys) (text : List α) :
    ¬ word <:+: keys.foldl (fun text key => replaceAll key marker text) text := by
  suffices h : ∀ text, word ∈ keys ∨ ¬ word <:+: text →
      ¬ word <:+: keys.foldl (fun text key => replaceAll key marker text) text from
    h text (.inl hmem)
  clear hmem
  induction keys with
  | nil => exact fun text h => h.resolve_left List.not_mem_nil
  | cons first keys ih =>
    refine fun text h => ih _ ?_
    rcases h with h | h
    · rcases List.mem_cons.mp h with rfl | h
      · exact .inr fun hin => (infix_replaceAll hmarker hword hover hin).2 rfl
      · exact .inl h
    · exact .inr fun hin => h (infix_replaceAll hmarker hword hover hin).1

theorem replaceAll_eq_self (h : ¬ key <:+: text) : replaceAll key marker text = text := by
  induction text with
  | nil => rfl
  | cons c text ih =>
    have hprefix : ¬ key <+: c :: text := fun hkey => h hkey.isInfix
    rw [replaceAll, replaceFrom, if_neg hprefix, ← replaceAll,
      ih fun hin => h (List.infix_cons hin)]

theorem replaceFrom_length (key marker before text : List α) :
    replaceFrom key marker before.length (before ++ text) = replaceAll key marker text := by
  induction before with
  | nil => rfl
  | cons c before ih => exact ih

theorem replaceAll_first {before after : List α} (hkey : key ≠ [])
    (h : ∀ left right, before = left ++ right → right ≠ [] → ¬ key <+: right ++ (key ++ after)) :
    replaceAll key marker (before ++ (key ++ after)) =
      before ++ (marker ++ replaceAll key marker after) := by
  induction before with
  | nil =>
    obtain ⟨c, key, rfl⟩ := List.exists_cons_of_ne_nil hkey
    have hprefix : c :: key <+: c :: (key ++ after) := List.prefix_append (c :: key) after
    rw [List.nil_append, List.nil_append, replaceAll, List.cons_append, replaceFrom,
      if_pos hprefix]
    exact congrArg (marker ++ ·) (replaceFrom_length (c :: key) marker key after)
  | cons c before ih =>
    have hhead := h [] (c :: before) rfl (List.cons_ne_nil _ _)
    rw [replaceAll, List.cons_append, replaceFrom]
    rw [if_neg (show ¬ key <+: c :: (before ++ (key ++ after)) from hhead), ← replaceAll,
      ih fun left right heq => h (c :: left) right (by rw [heq]; rfl)]
    rfl

/-- Where a key overlaps the marker, there is another key, no longer than it, whose replacement
brings it in: as many of one of two letters that are not in the marker. -/
theorem Overlaps.exists_spelled (h : Overlaps key marker) (x y : α) (hxy : x ≠ y)
    (hx : x ∉ marker) (hy : y ∉ marker) : ∃ a text, (a = x ∨ a = y) ∧ ¬ key <:+: text ∧
      key <:+: replaceAll (List.replicate key.length a) marker text := by
  obtain ⟨before, piece, after, start, rest, hkey, hpiece, hmarker, hbefore, hafter⟩ := h
  obtain ⟨c, piece, rfl⟩ := List.exists_cons_of_ne_nil hpiece
  obtain ⟨a, hletter, ha, hlast⟩ :
      ∃ a, (a = x ∨ a = y) ∧ a ∉ marker ∧ before.getLast? ≠ some a := by
    by_cases hlast : before.getLast? = some x
    · exact ⟨y, .inr rfl, hy, by simp [hlast, hxy]⟩
    · exact ⟨x, .inl rfl, hx, hlast⟩
  have hlength : key.length = before.length + (piece.length + 1) + after.length := by
    rw [hkey]
    simp only [List.length_append, List.length_cons]
  have hfiller : List.replicate key.length a ≠ [] := by
    simp only [ne_eq, List.replicate_eq_nil_iff]
    omega
  refine ⟨a, before ++ (List.replicate key.length a ++ after), hletter, ?_, ?_⟩
  · -- the first letter of the piece would stand among the filling
    rintro ⟨left, right, htext⟩
    have hlen := congrArg List.length htext
    simp only [List.length_append, List.length_replicate] at hlen
    have hleft : (left ++ key ++ right)[left.length + before.length]? = some c := by
      rw [hkey, List.append_assoc left, List.getElem?_append_right (by omega)]
      simp
    have hright : (before ++ (List.replicate key.length a ++ after))[left.length + before.length]? =
        some a := by
      rw [List.getElem?_append_right (by omega), List.getElem?_append_left (by simp; omega),
        List.getElem?_replicate, if_pos (by omega)]
    rw [htext, hright] at hleft
    obtain rfl := Option.some.inj hleft
    exact ha (by simp [hmarker])
  · rw [replaceAll_first hfiller, replaceAll_eq_self]
    · obtain rfl | rfl := hbefore <;> obtain rfl | rfl := hafter <;> rw [hkey, hmarker]
      · exact ⟨start, rest, by simp⟩
      · exact ⟨start, [], by simp⟩
      · exact ⟨[], rest, by simp⟩
      · exact ⟨[], [], by simp⟩
    · intro hin
      have hle := hin.length_le
      rw [List.length_replicate] at hle
      omega
    · intro left right heq hright hprefix
      have hle := congrArg List.length heq
      rw [List.length_append] at hle
      have hrun : right <+: List.replicate key.length a :=
        List.prefix_of_prefix_length_le (List.prefix_append _ _) hprefix (by simp; omega)
      have hsame : right.getLast hright = a :=
        List.eq_of_mem_replicate (hrun.subset (List.getLast_mem hright))
      refine hlast ?_
      rw [heq, List.getLast?_append_of_ne_nil _ hright,
        List.getLast?_eq_getLast_of_ne_nil hright, hsame]

end Replacement
