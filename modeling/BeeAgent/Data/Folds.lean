import Mathlib.Data.List.Basic

/-! Maps and folds over lists whose steps may throw. -/
namespace BeeAgent.Data
variable {α β ε σ : Type}

section Fold
variable {f : σ → β → Except ε σ} {s s' : σ} {l : List β} {e : ε}

theorem foldlM_cons_ok {b : β} :
    (b :: l).foldlM f s = .ok s' ↔ ∃ s₁, f s b = .ok s₁ ∧ l.foldlM f s₁ = .ok s' := by
  rw [List.foldlM_cons]
  cases hb : f s b with
  | error e => simp [bind, Except.bind]
  | ok s₁ => simp [bind, Except.bind]

theorem foldlM_cons_error {b : β} :
    (b :: l).foldlM f s = .error e ↔
      f s b = .error e ∨ ∃ s₁, f s b = .ok s₁ ∧ l.foldlM f s₁ = .error e := by
  rw [List.foldlM_cons]
  cases hb : f s b with
  | error e => simp [bind, Except.bind]
  | ok s₁ => simp [bind, Except.bind]

theorem foldlM_ok (P : List β → σ → Prop)
    (hstep : ∀ (done : List β) (s : σ) (b : β) (s' : σ), b ∈ l → P done s → f s b = .ok s' →
      P (done ++ [b]) s')
    (hstart : P [] s) (h : l.foldlM f s = .ok s') : P l s' := by
  suffices ∀ (done rest : List β) (s : σ), done ++ rest = l → P done s →
      rest.foldlM f s = .ok s' → P l s' from this [] l s rfl hstart h
  intro done rest
  induction rest generalizing done with
  | nil =>
    intro s hl hs h
    obtain rfl : s = s' := Except.ok.inj h
    rwa [← hl, List.append_nil]
  | cons b rest ih =>
    intro s hl hs h
    obtain ⟨s₁, hb, hrest⟩ := foldlM_cons_ok.mp h
    have hmem : b ∈ l := hl ▸ List.mem_append_right _ List.mem_cons_self
    exact ih (done ++ [b]) s₁ (by rw [List.append_assoc]; exact hl) (hstep done s b s₁ hmem hs hb)
      hrest

/-- A fold that throws does so at one of its elements, where what the steps keep holds of those
before it. -/
theorem foldlM_error (P : List β → σ → Prop)
    (hstep : ∀ (done : List β) (s : σ) (b : β) (s' : σ), b ∈ l → P done s → f s b = .ok s' →
      P (done ++ [b]) s')
    (hstart : P [] s) (h : l.foldlM f s = .error e) :
    ∃ done b rest s', l = done ++ b :: rest ∧ P done s' ∧ f s' b = .error e := by
  suffices ∀ (done rest : List β) (s : σ), done ++ rest = l → P done s →
      rest.foldlM f s = .error e →
      ∃ done b rest s', l = done ++ b :: rest ∧ P done s' ∧ f s' b = .error e from
    this [] l s rfl hstart h
  intro done rest
  induction rest generalizing done with
  | nil => nofun
  | cons b rest ih =>
    intro s hl hs h
    obtain hb | ⟨s₁, hb, hrest⟩ := foldlM_cons_error.mp h
    · exact ⟨done, b, rest, s, hl.symm, hs, hb⟩
    · have hmem : b ∈ l := hl ▸ List.mem_append_right _ List.mem_cons_self
      exact ih (done ++ [b]) s₁ (by rw [List.append_assoc]; exact hl) (hstep done s b s₁ hmem hs hb)
        hrest

theorem foldlM_congr_ok {g : σ → β → Except ε σ}
    (hstep : ∀ b ∈ l, ∀ s s', f s b = .ok s' → g s b = .ok s') (h : l.foldlM f s = .ok s') :
    l.foldlM g s = .ok s' := by
  induction l generalizing s with
  | nil => exact h
  | cons b l ih =>
    obtain ⟨s₁, hb, hrest⟩ := foldlM_cons_ok.mp h
    exact foldlM_cons_ok.mpr ⟨s₁, hstep b List.mem_cons_self s s₁ hb,
      ih (fun b' hb' => hstep b' (List.mem_cons_of_mem _ hb')) hrest⟩

end Fold

section Map
variable {f : α → Except ε β} {as : List α} {bs : List β} {e : ε}

theorem mapM_forall₂ (h : as.mapM f = .ok bs) : List.Forall₂ (fun a b => f a = .ok b) as bs := by
  induction as generalizing bs with
  | nil =>
    obtain rfl : [] = bs := Except.ok.inj h
    exact .nil
  | cons a as ih =>
    rw [List.mapM_cons] at h
    cases ha : f a with
    | error e => simp [ha, bind, Except.bind] at h
    | ok b =>
      cases has : as.mapM f with
      | error e => simp [ha, has, bind, Except.bind] at h
      | ok bs' =>
        obtain rfl : b :: bs' = bs := by
          simpa [ha, has, bind, Except.bind, pure, Except.pure] using h
        exact .cons ha (ih has)

theorem mapM_error (h : as.mapM f = .error e) : ∃ a ∈ as, f a = .error e := by
  induction as with
  | nil => cases h
  | cons a as ih =>
    rw [List.mapM_cons] at h
    cases ha : f a with
    | error e' => exact ⟨a, List.mem_cons_self, by simpa [ha, bind, Except.bind] using h⟩
    | ok b =>
      cases has : as.mapM f with
      | ok bs => simp [ha, has, bind, Except.bind, pure, Except.pure] at h
      | error e' =>
        obtain rfl : e' = e := by simpa [ha, has, bind, Except.bind] using h
        obtain ⟨a', ha', herror⟩ := ih has
        exact ⟨a', List.mem_cons_of_mem _ ha', herror⟩

theorem exists_of_mapM (h : as.mapM f = .ok bs) : ∀ b ∈ bs, ∃ a ∈ as, f a = .ok b := by
  have hall := mapM_forall₂ h
  clear h
  induction hall with
  | nil => simp
  | cons hab _ ih =>
    refine List.forall_mem_cons.mpr ⟨⟨_, List.mem_cons_self, hab⟩, fun b hb => ?_⟩
    obtain ⟨a, ha, hf⟩ := ih b hb
    exact ⟨a, List.mem_cons_of_mem _ ha, hf⟩

theorem exists_of_map_ok {g : α → β} {result : Except ε α} {b : β} (h : result.map g = .ok b) :
    ∃ a, result = .ok a ∧ g a = b := by
  cases result with
  | error e => cases h
  | ok a => exact ⟨a, rfl, Except.ok.inj h⟩

end Map

end BeeAgent.Data
