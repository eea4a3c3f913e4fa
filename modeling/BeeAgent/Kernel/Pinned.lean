import BeeAgent.Kernel.Accounting

/-! A generation that a lease is out on stands still, as long as no turn begins on a generation
between the first fiber that a live update of it changes and the end of that update. -/
namespace BeeAgent.Structure
open Transition Machine

namespace Kernel

def updating (k : Kernel) (g : ℕ) : Bool :=
  (List.range k.nextTask).any fun t => (k.tasks t).any fun task => task.pc.changes == some g

end Kernel

/-- No turn begins on a generation that a live update is changing. -/
def undisturbed (k : Kernel) : KernelInput → Prop
  | .beginTurn => ∀ g, k.active = some g → k.updating g = false
  | _ => True

/-- A generation that a live update will still change has no lease out on it. -/
def Unleased (k : Kernel) : Prop :=
  ∀ t task g, k.tasks t = some task → task.pc.changes = some g →
    ∃ gen, k.generations g = some gen ∧ gen.references = 0

section
variable {o : KernelOptions} {k k' : Kernel} {t g : ℕ} {input : KernelInput} {gen gen' : Generation}

theorem Accounted.updating_of_changes {task : Reconcile} (h : Accounted k)
    (htask : k.tasks t = some task) (hg : task.pc.changes = some g) : k.updating g := by
  simp only [Kernel.updating, List.any_eq_true, List.mem_range, Option.any_eq_true, beq_iff_eq]
  exact ⟨t, h.task_lt htask, task, htask, hg⟩

theorem Accounted.references_ne_zero (h : Accounted k) (hgen : k.generations g = some gen)
    (hlease : ⟨g, false⟩ ∈ k.leases) : gen.references ≠ 0 := by
  rw [h.counted g gen hgen]
  exact Nat.ne_of_gt (List.count_pos_iff.mpr hlease)

theorem Effect.unleased {generations generations' : ℕ → Option Generation} {active active' : Option ℕ}
    {pc pc' : Pc} (h : Effect generations active t pc generations' active' pc')
    (hchanges : ∀ g, pc.changes = some g → ∃ gen, generations g = some gen ∧ gen.references = 0) :
    ∀ g, pc'.changes = some g → ∃ gen, generations' g = some gen ∧ gen.references = 0 := by
  intro g hg
  cases h with
  | rest hpc' => simp [hpc'.2.2] at hg
  | @update g' ordered upc gen gen' _ hpc hgen hcount _ hpc' =>
    obtain hpc' | ⟨hchanging, -, -, hg'⟩ := hpc'
    · simp [hpc'.2.2] at hg
    · cases hg.symm.trans hg'
      obtain ⟨gen₀, hgen₀, hreferences⟩ := hchanges g (by simp [hpc, Pc.changes, hchanging])
      cases hgen.symm.trans hgen₀
      exact ⟨gen', Function.update_self .., hcount.1.trans hreferences⟩
  | prepare _ _ _ hpc' => simp [hpc'] at hg
  | discard _ hpc' => simp [hpc'.2.2] at hg
  | activate | activated => simp [Pc.changes] at hg
  | drain _ _ hpc' => simp [hpc'.2.2] at hg

theorem Following.unleased {generations generations' : ℕ → Option Generation}
    (h : Following t generations generations')
    (hgen : ∃ gen, generations g = some gen ∧ gen.references = 0) :
    ∃ gen, generations' g = some gen ∧ gen.references = 0 := by
  obtain ⟨gen, hgen, hreferences⟩ := hgen
  obtain ⟨gen', hgen', hf⟩ := (h g).2 gen hgen
  exact ⟨gen', hgen', hf.references.trans hreferences⟩

theorem unleased_advance {graph : PluginGraph} {pc : Pc} (h : Accounted k) (hu : Unleased k)
    (htask : k.tasks t = some ⟨graph, pc⟩) (hk' : k.Advanced t graph pc k') : Unleased k' := by
  obtain ⟨pc', heffect, htasks, -, -⟩ := hk'
  intro t' task' g htask' hg
  rw [htasks] at htask'
  by_cases ht' : t' = t
  · subst ht'
    rw [Function.update_self] at htask'
    cases htask'
    exact heffect.unleased (hu t' _ · htask) g hg
  · rw [Function.update_of_ne ht'] at htask'
    exact (heffect.following h.coherent (h.placed t _ htask)).unleased (hu t' task' g htask' hg)

theorem Kernel.Begun.unleased {graph : PluginGraph} {generations : ℕ → Option Generation} {pc : Pc}
    (h : Kernel.Begun o k graph generations pc) (hfresh : k.generations k.nextTask = none)
    (hgen : pc.changes = some g ∨ ∃ gen, k.generations g = some gen ∧ gen.references = 0) :
    ∃ gen, generations g = some gen ∧ gen.references = 0 := by
  cases h with
  | rest hpc => simpa [hpc.2.2] using hgen
  | candidate _ _ _ hpc =>
    obtain ⟨gen, hgen, hreferences⟩ : ∃ gen, k.generations g = some gen ∧ gen.references = 0 := by
      simpa [hpc] using hgen
    have hne : g ≠ k.nextTask := by
      rintro rfl
      simp [hfresh] at hgen
    exact ⟨gen, (Function.update_of_ne hne ..).trans hgen, hreferences⟩
  | @update g' gen₀ gen' pc hg' hgen₀ hreferences hcount hpc =>
    by_cases hg : g = g'
    · subst hg
      exact ⟨gen', Function.update_self .., hcount.1.trans hreferences⟩
    · rw [Function.update_of_ne hg]
      obtain hpc' | hgen := hgen
      · obtain hpc | ⟨-, -, hpc⟩ := hpc
        · simp [hpc.2.2] at hpc'
        · exact absurd (Option.some.inj (hpc'.symm.trans hpc)) hg
      · exact hgen

theorem unleased_reconcile {graph : PluginGraph} (h : Accounted k) (hu : Unleased k)
    (hk' : k.Started o graph k') : Unleased k' := by
  obtain ⟨pc', hbegun, -, htasks, -, -⟩ := hk'
  have hfresh := h.freshGeneration k.nextTask (Nat.le_refl _)
  intro t' task' g htask' hg
  rw [htasks] at htask'
  by_cases ht' : t' = k.nextTask
  · subst ht'
    rw [Function.update_self] at htask'
    cases htask'
    exact hbegun.unleased hfresh (.inl hg)
  · rw [Function.update_of_ne ht'] at htask'
    exact hbegun.unleased hfresh (.inr (hu t' task' g htask' hg))

theorem unleased_set (leases : List Lease) (hu : Unleased k)
    (h : ∀ t task, k.tasks t = some task → task.pc.changes = some g → gen'.references = 0) :
    Unleased { k.setGeneration g gen' with leases } := by
  intro t task g' htask hg'
  by_cases hg : g' = g
  · subst hg
    exact ⟨gen', Kernel.setGeneration_self .., h t task htask hg'⟩
  · obtain ⟨gen₀, hgen₀, hreferences⟩ := hu t task g' htask hg'
    exact ⟨gen₀, (Kernel.setGeneration_of_ne hg ..).trans hgen₀, hreferences⟩

theorem unleased_step (h : Accounted k) (hu : Unleased k) (hguard : undisturbed k input)
    (hk' : kernelStep o k input = some k') : Unleased k' := by
  cases input with
  | reconcile graph =>
    cases hk'
    exact unleased_reconcile h hu Kernel.reconcile_started
  | advance t await =>
    obtain ⟨task, htask, hk'⟩ := Option.bind_eq_some_iff.mp hk'
    exact unleased_advance h hu htask (Kernel.advance_advanced hk')
  | dispose g await =>
    obtain ⟨gen, hgen, hk'⟩ := Option.bind_eq_some_iff.mp hk'
    obtain ⟨gen', log, rfl, hstarted, -, hreferences, -⟩ := Accounted.disposeStep_cases hk'
    refine unleased_set (k := { k with log }) k.leases hu fun t task htask hg => ?_
    exact hreferences.trans ((h.coherent g gen hgen).started hstarted).1
  | beginTurn =>
    obtain ⟨g, gen, gen', hg, -, -, -, rfl⟩ := h.beginTurn_cases hk'
    refine unleased_set _ hu fun t task htask hchanges => ?_
    have hupdating := h.updating_of_changes htask hchanges
    simp [hguard g hg] at hupdating
  | release l =>
    obtain ⟨lease, hlease, ⟨-, rfl⟩ | ⟨hreleased, gen, hgen, rfl⟩⟩ := Accounted.release_cases hk'
    · exact hu
    refine unleased_set _ hu fun t task htask hg => ?_
    -- the lease that is given back is still out here
    obtain ⟨gen₀, hgen₀, hreferences⟩ := hu t task _ htask hg
    refine absurd hreferences (h.references_ne_zero hgen₀ ?_)
    exact hreleased ▸ List.mem_of_getElem? hlease

section Observed
variable {generations generations' : ℕ → Option Generation} {active active' : Option ℕ}
  {pc pc' : Pc}

theorem Generation.observed_drain (h : gen.references ≠ 0) : gen.drain.observed = gen.observed := by
  unfold drain
  split
  · rfl
  · simp only
    split <;> rfl

theorem Generation.observed_release (h : gen.release.references ≠ 0) :
    gen.release.observed = gen.observed := by
  unfold release at h ⊢
  split
  · rfl
  next hne =>
  rw [if_neg hne] at h
  simp only at h ⊢
  split
  · next hzero =>
    rw [if_pos hzero, dispose_references] at h
    exact absurd hzero.1 h
  · rfl

theorem Generation.observed_acquire (h : gen.acquire = some gen') :
    gen'.observed = gen.observed := by
  unfold acquire at h
  split at h <;> cases h
  rfl

/-- An await of a call leaves a generation with leases as it is for their holders. -/
theorem Effect.observed (h : Effect generations active t pc generations' active' pc')
    (hcoherent : ∀ g gen, generations g = some gen → gen.Coherent)
    (hplaced : Placed generations active t pc)
    (hchanges : ∀ g, pc.changes = some g → ∃ gen, generations g = some gen ∧ gen.references = 0)
    (hgen : generations g = some gen) (hreferences : gen.references ≠ 0) :
    ∃ gen', generations' g = some gen' ∧ gen'.observed = gen.observed := by
  have hother : ∀ {g' : ℕ} {gen' : Generation}, g ≠ g' →
      ∃ gen'', Function.update generations g' (some gen') g = some gen'' ∧
        gen''.observed = gen.observed := fun hne =>
    ⟨gen, (Function.update_of_ne hne ..).trans hgen, rfl⟩
  have hunprepared : pc.preparing → g ≠ t := by
    rintro hpc rfl
    obtain ⟨gen₀, hgen₀, hstate⟩ := hplaced.preparing hpc
    cases hgen.symm.trans hgen₀
    have hc := hcoherent g gen hgen
    simp only [Generation.Coherent, hstate] at hc
    exact hreferences hc.1
  cases h with
  | rest => exact ⟨gen, hgen, rfl⟩
  | @update g' ordered upc gen₀ gen' _ hpc hgen₀ hcount hobserved _ =>
    by_cases hg : g = g'
    · subst hg
      cases hgen.symm.trans hgen₀
      refine ⟨gen', Function.update_self .., hobserved ?_⟩
      by_contra hchanging
      obtain ⟨gen₁, hgen₁, hzero⟩ := hchanges g (by simp [hpc, Pc.changes, hchanging])
      cases hgen.symm.trans hgen₁
      exact hreferences hzero
    · exact hother hg
  | prepare hpc => exact hother (hunprepared hpc)
  | discard hpc => exact hother (hunprepared hpc)
  | activate hpc =>
    subst hpc
    exact hother (hunprepared rfl)
  | activated => exact ⟨gen, hgen, rfl⟩
  | @drain p gen₀ _ hpc hgen₀ =>
    by_cases hg : g = p
    · subst hg
      cases hgen.symm.trans hgen₀
      exact ⟨_, Function.update_self .., Generation.observed_drain hreferences⟩
    · exact hother hg

theorem Kernel.Begun.observed {graph : PluginGraph} (h : Kernel.Begun o k graph generations pc)
    (hfresh : k.generations k.nextTask = none) (hgen : k.generations g = some gen)
    (hreferences : gen.references ≠ 0) :
    ∃ gen', generations g = some gen' ∧ gen'.observed = gen.observed := by
  have hother : ∀ {g' : ℕ} {gen' : Generation}, g ≠ g' →
      ∃ gen'', Function.update k.generations g' (some gen') g = some gen'' ∧
        gen''.observed = gen.observed := fun hne =>
    ⟨gen, (Function.update_of_ne hne ..).trans hgen, rfl⟩
  cases h with
  | rest => exact ⟨gen, hgen, rfl⟩
  | candidate =>
    refine hother ?_
    rintro rfl
    simp [hfresh] at hgen
  | update hg' hgen₀ hzero =>
    refine hother ?_
    rintro rfl
    cases hgen.symm.trans hgen₀
    exact hreferences hzero

end Observed

theorem observed_step (h : Accounted k) (hu : Unleased k) (hk' : kernelStep o k input = some k')
    (hgen : k.generations g = some gen) (hlease : ⟨g, false⟩ ∈ k.leases)
    (hlease' : ⟨g, false⟩ ∈ k'.leases) :
    ∃ gen', k'.generations g = some gen' ∧ gen'.observed = gen.observed := by
  have hreferences := h.references_ne_zero hgen hlease
  have hset : ∀ {g' : ℕ} {gen₁ : Generation} {k₁ : Kernel}, k₁.generations = k.generations →
      (g = g' → gen₁.observed = gen.observed) →
      ∃ gen', (k₁.setGeneration g' gen₁).generations g = some gen' ∧
        gen'.observed = gen.observed := by
    intro g' gen₁ k₁ hk₁ hobserved
    by_cases hg : g = g'
    · subst hg
      exact ⟨gen₁, Kernel.setGeneration_self .., hobserved rfl⟩
    · refine ⟨gen, ?_, rfl⟩
      rw [Kernel.setGeneration_of_ne hg, hk₁, hgen]
  cases input with
  | reconcile graph =>
    cases hk'
    obtain ⟨pc', hbegun, -⟩ : k.Started o graph _ := Kernel.reconcile_started
    exact hbegun.observed (h.freshGeneration _ (Nat.le_refl _)) hgen hreferences
  | advance t await =>
    obtain ⟨task, htask, hk'⟩ := Option.bind_eq_some_iff.mp hk'
    obtain ⟨pc', heffect, -⟩ := Kernel.advance_advanced hk'
    exact heffect.observed h.coherent (h.placed t _ htask) (hu t _ · htask) hgen hreferences
  | dispose g' await =>
    obtain ⟨gen₀, hgen₀, hk'⟩ := Option.bind_eq_some_iff.mp hk'
    obtain ⟨gen', log, rfl, hstarted, -⟩ := Accounted.disposeStep_cases hk'
    refine hset rfl ?_
    rintro rfl
    cases hgen.symm.trans hgen₀
    exact absurd ((h.coherent g gen hgen).started hstarted).1 hreferences
  | beginTurn =>
    obtain ⟨g', gen₀, gen', hg', hgen₀, -, hgen', rfl⟩ := h.beginTurn_cases hk'
    refine hset rfl ?_
    rintro rfl
    cases hgen.symm.trans hgen₀
    exact Generation.observed_acquire hgen'
  | release l =>
    have hafter : ∀ gen', k'.generations g = some gen' → gen'.references ≠ 0 := fun gen' hgen' =>
      (h.step hk').references_ne_zero hgen' hlease'
    obtain ⟨lease, hl, ⟨-, rfl⟩ | ⟨hreleased, gen₀, hgen₀, rfl⟩⟩ := Accounted.release_cases hk'
    · exact ⟨gen, hgen, rfl⟩
    refine hset rfl ?_
    rintro rfl
    cases hgen.symm.trans hgen₀
    exact Generation.observed_release (hafter _ (Kernel.setGeneration_self ..))

theorem leases_step {l : ℕ} {released : Bool} (h : Accounted k)
    (hk' : kernelStep o k input = some k') (hl : k.leases[l]? = some ⟨g, released⟩) :
    ∃ released', k'.leases[l]? = some ⟨g, released'⟩ ∧ (released → released') := by
  by_cases hinput : input = .release l
  · subst hinput
    obtain ⟨lease, hlease, ⟨-, rfl⟩ | ⟨-, gen₀, hgen₀, rfl⟩⟩ := Accounted.release_cases hk'
    · exact ⟨released, hl, id⟩
    · cases hl.symm.trans hlease
      exact ⟨true, List.getElem?_set_self (List.getElem?_eq_some_iff.mp hl).1, fun _ => rfl⟩
  · exact ⟨released, h.leases_kept hk' hinput hl, id⟩

theorem unleased_reaches {log : List StructureEvent}
    (hk : (kernel o).Reaches undisturbed (.initial log) k) : Unleased k :=
  hk.invariant₂ (fun _ h => (Accounted.initial log).reaches h) (fun _ _ _ h => nomatch h)
    fun _ _ _ h hu hg hs => unleased_step h hu hg hs

/-- A generation stands still under every lease on it, over every run in which no turn begins on
a generation that a live update is changing. -/
theorem lease_pins_generation {log : List StructureEvent} {l : ℕ}
    (hk : (kernel o).Reaches undisturbed (.initial log) k) (hr : (kernel o).Reaches undisturbed k k')
    (hl : k.leases[l]? = some ⟨g, false⟩) (hl' : k'.leases[l]? = some ⟨g, false⟩) :
    ∃ gen gen', k.generations g = some gen ∧ k'.generations g = some gen' ∧
      gen'.observed = gen.observed := by
  have haccounted : ∀ k', (kernel o).Reaches undisturbed k k' → Accounted k' := fun _ hr =>
    (Accounted.initial log).reaches (hk.trans hr)
  obtain ⟨gen, hgen⟩ := (haccounted k .refl).leased _ (List.mem_of_getElem? hl)
  -- as long as the lease is out, its generation is what it was
  have hrun : ∃ released, k'.leases[l]? = some ⟨g, released⟩ ∧ (released = false →
      ∃ gen', k'.generations g = some gen' ∧ gen'.observed = gen.observed) := by
    clear hl'
    induction hr with
    | refl => exact ⟨false, hl, fun _ => ⟨gen, hgen, rfl⟩⟩
    | @tail k₁ k₂ hr hs ih =>
      obtain ⟨input, hguard, hs⟩ := hs
      obtain ⟨released, hl₁, ih⟩ := ih
      obtain ⟨released', hl₂, hreleased⟩ := leases_step (haccounted k₁ hr) hs hl₁
      refine ⟨released', hl₂, fun hout => ?_⟩
      subst hout
      have hout₁ : released = false := by simpa using hreleased
      subst hout₁
      obtain ⟨gen₁, hgen₁, hobserved₁⟩ := ih rfl
      obtain ⟨gen₂, hgen₂, hobserved₂⟩ := observed_step (haccounted k₁ hr)
        (unleased_reaches (hk.trans hr)) hs hgen₁ (List.mem_of_getElem? hl₁)
        (List.mem_of_getElem? hl₂)
      exact ⟨gen₂, hgen₂, hobserved₂.trans hobserved₁⟩
  obtain ⟨released, hl₁, hrun⟩ := hrun
  cases hl'.symm.trans hl₁
  obtain ⟨gen', hgen', hobserved⟩ := hrun rfl
  exact ⟨gen, gen', hgen, hgen', hobserved⟩

end

section Sample

def sampleOptions : KernelOptions := { sha256 := id }

/-- One plugin of tier a, which takes a new configuration in place. -/
def sampleGraph (structureVersion config : String) : PluginGraph :=
  { structureVersion
    plugins := [{ id := "p", version := "1", config := some (.string config),
                  replacementTier := some .a }] }

def activateFirst : List KernelInput :=
  [.reconcile (sampleGraph "1" "x"), .advance 0 .ok, .advance 0 .ok, .advance 0 .ok, .advance 0 .ok]

def turnAmidUpdate : List KernelInput :=
  activateFirst ++ [.reconcile (sampleGraph "2" "y"), .beginTurn]

def commitUpdateInputs : List KernelInput :=
  [.advance 1 .ok, .advance 1 .ok, .advance 1 .ok]

/-- Lease 0 is out on generation 0, and these are the versions of that generation. -/
def heldVersions (k k' : Kernel) : Option (String × String) :=
  if k.leases[0]? = some ⟨0, false⟩ ∧ k'.leases[0]? = some ⟨0, false⟩ then
    match k.generations 0, k'.generations 0 with
    | some gen, some gen' => some (gen.structureVersion, gen'.structureVersion)
    | _, _ => none
  else none

theorem heldVersions_cases {k k' : Kernel} {v v' : String} (h : heldVersions k k' = some (v, v')) :
    k.leases[0]? = some ⟨0, false⟩ ∧ k'.leases[0]? = some ⟨0, false⟩ ∧
      (k.generations 0).map Generation.structureVersion = some v ∧
      (k'.generations 0).map Generation.structureVersion = some v' := by
  unfold heldVersions at h
  split at h
  · next hheld =>
    split at h <;> cases h
    next hgen hgen' =>
    exact ⟨hheld.1, hheld.2, by simp [hgen], by simp [hgen']⟩
  · cases h

/-- The turn that begins amid the live update sees its generation change. -/
theorem live_update_under_lease :
    ∃ k k' gen gen', (kernel sampleOptions).Reaches anyStep (.initial []) k ∧
      (kernel sampleOptions).Reaches anyStep k k' ∧ k.leases[0]? = some ⟨0, false⟩ ∧
      k'.leases[0]? = some ⟨0, false⟩ ∧ k.generations 0 = some gen ∧
      k'.generations 0 = some gen' ∧ gen'.observed ≠ gen.observed := by
  have hrun : ((kernel sampleOptions).exec (.initial []) turnAmidUpdate).any (fun k =>
      ((kernel sampleOptions).exec k commitUpdateInputs).any fun k' =>
        heldVersions k k' == some ("1", "2")) = true := by decide +kernel
  obtain ⟨k, hk, hrun⟩ := (Option.any_eq_true ..).mp hrun
  obtain ⟨k', hk', hrun⟩ := (Option.any_eq_true ..).mp hrun
  obtain ⟨hl, hl', hv, hv'⟩ := heldVersions_cases (beq_iff_eq.mp hrun)
  obtain ⟨gen, hgen, hv⟩ := Option.map_eq_some_iff.mp hv
  obtain ⟨gen', hgen', hv'⟩ := Option.map_eq_some_iff.mp hv'
  refine ⟨k, k', gen, gen', exec_reaches _ (guarded_anyStep _) hk,
    exec_reaches _ (guarded_anyStep _) hk', hl, hl', hgen, hgen', fun heq => ?_⟩
  have hversions := congrArg Prod.fst heq
  simp [Generation.observed, hv, hv'] at hversions

/-- The guard of a run, as a check. -/
def undisturbedCheck (k : Kernel) : KernelInput → Bool
  | .beginTurn => k.active.all fun g => !k.updating g
  | _ => true

theorem undisturbed_of_check (k : Kernel) (input : KernelInput) (h : undisturbedCheck k input) :
    undisturbed k input := by
  cases input with
  | beginTurn =>
    intro g hg
    simpa [undisturbedCheck, hg] using h
  | _ => trivial

/-- With a turn out, the same change builds a generation of its own. -/
theorem lease_pins_generation_sample :
    ∃ k k' gen gen', (kernel sampleOptions).Reaches undisturbed k k' ∧
      k.generations 0 = some gen ∧ k'.generations 0 = some gen' ∧ gen'.observed = gen.observed := by
  have hrun : ((kernel sampleOptions).exec (.initial []) (activateFirst ++ [.beginTurn])).any
      (fun k => ((kernel sampleOptions).exec k
          [.reconcile (sampleGraph "2" "y"), .advance 1 .ok, .advance 1 .ok, .advance 1 .ok]).any
        fun k' => heldVersions k k' == some ("1", "1") &&
          (kernel sampleOptions).allSteps undisturbedCheck (.initial [])
            (activateFirst ++ [.beginTurn]) &&
          (kernel sampleOptions).allSteps undisturbedCheck k
            [.reconcile (sampleGraph "2" "y"), .advance 1 .ok, .advance 1 .ok, .advance 1 .ok]) =
      true := by decide +kernel
  obtain ⟨k, hk, hrun⟩ := (Option.any_eq_true ..).mp hrun
  obtain ⟨k', hk', hrun⟩ := (Option.any_eq_true ..).mp hrun
  simp only [Bool.and_eq_true, beq_iff_eq] at hrun
  obtain ⟨⟨hheld, hguard⟩, hguard'⟩ := hrun
  obtain ⟨hl, hl', -⟩ := heldVersions_cases hheld
  have hreaches := exec_reaches _ (guarded_of_allSteps undisturbed_of_check _ hguard) hk
  have hreaches' := exec_reaches _ (guarded_of_allSteps undisturbed_of_check _ hguard') hk'
  obtain ⟨gen, gen', hgen, hgen', hobserved⟩ := lease_pins_generation hreaches hreaches' hl hl'
  exact ⟨k, k', gen, gen', hreaches', hgen, hgen', hobserved⟩

end Sample

end BeeAgent.Structure
