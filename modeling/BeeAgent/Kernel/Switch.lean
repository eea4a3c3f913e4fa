import BeeAgent.Kernel.StructureReconciler

/-! What holds at each point of the one call of the kernel that is under way, beside turns that
begin, leases that are released and disposals that go on. -/
namespace BeeAgent.Structure
open Transition Machine

section Log
variable {log : List StructureEvent} {event : StructureEvent} {digest : String}

def Resolved (log : List StructureEvent) (digest : String) : Prop :=
  ∃ structure_, .resolved structure_ ∈ log ∧ structure_.digest = digest

def Recorded (log : List StructureEvent) (digest : String) : Prop :=
  activeDigest? log = some digest ∧ Resolved log digest

theorem Resolved.append (h : Resolved log digest) (events : List StructureEvent) :
    Resolved (log ++ events) digest := by
  obtain ⟨structure_, hmem, hdigest⟩ := h
  exact ⟨structure_, List.mem_append_left _ hmem, hdigest⟩

theorem activeDigest?_append_none (h : event.activeDigest? = none) :
    activeDigest? (log ++ [event]) = activeDigest? log := by
  simp [activeDigest?, h]

theorem activeDigest?_append_some (h : event.activeDigest? = some digest) :
    activeDigest? (log ++ [event]) = some digest := by
  simp [activeDigest?, h]

theorem Recorded.append (h : Recorded log digest) (hevent : event.activeDigest? = none) :
    Recorded (log ++ [event]) digest :=
  ⟨(activeDigest?_append_none hevent).trans h.1, h.2.append _⟩

theorem Resolved.recorded (h : Resolved log digest) (hevent : event.activeDigest? = some digest) :
    Recorded (log ++ [event]) digest :=
  ⟨activeDigest?_append_some hevent, h.append _⟩

theorem Recorded.readActiveStructure (h : Recorded log digest) :
    ∃ structure_, readActiveStructure log = .ok (some structure_) ∧ structure_.digest = digest := by
  obtain ⟨hactive, structure_, hmem, hdigest⟩ := h
  simp only [Structure.readActiveStructure, hactive]
  cases hfind : (log.filterMap StructureEvent.resolved?).reverse.find? (·.digest == digest) with
  | none =>
    have hnone := List.find?_eq_none.mp hfind structure_
      (List.mem_reverse.mpr (List.mem_filterMap.mpr ⟨_, hmem, rfl⟩))
    simp [hdigest] at hnone
  | some found =>
    exact ⟨found, rfl, by simpa using List.find?_some hfind⟩

theorem resolved_appendResolvedStructure (log : List StructureEvent)
    (structure_ : EffectiveStructure) :
    Resolved (appendResolvedStructure log structure_) structure_.digest := by
  have hnew : Resolved (log ++ [.resolved structure_]) structure_.digest :=
    ⟨structure_, List.mem_append_right _ (List.mem_singleton.mpr rfl), rfl⟩
  unfold appendResolvedStructure
  split
  · next latest hlatest =>
    split
    · next hdigest =>
      obtain ⟨event, hmem, hevent⟩ := List.mem_filterMap.mp (List.mem_of_getLast? hlatest)
      cases event with
      | resolved found =>
        cases hevent
        exact ⟨latest, hmem, hdigest⟩
      | lifecycle => cases hevent
    · exact hnew
  · exact hnew

theorem recorded_appendResolvedStructure (h : Recorded log digest)
    (structure_ : EffectiveStructure) :
    Recorded (appendResolvedStructure log structure_) digest := by
  unfold appendResolvedStructure
  split
  · split
    · exact h
    · exact h.append rfl
  · exact h.append rfl

end Log

def Kernel.HasVersion (k : Kernel) (g : ℕ) (version : String) : Prop :=
  ∃ gen, k.generations g = some gen ∧ gen.structureVersion = version

/-- The generation of the attempt's beginning is the active one, and so the log says. -/
def Unswitched (before : Option (ℕ × String)) (k : Kernel) : Prop :=
  k.active = before.map Prod.fst ∧
    ∀ g version, before = some (g, version) → k.HasVersion g version ∧ Recorded k.log version

def Switched (t : ℕ) (digest : String) (k : Kernel) : Prop :=
  k.active = some t ∧ k.HasVersion t digest

def Disposal.over : Disposal → Bool
  | .emitting _ | .done _ => true
  | _ => false

/-- A generation on its way out: once its fibers are gone, it counts as disposed. -/
def Generation.Ended (gen : Generation) : Prop :=
  (gen.state = .failed ∨ gen.state = .disposed) ∧ (gen.disposal.over → gen.state = .disposed)

namespace Generation
variable {gen : Generation}

theorem dispose_structureVersion (gen : Generation) :
    gen.dispose.structureVersion = gen.structureVersion := by
  unfold dispose disposeOn
  split
  · split <;> rfl
  · rfl

theorem drain_structureVersion (gen : Generation) :
    gen.drain.structureVersion = gen.structureVersion := by
  unfold drain
  split
  · rfl
  simp only
  split
  · split
    · exact dispose_structureVersion _
    · rfl
  · split
    · exact dispose_structureVersion _
    · rfl

theorem ended_disposeOn (hstate : gen.state = .failed ∨ gen.state = .disposed)
    (remaining : List MountedPlugin) (failures : List String) :
    (gen.disposeOn remaining failures).Ended := by
  cases remaining with
  | nil => exact ⟨.inr rfl, fun _ => rfl⟩
  | cons m remaining => exact ⟨hstate, fun hover => by simp [disposeOn, Disposal.over] at hover⟩

theorem ended_dispose (hdisposal : gen.disposal.started = false) (hstate : gen.state = .failed) :
    gen.dispose.Ended := by
  unfold dispose
  split
  · exact ended_disposeOn (.inl hstate) _ _
  · next hne =>
    cases hd : gen.disposal with
    | idle => exact absurd hd hne
    | _ => simp [hd, Disposal.started] at hdisposal

theorem drain_of_active (hstate : gen.state = .active) :
    gen.drain.state = .draining ∨ gen.drain.state = .disposed := by
  unfold drain
  rw [if_neg (by simp [hstate])]
  simp only [hstate, if_true]
  split
  · obtain hs | hs := dispose_state { gen with state := .draining }
    · exact .inl hs
    · exact .inr hs
  · exact .inl rfl

end Generation

theorem over_of_disposalError {disposal : Disposal} {disposed : Option KernelError}
    (h : Kernel.disposalError? disposal = some disposed) : disposal.over := by
  unfold Kernel.disposalError? at h
  split at h <;> first | rfl | cases h

/-- The candidate is still being prepared, and these plugins are not mounted yet. -/
def Kernel.Preparing (k : Kernel) (t : ℕ) (digest : String) (remaining : List RuntimePlugin) : Prop :=
  ∃ gen, k.generations t = some gen ∧ gen.state = .preparing ∧ gen.structureVersion = digest ∧
    gen.mounted.map MountedPlugin.spec ++ remaining = gen.plugins

/-- A candidate that is not disposed has all its plugins. -/
def Kernel.Discarded (k : Kernel) (t : ℕ) : Prop :=
  ∀ gen, k.generations t = some gen → gen.state = .disposed ∨
    gen.state = .preparing ∧ gen.mounted.map MountedPlugin.spec = gen.plugins

def Kernel.Replaced (k : Kernel) (p : ℕ) : Prop :=
  ∃ gen, k.generations p = some gen ∧ gen.state = .active

def Kernel.Drained (k : Kernel) (p : ℕ) : Prop :=
  ∃ gen, k.generations p = some gen ∧ (gen.state = .draining ∨ gen.state = .disposed)

/-- What holds at each point of the one call of the kernel that is under way. -/
def Stands (before : Option (ℕ × String)) (t : ℕ) (digest : String) (k : Kernel) : Pc → Prop
  | .announcing _ _ | .updateFailed _ _ => Unswitched before k ∧ k.generations t = none
  | .updating g _ _ => Unswitched before k ∧ k.generations t = none ∧ k.active = some g
  | .updated g => before.map Prod.fst = some g ∧ Switched g digest k
  | .activating remaining | .probing remaining =>
    Unswitched before k ∧ k.Preparing t digest remaining
  | .prepared => Unswitched before k ∧ k.Preparing t digest []
  | .discarding _ =>
    Unswitched before k ∧ ∃ gen, k.generations t = some gen ∧ gen.Ended
  | .failing _ => Unswitched before k ∧ k.Discarded t
  | .activated previous =>
    previous = before.map Prod.fst ∧ Switched t digest k ∧ ∀ p, previous = some p → k.Replaced p
  | .draining p =>
    before.map Prod.fst = some p ∧ Switched t digest k ∧ Recorded k.log digest ∧ k.Replaced p
  | .drained p =>
    before.map Prod.fst = some p ∧ Switched t digest k ∧ Recorded k.log digest ∧ k.Drained p
  | .settled (.error _) => Unswitched before k ∧ k.Discarded t
  | .settled (.ok (.activated t' previous)) =>
    t' = t ∧ previous = before.map Prod.fst ∧ Switched t digest k ∧ Recorded k.log digest ∧
      ∀ p, previous = some p → k.Drained p
  | .settled (.ok (.unchanged g)) => Unswitched before k ∧ before = some (g, digest)
  | .settled (.ok (.updated g)) =>
    before.map Prod.fst = some g ∧ Switched g digest k ∧ Recorded k.log digest
  | .settled (.ok (.restartRequired _)) => Unswitched before k

section Transport
variable {o : KernelOptions} {k k' : Kernel} {before : Option (ℕ × String)} {t g : ℕ}
  {digest version : String} {gen gen' : Generation}

theorem Kernel.HasVersion.set (h : k.HasVersion g version) {h' : ℕ}
    (hgen : k.generations h' = some gen) (hversion : gen'.structureVersion = gen.structureVersion) :
    (k.setGeneration h' gen').HasVersion g version := by
  obtain ⟨gen₀, hgen₀, hversion₀⟩ := h
  by_cases hg : g = h'
  · subst hg
    cases hgen.symm.trans hgen₀
    exact ⟨gen', Kernel.setGeneration_self .., hversion.trans hversion₀⟩
  · exact ⟨gen₀, (Kernel.setGeneration_of_ne hg ..).trans hgen₀, hversion₀⟩

theorem Unswitched.transport (h : Unswitched before k) (hactive : k'.active = k.active)
    (hversion : ∀ g version, k.HasVersion g version → k'.HasVersion g version)
    (hlog : ∀ digest, Recorded k.log digest → Recorded k'.log digest) : Unswitched before k' :=
  ⟨hactive.trans h.1, fun g version hbefore =>
    ⟨hversion g version (h.2 g version hbefore).1, hlog version (h.2 g version hbefore).2⟩⟩

theorem Unswitched.set (h : Unswitched before k) (hgen : k.generations g = some gen)
    (hversion : gen'.structureVersion = gen.structureVersion) :
    Unswitched before (k.setGeneration g gen') :=
  h.transport rfl (fun _ _ hg => hg.set hgen hversion) fun _ => id

theorem Unswitched.log {event : StructureEvent} (h : Unswitched before k)
    (hevent : event.activeDigest? = none) :
    Unswitched before ({ k with log := k.log ++ [event] } : Kernel) :=
  h.transport rfl (fun _ _ => id) fun _ hrecorded => hrecorded.append hevent

theorem Unswitched.emit {event : KernelLifecycleEvent} {await : Await}
    {result : Except KernelError Unit} (h : Unswitched before k)
    (hevent : (StructureEvent.lifecycle event).activeDigest? = none)
    (hk' : k.emit event await = some (k', result)) : Unswitched before k' := by
  obtain ⟨rfl | rfl, -⟩ := Kernel.emit_log hk'
  · exact h
  · exact h.log hevent

end Transport

section Update
variable {sha256 : String → String} {graph : PluginGraph} {ordered : List RuntimePlugin}
  {gen gen' : Generation}

/-- A live update gives the generation the new version at its end and not before. -/
def UpdateNext.Versioned (graph : PluginGraph) (gen : Generation) : UpdateNext → Prop
  | .goto gen' _ | .failed gen' _ => gen'.structureVersion = gen.structureVersion
  | .commit gen' => gen'.structureVersion = graph.structureVersion

theorem settleFrom_versioned (h : gen'.structureVersion = gen.structureVersion) (index : ℕ)
    (updated : List (ℕ × RuntimePlugin)) :
    (settleFrom sha256 graph ordered gen' index updated).Versioned graph gen := by
  unfold settleFrom
  split
  · exact h
  · rfl

theorem updateFrom_versioned (h : gen'.structureVersion = gen.structureVersion) (index : ℕ)
    (updated : List (ℕ × RuntimePlugin)) :
    (updateFrom sha256 graph ordered gen' index updated).Versioned graph gen := by
  unfold updateFrom
  split
  · exact h
  · exact settleFrom_versioned h 0 updated

theorem resettleFrom_versioned (h : gen'.structureVersion = gen.structureVersion) (index : ℕ)
    (error : KernelError) (failures : List String) :
    (resettleFrom gen' index error failures).Versioned graph gen := by
  unfold resettleFrom
  split <;> exact h

theorem rollBack_versioned (h : gen'.structureVersion = gen.structureVersion)
    (remaining : List (ℕ × RuntimePlugin)) (error : KernelError) (failures : List String) :
    (rollBack gen' remaining error failures).Versioned graph gen := by
  unfold rollBack
  split
  · exact resettleFrom_versioned h 0 error failures
  · exact h

theorem updateStep_versioned {pc : UpdatePc} {await : Await} {next : UpdateNext}
    (h : updateStep sha256 graph ordered gen pc await = some next) : next.Versioned graph gen := by
  unfold updateStep at h
  split at h <;> cases h
  · -- a fiber has taken its new configuration
    apply updateFrom_versioned
    split <;> rfl
  · exact rfl
  · exact settleFrom_versioned rfl ..
  · exact rollBack_versioned rfl ..
  · exact rollBack_versioned rfl ..
  · exact rollBack_versioned rfl ..
  · exact rollBack_versioned rfl ..
  · exact rollBack_versioned rfl ..
  · exact rollBack_versioned rfl ..
  · exact resettleFrom_versioned rfl ..
  · exact resettleFrom_versioned rfl ..

end Update

namespace Kernel
variable {o : KernelOptions} {k k' : Kernel} {before : Option (ℕ × String)} {t g : ℕ}
  {digest : String} {graph : PluginGraph} {gen : Generation}

/-- The call of the kernel stands somewhere it may stand. -/
def CallStands (before : Option (ℕ × String)) (t : ℕ) (digest : String) (k : Kernel) : Prop :=
  ∃ task, k.tasks t = some task ∧ task.graph.structureVersion = digest ∧
    Stands before t digest k task.pc

theorem callStands_setPc {pc : Pc} (hgraph : graph.structureVersion = digest)
    (h : Stands before t digest (k.setPc t graph pc) pc) :
    CallStands before t digest (k.setPc t graph pc) :=
  ⟨⟨graph, pc⟩, Function.update_self .., hgraph, h⟩

theorem updateOn_stands {ordered : List RuntimePlugin} {next : UpdateNext}
    (hgraph : graph.structureVersion = digest) (h : Unswitched before k) (hg : k.active = some g)
    (ht : k.generations t = none) (hgen : k.generations g = some gen)
    (hnext : next.Versioned graph gen) :
    CallStands before t digest (k.updateOn t graph g ordered next) := by
  have hne : t ≠ g := by
    rintro rfl
    cases hgen.symm.trans ht
  have hnone : ∀ gen', (k.setGeneration g gen').generations t = none := fun gen' =>
    (setGeneration_of_ne hne ..).trans ht
  cases next with
  | goto gen' pc =>
    exact callStands_setPc hgraph ⟨h.set hgen hnext, hnone gen', hg⟩
  | commit gen' =>
    refine ⟨⟨graph, .updated (k.active.getD g)⟩, Function.update_self .., hgraph, ?_⟩
    simp only [hg, Option.getD_some]
    exact ⟨h.1.symm.trans hg, hg, gen', setGeneration_self .., hnext.trans hgraph⟩
  | failed gen' error =>
    exact callStands_setPc hgraph ⟨h.set hgen hnext, hnone gen'⟩

theorem startCandidate_stands (hgraph : graph.structureVersion = digest) (h : Unswitched before k)
    (ht : k.generations k.nextTask = none) :
    CallStands before k.nextTask digest (k.startCandidate o graph) := by
  unfold startCandidate
  cases hnew : Generation.new o.sha256 o.bootstrapServices graph with
  | error error =>
    refine ⟨_, Function.update_self .., hgraph, h, fun gen hgen => ?_⟩
    cases ht.symm.trans hgen
  | ok gen =>
    have hother : ∀ g version, k.HasVersion g version →
        (k.setGeneration k.nextTask gen).HasVersion g version := by
      rintro g version ⟨gen₀, hgen₀, hversion⟩
      have hne : g ≠ k.nextTask := by
        rintro rfl
        cases ht.symm.trans hgen₀
      exact ⟨gen₀, (setGeneration_of_ne hne ..).trans hgen₀, hversion⟩
    have hunswitched : Unswitched before (k.setGeneration k.nextTask gen) :=
      h.transport rfl hother fun _ => id
    obtain ⟨hstate, -, -, hversion, hmounted⟩ := Generation.new_ok hnew
    have hpreparing : (k.setGeneration k.nextTask gen).Preparing k.nextTask digest gen.plugins :=
      ⟨gen, setGeneration_self .., hstate, hversion.trans hgraph, by simp [hmounted]⟩
    refine ⟨_, Function.update_self .., hgraph, ?_⟩
    cases hplugins : gen.plugins with
    | nil => exact ⟨hunswitched, hplugins ▸ hpreparing⟩
    | cons plugin rest => exact ⟨hunswitched, hplugins ▸ hpreparing⟩

theorem reconcile_stands (hgraph : graph.structureVersion = digest) (h : Unswitched before k)
    (ht : k.generations k.nextTask = none) :
    CallStands before k.nextTask digest (k.reconcile o graph) := by
  unfold reconcile
  split
  · exact startCandidate_stands hgraph h ht
  next g gen hactive =>
  obtain ⟨g', hg', hgen⟩ := Option.bind_eq_some_iff.mp hactive
  obtain ⟨gen', hgen', heq⟩ := Option.map_eq_some_iff.mp hgen
  cases heq
  have hdiscarded : ∀ k' : Kernel, k'.generations = k.generations → k'.Discarded k.nextTask := by
    intro k' hk' gen₀ hgen₀
    rw [hk', ht] at hgen₀
    cases hgen₀
  split
  · next hversion =>
    split
    · exact ⟨_, Function.update_self .., hgraph, h, hdiscarded _ rfl⟩
    · refine ⟨_, Function.update_self .., hgraph, h, ?_⟩
      obtain ⟨⟨g₀, version⟩, hbefore, heq⟩ := Option.map_eq_some_iff.mp (h.1.symm.trans hg')
      cases heq
      obtain ⟨⟨gen₀, hgen₀, hversion₀⟩, -⟩ := h.2 _ _ hbefore
      cases hgen'.symm.trans hgen₀
      rw [hbefore, ← hversion₀, hversion, hgraph]
  · simp only
    split
    · exact ⟨_, Function.update_self .., hgraph, h, ht⟩
    split
    · unfold startUpdate
      split
      · exact ⟨_, Function.update_self .., hgraph, h, ht⟩
      simp only
      split
      · exact ⟨_, Function.update_self .., hgraph, h, ht⟩
      · exact updateOn_stands hgraph h hg' ht hgen' (updateFrom_versioned rfl ..)
    · exact startCandidate_stands hgraph h ht

theorem prepareFailed_stands (hgraph : graph.structureVersion = digest)
    (h : Unswitched before k) (hgen : k.generations t = some gen) (hcoherent : gen.Coherent)
    (hstate : gen.state = .preparing) (error : KernelError) :
    CallStands before t digest (k.prepareFailed t graph gen error) := by
  have hversion : { gen with state := .failed }.dispose.structureVersion = gen.structureVersion :=
    Generation.dispose_structureVersion _
  refine callStands_setPc hgraph ⟨h.set hgen hversion, _, setGeneration_self .., ?_⟩
  simp only [Generation.Coherent, hstate] at hcoherent
  exact Generation.ended_dispose hcoherent.2 rfl

theorem emit_stands {event : KernelLifecycleEvent} {await : Await}
    {next : Kernel × Except KernelError Unit → Kernel} (h : Unswitched before k)
    (hevent : (StructureEvent.lifecycle event).activeDigest? = none)
    (hk' : (k.emit event await).map next = some k')
    (hnext : ∀ log result, Unswitched before ({ k with log } : Kernel) →
      CallStands before t digest (next (({ k with log } : Kernel), result))) :
    CallStands before t digest k' := by
  obtain ⟨⟨k₁, result⟩, hemit, rfl⟩ := Option.map_eq_some_iff.mp hk'
  have hunswitched := h.emit hevent hemit
  obtain ⟨log, rfl⟩ := emit_cases hemit
  exact hnext log result hunswitched

theorem emit_switched {event : KernelLifecycleEvent} {await : Await}
    {next : Kernel × Except KernelError Unit → Kernel}
    (hawait : ∀ recorded message, await ≠ .emitFailed recorded message)
    (hk' : (k.emit event await).map next = some k') :
    k' = next (({ k with log := k.log ++ [.lifecycle event] } : Kernel), .ok ()) := by
  obtain ⟨⟨k₁, result⟩, hemit, rfl⟩ := Option.map_eq_some_iff.mp hk'
  obtain ⟨rfl, rfl⟩ := (emit_log hemit).2 hawait
  rfl

theorem advance_stands {pc : Pc} {await : Await} (hacc : Accounted k)
    (hgraph : graph.structureVersion = digest) (htask : k.tasks t = some ⟨graph, pc⟩)
    (hresolved : Resolved k.log digest) (h : Stands before t digest k pc)
    (hguard : ∀ recorded message, await = .emitFailed recorded message → pc.switched = false)
    (hk' : k.advance o t graph pc await = some k') : CallStands before t digest k' := by
  have hawait : pc.switched → ∀ recorded message, await ≠ .emitFailed recorded message := by
    intro hswitched recorded message heq
    simp [hguard recorded message heq] at hswitched
  cases pc with
  | announcing g pluginIds =>
    refine emit_stands h.1 rfl hk' fun log result hunswitched => callStands_setPc hgraph ?_
    cases result with
    | ok => exact hunswitched
    | error error =>
      refine ⟨hunswitched, fun gen hgen => ?_⟩
      cases h.2.symm.trans hgen
  | updateFailed g error =>
    refine emit_stands h.1 rfl hk' fun log result hunswitched => callStands_setPc hgraph ?_
    have hdiscarded : k.Discarded t := fun gen hgen => by cases h.2.symm.trans hgen
    cases result with
    | ok => exact ⟨hunswitched, hdiscarded⟩
    | error error => exact ⟨hunswitched, hdiscarded⟩
  | updating g ordered upc =>
    obtain ⟨gen, hgen, hk'⟩ := Option.bind_eq_some_iff.mp hk'
    obtain ⟨next, hnext, rfl⟩ := Option.map_eq_some_iff.mp hk'
    exact updateOn_stands hgraph h.1 h.2.2 h.2.1 hgen (updateStep_versioned hnext)
  | updated g =>
    obtain rfl := emit_switched (hawait rfl) hk'
    have hg : k.active.getD g = g := by rw [h.2.1, Option.getD_some]
    refine callStands_setPc hgraph ?_
    simp only [hg]
    exact ⟨h.1, h.2, hgraph ▸ Resolved.recorded (hgraph ▸ hresolved) rfl⟩
  | activating remaining =>
    cases remaining with
    | nil => cases hk'
    | cons plugin rest =>
      obtain ⟨gen, hgen, hk'⟩ := Option.bind_eq_some_iff.mp hk'
      obtain ⟨gen₀, hgen₀, hstate, -⟩ := h.2
      cases hgen.symm.trans hgen₀
      split at hk' <;> cases hk'
      · exact callStands_setPc hgraph h
      · exact prepareFailed_stands hgraph h.1 hgen (hacc.coherent t gen hgen) hstate _
  | probing remaining =>
    cases remaining with
    | nil => cases hk'
    | cons plugin rest =>
      obtain ⟨gen, hgen, hk'⟩ := Option.bind_eq_some_iff.mp hk'
      obtain ⟨gen₀, hgen₀, hstate, hversion, hmounted⟩ := h.2
      cases hgen.symm.trans hgen₀
      split at hk' <;> cases hk'
      · have hpreparing : (k.setGeneration t
            { gen with mounted := gen.mounted ++ [⟨plugin, plugin.config⟩] }).Preparing t digest
            rest :=
          ⟨_, setGeneration_self .., hstate, hversion, by simpa using hmounted⟩
        have hunswitched : Unswitched before (k.setGeneration t
            { gen with mounted := gen.mounted ++ [⟨plugin, plugin.config⟩] }) := h.1.set hgen rfl
        refine callStands_setPc hgraph ?_
        cases rest with
        | nil => exact ⟨hunswitched, hpreparing⟩
        | cons plugin' rest => exact ⟨hunswitched, hpreparing⟩
      · exact prepareFailed_stands hgraph h.1 hgen (hacc.coherent t gen hgen) hstate _
      · exact prepareFailed_stands hgraph h.1 hgen (hacc.coherent t gen hgen) hstate _
  | discarding error =>
    simp only [advance] at hk'
    split at hk'
    · obtain ⟨disposed, hdisposed, rfl⟩ := Option.map_eq_some_iff.mp hk'
      obtain ⟨gen, hgen, hdisposal⟩ := Option.bind_eq_some_iff.mp hdisposed
      obtain ⟨gen₀, hgen₀, -, hover⟩ := h.2
      cases hgen.symm.trans hgen₀
      refine callStands_setPc hgraph ⟨h.1, fun gen' hgen' => ?_⟩
      cases hgen.symm.trans hgen'
      exact .inl (hover (over_of_disposalError hdisposal))
    · cases hk'
  | prepared =>
    obtain ⟨gen, hgen, hk'⟩ := Option.bind_eq_some_iff.mp hk'
    obtain ⟨gen₀, hgen₀, hstate, hversion, hmounted⟩ := h.2
    cases hgen.symm.trans hgen₀
    refine emit_stands h.1 rfl hk' fun log result hunswitched => ?_
    cases result with
    | error error =>
      refine callStands_setPc hgraph ⟨hunswitched, fun gen' hgen' => ?_⟩
      cases hgen.symm.trans hgen'
      exact .inr ⟨hstate, by simpa using hmounted⟩
    | ok =>
      simp only [activate, hstate, ne_eq, not_true_eq_false, if_false]
      refine ⟨_, Function.update_self .., hgraph, h.1.1, ⟨rfl, ?_⟩, fun p hp => ?_⟩
      · exact ⟨_, setGeneration_self .., hversion⟩
      · obtain ⟨gen₁, hgen₁, hstate₁⟩ := hacc.active p hp
        have hne : p ≠ t := by
          rintro rfl
          cases hgen.symm.trans hgen₁
          simp [hstate] at hstate₁
        exact ⟨gen₁, (setGeneration_of_ne hne ..).trans hgen₁, hstate₁⟩
  | activated previous =>
    obtain ⟨gen, hgen, hk'⟩ := Option.bind_eq_some_iff.mp hk'
    obtain rfl := emit_switched (hawait rfl) hk'
    obtain ⟨hprevious, ⟨hactive, gen₀, hgen₀, hversion⟩, hreplaced⟩ := h
    cases hgen.symm.trans hgen₀
    have hrecorded : Recorded
        (k.log ++ [.lifecycle (.activated t gen.structureVersion)]) digest :=
      hresolved.recorded (by simp [StructureEvent.activeDigest?, hversion])
    cases previous with
    | none =>
      refine callStands_setPc hgraph ⟨rfl, hprevious, ⟨hactive, gen, hgen, hversion⟩, hrecorded, ?_⟩
      simp
    | some p =>
      exact callStands_setPc hgraph
        ⟨hprevious.symm, ⟨hactive, gen, hgen, hversion⟩, hrecorded, hreplaced p rfl⟩
  | draining p =>
    obtain ⟨gen, hgen, hk'⟩ := Option.bind_eq_some_iff.mp hk'
    obtain rfl := emit_switched (hawait rfl) hk'
    obtain ⟨hbefore, hswitched, hrecorded, gen₀, hgen₀, hstate⟩ := h
    cases hgen.symm.trans hgen₀
    have hdrained : (k.setGeneration p gen.drain).Drained p :=
      ⟨_, setGeneration_self .., Generation.drain_of_active hstate⟩
    have hversions : (k.setGeneration p gen.drain).HasVersion t digest :=
      hswitched.2.set hgen (Generation.drain_structureVersion gen)
    have hrecorded' : Recorded (k.log ++ [.lifecycle (.draining p gen.structureVersion)]) digest :=
      hrecorded.append rfl
    refine callStands_setPc hgraph ?_
    split
    · exact ⟨hbefore, ⟨hswitched.1, hversions⟩, hrecorded', hdrained⟩
    · refine ⟨rfl, hbefore.symm, ⟨hswitched.1, hversions⟩, hrecorded', fun p' hp' => ?_⟩
      cases hp'
      exact hdrained
  | drained p =>
    simp only [advance] at hk'
    split at hk'
    · obtain ⟨disposed, -, rfl⟩ := Option.map_eq_some_iff.mp hk'
      refine callStands_setPc hgraph ⟨rfl, h.1.symm, h.2.1, h.2.2.1, fun p' hp' => ?_⟩
      cases hp'
      exact h.2.2.2
    · cases hk'
  | failing error =>
    obtain ⟨gen, hgen, hk'⟩ := Option.bind_eq_some_iff.mp hk'
    refine emit_stands h.1 rfl hk' fun log result hunswitched => callStands_setPc hgraph ?_
    cases result with
    | ok => exact ⟨hunswitched, h.2⟩
    | error error => exact ⟨hunswitched, h.2⟩
  | settled result => cases hk'

end Kernel

/-- What may become of a generation while turns begin, leases are released and disposals go on. -/
structure Generation.Behind (gen gen' : Generation) : Prop where
  structureVersion : gen'.structureVersion = gen.structureVersion
  preparing : gen.state = .preparing → gen' = gen
  active : gen.state = .active → gen'.state = .active
  drained : gen.state = .draining ∨ gen.state = .disposed →
    gen'.state = .draining ∨ gen'.state = .disposed
  disposed : gen.state = .disposed → gen'.state = .disposed
  ended : gen.Ended → gen'.Ended

/-- What happens beside the call that is under way. -/
structure Background (k k' : Kernel) : Prop where
  accounted : Accounted k'
  active : k'.active = k.active
  tasks : k'.tasks = k.tasks
  log : k'.log = k.log ∨ ∃ event, event.activeDigest? = none ∧ k'.log = k.log ++ [event]
  none : ∀ g, k.generations g = none → k'.generations g = none
  behind : ∀ g gen, k.generations g = some gen →
    ∃ gen', k'.generations g = some gen' ∧ gen.Behind gen'

section Background
variable {o : KernelOptions} {k k' : Kernel} {before : Option (ℕ × String)} {t g : ℕ}
  {digest : String} {gen gen' : Generation}

theorem Generation.Behind.self (gen : Generation) : gen.Behind gen :=
  ⟨rfl, fun _ => rfl, id, id, id, id⟩

theorem background_set (leases : List Lease) (log : List StructureEvent)
    (h : Accounted { k.setGeneration g gen' with leases, log })
    (hlog : log = k.log ∨ ∃ event, event.activeDigest? = none ∧ log = k.log ++ [event])
    (hgen : k.generations g = some gen) (hbehind : gen.Behind gen') :
    Background k { k.setGeneration g gen' with leases, log } := by
  refine ⟨h, rfl, rfl, hlog, fun g' hnone => ?_, fun g' gen₀ hgen₀ => ?_⟩
  · have hne : g' ≠ g := by
      rintro rfl
      cases hgen.symm.trans hnone
    exact (Kernel.setGeneration_of_ne hne ..).trans hnone
  · by_cases hg : g' = g
    · subst hg
      cases hgen.symm.trans hgen₀
      exact ⟨gen', Kernel.setGeneration_self .., hbehind⟩
    · exact ⟨gen₀, (Kernel.setGeneration_of_ne hg ..).trans hgen₀, .self gen₀⟩

theorem Generation.behind_acquire (hstate : gen.state = .active) (h : gen.acquire = some gen') :
    gen.Behind gen' := by
  unfold acquire at h
  split at h <;> cases h
  exact ⟨rfl, by simp [hstate], id, id, id, fun hended => by simp [Ended, hstate] at hended⟩

theorem Generation.release_structureVersion (gen : Generation) :
    gen.release.structureVersion = gen.structureVersion := by
  unfold release
  split
  · rfl
  simp only
  split
  · exact dispose_structureVersion _
  · rfl

theorem Generation.behind_release (hcoherent : gen.Coherent) (hreferences : gen.references ≠ 0) :
    gen.Behind gen.release := by
  obtain ⟨-, -, hpreparing, hactive⟩ := hcoherent.release hreferences
  have hversion := release_structureVersion gen
  cases hstate : gen.state with
  | preparing | disposed | failed =>
    simp only [Coherent, hstate] at hcoherent
    exact absurd hcoherent.1 hreferences
  | active =>
    exact ⟨hversion, by simp [hstate], hactive, by simp [hstate], by simp [hstate],
      fun hended => by simp [Ended, hstate] at hended⟩
  | draining =>
    refine ⟨hversion, by simp [hstate], hactive, fun _ => ?_, by simp [hstate],
      fun hended => by simp [Ended, hstate] at hended⟩
    unfold release
    rw [if_neg hreferences]
    simp only [hstate, and_true]
    split
    · exact dispose_state { gen with references := gen.references - 1, state := .draining }
    · exact .inl rfl

theorem DisposeEffect.behind {log : List StructureEvent}
    (h : Accounted.DisposeEffect k g gen gen' log) (hcoherent : gen.Coherent) :
    gen.Behind gen' := by
  obtain ⟨hstarted, -, -, hstate'⟩ := h.cases
  obtain ⟨-, hpreparing, hactive⟩ := hcoherent.started hstarted
  refine ⟨?_, fun hs => absurd hs hpreparing, fun hs => absurd hs hactive, fun hs => ?_,
    fun hs => ?_, fun hended => ?_⟩
  · cases h with
    | @fiber m rest =>
      unfold Generation.disposeOn
      split <;> rfl
    | emitted => rfl
  · obtain hs' | hs' := hstate'
    · rwa [hs']
    · exact .inr hs'
  · obtain hs' | hs' := hstate'
    · rwa [hs']
    · exact hs'
  · cases h with
    | fiber => exact Generation.ended_disposeOn hended.1 _ _
    | emitted hdisposal =>
      exact ⟨hended.1, fun _ => hended.2 (by simp [hdisposal, Disposal.over])⟩

theorem background_dispose {await : Await} (h : Accounted k)
    (hk' : kernelStep o k (.dispose g await) = some k') : Background k k' := by
  have hacc := h.step hk'
  obtain ⟨gen, hgen, hk'⟩ := Option.bind_eq_some_iff.mp hk'
  obtain ⟨gen', log, rfl, heffect⟩ := Accounted.disposeStep_effect hk'
  refine background_set k.leases _ hacc ?_ hgen
    (DisposeEffect.behind heffect (h.coherent g gen hgen))
  cases heffect with
  | fiber => exact .inl rfl
  | emitted _ hlog => exact hlog.imp_right fun hlog => ⟨_, rfl, hlog⟩

theorem background_beginTurn (h : Accounted k) (hk' : kernelStep o k .beginTurn = some k') :
    Background k k' := by
  have hacc := h.step hk'
  obtain ⟨g, gen, gen', -, hgen, hstate, hgen', rfl⟩ := h.beginTurn_cases hk'
  exact background_set _ k.log hacc (.inl rfl) hgen (Generation.behind_acquire hstate hgen')

theorem background_release {l : ℕ} (h : Accounted k)
    (hk' : kernelStep o k (.release l) = some k') : Background k k' := by
  have hacc := h.step hk'
  obtain ⟨lease, hlease, ⟨-, rfl⟩ | ⟨hreleased, gen, hgen, rfl⟩⟩ := Accounted.release_cases hk'
  · exact ⟨h, rfl, rfl, .inl rfl, fun _ => id, fun g gen hgen => ⟨gen, hgen, .self gen⟩⟩
  refine background_set _ k.log hacc (.inl rfl) hgen
    (Generation.behind_release (h.coherent _ gen hgen) ?_)
  rw [h.counted _ gen hgen]
  exact Nat.ne_of_gt (List.count_pos_iff.mpr (hreleased ▸ List.mem_of_getElem? hlease))

namespace Background

theorem hasVersion {version : String} (h : Background k k') (hg : k.HasVersion g version) :
    k'.HasVersion g version := by
  obtain ⟨gen, hgen, hversion⟩ := hg
  obtain ⟨gen', hgen', hbehind⟩ := h.behind g gen hgen
  exact ⟨gen', hgen', hbehind.structureVersion.trans hversion⟩

theorem recorded (h : Background k k') (hlog : Recorded k.log digest) : Recorded k'.log digest := by
  obtain hlog' | ⟨event, hevent, hlog'⟩ := h.log
  · rwa [hlog']
  · exact hlog' ▸ hlog.append hevent

theorem resolved (h : Background k k') (hlog : Resolved k.log digest) : Resolved k'.log digest := by
  obtain hlog' | ⟨event, -, hlog'⟩ := h.log
  · rwa [hlog']
  · exact hlog' ▸ hlog.append _

theorem unswitched (h : Background k k') (hu : Unswitched before k) : Unswitched before k' :=
  hu.transport h.active (fun _ _ => h.hasVersion) fun _ => h.recorded

theorem switched (h : Background k k') (hs : Switched t digest k) : Switched t digest k' :=
  ⟨h.active.trans hs.1, h.hasVersion hs.2⟩

theorem preparing {remaining : List RuntimePlugin} (h : Background k k')
    (hp : k.Preparing t digest remaining) : k'.Preparing t digest remaining := by
  obtain ⟨gen, hgen, hstate, hpreparing⟩ := hp
  obtain ⟨gen', hgen', hbehind⟩ := h.behind t gen hgen
  obtain rfl := hbehind.preparing hstate
  exact ⟨gen', hgen', hstate, hpreparing⟩

theorem discarded (h : Background k k') (hd : k.Discarded t) : k'.Discarded t := by
  intro gen' hgen'
  cases hgen : k.generations t with
  | none => simp [h.none t hgen] at hgen'
  | some gen =>
    obtain ⟨gen₁, hgen₁, hbehind⟩ := h.behind t gen hgen
    cases hgen'.symm.trans hgen₁
    obtain hstate | hpreparing := hd gen hgen
    · exact .inl (hbehind.disposed hstate)
    · obtain rfl := hbehind.preparing hpreparing.1
      exact .inr hpreparing

theorem drained (h : Background k k') (hd : k.Drained g) : k'.Drained g := by
  obtain ⟨gen, hgen, hstate⟩ := hd
  obtain ⟨gen', hgen', hbehind⟩ := h.behind g gen hgen
  exact ⟨gen', hgen', hbehind.drained hstate⟩

theorem replaced (h : Background k k') (hr : k.Replaced g) : k'.Replaced g := by
  obtain ⟨gen, hgen, hstate⟩ := hr
  obtain ⟨gen', hgen', hbehind⟩ := h.behind g gen hgen
  exact ⟨gen', hgen', hbehind.active hstate⟩

theorem stands {pc : Pc} (h : Background k k') (hs : Stands before t digest k pc) :
    Stands before t digest k' pc := by
  cases pc with
  | announcing | updateFailed => exact ⟨h.unswitched hs.1, h.none t hs.2⟩
  | updating => exact ⟨h.unswitched hs.1, h.none t hs.2.1, h.active.trans hs.2.2⟩
  | updated => exact ⟨hs.1, h.switched hs.2⟩
  | activating | probing | prepared => exact ⟨h.unswitched hs.1, h.preparing hs.2⟩
  | discarding =>
    obtain ⟨gen, hgen, hended⟩ := hs.2
    obtain ⟨gen', hgen', hbehind⟩ := h.behind t gen hgen
    exact ⟨h.unswitched hs.1, gen', hgen', hbehind.ended hended⟩
  | failing => exact ⟨h.unswitched hs.1, h.discarded hs.2⟩
  | activated => exact ⟨hs.1, h.switched hs.2.1, fun p hp => h.replaced (hs.2.2 p hp)⟩
  | draining => exact ⟨hs.1, h.switched hs.2.1, h.recorded hs.2.2.1, h.replaced hs.2.2.2⟩
  | drained => exact ⟨hs.1, h.switched hs.2.1, h.recorded hs.2.2.1, h.drained hs.2.2.2⟩
  | settled result =>
    cases result with
    | error => exact ⟨h.unswitched hs.1, h.discarded hs.2⟩
    | ok result =>
      cases result with
      | activated =>
        exact ⟨hs.1, hs.2.1, h.switched hs.2.2.1, h.recorded hs.2.2.2.1,
          fun p hp => h.drained (hs.2.2.2.2 p hp)⟩
      | unchanged => exact ⟨h.unswitched hs.1, hs.2⟩
      | updated => exact ⟨hs.1, h.switched hs.2.1, h.recorded hs.2.2⟩
      | restartRequired => exact h.unswitched hs

end Background

end Background

section Log
variable {o : KernelOptions} {k k' : Kernel} {t : ℕ} {graph : PluginGraph} {pc : Pc} {await : Await}

theorem Resolved.mono {log log' : List StructureEvent} {digest : String}
    (h : Resolved log digest) (hlog : log <+: log') : Resolved log' digest := by
  obtain ⟨events, rfl⟩ := hlog
  exact h.append events

theorem Kernel.emit_extends {event : KernelLifecycleEvent}
    {next : Kernel × Except KernelError Unit → Kernel}
    (h : (k.emit event await).map next = some k')
    (hnext : ∀ log result, (next (({ k with log } : Kernel), result)).log = log) :
    k.log <+: k'.log := by
  obtain ⟨⟨k₁, result⟩, hemit, rfl⟩ := Option.map_eq_some_iff.mp h
  obtain rfl | rfl := (emit_log hemit).1
  · exact (hnext k₁.log result).symm ▸ List.prefix_rfl
  · exact (hnext _ result).symm ▸ List.prefix_append ..

theorem Kernel.advance_log (h : k.advance o t graph pc await = some k') : k.log <+: k'.log := by
  cases pc with
  | announcing | updateFailed | updated => exact emit_extends h fun _ _ => rfl
  | updating g ordered upc =>
    obtain ⟨gen, -, h⟩ := Option.bind_eq_some_iff.mp h
    obtain ⟨next, -, rfl⟩ := Option.map_eq_some_iff.mp h
    cases next <;> exact List.prefix_rfl
  | activating remaining =>
    cases remaining with
    | nil => cases h
    | cons plugin rest =>
      obtain ⟨gen, -, h⟩ := Option.bind_eq_some_iff.mp h
      split at h <;> cases h <;> exact List.prefix_rfl
  | probing remaining =>
    cases remaining with
    | nil => cases h
    | cons plugin rest =>
      obtain ⟨gen, -, h⟩ := Option.bind_eq_some_iff.mp h
      split at h <;> cases h <;> exact List.prefix_rfl
  | discarding | drained =>
    simp only [advance] at h
    split at h
    · obtain ⟨disposed, -, rfl⟩ := Option.map_eq_some_iff.mp h
      exact List.prefix_rfl
    · cases h
  | prepared =>
    obtain ⟨gen, -, h⟩ := Option.bind_eq_some_iff.mp h
    refine emit_extends h fun log result => ?_
    cases result with
    | error => rfl
    | ok =>
      simp only [activate]
      split <;> rfl
  | activated previous =>
    obtain ⟨gen, -, h⟩ := Option.bind_eq_some_iff.mp h
    refine emit_extends h fun log result => ?_
    cases result <;> cases previous <;> rfl
  | draining =>
    obtain ⟨gen, -, h⟩ := Option.bind_eq_some_iff.mp h
    refine emit_extends h fun log result => ?_
    cases result <;> rfl
  | failing =>
    obtain ⟨gen, -, h⟩ := Option.bind_eq_some_iff.mp h
    exact emit_extends h fun _ _ => rfl
  | settled => cases h

theorem Kernel.reconcile_log : (k.reconcile o graph).log = k.log := by
  have hcandidate : (k.startCandidate o graph).log = k.log := by
    unfold startCandidate
    split <;> rfl
  unfold reconcile
  split
  · exact hcandidate
  split
  · split <;> rfl
  · simp only
    split
    · rfl
    split
    · unfold startUpdate
      split
      · rfl
      simp only
      split
      · rfl
      · cases updateFrom .. <;> rfl
    · exact hcandidate

theorem Accounted.log (h : Accounted k) (log : List StructureEvent) : Accounted { k with log } :=
  ⟨h.freshTask, h.freshGeneration, h.active, h.coherent, h.counted, h.leased, h.placed⟩

end Log

end BeeAgent.Structure
