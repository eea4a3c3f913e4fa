import BeeAgent.Kernel.Reconcile

/-! What one await of a `reconcile` can do to the generations, to the active one and to the point
where the call stands. -/
namespace BeeAgent.Structure

/-- The live update will still change the configuration of a fiber or the version. -/
def UpdatePc.changing : UpdatePc → Bool
  | .updating .. | .settling .. | .checking .. => true
  | .rollingBack remaining .. => 1 < remaining.length
  | .resettling .. => false

namespace Pc

/-- The candidate of the call is being prepared. -/
def preparing : Pc → Bool
  | .activating _ | .probing _ | .prepared => true
  | _ => false

/-- The generation that the call is about to drain. -/
def previous : Pc → Option ℕ
  | .activated previous => previous
  | .draining p => some p
  | _ => none

/-- The generation whose fibers the call is about to change. -/
def changes : Pc → Option ℕ
  | .updating g _ pc => if pc.changing then some g else none
  | _ => none

def Rest (pc : Pc) : Prop :=
  pc.preparing = false ∧ pc.previous = none ∧ pc.changes = none

end Pc

def Generation.SameCount (gen gen' : Generation) : Prop :=
  gen'.references = gen.references ∧ gen'.state = gen.state ∧ gen'.disposal = gen.disposal

theorem Generation.SameCount.coherent {gen gen' : Generation} (h : gen.SameCount gen')
    (hgen : gen.Coherent) : gen'.Coherent := by
  obtain ⟨hreferences, hstate, hdisposal⟩ := h
  unfold Coherent at hgen ⊢
  rw [hreferences, hstate, hdisposal]
  exact hgen

/-- What becomes of the generations, of the active one and of the call at one await of call `t`. -/
inductive Effect (generations : ℕ → Option Generation) (active : Option ℕ) (t : ℕ) (pc : Pc) :
    (ℕ → Option Generation) → Option ℕ → Pc → Prop where
  | rest {pc'} : pc'.Rest → Effect generations active t pc generations active pc'
  | update {g ordered upc gen gen' pc'} : pc = .updating g ordered upc →
      generations g = some gen → gen.SameCount gen' →
      (upc.changing = false → gen'.observed = gen.observed) →
      (pc'.Rest ∨ upc.changing ∧ pc'.preparing = false ∧ pc'.previous = none ∧
        pc'.changes = some g) →
      Effect generations active t pc (Function.update generations g (some gen')) active pc'
  | prepare {gen gen' pc'} : pc.preparing → pc'.preparing → pc'.previous = none →
      pc'.changes = none → generations t = some gen → gen.SameCount gen' →
      Effect generations active t pc (Function.update generations t (some gen')) active pc'
  | discard {gen pc'} : pc.preparing → pc'.Rest → generations t = some gen →
      Effect generations active t pc
        (Function.update generations t (some { gen with state := .failed }.dispose)) active pc'
  | activate {gen} : pc = .prepared → generations t = some gen → gen.state = .preparing →
      Effect generations active t pc (Function.update generations t (some { gen with state := .active }))
        (some t) (.activated active)
  | activated {p} : pc = .activated (some p) →
      Effect generations active t pc generations active (.draining p)
  | drain {p gen pc'} : pc = .draining p → generations p = some gen → pc'.Rest →
      Effect generations active t pc (Function.update generations p (some gen.drain)) active pc'

section Update
variable {sha256 : String → String} {graph : PluginGraph} {ordered : List RuntimePlugin}
  {gen : Generation}

/-- What one await of a live update may do: `quiet` tells that it stands where nothing changes
any more. -/
def UpdateNext.Fits (gen : Generation) (quiet : Bool) : UpdateNext → Prop
  | .goto gen' pc => gen.SameCount gen' ∧
      (quiet → pc.changing = false ∧ gen'.observed = gen.observed)
  | .commit gen' => gen.SameCount gen' ∧ quiet = false
  | .failed gen' _ => gen.SameCount gen' ∧ (quiet → gen'.observed = gen.observed)

theorem sameCount_setSpec (gen : Generation) (index : ℕ) (spec : RuntimePlugin) :
    gen.SameCount (setSpec gen index spec) :=
  ⟨rfl, rfl, rfl⟩

theorem observed_setSpec (gen : Generation) (index : ℕ) (spec : RuntimePlugin) :
    (setSpec gen index spec).observed = gen.observed := by
  simp only [Generation.observed, setSpec, Prod.mk.injEq, true_and]
  apply List.ext_getElem?
  intro i
  simp only [List.getElem?_map, List.getElem?_modify]
  split <;> simp [Function.comp_def]

theorem settleFrom_fits (index : ℕ) (updated : List (ℕ × RuntimePlugin)) (gen' : Generation)
    (h : gen.SameCount gen') :
    (settleFrom sha256 graph ordered gen' index updated).Fits gen false := by
  unfold settleFrom
  split
  · exact ⟨h, by simp⟩
  · exact ⟨h, rfl⟩

theorem updateFrom_fits (index : ℕ) (updated : List (ℕ × RuntimePlugin)) (gen' : Generation)
    (h : gen.SameCount gen') :
    (updateFrom sha256 graph ordered gen' index updated).Fits gen false := by
  unfold updateFrom
  split
  · exact ⟨h, by simp⟩
  · exact settleFrom_fits 0 updated gen' h

theorem resettleFrom_fits (index : ℕ) (error : KernelError) (failures : List String)
    (quiet : Bool) (gen' : Generation) (h : gen.SameCount gen')
    (hobserved : quiet → gen'.observed = gen.observed) :
    (resettleFrom gen' index error failures).Fits gen quiet := by
  unfold resettleFrom
  split
  · exact ⟨h, fun hq => ⟨rfl, hobserved hq⟩⟩
  · exact ⟨h, hobserved⟩

theorem rollBack_fits (remaining : List (ℕ × RuntimePlugin)) (error : KernelError)
    (failures : List String) (quiet : Bool) (gen' : Generation) (h : gen.SameCount gen')
    (hquiet : quiet → remaining = [] ∧ gen'.observed = gen.observed) :
    (rollBack gen' remaining error failures).Fits gen quiet := by
  unfold rollBack
  split
  · exact resettleFrom_fits 0 error failures quiet gen' h fun hq => (hquiet hq).2
  · next head tail =>
    refine ⟨h, fun hq => ?_⟩
    have hnil := (hquiet hq).1
    cases hnil

theorem updateStep_fits {pc : UpdatePc} {await : Await} {next : UpdateNext}
    (h : updateStep sha256 graph ordered gen pc await = some next) :
    next.Fits gen (!pc.changing) := by
  have hself : gen.SameCount gen := ⟨rfl, rfl, rfl⟩
  unfold updateStep at h
  split at h <;> cases h
  · -- a fiber has taken its new configuration
    apply updateFrom_fits
    split
    · exact sameCount_setSpec ..
    · exact hself
  · exact ⟨hself, by simp [UpdatePc.changing]⟩
  · exact settleFrom_fits _ _ gen hself
  · exact rollBack_fits _ _ _ _ gen hself (by simp [UpdatePc.changing])
  · exact rollBack_fits _ _ _ _ gen hself (by simp [UpdatePc.changing])
  · exact rollBack_fits _ _ _ _ gen hself (by simp [UpdatePc.changing])
  · exact rollBack_fits _ _ _ _ gen hself (by simp [UpdatePc.changing])
  · refine rollBack_fits _ _ _ _ _ (sameCount_setSpec ..) fun hq => ?_
    exact ⟨by simpa [UpdatePc.changing] using hq, observed_setSpec ..⟩
  · refine rollBack_fits _ _ _ _ gen hself fun hq => ?_
    exact ⟨by simpa [UpdatePc.changing] using hq, rfl⟩
  · exact resettleFrom_fits _ _ _ _ gen hself fun _ => rfl
  · exact resettleFrom_fits _ _ _ _ gen hself fun _ => rfl

end Update

namespace Kernel
variable {o : KernelOptions} {k k' : Kernel} {t : ℕ} {graph : PluginGraph} {pc : Pc}
  {await : Await}

theorem emit_log {event : KernelLifecycleEvent} {result : Except KernelError Unit} (h : k.emit event await = some (k', result)) :
    (k' = k ∨ k' = { k with log := k.log ++ [.lifecycle event] }) ∧
      ((∀ recorded message, await ≠ .emitFailed recorded message) →
        result = .ok () ∧ k' = { k with log := k.log ++ [.lifecycle event] }) := by
  unfold emit at h
  split at h <;> cases h
  · exact ⟨.inr rfl, fun _ => ⟨rfl, rfl⟩⟩
  · refine ⟨?_, fun hne => absurd rfl (hne _ _)⟩
    split
    · exact .inr rfl
    · exact .inl rfl

theorem emit_cases {event : KernelLifecycleEvent} {result : Except KernelError Unit}
    (h : k.emit event await = some (k', result)) : ∃ log, k' = { k with log } := by
  obtain ⟨rfl | rfl, -⟩ := emit_log h
  · exact ⟨_, rfl⟩
  · exact ⟨_, rfl⟩

/-- The state behind an await of call `t`, by its effect. -/
def Advanced (k : Kernel) (t : ℕ) (graph : PluginGraph) (pc : Pc) (k' : Kernel) : Prop :=
  ∃ pc', Effect k.generations k.active t pc k'.generations k'.active pc' ∧
    k'.tasks = Function.update k.tasks t (some ⟨graph, pc'⟩) ∧ k'.leases = k.leases ∧
    k'.nextTask = k.nextTask

theorem Advanced.rest {pc' : Pc} {log : List StructureEvent} (h : pc'.Rest) :
    k.Advanced t graph pc (({ k with log } : Kernel).setPc t graph pc') :=
  ⟨pc', .rest h, rfl, rfl, rfl⟩

theorem advanced_updateOn {g : ℕ} {ordered : List RuntimePlugin} {upc : UpdatePc}
    {gen : Generation} {next : UpdateNext} (hgen : k.generations g = some gen)
    (hfits : next.Fits gen (!upc.changing)) :
    k.Advanced t graph (.updating g ordered upc) (k.updateOn t graph g ordered next) := by
  cases next with
  | goto gen' pc' =>
    obtain ⟨hcount, hquiet⟩ := hfits
    refine ⟨.updating g ordered pc', .update rfl hgen hcount ?_ ?_, rfl, rfl, rfl⟩
    · intro hu
      exact (hquiet (by simp [hu])).2
    · cases hc : pc'.changing with
      | false => exact .inl ⟨rfl, rfl, by simp [Pc.changes, hc]⟩
      | true =>
        refine .inr ⟨?_, rfl, rfl, by simp [Pc.changes, hc]⟩
        by_contra hu
        exact absurd (hquiet (by simpa using hu)).1 (by simp [hc])
  | commit gen' =>
    obtain ⟨hcount, hquiet⟩ := hfits
    refine ⟨.updated (k.active.getD g), .update rfl hgen hcount ?_ (.inl ⟨rfl, rfl, rfl⟩), rfl, rfl,
      rfl⟩
    intro hu
    simp [hu] at hquiet
  | failed gen' error =>
    obtain ⟨hcount, hquiet⟩ := hfits
    refine ⟨.updateFailed (k.active.getD g) error,
      .update rfl hgen hcount ?_ (.inl ⟨rfl, rfl, rfl⟩), rfl, rfl, rfl⟩
    intro hu
    exact hquiet (by simp [hu])

theorem preparing_prepareFrom (remaining : List RuntimePlugin) :
    (prepareFrom remaining).preparing ∧ (prepareFrom remaining).previous = none ∧
      (prepareFrom remaining).changes = none := by
  cases remaining <;> exact ⟨rfl, rfl, rfl⟩

theorem rest_settled (result : Except KernelError ReconcileResult) : (Pc.settled result).Rest :=
  ⟨rfl, rfl, rfl⟩

theorem rest_failing (error : KernelError) : (Pc.failing error).Rest :=
  ⟨rfl, rfl, rfl⟩

theorem advanced_prepareFailed {gen : Generation} (hpc : pc.preparing)
    (hgen : k.generations t = some gen) (error : KernelError) :
    k.Advanced t graph pc (k.prepareFailed t graph gen error) :=
  ⟨.discarding error, .discard hpc ⟨rfl, rfl, rfl⟩ hgen, rfl, rfl, rfl⟩

theorem advanced_activate {gen : Generation} (hgen : k.generations t = some gen) :
    k.Advanced t graph .prepared (k.activate t graph gen) := by
  unfold activate
  split
  · exact ⟨_, .rest (rest_failing _), rfl, rfl, rfl⟩
  · next hstate =>
    exact ⟨.activated k.active, .activate rfl hgen (by simpa using hstate), rfl, rfl, rfl⟩

theorem advanced_drain {p : ℕ} {gen : Generation} (hgen : k.generations p = some gen) :
    k.Advanced t graph (.draining p) (k.drain t graph p gen) := by
  refine ⟨_, .drain rfl hgen ?_, rfl, rfl, rfl⟩
  split <;> exact ⟨rfl, rfl, rfl⟩

theorem advanced_emit {event : KernelLifecycleEvent} {next : Kernel × Except KernelError Unit → Kernel}
    (h : (k.emit event await).map next = some k')
    (hnext : ∀ log result, k.Advanced t graph pc (next (({ k with log } : Kernel), result))) :
    k.Advanced t graph pc k' := by
  obtain ⟨⟨k₁, result⟩, hemit, rfl⟩ := Option.map_eq_some_iff.mp h
  obtain ⟨log, rfl⟩ := emit_cases hemit
  exact hnext log result

theorem advance_advanced (h : k.advance o t graph pc await = some k') :
    k.Advanced t graph pc k' := by
  cases pc with
  | announcing g pluginIds => exact advanced_emit h fun log result => .rest (rest_settled _)
  | updating g ordered upc =>
    obtain ⟨gen, hgen, h⟩ := Option.bind_eq_some_iff.mp h
    obtain ⟨next, hnext, rfl⟩ := Option.map_eq_some_iff.mp h
    exact advanced_updateOn hgen (updateStep_fits hnext)
  | updateFailed g error => exact advanced_emit h fun log result => .rest (rest_settled _)
  | updated g => exact advanced_emit h fun log result => .rest (rest_settled _)
  | activating remaining =>
    cases remaining with
    | nil => cases h
    | cons plugin rest =>
      obtain ⟨gen, hgen, h⟩ := Option.bind_eq_some_iff.mp h
      split at h <;> cases h
      · refine ⟨.probing (plugin :: rest), ?_, rfl, rfl, rfl⟩
        have heffect : Effect k.generations k.active t (.activating (plugin :: rest)) _ _
            (.probing (plugin :: rest)) := .prepare rfl rfl rfl rfl hgen ⟨rfl, rfl, rfl⟩
        rwa [Function.update_eq_self_iff.mpr hgen.symm] at heffect
      · exact advanced_prepareFailed rfl hgen _
  | probing remaining =>
    cases remaining with
    | nil => cases h
    | cons plugin rest =>
      obtain ⟨gen, hgen, h⟩ := Option.bind_eq_some_iff.mp h
      split at h <;> cases h
      · obtain ⟨hpreparing, hprevious, hchanges⟩ := preparing_prepareFrom rest
        exact ⟨prepareFrom rest, .prepare rfl hpreparing hprevious hchanges hgen ⟨rfl, rfl, rfl⟩,
          rfl, rfl, rfl⟩
      · exact advanced_prepareFailed rfl hgen _
      · exact advanced_prepareFailed rfl hgen _
  | discarding error =>
    simp only [advance] at h
    split at h
    · obtain ⟨disposed, -, rfl⟩ := Option.map_eq_some_iff.mp h
      exact ⟨_, .rest (rest_failing _), rfl, rfl, rfl⟩
    · cases h
  | prepared =>
    obtain ⟨gen, hgen, h⟩ := Option.bind_eq_some_iff.mp h
    refine advanced_emit h fun log result => ?_
    cases result with
    | ok =>
      have hactivate : ({ k with log } : Kernel).Advanced t graph .prepared
          (({ k with log } : Kernel).activate t graph gen) := advanced_activate hgen
      exact hactivate
    | error error => exact .rest (rest_failing _)
  | activated previous =>
    obtain ⟨gen, hgen, h⟩ := Option.bind_eq_some_iff.mp h
    refine advanced_emit h fun log result => ?_
    cases result with
    | error error => exact .rest (rest_failing _)
    | ok =>
      cases previous with
      | none => exact .rest (rest_settled _)
      | some p => exact ⟨.draining p, .activated rfl, rfl, rfl, rfl⟩
  | draining p =>
    obtain ⟨gen, hgen, h⟩ := Option.bind_eq_some_iff.mp h
    refine advanced_emit h fun log result => ?_
    cases result with
    | error error => exact .rest (rest_failing _)
    | ok => exact advanced_drain hgen
  | drained p =>
    simp only [advance] at h
    split at h
    · obtain ⟨disposed, -, rfl⟩ := Option.map_eq_some_iff.mp h
      exact ⟨_, .rest (rest_settled _), rfl, rfl, rfl⟩
    · cases h
  | failing error =>
    obtain ⟨gen, hgen, h⟩ := Option.bind_eq_some_iff.mp h
    exact advanced_emit h fun log result => .rest (rest_settled _)
  | settled result => cases h

/-- What a new call does up to its first await. -/
inductive Begun (o : KernelOptions) (k : Kernel) (graph : PluginGraph) :
    (ℕ → Option Generation) → Pc → Prop where
  | rest {pc'} : pc'.Rest → Begun o k graph k.generations pc'
  | candidate {gen pc'} : Generation.new o.sha256 o.bootstrapServices graph = .ok gen →
      pc'.preparing → pc'.previous = none → pc'.changes = none →
      Begun o k graph (Function.update k.generations k.nextTask (some gen)) pc'
  | update {g gen gen' pc'} : k.active = some g → k.generations g = some gen →
      gen.references = 0 → gen.SameCount gen' →
      (pc'.Rest ∨ pc'.preparing = false ∧ pc'.previous = none ∧ pc'.changes = some g) →
      Begun o k graph (Function.update k.generations g (some gen')) pc'

/-- The state behind the synchronous part of a new call. -/
def Started (o : KernelOptions) (k : Kernel) (graph : PluginGraph) (k' : Kernel) : Prop :=
  ∃ pc, Begun o k graph k'.generations pc ∧ k'.active = k.active ∧
    k'.tasks = Function.update k.tasks k.nextTask (some ⟨graph, pc⟩) ∧ k'.leases = k.leases ∧
    k'.nextTask = k.nextTask + 1

theorem started_startCandidate : Started o k graph (k.startCandidate o graph) := by
  unfold startCandidate
  split
  · exact ⟨_, .rest (rest_settled _), rfl, rfl, rfl, rfl⟩
  · next gen hgen =>
    obtain ⟨hpreparing, hprevious, hchanges⟩ := preparing_prepareFrom gen.plugins
    exact ⟨_, .candidate hgen hpreparing hprevious hchanges, rfl, rfl, rfl, rfl⟩

theorem started_startUpdate {g : ℕ} {gen : Generation} (hactive : k.active = some g)
    (hgen : k.generations g = some gen) : Started o k graph (k.startUpdate o graph g gen) := by
  unfold startUpdate
  split
  · exact ⟨_, .rest ⟨rfl, rfl, rfl⟩, rfl, rfl, rfl, rfl⟩
  simp only
  split
  · exact ⟨_, .rest ⟨rfl, rfl, rfl⟩, rfl, rfl, rfl, rfl⟩
  · next ordered _ hne =>
    have hreferences : gen.references = 0 := by
      by_contra h
      exact hne (.inr h)
    have hfits : (updateFrom o.sha256 graph ordered gen 0 []).Fits gen false :=
      updateFrom_fits 0 [] gen ⟨rfl, rfl, rfl⟩
    revert hfits
    cases updateFrom o.sha256 graph ordered gen 0 [] with
    | goto gen' pc =>
      intro hfits
      refine ⟨.updating g ordered pc, .update hactive hgen hreferences hfits.1 ?_, rfl, rfl, rfl, rfl⟩
      cases hc : pc.changing with
      | false => exact .inl ⟨rfl, rfl, by simp [Pc.changes, hc]⟩
      | true => exact .inr ⟨rfl, rfl, by simp [Pc.changes, hc]⟩
    | commit gen' =>
      intro hfits
      exact ⟨_, .update hactive hgen hreferences hfits.1 (.inl ⟨rfl, rfl, rfl⟩), rfl, rfl, rfl, rfl⟩
    | failed gen' error =>
      intro hfits
      exact ⟨_, .update hactive hgen hreferences hfits.1 (.inl ⟨rfl, rfl, rfl⟩), rfl, rfl, rfl, rfl⟩

theorem reconcile_started : Started o k graph (k.reconcile o graph) := by
  unfold reconcile
  split
  · exact started_startCandidate
  · next g gen hactive =>
    obtain ⟨g', hg', hgen⟩ := Option.bind_eq_some_iff.mp hactive
    obtain ⟨gen', hgen', heq⟩ := Option.map_eq_some_iff.mp hgen
    cases heq
    split
    · split
      · exact ⟨_, .rest (rest_settled _), rfl, rfl, rfl, rfl⟩
      · exact ⟨_, .rest (rest_settled _), rfl, rfl, rfl, rfl⟩
    · simp only
      split
      · exact ⟨_, .rest ⟨rfl, rfl, rfl⟩, rfl, rfl, rfl, rfl⟩
      · split
        · exact started_startUpdate hg' hgen'
        · exact started_startCandidate

end Kernel

end BeeAgent.Structure
