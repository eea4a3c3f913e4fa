import BeeAgent.Kernel.Generation
import BeeAgent.Transition.Machine
import Mathlib.Logic.Function.Basic

/-! The kernel as a machine: any number of `reconcile` calls that interleave between their awaits,
with turns that begin and leases that are released in between. A generation has the number of the
`reconcile` call that builds it. -/
namespace BeeAgent.Structure
open BeeAgent.Data

inductive KernelLifecycleEvent where
  | prepared (generationId : ℕ) (structureVersion : String)
  | activated (generationId : ℕ) (structureVersion : String)
  | updated (generationId : ℕ) (structureVersion : String)
  | failed (generationId : ℕ) (structureVersion : String) (error : KernelError)
  | draining (generationId : ℕ) (structureVersion : String)
  | disposed (generationId : ℕ) (structureVersion : String)
  | restartRequired (generationId : ℕ) (structureVersion : String) (pluginIds : List String)

/-- A structure by its digest, which the rest of it determines. -/
structure EffectiveStructure where
  digest : String
  content : Value

/-- What the structure stream holds: resolved structures, and the kernel's transitions. -/
inductive StructureEvent where
  | resolved (structure_ : EffectiveStructure)
  | lifecycle (event : KernelLifecycleEvent)

structure KernelOptions where
  sha256 : String → String
  bootstrapServices : List String := []

@[ext]
structure Lease where
  generation : ℕ
  released : Bool := false
  deriving DecidableEq, Repr

inductive ReconcileResult where
  | activated (generation : ℕ) (previous : Option ℕ)
  | unchanged (generation : ℕ)
  | updated (generation : ℕ)
  | restartRequired (pluginIds : List String)
  deriving DecidableEq, Repr

/-- The await at which `updateInPlace` stands. `updated` holds the positions of the plugins whose
fibers were updated, with what they were before. -/
inductive UpdatePc where
  | updating (index : ℕ) (updated : List (ℕ × RuntimePlugin))
  | settling (index : ℕ) (updated : List (ℕ × RuntimePlugin))
  | checking (index : ℕ) (updated : List (ℕ × RuntimePlugin))
  | rollingBack (remaining : List (ℕ × RuntimePlugin)) (error : KernelError)
      (failures : List String)
  | resettling (index : ℕ) (error : KernelError) (failures : List String)

/-- The await at which a `reconcile` stands. The candidate of a call has its number. -/
inductive Pc where
  | announcing (generation : ℕ) (pluginIds : List String)
  | updating (generation : ℕ) (ordered : List RuntimePlugin) (pc : UpdatePc)
  | updateFailed (generation : ℕ) (error : KernelError)
  | updated (generation : ℕ)
  | activating (remaining : List RuntimePlugin)
  | probing (remaining : List RuntimePlugin)
  | discarding (error : KernelError)
  | prepared
  | activated (previous : Option ℕ)
  | draining (previous : ℕ)
  | drained (previous : ℕ)
  | failing (error : KernelError)
  | settled (result : Except KernelError ReconcileResult)

structure Reconcile where
  graph : PluginGraph
  pc : Pc

/-- How an awaited operation settles. A failed emit may have been recorded before it failed. -/
inductive Await where
  | ok
  | thrown (message : String)
  | unhealthy (detail : Option String)
  | cleaned (errors : List String)
  | emitFailed (recorded : Bool) (message : String)

structure Kernel where
  generations : ℕ → Option Generation
  active : Option ℕ
  restartRequiredPlugins : List String
  leases : List Lease
  tasks : ℕ → Option Reconcile
  nextTask : ℕ
  /-- What the listener recorded, oldest first. -/
  log : List StructureEvent

def Kernel.initial (log : List StructureEvent) : Kernel :=
  { generations := fun _ => none, active := none, restartRequiredPlugins := [], leases := [],
    tasks := fun _ => none, nextTask := 0, log }

section Update
variable (sha256 : String → String)

inductive UpdateNext where
  | goto (gen : Generation) (pc : UpdatePc)
  | commit (gen : Generation)
  | failed (gen : Generation) (error : KernelError)

def setConfig (gen : Generation) (index : ℕ) (config : Option Value) : Generation :=
  { gen with mounted := gen.mounted.modify index fun m => { m with config } }

def setSpec (gen : Generation) (index : ℕ) (spec : RuntimePlugin) : Generation :=
  { gen with mounted := gen.mounted.modify index fun m => { m with spec } }

/-- The first plugin from a position on whose descriptor changes, and what it becomes. -/
def changedFrom (ordered : List RuntimePlugin) (mounted : List MountedPlugin) (index : ℕ) :
    Option (ℕ × MountedPlugin × RuntimePlugin) :=
  (mounted.zipIdx.drop index).findSome? fun m =>
    match byId ordered m.1.spec.id with
    | none => none
    | some after =>
      if pluginDescriptorDigest sha256 after = pluginDescriptorDigest sha256 m.1.spec then none
      else some (m.2, m.1, after)

/-- The end of `updateInPlace`. -/
def commitUpdate (graph : PluginGraph) (ordered : List RuntimePlugin) (gen : Generation) :
    Generation :=
  { gen with plugins := ordered, structureVersion := graph.structureVersion,
             graphDigest := pluginGraphDigest sha256 graph.plugins }

def settleFrom (graph : PluginGraph) (ordered : List RuntimePlugin) (gen : Generation)
    (index : ℕ) (updated : List (ℕ × RuntimePlugin)) : UpdateNext :=
  if index < gen.mounted.length then .goto gen (.settling index updated)
  else .commit (commitUpdate sha256 graph ordered gen)

def updateFrom (graph : PluginGraph) (ordered : List RuntimePlugin) (gen : Generation)
    (index : ℕ) (updated : List (ℕ × RuntimePlugin)) : UpdateNext :=
  match changedFrom sha256 ordered gen.mounted index with
  | some (i, mounted, after) =>
    .goto (setConfig gen i after.config) (.updating i (updated ++ [(i, mounted.spec)]))
  | none => settleFrom sha256 graph ordered gen 0 updated

def resettleFrom (gen : Generation) (index : ℕ) (error : KernelError) (failures : List String) :
    UpdateNext :=
  if index < gen.mounted.length then .goto gen (.resettling index error failures)
  else .failed gen (if failures = [] then error else .rollbackFailed error failures)

/-- The rollback: each updated fiber gets its configuration back, newest first. -/
def rollBack (gen : Generation) (remaining : List (ℕ × RuntimePlugin)) (error : KernelError)
    (failures : List String) : UpdateNext :=
  match remaining with
  | [] => resettleFrom gen 0 error failures
  | (i, before) :: _ => .goto (setConfig gen i before.config) (.rollingBack remaining error failures)

def updateStep (graph : PluginGraph) (ordered : List RuntimePlugin) (gen : Generation) :
    UpdatePc → Await → Option UpdateNext
  | .updating index updated, .ok =>
    let gen := match (gen.mounted[index]?).bind fun m => byId ordered m.spec.id with
      | some after => setSpec gen index after
      | none => gen
    some (updateFrom sha256 graph ordered gen (index + 1) updated)
  | .settling index updated, .ok => some (.goto gen (.checking index updated))
  | .checking index updated, .ok => some (settleFrom sha256 graph ordered gen (index + 1) updated)
  | .checking index updated, .unhealthy detail =>
    let pluginId := ((gen.mounted[index]?).map fun m => m.spec.id).getD ""
    some (rollBack gen updated.reverse
      (.thrown (detail.getD ("Plugin '" ++ pluginId ++ "' is unhealthy"))) [])
  | .updating _ updated, .thrown message | .settling _ updated, .thrown message
  | .checking _ updated, .thrown message =>
    some (rollBack gen updated.reverse (.thrown message) [])
  | .rollingBack ((index, before) :: rest) error failures, .ok =>
    some (rollBack (setSpec gen index before) rest error failures)
  | .rollingBack (_ :: rest) error failures, .thrown message =>
    some (rollBack gen rest error (failures ++ [message]))
  | .resettling index error failures, .ok => some (resettleFrom gen (index + 1) error failures)
  | .resettling index error failures, .thrown message =>
    some (resettleFrom gen (index + 1) error (failures ++ [message]))
  | _, _ => none

end Update

namespace Kernel
variable (o : KernelOptions)

def setGeneration (k : Kernel) (g : ℕ) (gen : Generation) : Kernel :=
  { k with generations := Function.update k.generations g (some gen) }

@[simp] theorem setGeneration_self (k : Kernel) (g : ℕ) (gen : Generation) :
    (k.setGeneration g gen).generations g = some gen :=
  Function.update_self ..

theorem setGeneration_of_ne {g h : ℕ} (hne : h ≠ g) (k : Kernel) (gen : Generation) :
    (k.setGeneration g gen).generations h = k.generations h :=
  Function.update_of_ne hne ..

def setPc (k : Kernel) (t : ℕ) (graph : PluginGraph) (pc : Pc) : Kernel :=
  { k with tasks := Function.update k.tasks t (some ⟨graph, pc⟩) }

/-- `#emit`, with the await of its listener. -/
def emit (k : Kernel) (event : KernelLifecycleEvent) :
    Await → Option (Kernel × Except KernelError Unit)
  | .ok => some ({ k with log := k.log ++ [.lifecycle event] }, .ok ())
  | .emitFailed recorded message =>
    some (if recorded then { k with log := k.log ++ [.lifecycle event] } else k,
      .error (.thrown message))
  | _ => none

def begin_ (k : Kernel) (graph : PluginGraph) (pc : Pc) : Kernel :=
  { k.setPc k.nextTask graph pc with nextTask := k.nextTask + 1 }

def prepareFrom (remaining : List RuntimePlugin) : Pc :=
  match remaining with
  | [] => .prepared
  | _ :: _ => .activating remaining

def startCandidate (k : Kernel) (graph : PluginGraph) : Kernel :=
  match Generation.new o.sha256 o.bootstrapServices graph with
  | .error error => k.begin_ graph (.settled (.error error))
  | .ok gen => (k.setGeneration k.nextTask gen).begin_ graph (prepareFrom gen.plugins)

/-- Where the live update of generation `g` goes on. -/
def updateOn (k : Kernel) (t : ℕ) (graph : PluginGraph) (g : ℕ) (ordered : List RuntimePlugin) :
    UpdateNext → Kernel
  | .goto gen pc => (k.setGeneration g gen).setPc t graph (.updating g ordered pc)
  | .commit gen =>
    { (k.setGeneration g gen).setPc t graph (.updated (k.active.getD g)) with
      restartRequiredPlugins := [] }
  | .failed gen error =>
    (k.setGeneration g gen).setPc t graph (.updateFailed (k.active.getD g) error)

def startUpdate (k : Kernel) (graph : PluginGraph) (g : ℕ) (gen : Generation) : Kernel :=
  match validateAndOrder graph.plugins o.bootstrapServices with
  | .error error => k.begin_ graph (.updateFailed g error)
  | .ok ordered =>
    let plan := createReconcilePlan o.sha256 gen.plugins ordered
    if plan.kind ≠ .liveUpdate ∨ gen.references ≠ 0 then
      k.begin_ graph (.updateFailed g .notEligible)
    else
      { k.updateOn k.nextTask graph g ordered (updateFrom o.sha256 graph ordered gen 0 []) with
        nextTask := k.nextTask + 1 }

/-- `reconcile` up to its first await. -/
def reconcile (k : Kernel) (graph : PluginGraph) : Kernel :=
  match k.active.bind fun g => (k.generations g).map fun gen => (g, gen) with
  | none => k.startCandidate o graph
  | some (g, gen) =>
    if gen.structureVersion = graph.structureVersion then
      if gen.graphDigest ≠ pluginGraphDigest o.sha256 graph.plugins then
        k.begin_ graph (.settled (.error (.structureVersionCollision graph.structureVersion)))
      else
        { k.begin_ graph (.settled (.ok (.unchanged g))) with restartRequiredPlugins := [] }
    else
      let plan := createReconcilePlan o.sha256 gen.plugins graph.plugins
      if plan.tierC ≠ [] then
        { k.begin_ graph (.announcing g plan.tierC) with restartRequiredPlugins := plan.tierC }
      else if plan.kind = .liveUpdate ∧ gen.references = 0 then k.startUpdate o graph g gen
      else k.startCandidate o graph

/-- The catch clause of `prepare`. -/
def prepareFailed (k : Kernel) (t : ℕ) (graph : PluginGraph) (gen : Generation)
    (error : KernelError) : Kernel :=
  (k.setGeneration t { gen with state := .failed }.dispose).setPc t graph (.discarding error)

/-- From the emit of `generation.prepared` to that of `generation.activated`. -/
def activate (k : Kernel) (t : ℕ) (graph : PluginGraph) (gen : Generation) : Kernel :=
  if gen.state ≠ .preparing then
    k.setPc t graph (.failing (.thrown "Cannot activate generation"))
  else
    { (k.setGeneration t { gen with state := .active }).setPc t graph (.activated k.active) with
      active := some t
      restartRequiredPlugins := [] }

/-- `previous.drain()`, and the end of `reconcile` when there is nothing to await. -/
def drain (k : Kernel) (t : ℕ) (graph : PluginGraph) (p : ℕ) (gen : Generation) : Kernel :=
  (k.setGeneration p gen.drain).setPc t graph
    (if gen.state ≠ .disposed ∧ gen.references = 0 then .drained p
      else .settled (.ok (.activated t (some p))))

def disposalError? : Disposal → Option (Option KernelError)
  | .done [] => some none
  | .done failures => some (some (.disposeFailed failures))
  | _ => none

/-- One await of a `reconcile` settles, and the code runs on to the next one. -/
def advance (k : Kernel) (t : ℕ) (graph : PluginGraph) (pc : Pc) (await : Await) : Option Kernel :=
  match pc with
  | .announcing g pluginIds =>
    (k.emit (.restartRequired g graph.structureVersion pluginIds) await).map fun (k, result) =>
      k.setPc t graph (.settled (result.map fun _ => .restartRequired pluginIds))
  | .updating g ordered pc =>
    (k.generations g).bind fun gen =>
      (updateStep o.sha256 graph ordered gen pc await).map (k.updateOn t graph g ordered)
  | .updateFailed g error =>
    (k.emit (.failed g graph.structureVersion error) await).map fun (k, result) =>
      k.setPc t graph (.settled (result.bind fun _ => .error error))
  | .updated g =>
    (k.emit (.updated g graph.structureVersion) await).map fun (k, result) =>
      k.setPc t graph (.settled (result.map fun _ => .updated (k.active.getD g)))
  | .activating [] | .probing [] => none
  | .activating (plugin :: rest) =>
    (k.generations t).bind fun gen =>
      match await with
      | .ok => some (k.setPc t graph (.probing (plugin :: rest)))
      | .thrown message =>
        some (k.prepareFailed t graph gen (.pluginActivation plugin.id message))
      | _ => none
  | .probing (plugin :: rest) =>
    (k.generations t).bind fun gen =>
      match await with
      | .ok =>
        some ((k.setGeneration t
          { gen with mounted := gen.mounted ++ [⟨plugin, plugin.config⟩] }).setPc t graph
            (prepareFrom rest))
      | .unhealthy detail =>
        some (k.prepareFailed t graph gen (.pluginActivation plugin.id (detail.getD "unhealthy")))
      | .thrown message => some (k.prepareFailed t graph gen (.thrown message))
      | _ => none
  | .discarding error =>
    match await with
    | .ok =>
      ((k.generations t).bind fun gen => disposalError? gen.disposal).map fun disposed =>
        k.setPc t graph (.failing (disposed.getD error))
    | _ => none
  | .prepared =>
    (k.generations t).bind fun gen =>
      (k.emit (.prepared t gen.structureVersion) await).map fun (k, result) =>
        match result with
        | .ok _ => k.activate t graph gen
        | .error error => k.setPc t graph (.failing error)
  | .activated previous =>
    (k.generations t).bind fun gen =>
      (k.emit (.activated t gen.structureVersion) await).map fun (k, result) =>
        match result, previous with
        | .ok _, none => k.setPc t graph (.settled (.ok (.activated t none)))
        | .ok _, some p => k.setPc t graph (.draining p)
        | .error error, _ => k.setPc t graph (.failing error)
  | .draining p =>
    (k.generations p).bind fun gen =>
      (k.emit (.draining p gen.structureVersion) await).map fun (k, result) =>
        match result with
        | .ok _ => k.drain t graph p gen
        | .error error => k.setPc t graph (.failing error)
  | .drained p =>
    match await with
    | .ok =>
      -- a failed disposal of the previous generation is only logged
      ((k.generations p).bind fun gen => disposalError? gen.disposal).map fun _ =>
        k.setPc t graph (.settled (.ok (.activated t (some p))))
    | _ => none
  | .failing error =>
    (k.generations t).bind fun gen =>
      (k.emit (.failed t gen.structureVersion error) await).map fun (k, result) =>
        k.setPc t graph (.settled (result.bind fun _ => .error error))
  | .settled _ => none

/-- One await of the disposal of generation `g`. -/
def disposeStep (k : Kernel) (g : ℕ) (gen : Generation) : Await → Option Kernel
  | .cleaned errors =>
    match gen.disposal with
    | .fibers (_ :: rest) failures => some (k.setGeneration g (gen.disposeOn rest (failures ++ errors)))
    | _ => none
  | .thrown message =>
    match gen.disposal with
    | .fibers (_ :: rest) failures =>
      some (k.setGeneration g (gen.disposeOn rest (failures ++ [message])))
    | _ => none
  | await =>
    match gen.disposal with
    | .emitting failures =>
      (k.emit (.disposed g gen.structureVersion) await).map fun (k, result) =>
        k.setGeneration g { gen with disposal := .done (match result with
          | .ok _ => failures
          | .error _ => failures ++ ["The lifecycle listener failed"]) }
    | _ => none

/-- `beginTurn`; it throws when no generation is active. -/
def beginTurn (k : Kernel) : Option Kernel :=
  k.active.bind fun g => (k.generations g).bind fun gen => gen.acquire.map fun gen =>
    { k.setGeneration g gen with leases := k.leases ++ [⟨g, false⟩] }

def releaseLease (k : Kernel) (l : ℕ) : Option Kernel :=
  (k.leases[l]?).bind fun lease =>
    if lease.released then some k
    else (k.generations lease.generation).map fun gen =>
      { k.setGeneration lease.generation gen.release with
        leases := k.leases.set l { lease with released := true } }

end Kernel

inductive KernelInput where
  | reconcile (graph : PluginGraph)
  | advance (task : ℕ) (await : Await)
  | dispose (generation : ℕ) (await : Await)
  | beginTurn
  | release (lease : ℕ)

variable (o : KernelOptions)

def kernelStep (k : Kernel) : KernelInput → Option Kernel
  | .reconcile graph => some (k.reconcile o graph)
  | .advance t await =>
    (k.tasks t).bind fun task => k.advance o t task.graph task.pc await
  | .dispose g await => (k.generations g).bind fun gen => k.disposeStep g gen await
  | .beginTurn => k.beginTurn
  | .release l => k.releaseLease l

def kernel : Transition.Machine Kernel KernelInput := ⟨kernelStep o⟩

end BeeAgent.Structure
