import BeeAgent.Kernel.Accounting

/-! The reconciler that records every structure it resolves, has the kernel switch to it, and keeps
the structure that is active; and the active structure as the log tells it. -/
namespace BeeAgent.Structure
open Transition Machine

namespace StructureEvent

def resolved? : StructureEvent → Option EffectiveStructure
  | .resolved structure_ => some structure_
  | .lifecycle _ => none

/-- The digest that an event makes the active one. -/
def activeDigest? : StructureEvent → Option String
  | .lifecycle (.activated _ digest) | .lifecycle (.updated _ digest) => some digest
  | _ => none

end StructureEvent

def activeDigest? (log : List StructureEvent) : Option String :=
  (log.filterMap StructureEvent.activeDigest?).getLast?

def readActiveStructure (log : List StructureEvent) : Except String (Option EffectiveStructure) :=
  match activeDigest? log with
  | none => .ok none
  | some digest =>
    match (log.filterMap StructureEvent.resolved?).reverse.find? (·.digest == digest) with
    | none => .error ("Activated structure '" ++ digest ++ "' has no structure.resolved event")
    | some structure_ => .ok (some structure_)

/-- Nothing is appended when the last resolved structure has the same digest. -/
def appendResolvedStructure (log : List StructureEvent) (structure_ : EffectiveStructure) :
    List StructureEvent :=
  match (log.filterMap StructureEvent.resolved?).getLast? with
  | some latest =>
    if latest.digest = structure_.digest then log else log ++ [.resolved structure_]
  | none => log ++ [.resolved structure_]

/-- Where a call of the reconciler stands; a call of the kernel goes by its number. -/
inductive Stage where
  | resolving
  | building
  | reporting (error : KernelError)
  | reconciling (task : ℕ)

/-- A call, with the active generation it finds and the version of that generation. -/
structure Attempt where
  desired : EffectiveStructure
  before : Option (ℕ × String)

structure Outcome where
  attempt : Attempt
  task : Option ℕ
  result : Except KernelError ReconcileResult

structure StructureReconciler where
  kernel : Kernel
  activeStructure : Option EffectiveStructure
  call : Option (Attempt × Stage)
  /-- How the last call settled. -/
  last : Option Outcome

namespace StructureReconciler
variable (o : KernelOptions)

def initial (log : List StructureEvent) : StructureReconciler :=
  { kernel := .initial log, activeStructure := none, call := none, last := none }

/-- A call begins; the next one waits until it has settled. -/
def reconcile (r : StructureReconciler) (desired : EffectiveStructure) :
    Option StructureReconciler :=
  match r.call with
  | some _ => none
  | none =>
    let before := r.kernel.active.bind fun g =>
      (r.kernel.generations g).map fun gen => (g, gen.structureVersion)
    some { r with call := some (⟨desired, before⟩, .resolving) }

def settled (r : StructureReconciler) (attempt : Attempt) (task : Option ℕ)
    (result : Except KernelError ReconcileResult) : StructureReconciler :=
  { r with call := none, last := some ⟨attempt, task, result⟩
           activeStructure := match result with
             | .error _ | .ok (.restartRequired _) => r.activeStructure
             | .ok _ => some attempt.desired }

/-- The await of the current call settles. `plugins` is what `createGraph` builds. -/
def advance (r : StructureReconciler) (attempt : Attempt) (stage : Stage)
    (plugins : List RuntimePlugin) (await : Await) : Option StructureReconciler :=
  match stage, await with
  | .resolving, .ok =>
    let log := appendResolvedStructure r.kernel.log attempt.desired
    some { r with kernel := { r.kernel with log }, call := some (attempt, .building) }
  | .resolving, .emitFailed recorded message =>
    let log := if recorded then appendResolvedStructure r.kernel.log attempt.desired
      else r.kernel.log
    some (({ r with kernel := { r.kernel with log } } : StructureReconciler).settled attempt none
      (.error (.thrown message)))
  | .building, .ok =>
    let graph : PluginGraph := ⟨attempt.desired.digest, plugins⟩
    some { r with kernel := r.kernel.reconcile o graph
                  call := some (attempt, .reconciling r.kernel.nextTask) }
  | .building, .thrown message =>
    some { r with call := some (attempt, .reporting (.thrown message)) }
  | .reporting error, await =>
    -- the generation of this event has an id of its own
    (r.kernel.emit (.failed r.kernel.nextTask attempt.desired.digest error) await).map
      fun (kernel, result) =>
        ({ r with kernel } : StructureReconciler).settled attempt none
          (result.bind fun _ => .error error)
  | .reconciling t, await =>
    (r.kernel.tasks t).bind fun task =>
      (r.kernel.advance o t task.graph task.pc await).map fun kernel => { r with kernel }
  | _, _ => none

/-- The call of the kernel has settled. -/
def finish (r : StructureReconciler) (attempt : Attempt) (stage : Stage) :
    Option StructureReconciler :=
  match stage with
  | .reconciling t => (r.kernel.tasks t).bind fun task =>
    match task.pc with
    | .settled result => some (r.settled attempt (some t) result)
    | _ => none
  | _ => none

end StructureReconciler

inductive ReconcilerInput where
  | reconcile (desired : EffectiveStructure)
  | advance (plugins : List RuntimePlugin) (await : Await)
  | finish
  | beginTurn
  | release (lease : ℕ)
  | dispose (generation : ℕ) (await : Await)

variable (o : KernelOptions)

def reconcilerStep (r : StructureReconciler) : ReconcilerInput → Option StructureReconciler
  | .reconcile desired => r.reconcile desired
  | .advance plugins await =>
    r.call.bind fun call => r.advance o call.1 call.2 plugins await
  | .finish => r.call.bind fun call => r.finish call.1 call.2
  | .beginTurn => (kernelStep o r.kernel .beginTurn).map fun kernel => { r with kernel }
  | .release l => (kernelStep o r.kernel (.release l)).map fun kernel => { r with kernel }
  | .dispose g await =>
    (kernelStep o r.kernel (.dispose g await)).map fun kernel => { r with kernel }

def structureReconciler : Machine StructureReconciler ReconcilerInput := ⟨reconcilerStep o⟩

/-- The call stands at an emit of `generation.activated`, `.draining` or `.updated`. -/
def Pc.switched : Pc → Bool
  | .activated _ | .draining _ | .updated _ => true
  | _ => false

/-- No emit behind the switch fails. -/
def announced (r : StructureReconciler) : ReconcilerInput → Prop
  | .advance _ (.emitFailed ..) => ∀ attempt t task, r.call = some (attempt, .reconciling t) →
      r.kernel.tasks t = some task → task.pc.switched = false
  | _ => True

end BeeAgent.Structure
