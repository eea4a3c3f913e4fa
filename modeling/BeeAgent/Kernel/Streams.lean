import BeeAgent.Kernel.Lineage

/-! The streams that the reconciler writes, over any number of processes, and the lineage that a
replay of them builds. -/
namespace BeeAgent.Structure
open Transition Machine

/-- The streams that processes write one after another, each with a reconciler of its own. -/
inductive Stream : List StructureEvent → Prop where
  | empty : Stream []
  | run {o log r} : Stream log → (structureReconciler o).Reaches anyStep (.initial log) r →
      Stream r.kernel.log

/-- Whatever the kernel has at hand was resolved before. -/
structure Kernel.Sourced (k : Kernel) : Prop where
  log : Traced k.log
  generations : ∀ g gen, k.generations g = some gen → Resolved k.log gen.structureVersion
  tasks : ∀ t task, k.tasks t = some task → Resolved k.log task.graph.structureVersion

section Kernel
variable {o : KernelOptions} {k k' : Kernel} {t g : ℕ} {graph : PluginGraph} {pc : Pc}
  {gen : Generation} {await : Await} {event : KernelLifecycleEvent}

namespace Kernel.Sourced

theorem set (h : k.Sourced) (g : ℕ) (gen : Generation)
    (hresolved : Resolved k.log gen.structureVersion) : (k.setGeneration g gen).Sourced := by
  refine ⟨h.log, fun g' gen' hgen' => ?_, h.tasks⟩
  by_cases hg : g' = g
  · subst hg
    rw [setGeneration_self] at hgen'
    exact Option.some.inj hgen' ▸ hresolved
  · rw [setGeneration_of_ne hg] at hgen'
    exact h.generations g' gen' hgen'

theorem setPc (h : k.Sourced) (t : ℕ) (pc : Pc)
    (hresolved : Resolved k.log graph.structureVersion) :
    (k.setPc t graph pc).Sourced := by
  refine ⟨h.log, h.generations, fun t' task htask => ?_⟩
  change Function.update k.tasks t (some ⟨graph, pc⟩) t' = some task at htask
  by_cases ht : t' = t
  · subst ht
    rw [Function.update_self] at htask
    exact Option.some.inj htask ▸ hresolved
  · rw [Function.update_of_ne ht] at htask
    exact h.tasks t' task htask

theorem emit {result : Except KernelError Unit} (h : k.Sourced)
    (hk' : k.emit event await = some (k', result))
    (hresolved : Resolved k.log event.structureVersion) :
    k'.Sourced ∧ k.log <+: k'.log := by
  obtain ⟨rfl | rfl, -⟩ := emit_log hk'
  · exact ⟨h, List.prefix_rfl⟩
  · exact ⟨⟨.lifecycle h.log hresolved, fun g gen hgen => (h.generations g gen hgen).append _,
      fun t task htask => (h.tasks t task htask).append _⟩, List.prefix_append ..⟩

theorem emit_then {next : Kernel × Except KernelError Unit → Kernel} (h : k.Sourced)
    (hk' : (k.emit event await).map next = some k')
    (hresolved : Resolved k.log event.structureVersion)
    (hgraph : Resolved k.log graph.structureVersion)
    (hnext : ∀ k₁ result, k₁.generations = k.generations → k₁.Sourced →
      Resolved k₁.log graph.structureVersion → (next (k₁, result)).Sourced) : k'.Sourced := by
  obtain ⟨⟨k₁, result⟩, hemit, rfl⟩ := Option.map_eq_some_iff.mp hk'
  obtain ⟨hsourced, hlog⟩ := h.emit hemit hresolved
  obtain ⟨log, rfl⟩ := emit_cases hemit
  exact hnext _ result rfl hsourced (hgraph.mono hlog)

theorem updateOn (h : k.Sourced) (hgraph : Resolved k.log graph.structureVersion)
    (hgen : k.generations g = some gen) {ordered : List RuntimePlugin} {next : UpdateNext}
    (hnext : next.Versioned graph gen) : (k.updateOn t graph g ordered next).Sourced := by
  have hresolved := h.generations g gen hgen
  cases next with
  | goto gen' pc => exact (h.set g gen' (hnext.symm ▸ hresolved)).setPc t _ hgraph
  | failed gen' error => exact (h.set g gen' (hnext.symm ▸ hresolved)).setPc t _ hgraph
  | commit gen' =>
    have hset := (h.set g gen' (hnext.symm ▸ hgraph)).setPc t
      (.updated (k.active.getD g)) hgraph
    exact ⟨hset.log, hset.generations, hset.tasks⟩

theorem begin_ (h : k.Sourced) (pc : Pc) (hgraph : Resolved k.log graph.structureVersion) :
    (k.begin_ graph pc).Sourced :=
  have hset := h.setPc k.nextTask pc hgraph
  ⟨hset.log, hset.generations, hset.tasks⟩

theorem startCandidate (h : k.Sourced) (hgraph : Resolved k.log graph.structureVersion) :
    (k.startCandidate o graph).Sourced := by
  unfold Kernel.startCandidate
  split
  · exact h.begin_ _ hgraph
  · next gen hnew =>
    obtain ⟨-, -, -, hversion, -⟩ := Generation.new_ok hnew
    exact (h.set _ gen (hversion.symm ▸ hgraph)).begin_ _ hgraph

theorem reconcile (h : k.Sourced) (hgraph : Resolved k.log graph.structureVersion) :
    (k.reconcile o graph).Sourced := by
  unfold Kernel.reconcile
  split
  · exact h.startCandidate hgraph
  next g gen hactive =>
  obtain ⟨g', -, hgen⟩ := Option.bind_eq_some_iff.mp hactive
  obtain ⟨gen', hgen, heq⟩ := Option.map_eq_some_iff.mp hgen
  cases heq
  -- the list of due restarts does not matter
  have hother : ∀ k' : Kernel, k'.Sourced → ∀ due n,
      ({ k' with restartRequiredPlugins := due, nextTask := n } : Kernel).Sourced :=
    fun k' hk' _ _ => ⟨hk'.log, hk'.generations, hk'.tasks⟩
  split
  · split
    · exact h.begin_ _ hgraph
    · exact hother _ (h.begin_ _ hgraph) _ _
  simp only
  split
  · exact hother _ (h.begin_ _ hgraph) _ _
  split
  · unfold Kernel.startUpdate
    split
    · exact h.begin_ _ hgraph
    simp only
    split
    · exact h.begin_ _ hgraph
    · exact hother _ (h.updateOn hgraph hgen (updateFrom_versioned rfl ..)) _ _
  · exact h.startCandidate hgraph

theorem prepareFailed (h : k.Sourced) (hgraph : Resolved k.log graph.structureVersion)
    (hgen : k.generations t = some gen) (error : KernelError) :
    (k.prepareFailed t graph gen error).Sourced :=
  (h.set t _ ((Generation.dispose_structureVersion _).symm ▸ h.generations t gen hgen)).setPc t _
    hgraph

theorem advance (h : k.Sourced) (htask : k.tasks t = some ⟨graph, pc⟩)
    (hk' : k.advance o t graph pc await = some k') : k'.Sourced := by
  have hgraph : Resolved k.log graph.structureVersion := h.tasks t _ htask
  cases pc with
  | announcing | updateFailed | updated =>
    exact h.emit_then hk' hgraph hgraph fun k₁ result _ h₁ hgraph₁ => h₁.setPc t _ hgraph₁
  | updating g ordered upc =>
    obtain ⟨gen, hgen, hk'⟩ := Option.bind_eq_some_iff.mp hk'
    obtain ⟨next, hnext, rfl⟩ := Option.map_eq_some_iff.mp hk'
    exact h.updateOn hgraph hgen (updateStep_versioned hnext)
  | activating remaining =>
    cases remaining with
    | nil => cases hk'
    | cons plugin rest =>
      obtain ⟨gen, hgen, hk'⟩ := Option.bind_eq_some_iff.mp hk'
      split at hk' <;> cases hk'
      · exact h.setPc t _ hgraph
      · exact h.prepareFailed hgraph hgen _
  | probing remaining =>
    cases remaining with
    | nil => cases hk'
    | cons plugin rest =>
      obtain ⟨gen, hgen, hk'⟩ := Option.bind_eq_some_iff.mp hk'
      split at hk' <;> cases hk'
      · have hset := h.set t { gen with mounted := gen.mounted ++ [⟨plugin, plugin.config⟩] }
          (h.generations t gen hgen)
        exact hset.setPc t _ hgraph
      · exact h.prepareFailed hgraph hgen _
      · exact h.prepareFailed hgraph hgen _
  | discarding | drained =>
    simp only [Kernel.advance] at hk'
    split at hk'
    · obtain ⟨disposed, -, rfl⟩ := Option.map_eq_some_iff.mp hk'
      exact h.setPc t _ hgraph
    · cases hk'
  | prepared =>
    obtain ⟨gen, hgen, hk'⟩ := Option.bind_eq_some_iff.mp hk'
    refine h.emit_then hk' (h.generations t gen hgen) hgraph fun k₁ result hsame h₁ hgraph₁ => ?_
    cases result with
    | error => exact h₁.setPc t _ hgraph₁
    | ok =>
      simp only [Kernel.activate]
      split
      · exact h₁.setPc t _ hgraph₁
      · have hset := (h₁.set t { gen with state := .active }
          (h₁.generations t gen (hsame ▸ hgen))).setPc t (.activated k₁.active) hgraph₁
        exact ⟨hset.log, hset.generations, hset.tasks⟩
  | activated previous =>
    obtain ⟨gen, hgen, hk'⟩ := Option.bind_eq_some_iff.mp hk'
    refine h.emit_then hk' (h.generations t gen hgen) hgraph fun k₁ result _ h₁ hgraph₁ => ?_
    cases result with
    | error => exact h₁.setPc t _ hgraph₁
    | ok => cases previous <;> exact h₁.setPc t _ hgraph₁
  | draining p =>
    obtain ⟨gen, hgen, hk'⟩ := Option.bind_eq_some_iff.mp hk'
    refine h.emit_then hk' (h.generations p gen hgen) hgraph fun k₁ result hsame h₁ hgraph₁ => ?_
    cases result with
    | error => exact h₁.setPc t _ hgraph₁
    | ok =>
      have hresolved := (Generation.drain_structureVersion gen).symm ▸
        h₁.generations p gen (hsame ▸ hgen)
      exact (h₁.set p gen.drain hresolved).setPc t _ hgraph₁
  | failing error =>
    obtain ⟨gen, hgen, hk'⟩ := Option.bind_eq_some_iff.mp hk'
    exact h.emit_then hk' (h.generations t gen hgen) hgraph fun k₁ result _ h₁ hgraph₁ =>
      h₁.setPc t _ hgraph₁
  | settled => cases hk'

theorem dispose (h : k.Sourced) (hgen : k.generations g = some gen)
    (hk' : k.disposeStep g gen await = some k') : k'.Sourced ∧ k.log <+: k'.log := by
  have hresolved := h.generations g gen hgen
  have hdisposeOn : ∀ rest failures,
      (gen.disposeOn rest failures).structureVersion = gen.structureVersion := by
    intro rest failures
    cases rest <;> rfl
  unfold Kernel.disposeStep at hk'
  split at hk'
  · split at hk' <;> cases hk'
    exact ⟨h.set g _ (by rw [hdisposeOn]; exact hresolved), List.prefix_rfl⟩
  · split at hk' <;> cases hk'
    exact ⟨h.set g _ (by rw [hdisposeOn]; exact hresolved), List.prefix_rfl⟩
  · split at hk'
    · obtain ⟨⟨k₁, result⟩, hemit, rfl⟩ := Option.map_eq_some_iff.mp hk'
      obtain ⟨hsourced, hlog⟩ := h.emit hemit hresolved
      exact ⟨hsourced.set g _ (hresolved.mono hlog), hlog⟩
    · cases hk'

theorem beginTurn (h : k.Sourced) (hk' : k.beginTurn = some k') :
    k'.Sourced ∧ k'.log = k.log := by
  obtain ⟨g, -, hk'⟩ := Option.bind_eq_some_iff.mp hk'
  obtain ⟨gen, hgen, hk'⟩ := Option.bind_eq_some_iff.mp hk'
  obtain ⟨gen', hgen', rfl⟩ := Option.map_eq_some_iff.mp hk'
  have hversion : gen'.structureVersion = gen.structureVersion := by
    unfold Generation.acquire at hgen'
    split at hgen' <;> cases hgen'
    rfl
  have hset := h.set g gen' (hversion.symm ▸ h.generations g gen hgen)
  exact ⟨⟨hset.log, hset.generations, hset.tasks⟩, rfl⟩

theorem releaseLease {l : ℕ} (h : k.Sourced) (hk' : k.releaseLease l = some k') :
    k'.Sourced ∧ k'.log = k.log := by
  obtain ⟨lease, -, hk'⟩ := Option.bind_eq_some_iff.mp hk'
  split at hk'
  · cases hk'
    exact ⟨h, rfl⟩
  obtain ⟨gen, hgen, rfl⟩ := Option.map_eq_some_iff.mp hk'
  have hversion : gen.release.structureVersion = gen.structureVersion := by
    unfold Generation.release
    split
    · rfl
    simp only
    split
    · exact Generation.dispose_structureVersion _
    · rfl
  have hset := h.set lease.generation gen.release (hversion.symm ▸ h.generations _ gen hgen)
  exact ⟨⟨hset.log, hset.generations, hset.tasks⟩, rfl⟩

theorem resolve (h : k.Sourced) (structure_ : EffectiveStructure) :
    ({ k with log := appendResolvedStructure k.log structure_ } : Kernel).Sourced := by
  have hnew : ({ k with log := k.log ++ [.resolved structure_] } : Kernel).Sourced :=
    ⟨.resolved structure_ h.log, fun g gen hgen => (h.generations g gen hgen).append _,
      fun t task htask => (h.tasks t task htask).append _⟩
  unfold appendResolvedStructure
  split
  · split
    · exact h
    · exact hnew
  · exact hnew

end Kernel.Sourced

end Kernel

namespace StructureReconciler
variable {o : KernelOptions} {r r' : StructureReconciler} {attempt : Attempt} {stage : Stage}

/-- What the reconciler has at hand was resolved before, from the end of its first await on. -/
structure Sourced (r : StructureReconciler) : Prop where
  kernel : r.kernel.Sourced
  call : ∀ attempt stage, r.call = some (attempt, stage) → stage = .resolving ∨
    Resolved r.kernel.log attempt.desired.digest

theorem Sourced.advance {plugins : List RuntimePlugin} {await : Await} (h : r.Sourced)
    (hcall : r.call = some (attempt, stage))
    (hr' : r.advance o attempt stage plugins await = some r') : r'.Sourced := by
  have hresolved := h.call attempt stage hcall
  cases stage with
  | resolving =>
    cases await with
    | ok =>
      cases hr'
      refine ⟨h.kernel.resolve _, fun attempt' stage' heq => ?_⟩
      cases heq
      exact .inr (resolved_appendResolvedStructure ..)
    | emitFailed recorded message =>
      cases hr'
      refine ⟨?_, nofun⟩
      cases recorded with
      | false => exact h.kernel
      | true => exact h.kernel.resolve _
    | thrown | unhealthy | cleaned => cases hr'
  | building =>
    have hresolved := hresolved.resolve_left nofun
    cases await with
    | ok =>
      cases hr'
      refine ⟨h.kernel.reconcile hresolved, fun attempt' stage' heq => ?_⟩
      cases heq
      refine .inr ?_
      rw [Kernel.reconcile_log]
      exact hresolved
    | thrown message =>
      cases hr'
      refine ⟨h.kernel, fun attempt' stage' heq => ?_⟩
      cases heq
      exact .inr hresolved
    | unhealthy | cleaned | emitFailed => cases hr'
  | reporting error =>
    have hresolved := hresolved.resolve_left nofun
    obtain ⟨⟨k, result⟩, hemit, rfl⟩ := Option.map_eq_some_iff.mp hr'
    exact ⟨(h.kernel.emit hemit hresolved).1, nofun⟩
  | reconciling t =>
    have hresolved := hresolved.resolve_left nofun
    obtain ⟨task, htask, hr'⟩ := Option.bind_eq_some_iff.mp hr'
    obtain ⟨k, hk, rfl⟩ := Option.map_eq_some_iff.mp hr'
    refine ⟨h.kernel.advance htask hk, fun attempt' stage' heq => ?_⟩
    cases hcall.symm.trans heq
    exact .inr (hresolved.mono (Kernel.advance_log hk))

theorem Sourced.beside {k : Kernel} (h : r.Sourced) (hk : k.Sourced)
    (hlog : r.kernel.log <+: k.log) : ({ r with kernel := k } : StructureReconciler).Sourced :=
  ⟨hk, fun attempt stage hcall => (h.call attempt stage hcall).imp_right fun hr => hr.mono hlog⟩

theorem Sourced.step {input : ReconcilerInput} (h : r.Sourced)
    (hr' : reconcilerStep o r input = some r') : r'.Sourced := by
  cases input with
  | reconcile desired =>
    simp only [reconcilerStep, StructureReconciler.reconcile] at hr'
    split at hr' <;> cases hr'
    refine ⟨h.kernel, fun attempt stage heq => ?_⟩
    cases heq
    exact .inl rfl
  | advance plugins await =>
    obtain ⟨⟨attempt, stage⟩, hcall, hr'⟩ := Option.bind_eq_some_iff.mp hr'
    exact h.advance hcall hr'
  | finish =>
    obtain ⟨⟨attempt, stage⟩, hcall, hr'⟩ := Option.bind_eq_some_iff.mp hr'
    unfold StructureReconciler.finish at hr'
    split at hr'
    · obtain ⟨task, -, hr'⟩ := Option.bind_eq_some_iff.mp hr'
      split at hr' <;> cases hr'
      exact ⟨h.kernel, nofun⟩
    · cases hr'
  | beginTurn =>
    obtain ⟨k, hk, rfl⟩ := Option.map_eq_some_iff.mp hr'
    obtain ⟨hsourced, hlog⟩ := h.kernel.beginTurn hk
    exact h.beside hsourced (hlog ▸ List.prefix_rfl)
  | release l =>
    obtain ⟨k, hk, rfl⟩ := Option.map_eq_some_iff.mp hr'
    obtain ⟨hsourced, hlog⟩ := h.kernel.releaseLease hk
    exact h.beside hsourced (hlog ▸ List.prefix_rfl)
  | dispose g await =>
    obtain ⟨k, hk, rfl⟩ := Option.map_eq_some_iff.mp hr'
    obtain ⟨gen, hgen, hk⟩ := Option.bind_eq_some_iff.mp hk
    obtain ⟨hsourced, hlog⟩ := h.kernel.dispose hgen hk
    exact h.beside hsourced hlog

theorem Sourced.initial {log : List StructureEvent} (h : Traced log) :
    (StructureReconciler.initial log).Sourced :=
  ⟨⟨h, nofun, nofun⟩, nofun⟩

theorem Sourced.reaches {log : List StructureEvent} (h : Traced log)
    (hr : (structureReconciler o).Reaches anyStep (.initial log) r) : r.Sourced :=
  hr.invariant (.initial h) fun _ _ _ h _ hs => h.step hs

end StructureReconciler

variable {log : List StructureEvent}

theorem Stream.traced (h : Stream log) : Traced log := by
  induction h with
  | empty => exact .nil
  | run _ hr ih => exact (StructureReconciler.Sourced.reaches ih hr).kernel.log

section Sample

/-- The first structure is activated, and the plugin of the second one does not come up. -/
def failedInputs : List ReconcilerInput :=
  [.reconcile ⟨"1", .null⟩, .advance [] .ok, .advance [] .ok, .advance [] .ok, .advance [] .ok,
    .finish,
    .reconcile ⟨"2", .null⟩, .advance [] .ok, .advance [{ id := "p", version := "1" }] .ok,
    .advance [] (.thrown "missing"), .dispose 1 .ok, .advance [] .ok, .advance [] .ok, .finish]

theorem failed_stream : ∃ log, Stream log ∧ activations log = ["1"] ∧
    (versions log).map EffectiveStructure.digest = ["1", "2"] := by
  obtain ⟨r, hr, hread⟩ := exists_reaches_of_exec_map
    (M := structureReconciler { sha256 := id }) (s := .initial []) failedInputs
    (f := fun r =>
      (activations r.kernel.log, (versions r.kernel.log).map EffectiveStructure.digest))
    (a := (["1"], ["1", "2"])) (by decide +kernel)
  obtain ⟨hacts, hversions⟩ := Prod.mk.inj hread
  exact ⟨r.kernel.log, .run .empty hr, hacts, hversions⟩

end Sample

end BeeAgent.Structure
