import BeeAgent.Kernel.Generation

/-! The preparation of one generation, whatever its plugins, its bootstrap services and its
disposal do, and what is left running when it fails. -/
namespace BeeAgent.Structure

/-- How the await of a plugin's fiber settles. A fiber that waits for a service settles without
`apply`; a plugin that the context refuses has no fiber. -/
inductive Activation where
  | applied
  | waiting
  | threw (message : String)
  | refused (message : String)
  deriving DecidableEq, Repr

/-- How `healthCheck` settles; no check counts as healthy. -/
inductive Health where
  | healthy
  | unhealthy (detail : Option String)
  | threw (message : String)
  deriving DecidableEq, Repr

/-- A disposal that settles leaves the errors of its cleanup. -/
structure PluginBehaviour where
  activation : Activation
  health : Health := .healthy
  disposal : Except String (List String) := .ok []

/-- Plugins go by their place in the order of the generation. `onDisposed` is the error that the
listener rejects with. -/
structure PreparationEnvironment where
  provide : String → Option String := fun _ => none
  plugin : ℕ → PluginBehaviour
  onDisposed : Option KernelError → Option String := fun _ => none

/-- What has happened: the plugins whose `apply` was started, and the fibers that are mounted. -/
structure Preparing where
  started : List ℕ := []
  mounted : List ℕ := []

/-- What `prepare` leaves; `cause` is the error that it failed with, `rejection` the one that it
rejects with. -/
structure Prepared where
  state : GenerationState
  started : List ℕ
  mounted : List ℕ
  disposed : List ℕ := []
  cause : Option KernelError := none
  rejection : Option KernelError := none

def Activation.starts : Activation → Bool
  | .applied | .threw _ => true
  | .waiting | .refused _ => false

section Prepare
variable (e : PreparationEnvironment)

/-- The first service that cannot be provided ends the loop. -/
def provideBootstrap : List String → Option KernelError
  | [] => none
  | name :: names =>
    match e.provide name with
    | some message => some (.thrown message)
    | none => provideBootstrap names

/-- One round of the loop over the plugins. -/
def mountPlugin (p : Preparing) (index : ℕ) (spec : RuntimePlugin) :
    Preparing × Option KernelError :=
  let activation := (e.plugin index).activation
  let started := if activation.starts then p.started ++ [index] else p.started
  match activation with
  | .refused message => (p, some (.thrown message))
  | .threw message => ({ p with started }, some (.pluginActivation spec.id message))
  | .applied | .waiting =>
    match (e.plugin index).health with
    | .healthy => (⟨started, p.mounted ++ [index]⟩, none)
    | .unhealthy detail =>
      ({ p with started }, some (.pluginActivation spec.id (detail.getD "unhealthy")))
    | .threw message => ({ p with started }, some (.thrown message))

def mountFrom (p : Preparing) (index : ℕ) : List RuntimePlugin → Preparing × Option KernelError
  | [] => (p, none)
  | spec :: specs =>
    match mountPlugin e p index spec with
    | (p, some error) => (p, some error)
    | (p, none) => mountFrom p (index + 1) specs

/-- The failures of the fibers' disposal, in the order in which they are disposed. -/
def disposalFailures (fibers : List ℕ) : List String :=
  fibers.flatMap fun index =>
    match (e.plugin index).disposal with
    | .ok errors => errors
    | .error error => [error]

/-- The `AggregateError` of some failures, if there are any. -/
def aggregateError : List String → Option KernelError
  | [] => none
  | failure :: failures => some (.disposeFailed (failure :: failures))

/-- `#dispose`: what it rejects with. -/
def disposeMounted (fibers : List ℕ) : Option KernelError :=
  let failures := disposalFailures e fibers
  aggregateError (failures ++ (e.onDisposed (aggregateError failures)).toList)

def prepare (bootstrap : List String) (plugins : List RuntimePlugin) : Prepared :=
  let (p, error) : Preparing × Option KernelError := match provideBootstrap e bootstrap with
    | some error => ({}, some error)
    | none => mountFrom e {} 0 plugins
  match error with
  | none => { state := .preparing, started := p.started, mounted := p.mounted }
  | some error =>
    { state := .disposed
      started := p.started
      mounted := []
      disposed := p.mounted.reverse
      cause := some error
      rejection := some ((disposeMounted e p.mounted.reverse).getD error) }

end Prepare

/-- Where the preparation fails, every fiber whose `apply` was started is disposed, the last one
first, and what failed is what is reported. -/
def Prepared.LeavesNothing (p : Prepared) : Prop :=
  ∀ cause, p.cause = some cause →
    p.started.reverse.Sublist p.disposed ∧ p.rejection = some cause

namespace PreparationEnvironment
variable (e : PreparationEnvironment)

def Starts (index : ℕ) : Prop := (e.plugin index).activation.starts

/-- The plugin's activation or its health check fails. -/
def Fails (index : ℕ) : Prop :=
  match (e.plugin index).activation with
  | .refused _ | .threw _ => True
  | .applied | .waiting => (e.plugin index).health ≠ .healthy

def Provides (bootstrap : List String) : Prop := ∀ name ∈ bootstrap, e.provide name = none

def FailsAt (bootstrap : List String) (plugins : List RuntimePlugin) (n : ℕ) : Prop :=
  e.Provides bootstrap ∧ n < plugins.length ∧ e.Fails n ∧ ∀ i < n, ¬ e.Fails i

/-- The plugin that fails, if one does, has not been applied yet, those before it are disposed of
without an error, and the listener does not fail. -/
def FailsCleanly (bootstrap : List String) (plugins : List RuntimePlugin) : Prop :=
  (¬ e.Provides bootstrap → e.onDisposed none = none) ∧
    ∀ n, e.FailsAt bootstrap plugins n →
      ¬ e.Starts n ∧ (∀ i < n, (e.plugin i).disposal = .ok []) ∧ e.onDisposed none = none

variable {e} in
theorem FailsAt.unique {bootstrap : List String} {plugins : List RuntimePlugin} {m n : ℕ}
    (hm : e.FailsAt bootstrap plugins m) (hn : e.FailsAt bootstrap plugins n) : m = n := by
  by_contra hne
  obtain hlt | hlt := Nat.lt_or_gt_of_ne hne
  · exact hn.2.2.2 m hlt hm.2.2.1
  · exact hm.2.2.2 n hlt hn.2.2.1

end PreparationEnvironment

/-! ### How far the mounting comes -/

section Mounting
variable {e : PreparationEnvironment} {p : Preparing} {index : ℕ} {spec : RuntimePlugin}

instance : DecidablePred e.Starts := fun index =>
  inferInstanceAs (Decidable ((e.plugin index).activation.starts = true))

/-- What a preparation can fail with; none of it comes from a disposal. -/
def KernelError.IsCause : KernelError → Prop
  | .pluginActivation .. | .thrown _ => True
  | _ => False

theorem provideBootstrap_eq_none {bootstrap : List String} :
    provideBootstrap e bootstrap = none ↔ e.Provides bootstrap := by
  unfold PreparationEnvironment.Provides
  induction bootstrap with
  | nil => simp [provideBootstrap]
  | cons name names ih =>
    rw [provideBootstrap, List.forall_mem_cons]
    cases hprovide : e.provide name with
    | some message => simp
    | none => simpa using ih

theorem provideBootstrap_isCause {bootstrap : List String} {error : KernelError}
    (h : provideBootstrap e bootstrap = some error) : error.IsCause := by
  induction bootstrap with
  | nil => cases h
  | cons name names ih =>
    rw [provideBootstrap] at h
    split at h
    · cases h
      trivial
    · exact ih h

theorem mountPlugin_of_not (h : ¬ e.Fails index) : mountPlugin e p index spec =
    (⟨p.started ++ [index].filter e.Starts, p.mounted ++ [index]⟩, none) := by
  unfold PreparationEnvironment.Fails at h
  unfold mountPlugin PreparationEnvironment.Starts
  cases hactivation : (e.plugin index).activation with
  | refused | threw => simp [hactivation] at h
  | applied | waiting =>
    simp only [hactivation, ne_eq, not_not] at h
    simp [hactivation, h, Activation.starts]

theorem mountPlugin_of_fails (h : e.Fails index) : ∃ cause : KernelError, cause.IsCause ∧
    mountPlugin e p index spec =
      (⟨p.started ++ [index].filter e.Starts, p.mounted⟩, some cause) := by
  unfold PreparationEnvironment.Fails at h
  unfold mountPlugin PreparationEnvironment.Starts
  cases hactivation : (e.plugin index).activation with
  | refused message => exact ⟨.thrown message, trivial, by simp [hactivation, Activation.starts]⟩
  | threw message =>
    exact ⟨.pluginActivation spec.id message, trivial, by simp [hactivation, Activation.starts]⟩
  | applied | waiting =>
    simp only [hactivation] at h
    cases hhealth : (e.plugin index).health with
    | healthy => exact absurd hhealth h
    | unhealthy detail =>
      exact ⟨.pluginActivation spec.id (detail.getD "unhealthy"), trivial,
        by simp [hactivation, Activation.starts]⟩
    | threw message => exact ⟨.thrown message, trivial, by simp [hactivation, Activation.starts]⟩

/-- The mounting goes through, or it ends at the first plugin that fails: those before it are
mounted. -/
theorem mountFrom_cases (specs : List RuntimePlugin) :
    (mountFrom e p index specs).2 = none ∧ (∀ i < specs.length, ¬ e.Fails (index + i)) ∨
      ∃ n < specs.length, ∃ cause : KernelError, cause.IsCause ∧ e.Fails (index + n) ∧
        (∀ i < n, ¬ e.Fails (index + i)) ∧
        mountFrom e p index specs =
          (⟨p.started ++ (List.range' index (n + 1)).filter e.Starts,
            p.mounted ++ List.range' index n⟩, some cause) := by
  induction specs generalizing p index with
  | nil => exact .inl ⟨rfl, by simp⟩
  | cons spec specs ih =>
    by_cases hfails : e.Fails index
    · obtain ⟨cause, hcause, hmount⟩ := @mountPlugin_of_fails _ p _ spec hfails
      refine .inr ⟨0, by simp, cause, hcause, hfails, by simp, ?_⟩
      simp [mountFrom, hmount, List.range'_succ]
    · have hmount := @mountPlugin_of_not _ p _ spec hfails
      have hnext : mountFrom e p index (spec :: specs) = mountFrom e
          ⟨p.started ++ [index].filter e.Starts, p.mounted ++ [index]⟩ (index + 1) specs := by
        rw [mountFrom, hmount]
      rw [hnext]
      obtain ⟨hnone, hall⟩ | ⟨n, hn, cause, hcause, hfail, hbefore, heq⟩ :=
        @ih ⟨p.started ++ [index].filter e.Starts, p.mounted ++ [index]⟩ (index + 1)
      · refine .inl ⟨hnone, fun i hi => ?_⟩
        cases i with
        | zero => exact hfails
        | succ i => exact Nat.add_right_comm index 1 i ▸ hall i (by simpa using hi)
      · refine .inr ⟨n + 1, by simpa using hn, cause, hcause, ?_, fun i hi => ?_, ?_⟩
        · exact Nat.add_right_comm index 1 n ▸ hfail
        · cases i with
          | zero => exact hfails
          | succ i => exact Nat.add_right_comm index 1 i ▸ hbefore i (by omega)
        · rw [heq, List.append_assoc, List.append_assoc, ← List.filter_append]
          rfl

end Mounting

/-! ### What a failed preparation leaves -/

section Failed
variable {e : PreparationEnvironment} {bootstrap : List String} {plugins : List RuntimePlugin}

/-- What a preparation leaves that fails once the first plugins are mounted. -/
def failedAt (e : PreparationEnvironment) (started : List ℕ) (n : ℕ) (cause : KernelError) :
    Prepared where
  state := .disposed
  started
  mounted := []
  disposed := (List.range n).reverse
  cause := some cause
  rejection := some ((disposeMounted e (List.range n).reverse).getD cause)

theorem prepare_unprovided (h : ¬ e.Provides bootstrap) : ∃ cause : KernelError, cause.IsCause ∧
    prepare e bootstrap plugins = failedAt e [] 0 cause := by
  obtain ⟨cause, hcause⟩ := Option.ne_none_iff_exists'.mp (mt provideBootstrap_eq_none.mp h)
  exact ⟨cause, provideBootstrap_isCause hcause, by simp [prepare, hcause, failedAt]⟩

theorem prepare_failsAt {n : ℕ} (h : e.FailsAt bootstrap plugins n) :
    ∃ cause : KernelError, cause.IsCause ∧
      prepare e bootstrap plugins =
        failedAt e ((List.range (n + 1)).filter e.Starts) n cause := by
  obtain ⟨hprovides, hlength, hfails, hbefore⟩ := h
  obtain ⟨-, hall⟩ | ⟨m, hm, cause, hcause, hfailm, hbeforem, heq⟩ :=
    @mountFrom_cases e {} 0 plugins
  · exact absurd hfails (by simpa only [Nat.zero_add] using hall n hlength)
  · simp only [Nat.zero_add] at hfailm hbeforem
    obtain rfl : m = n := PreparationEnvironment.FailsAt.unique
      ⟨hprovides, hm, hfailm, hbeforem⟩ ⟨hprovides, hlength, hfails, hbefore⟩
    refine ⟨cause, hcause, ?_⟩
    simp [prepare, provideBootstrap_eq_none.mpr hprovides, heq, failedAt, List.range_eq_range']

theorem prepare_ok (hprovides : e.Provides bootstrap)
    (h : ∀ n, ¬ e.FailsAt bootstrap plugins n) : (prepare e bootstrap plugins).cause = none := by
  obtain ⟨hnone, -⟩ | ⟨n, hn, cause, -, hfail, hbefore, -⟩ := @mountFrom_cases e {} 0 plugins
  · simp [prepare, provideBootstrap_eq_none.mpr hprovides, hnone]
  · simp only [Nat.zero_add] at hfail hbefore
    exact absurd ⟨hprovides, hn, hfail, hbefore⟩ (h n)

theorem disposeMounted_eq_none {fibers : List ℕ} : disposeMounted e fibers = none ↔
    (∀ i ∈ fibers, (e.plugin i).disposal = .ok []) ∧ e.onDisposed none = none := by
  have hfailures : disposalFailures e fibers = [] ↔
      ∀ i ∈ fibers, (e.plugin i).disposal = .ok [] := by
    unfold disposalFailures
    rw [List.flatMap_eq_nil_iff]
    refine forall₂_congr fun i _ => ?_
    cases (e.plugin i).disposal <;> simp
  rw [← hfailures]
  unfold disposeMounted
  cases hnone : disposalFailures e fibers with
  | nil => cases hlistener : e.onDisposed none <;> simp [aggregateError, hlistener]
  | cons failure failures => simp [aggregateError]

/-- The error of a disposal hides the cause. -/
theorem rejection_eq_cause_iff {fibers : List ℕ} {cause : KernelError} (h : cause.IsCause) :
    (disposeMounted e fibers).getD cause = cause ↔ disposeMounted e fibers = none := by
  cases hdispose : disposeMounted e fibers with
  | none => simp
  | some error =>
    refine iff_of_false (fun heq => ?_) (by simp)
    obtain rfl : error = cause := heq
    unfold disposeMounted aggregateError at hdispose
    simp only at hdispose
    split at hdispose
    · cases hdispose
    · cases hdispose
      exact h

/-- What was started is disposed in reverse order exactly when the plugin that failed was not. -/
theorem started_sublist_iff {n : ℕ} :
    ((List.range (n + 1)).filter e.Starts).reverse.Sublist (List.range n).reverse ↔
      ¬ e.Starts n := by
  rw [List.reverse_sublist]
  constructor
  · intro hsub hstarts
    have hmem := hsub.subset (List.mem_filter.mpr ⟨List.mem_range.mpr n.lt_succ_self,
      decide_eq_true hstarts⟩)
    exact absurd (List.mem_range.mp hmem) n.lt_irrefl
  · intro hstarts
    rw [List.range_succ, List.filter_append]
    simp [hstarts]

theorem failedAt_leavesNothing_iff {started : List ℕ} {n : ℕ} {cause : KernelError}
    (h : cause.IsCause) : (failedAt e started n cause).LeavesNothing ↔
      started.reverse.Sublist (List.range n).reverse ∧
        (∀ i < n, (e.plugin i).disposal = .ok []) ∧ e.onDisposed none = none := by
  have hreject : (failedAt e started n cause).rejection = some cause ↔
      (∀ i < n, (e.plugin i).disposal = .ok []) ∧ e.onDisposed none = none := by
    simp [failedAt, rejection_eq_cause_iff h, disposeMounted_eq_none]
  rw [← hreject]
  exact ⟨fun hleaves => hleaves cause rfl, fun hboth _ hcause => Option.some.inj hcause ▸ hboth⟩

/-- A preparation leaves nothing running and reports what failed exactly when what fails is not a
plugin that has been applied, and nothing fails in the disposal. -/
theorem leavesNothing_iff (e : PreparationEnvironment) (bootstrap : List String)
    (plugins : List RuntimePlugin) :
    (prepare e bootstrap plugins).LeavesNothing ↔ e.FailsCleanly bootstrap plugins := by
  unfold PreparationEnvironment.FailsCleanly
  by_cases hprovides : e.Provides bootstrap
  · by_cases hfails : ∃ n, e.FailsAt bootstrap plugins n
    · obtain ⟨n, hn⟩ := hfails
      obtain ⟨cause, hcause, heq⟩ := prepare_failsAt hn
      rw [heq, failedAt_leavesNothing_iff hcause, started_sublist_iff]
      refine ⟨fun h => ⟨fun hnot => absurd hprovides hnot, fun m hm => ?_⟩, fun h => h.2 n hn⟩
      obtain rfl : m = n := hm.unique hn
      exact h
    · rw [not_exists] at hfails
      have hnone := prepare_ok hprovides hfails
      refine iff_of_true (fun cause hcause => ?_) ⟨fun hnot => absurd hprovides hnot,
        fun n hn => absurd hn (hfails n)⟩
      rw [hnone] at hcause
      cases hcause
  · obtain ⟨cause, hcause, heq⟩ := @prepare_unprovided e bootstrap plugins hprovides
    rw [heq, failedAt_leavesNothing_iff hcause]
    refine ⟨fun h => ⟨fun _ => h.2.2, fun n hn => absurd hn.1 hprovides⟩, fun h => ?_⟩
    exact ⟨by simp, by simp, h.1 hprovides⟩

end Failed

/-! ### A plugin whose health check fails -/

/-- The second of two plugins is applied and reports that it is unhealthy. -/
def unhealthySecond : PreparationEnvironment where
  plugin
    | 1 => { activation := .applied, health := .unhealthy none }
    | _ => { activation := .applied }

def samplePlugin (id : String) : RuntimePlugin where
  id
  version := "1.0.0"

/-- The fiber of the plugin that failed is running and nothing disposes of it. -/
theorem unhealthy_left_running :
    (prepare unhealthySecond [] [samplePlugin "first", samplePlugin "second"]).started = [0, 1] ∧
    (prepare unhealthySecond [] [samplePlugin "first", samplePlugin "second"]).disposed = [0] ∧
    ¬ (prepare unhealthySecond [] [samplePlugin "first", samplePlugin "second"]).LeavesNothing := by
  refine ⟨rfl, rfl, fun h => ?_⟩
  have hsub := (h _ rfl).1
  exact absurd hsub.length_le (by decide)

end BeeAgent.Structure
