import BeeAgent.Kernel.Switch

/-! The kernel, the reconciler and the log name the same active structure between two calls, and a
call that fails leaves the generation in place that it found. -/
namespace BeeAgent.Structure
open Transition Machine

/-- A result that leaves the reconciler with the structure it had. -/
def keeps : Except KernelError ReconcileResult → Bool
  | .error _ | .ok (.restartRequired _) => true
  | .ok _ => false

namespace StructureReconciler
variable (r : StructureReconciler)

/-- The kernel, the reconciler and the log name the structure with this digest. -/
structure Names (digest : String) : Prop where
  kernel : ∃ g gen, r.kernel.active = some g ∧ r.kernel.generations g = some gen ∧
    gen.structureVersion = digest
  activeStructure : r.activeStructure.map EffectiveStructure.digest = some digest
  log : ∃ structure_, readActiveStructure r.kernel.log = .ok (some structure_) ∧
    structure_.digest = digest

/-- Between two calls, whatever is active goes by one name. -/
def Idle : Prop :=
  ∀ g, r.kernel.active = some g → ∃ digest, r.kernel.HasVersion g digest ∧
    Recorded r.kernel.log digest ∧ r.activeStructure.map EffectiveStructure.digest = some digest

def StageStands (k : Kernel) (attempt : Attempt) : Stage → Prop
  | .resolving | .reporting _ => Unswitched attempt.before k
  | .building => Unswitched attempt.before k ∧ Resolved k.log attempt.desired.digest
  | .reconciling t => Resolved k.log attempt.desired.digest ∧
      k.CallStands attempt.before t attempt.desired.digest

/-- What a call leaves behind. -/
structure Ends (outcome : Outcome) : Prop where
  kept : keeps outcome.result → ∀ g version, outcome.attempt.before = some (g, version) →
    r.activeStructure.map EffectiveStructure.digest = some version
  switched : keeps outcome.result = false → r.activeStructure = some outcome.attempt.desired
  kernel : match outcome.task with
    | none => Unswitched outcome.attempt.before r.kernel ∧ ∃ error, outcome.result = .error error
    | some t => Stands outcome.attempt.before t outcome.attempt.desired.digest r.kernel
        (.settled outcome.result)

structure Agreed : Prop where
  accounted : Accounted r.kernel
  idle : r.call = none → r.Idle
  before : ∀ attempt stage, r.call = some (attempt, stage) → ∀ g version,
    attempt.before = some (g, version) →
      r.activeStructure.map EffectiveStructure.digest = some version
  stage : ∀ attempt stage, r.call = some (attempt, stage) → StageStands r.kernel attempt stage
  last : r.call = none → ∀ outcome, r.last = some outcome → r.Ends outcome

variable {r}
variable {r' : StructureReconciler} {outcome : Outcome} {attempt : Attempt} {stage : Stage}
  {digest : String} {g : ℕ} {o : KernelOptions}

theorem unswitched_idle (h : Unswitched attempt.before r.kernel)
    (hactive : ∀ g version, attempt.before = some (g, version) →
      r.activeStructure.map EffectiveStructure.digest = some version) : r.Idle := by
  intro g hg
  obtain ⟨⟨g', version⟩, hbefore, heq⟩ := Option.map_eq_some_iff.mp (h.1.symm.trans hg)
  cases heq
  exact ⟨version, (h.2 _ _ hbefore).1, (h.2 _ _ hbefore).2, hactive _ _ hbefore⟩

theorem switched_idle {t : ℕ} (h : Switched t digest r.kernel) (hlog : Recorded r.kernel.log digest)
    (hactive : r.activeStructure.map EffectiveStructure.digest = some digest) : r.Idle := by
  intro g hg
  cases h.1.symm.trans hg
  exact ⟨digest, h.2, hlog, hactive⟩

theorem Ends.idle (h : r.Ends outcome) : r.Idle := by
  obtain ⟨hkept, hswitched, hkernel⟩ := h
  obtain ⟨attempt, task, result⟩ := outcome
  have hdesired : keeps result = false →
      r.activeStructure.map EffectiveStructure.digest = some attempt.desired.digest := fun hk => by
    rw [hswitched hk]
    rfl
  cases task with
  | none =>
    obtain ⟨hu, error, rfl⟩ := hkernel
    exact unswitched_idle hu (hkept rfl)
  | some t =>
    cases result with
    | error => exact unswitched_idle hkernel.1 (hkept rfl)
    | ok result =>
      cases result with
      | activated => exact switched_idle hkernel.2.2.1 hkernel.2.2.2.1 (hdesired rfl)
      | updated => exact switched_idle hkernel.2.1 hkernel.2.2 (hdesired rfl)
      | restartRequired => exact unswitched_idle hkernel (hkept rfl)
      | unchanged g =>
        obtain ⟨hu, hbefore⟩ := hkernel
        refine unswitched_idle hu fun g' version hbefore' => ?_
        cases hbefore.symm.trans hbefore'
        exact hdesired rfl

theorem agreed_settled {task : Option ℕ} {result : Except KernelError ReconcileResult}
    (hacc : Accounted r.kernel)
    (hbefore : ∀ g version, attempt.before = some (g, version) →
      r.activeStructure.map EffectiveStructure.digest = some version)
    (hkernel : match task with
      | none => Unswitched attempt.before r.kernel ∧ ∃ error, result = .error error
      | some t => Stands attempt.before t attempt.desired.digest r.kernel (.settled result)) :
    (r.settled attempt task result).Agreed := by
  have hends : (r.settled attempt task result).Ends ⟨attempt, task, result⟩ := by
    refine ⟨fun hk => ?_, fun hk => ?_, hkernel⟩
    · have hsame : (r.settled attempt task result).activeStructure = r.activeStructure := by
        unfold settled
        cases result with
        | error => rfl
        | ok result => cases result <;> first | rfl | cases hk
      rw [hsame]
      exact hbefore
    · unfold settled
      cases result with
      | error => cases hk
      | ok result => cases result <;> first | rfl | cases hk
  refine ⟨hacc, fun _ => hends.idle, (fun _ _ hcall => nomatch hcall),
    (fun _ _ hcall => nomatch hcall), fun _ outcome hlast => ?_⟩
  cases hlast
  exact hends

namespace Agreed

theorem background {k : Kernel} (h : r.Agreed) (hk : Background r.kernel k) :
    ({ r with kernel := k } : StructureReconciler).Agreed := by
  refine ⟨hk.accounted, fun hcall g hg => ?_, h.before, fun attempt stage hcall => ?_,
    fun hcall outcome hlast => ?_⟩
  · obtain ⟨digest, hversion, hrecorded, hactive⟩ := h.idle hcall g (hk.active ▸ hg)
    exact ⟨digest, hk.hasVersion hversion, hk.recorded hrecorded, hactive⟩
  · have hstage := h.stage attempt stage hcall
    cases stage with
    | resolving | reporting => exact hk.unswitched hstage
    | building => exact ⟨hk.unswitched hstage.1, hk.resolved hstage.2⟩
    | reconciling t =>
      obtain ⟨hresolved, task, htask, hgraph, hstands⟩ := hstage
      exact ⟨hk.resolved hresolved, task, hk.tasks ▸ htask, hgraph, hk.stands hstands⟩
  · obtain ⟨hkept, hswitched, hkernel⟩ := h.last hcall outcome hlast
    refine ⟨hkept, hswitched, ?_⟩
    obtain ⟨attempt, task, result⟩ := outcome
    cases task with
    | none => exact ⟨hk.unswitched hkernel.1, hkernel.2⟩
    | some t => exact hk.stands hkernel

theorem goOn {k : Kernel} (h : r.Agreed) (hcall : r.call = some (attempt, stage))
    (hacc : Accounted k) {stage' : Stage} (hstage : StageStands k attempt stage') :
    ({ r with kernel := k, call := some (attempt, stage') } : StructureReconciler).Agreed := by
  refine ⟨hacc, (fun hnone => nomatch hnone), fun attempt' stage₁ heq => ?_,
    fun attempt' stage₁ heq => ?_, (fun hnone => nomatch hnone)⟩
  · cases heq
    exact h.before attempt stage hcall
  · cases heq
    exact hstage

theorem begin_ {desired : EffectiveStructure} (h : r.Agreed)
    (hr' : r.reconcile desired = some r') : r'.Agreed := by
  unfold reconcile at hr'
  split at hr' <;> cases hr'
  next hcall =>
  have hfound : ∀ g version, (r.kernel.active.bind fun g =>
      (r.kernel.generations g).map fun gen => (g, gen.structureVersion)) = some (g, version) →
      r.kernel.HasVersion g version ∧ Recorded r.kernel.log version ∧
        r.activeStructure.map EffectiveStructure.digest = some version := by
    intro g version hbefore
    obtain ⟨g', hg', hmap⟩ := Option.bind_eq_some_iff.mp hbefore
    obtain ⟨gen, hgen, heq⟩ := Option.map_eq_some_iff.mp hmap
    clear hmap
    obtain ⟨rfl, rfl⟩ := Prod.mk.inj heq
    obtain ⟨digest, ⟨gen₀, hgen₀, hversion⟩, hrecorded, hactive⟩ := h.idle hcall g' hg'
    obtain rfl : gen = gen₀ := Option.some.inj (hgen.symm.trans hgen₀)
    subst hversion
    exact ⟨⟨gen, hgen, rfl⟩, hrecorded, hactive⟩
  refine ⟨h.accounted, (fun hnone => nomatch hnone), fun attempt' stage₁ heq => ?_,
    fun attempt' stage₁ heq => ?_, (fun hnone => nomatch hnone)⟩ <;> cases heq
  · exact fun g version hbefore => (hfound g version hbefore).2.2
  · refine ⟨?_, fun g version hbefore => ?_⟩
    · cases hactive : r.kernel.active with
      | none => rfl
      | some g =>
        obtain ⟨gen, hgen, -⟩ := h.accounted.active g hactive
        simp [hgen]
    · obtain ⟨hversion, hrecorded, -⟩ := hfound g version hbefore
      exact ⟨hversion, hrecorded⟩

theorem advance {plugins : List RuntimePlugin} {await : Await} (h : r.Agreed)
    (hcall : r.call = some (attempt, stage))
    (hguard : announced r (.advance plugins await))
    (hr' : r.advance o attempt stage plugins await = some r') : r'.Agreed := by
  have hstage := h.stage attempt stage hcall
  have hbefore := h.before attempt stage hcall
  have hlog : ∀ log, (log = r.kernel.log ∨
      log = appendResolvedStructure r.kernel.log attempt.desired) →
      Unswitched attempt.before r.kernel → Unswitched attempt.before { r.kernel with log } := by
    intro log hlog hu
    refine hu.transport rfl (fun _ _ => id) fun digest hrecorded => ?_
    obtain rfl | rfl := hlog
    · exact hrecorded
    · exact recorded_appendResolvedStructure hrecorded _
  cases stage with
  | resolving =>
    cases await with
    | ok =>
      cases hr'
      exact h.goOn hcall (h.accounted.log _)
        ⟨hlog _ (.inr rfl) hstage, resolved_appendResolvedStructure ..⟩
    | emitFailed recorded message =>
      cases hr'
      refine agreed_settled (h.accounted.log _) hbefore ⟨hlog _ ?_ hstage, _, rfl⟩
      split
      · exact .inr rfl
      · exact .inl rfl
    | thrown | unhealthy | cleaned => cases hr'
  | building =>
    cases await with
    | ok =>
      cases hr'
      refine h.goOn hcall (h.accounted.started Kernel.reconcile_started) ⟨?_, ?_⟩
      · rw [Kernel.reconcile_log]
        exact hstage.2
      · exact Kernel.reconcile_stands rfl hstage.1
          (h.accounted.freshGeneration _ (Nat.le_refl _))
    | thrown message =>
      cases hr'
      exact h.goOn hcall h.accounted hstage.1
    | unhealthy | cleaned | emitFailed => cases hr'
  | reporting error =>
    obtain ⟨⟨k, result⟩, hemit, rfl⟩ := Option.map_eq_some_iff.mp hr'
    have hu := hstage.emit rfl hemit
    obtain ⟨log, rfl⟩ := Kernel.emit_cases hemit
    refine agreed_settled (r := { r with kernel := _ }) (h.accounted.log log) hbefore ⟨hu, ?_⟩
    cases result with
    | ok => exact ⟨_, rfl⟩
    | error error => exact ⟨_, rfl⟩
  | reconciling t =>
    obtain ⟨task, htask, hr'⟩ := Option.bind_eq_some_iff.mp hr'
    obtain ⟨k, hk, rfl⟩ := Option.map_eq_some_iff.mp hr'
    obtain ⟨hresolved, task₀, htask₀, hgraph, hstands⟩ := hstage
    cases htask.symm.trans htask₀
    have hquiet : ∀ recorded message, await = .emitFailed recorded message →
        task.pc.switched = false := by
      rintro recorded message rfl
      exact hguard attempt t task hcall htask
    have hgoes := Kernel.advance_stands h.accounted hgraph htask hresolved hstands hquiet hk
    have hacc := h.accounted.advanced htask (Kernel.advance_advanced hk)
    have hstands' : StageStands k attempt (.reconciling t) :=
      ⟨hresolved.mono (Kernel.advance_log hk), hgoes⟩
    have hagreed := h.goOn hcall hacc hstands'
    rwa [← hcall] at hagreed

theorem finish (h : r.Agreed) (hcall : r.call = some (attempt, stage))
    (hr' : r.finish attempt stage = some r') : r'.Agreed := by
  have hstage := h.stage attempt stage hcall
  unfold StructureReconciler.finish at hr'
  split at hr'
  · next t =>
    obtain ⟨task, htask, hr'⟩ := Option.bind_eq_some_iff.mp hr'
    split at hr' <;> cases hr'
    next result hpc =>
    obtain ⟨-, task₀, htask₀, -, hstands⟩ := hstage
    cases htask.symm.trans htask₀
    rw [hpc] at hstands
    exact agreed_settled h.accounted (h.before attempt _ hcall) hstands
  · cases hr'

theorem step {input : ReconcilerInput} (h : r.Agreed) (hguard : announced r input)
    (hr' : reconcilerStep o r input = some r') : r'.Agreed := by
  cases input with
  | reconcile desired => exact h.begin_ hr'
  | advance plugins await =>
    obtain ⟨⟨attempt, stage⟩, hcall, hr'⟩ := Option.bind_eq_some_iff.mp hr'
    exact h.advance hcall hguard hr'
  | finish =>
    obtain ⟨⟨attempt, stage⟩, hcall, hr'⟩ := Option.bind_eq_some_iff.mp hr'
    exact h.finish hcall hr'
  | beginTurn =>
    obtain ⟨k, hk, rfl⟩ := Option.map_eq_some_iff.mp hr'
    exact h.background (background_beginTurn h.accounted hk)
  | release l =>
    obtain ⟨k, hk, rfl⟩ := Option.map_eq_some_iff.mp hr'
    exact h.background (background_release h.accounted hk)
  | dispose g await =>
    obtain ⟨k, hk, rfl⟩ := Option.map_eq_some_iff.mp hr'
    exact h.background (background_dispose h.accounted hk)

theorem initial (log : List StructureEvent) : (StructureReconciler.initial log).Agreed where
  accounted := .initial log
  idle _ _ hg := nomatch hg
  before _ _ hcall := nomatch hcall
  stage _ _ hcall := nomatch hcall
  last _ _ hlast := nomatch hlast

theorem reaches {log : List StructureEvent}
    (hr : (structureReconciler o).Reaches announced (.initial log) r) : r.Agreed :=
  hr.invariant (.initial log) fun _ _ _ h hg hs => h.step hg hs

end Agreed

theorem names_of_kept (h : r.Ends outcome) (hkeeps : keeps outcome.result) {version : String}
    (hu : Unswitched outcome.attempt.before r.kernel)
    (hbefore : outcome.attempt.before = some (g, version)) :
    r.kernel.active = some g ∧ r.Names version := by
  have hactive : r.kernel.active = some g := by rw [hu.1, hbefore, Option.map_some]
  obtain ⟨⟨gen, hgen, hversion⟩, hrecorded⟩ := hu.2 g version hbefore
  exact ⟨hactive, ⟨g, gen, hactive, hgen, hversion⟩, h.kept hkeeps g version hbefore,
    hrecorded.readActiveStructure⟩

theorem names_of_switched (h : r.Ends outcome) (hkeeps : keeps outcome.result = false)
    (hs : Switched g outcome.attempt.desired.digest r.kernel)
    (hrecorded : Recorded r.kernel.log outcome.attempt.desired.digest) :
    r.Names outcome.attempt.desired.digest := by
  obtain ⟨hactive, gen, hgen, hversion⟩ := hs
  exact ⟨⟨g, gen, hactive, hgen, hversion⟩, by rw [h.switched hkeeps]; rfl,
    hrecorded.readActiveStructure⟩

theorem leasable (h : Accounted r.kernel) (hg : r.kernel.active = some g) :
    r.kernel.beginTurn.isSome := by
  obtain ⟨gen, hgen, hstate⟩ := h.active g hg
  simp [Kernel.beginTurn, hg, hgen, Generation.acquire, hstate]

/-- How a call leaves the kernel, the reconciler and the log, over every run in which no emit
behind the switch fails. -/
theorem reconcile_agrees {log : List StructureEvent} {task : Option ℕ}
    {result : Except KernelError ReconcileResult}
    (hr : (structureReconciler o).Reaches announced (.initial log) r) (hcall : r.call = none)
    (hlast : r.last = some ⟨attempt, task, result⟩) :
    (∀ error, result = .error error →
      (∀ g version, attempt.before = some (g, version) →
        r.kernel.active = some g ∧ r.kernel.beginTurn.isSome ∧ r.Names version) ∧
      ∀ t gen, task = some t → r.kernel.generations t = some gen → gen.state = .disposed ∨
        gen.state = .preparing ∧ gen.mounted.map MountedPlugin.spec = gen.plugins) ∧
      (∀ pluginIds, result = .ok (.restartRequired pluginIds) →
        ∀ g version, attempt.before = some (g, version) →
          r.kernel.active = some g ∧ r.Names version) ∧
      (∀ g previous, result = .ok (.activated g previous) →
        r.kernel.active = some g ∧ r.Names attempt.desired.digest ∧
          previous = attempt.before.map Prod.fst ∧ ∀ p, previous = some p →
            ∃ gen, r.kernel.generations p = some gen ∧
              (gen.state = .draining ∨ gen.state = .disposed)) ∧
      ∀ g, result = .ok (.unchanged g) ∨ result = .ok (.updated g) →
        attempt.before.map Prod.fst = some g ∧ r.kernel.active = some g ∧
          r.Names attempt.desired.digest := by
  have hagreed := Agreed.reaches hr
  have hends := hagreed.last hcall _ hlast
  have hkernel := hends.kernel
  refine ⟨?_, ?_, ?_, ?_⟩
  · rintro error rfl
    have hu : Unswitched attempt.before r.kernel := by
      cases task with
      | none => exact hkernel.1
      | some t => exact hkernel.1
    refine ⟨fun g version hbefore => ?_, fun t gen htask hgen => ?_⟩
    · obtain ⟨hactive, hnames⟩ := names_of_kept hends rfl hu hbefore
      exact ⟨hactive, leasable hagreed.accounted hactive, hnames⟩
    · subst htask
      exact hkernel.2 gen hgen
  · rintro pluginIds rfl g version hbefore
    cases task with
    | none => obtain ⟨-, error, heq⟩ := hkernel; cases heq
    | some t => exact names_of_kept hends rfl hkernel hbefore
  · rintro g previous rfl
    cases task with
    | none => obtain ⟨-, error, heq⟩ := hkernel; cases heq
    | some t =>
      obtain ⟨rfl, hprevious, hswitched, hrecorded, hdrained⟩ := hkernel
      exact ⟨hswitched.1, names_of_switched hends rfl hswitched hrecorded, hprevious, hdrained⟩
  · intro g hresult
    cases task with
    | none => obtain ⟨-, error, rfl⟩ := hkernel; simp at hresult
    | some t =>
      obtain rfl | rfl := hresult
      · obtain ⟨hu, hbefore⟩ := hkernel
        have hactive : r.kernel.active = some g := by rw [hu.1, hbefore, Option.map_some]
        have hfound := hu.2 g _ hbefore
        exact ⟨by rw [hbefore, Option.map_some], hactive,
          names_of_switched hends rfl ⟨hactive, hfound.1⟩ hfound.2⟩
      · obtain ⟨hbefore, hswitched, hrecorded⟩ := hkernel
        exact ⟨hbefore, hswitched.1, names_of_switched hends rfl hswitched hrecorded⟩

section Sample

def reconcilerOptions : KernelOptions := { sha256 := id }

def desiredStructure (digest : String) : EffectiveStructure := ⟨digest, .null⟩

def restartPlugin (version : String) : RuntimePlugin :=
  { id := "p", version, replacementTier := some .c }

/-- The first structure is activated, and the second one changes the plugin of tier c. -/
def restartInputs : List ReconcilerInput :=
  [.reconcile (desiredStructure "1"), .advance [] .ok, .advance [restartPlugin "1"] .ok,
    .advance [] .ok, .advance [] .ok, .advance [] .ok, .advance [] .ok, .finish,
    .reconcile (desiredStructure "2"), .advance [] .ok, .advance [restartPlugin "2"] .ok,
    .advance [] .ok, .finish]

def announcedCheck (r : StructureReconciler) : ReconcilerInput → Bool
  | .advance _ (.emitFailed ..) => r.call.isNone
  | _ => true

theorem announced_of_check (r : StructureReconciler) (input : ReconcilerInput)
    (h : announcedCheck r input) : announced r input := by
  cases input with
  | advance plugins await =>
    cases await with
    | emitFailed recorded message =>
      intro attempt t task hcall
      simp [announcedCheck, hcall] at h
    | _ => trivial
  | _ => trivial

/-- The desired structure, the active generation before and after, and whether a restart is due. -/
def restartOutcome (r : StructureReconciler) : Option (String × Option (ℕ × String) × Option ℕ) :=
  match r.call, r.last with
  | none, some ⟨attempt, _, .ok (.restartRequired _)⟩ =>
    some (attempt.desired.digest, attempt.before, r.kernel.active)
  | _, _ => none

theorem restartOutcome_cases {digest : String} {before : Option (ℕ × String)} {active : Option ℕ}
    (h : restartOutcome r = some (digest, before, active)) :
    ∃ attempt task pluginIds, r.call = none ∧
      r.last = some ⟨attempt, task, .ok (.restartRequired pluginIds)⟩ ∧
      attempt.desired.digest = digest ∧ attempt.before = before ∧ r.kernel.active = active := by
  unfold restartOutcome at h
  split at h <;> cases h
  next hcall hlast => exact ⟨_, _, _, hcall, hlast, rfl, rfl, rfl⟩

theorem restart_run : ∃ r, (structureReconciler reconcilerOptions).Reaches announced (.initial []) r ∧
    restartOutcome r = some ("2", some (0, "1"), some 0) := by
  have hguard : (structureReconciler reconcilerOptions).allSteps announcedCheck (.initial [])
      restartInputs = true := by decide +kernel
  exact (guarded_of_allSteps announced_of_check _ hguard).exists_reaches (by decide +kernel)

theorem reconcile_agrees_sample :
    ∃ r, (structureReconciler reconcilerOptions).Reaches announced (.initial []) r ∧
      r.kernel.active = some 0 ∧ r.Names "1" := by
  obtain ⟨r, hr, houtcome⟩ := restart_run
  obtain ⟨attempt, task, pluginIds, hcall, hlast, -, hbefore, -⟩ := restartOutcome_cases houtcome
  exact ⟨r, hr, (reconcile_agrees hr hcall hlast).2.1 pluginIds rfl 0 "1" hbefore⟩

/-- A call that resolves with a due restart leaves the old structure active. -/
theorem restart_keeps_structure :
    ∃ r attempt task pluginIds,
      (structureReconciler reconcilerOptions).Reaches anyStep (.initial []) r ∧ r.call = none ∧
        r.last = some ⟨attempt, task, .ok (.restartRequired pluginIds)⟩ ∧
        ¬ r.Names attempt.desired.digest := by
  have hrun : ((structureReconciler reconcilerOptions).exec (.initial []) restartInputs).any
      (fun r => restartOutcome r == some ("2", some (0, "1"), some 0) &&
        (r.kernel.generations 0).map Generation.structureVersion == some "1") = true := by
    decide +kernel
  obtain ⟨r, hr, hchecks⟩ := (Option.any_eq_true ..).mp hrun
  simp only [Bool.and_eq_true, beq_iff_eq] at hchecks
  obtain ⟨houtcome, hversion⟩ := hchecks
  obtain ⟨attempt, task, pluginIds, hcall, hlast, hdesired, -, hactive⟩ :=
    restartOutcome_cases houtcome
  refine ⟨r, attempt, task, pluginIds, exec_reaches _ (guarded_anyStep _) hr, hcall, hlast,
    fun hnames => ?_⟩
  obtain ⟨g, gen, hg, hgen, hnamed⟩ := hnames.kernel
  cases hactive.symm.trans hg
  simp only [hgen, Option.map_some, Option.some.injEq] at hversion
  rw [hversion, hdesired] at hnamed
  exact absurd hnamed (by decide)

end Sample

end StructureReconciler

end BeeAgent.Structure
