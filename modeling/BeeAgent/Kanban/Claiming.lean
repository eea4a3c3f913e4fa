import BeeAgent.Kanban.Current
import BeeAgent.Kanban.Fencing

/-! The discipline of claims: the limit of a worker, and the dependencies of a task, at the moment
in which a claim is written. -/
namespace BeeAgent.Kanban
open Data Transition Machine

/-- In the log, the dependency does not hold the task back. -/
def Satisfied (b : Board) (dependency : KanbanDependency) : Prop :=
  dependency.kind = .blocks → ∃ u, foldStream (b.events dependency.taskId) = .ok (some u) ∧
    u.status = dependency.satisfiedWhen.getD .done

/-- The dependencies that a claim in the making has found satisfied and goes by: those of the first
task found runnable, or those checked so far where there is none yet. -/
def Stage.rests : Stage → List KanbanDependency
  | .scanning _ (task :: _) | .checking _ _ _ (task :: _) => task.dependencies
  | .checking task dependencies _ [] =>
    task.dependencies.take (task.dependencies.length - dependencies.length)
  | .appending commit _ => commit.next.dependencies
  | _ => []

def Call.rests (call : Call) : List KanbanDependency :=
  match call.op with
  | .claimNext _ _ => call.stage.rests
  | _ => []

/-- Claims come from `claimNext` alone, a worker makes one at a time, and no dependency that a claim
in the making has found satisfied changes its status before the claim is written, nor has it changed
without the projection showing it when it is checked. -/
structure Disciplined (b : Board) (input : Input) : Prop where
  unrebuilt : unrebuilt b input
  plain : ∀ k command draw, input = .call (.transition k command) draw → command.claim = none
  solitary : ∀ workerId now draw, input = .call (.claimNext workerId now) draw →
    ∀ (c : ℕ) (call : Call) now', b.calls[c]? = some call → call.op = .claimNext workerId now' →
      ∃ result, call.stage = .finished result
  steady : ∀ (c : ℕ) draw (call : Call) commit after base mutation, input = .resume c draw →
    b.calls[c]? = some call → call.stage = .appending commit after →
    commit.origin = .mutated base mutation → commit.next.status ≠ base.status →
    ∀ (d : ℕ) (call' : Call), d ≠ c → b.calls[d]? = some call' → ∀ dependency ∈ call'.rests,
      dependency.kind = .blocks → dependency.taskId ≠ commit.taskId
  shown : ∀ (c : ℕ) draw (call : Call) task dependency dependencies ready runnable,
    input = .resume c draw → b.calls[c]? = some call →
    call.stage = .checking task (dependency :: dependencies) ready runnable →
    dependency.kind = .blocks → ∀ d next t, Pending b.calls d next →
      next.id = dependency.taskId → b.tasks.get next.id = some t → next.status = t.status

/-- The task runs, in the log, under a claim of the worker. -/
def Board.holds (b : Board) (workerId : String) (k : KanbanTaskId) : Bool :=
  match foldStream (b.events k) with
  | .ok (some u) => u.status = .running && u.claimant? = some workerId
  | _ => false

def Board.heldBy (b : Board) (workerId : String) : List KanbanTaskId :=
  b.streams.keys.filter (b.holds workerId)

variable {o : KanbanOptions} {b b' : Board} {draw : Draw} {op : KanbanOperation} {stage : Stage}
variable {commit : Commit} {c : ℕ} {call : Call} {input : Input} {after : After}
variable {dependency : KanbanDependency} {k : KanbanTaskId} {workerId : String}

/-- What becomes of the dependencies that claims in the making go by. -/
structure Rested (b : Board) : Prop where
  split : ∀ (c : ℕ) (call : Call) task dependencies ready runnable, b.calls[c]? = some call →
    call.stage = .checking task dependencies ready runnable →
    ∃ checked, task.dependencies = checked ++ dependencies
  satisfied : ∀ (c : ℕ) (call : Call) dependency, b.calls[c]? = some call →
    dependency ∈ call.rests → Satisfied b dependency

theorem start_rests : (⟨op, start o b draw op⟩ : Call).rests = [] := by
  cases op <;> rfl

theorem appendOf_ne_checking {r : Except KanbanError Commit} {task : KanbanTask}
    {dependencies : List KanbanDependency} {ready runnable : List KanbanTask} :
    appendOf after r ≠ .checking task dependencies ready runnable := by
  intro h
  cases r <;> cases h

theorem start_ne_checking {task : KanbanTask} {dependencies : List KanbanDependency}
    {ready runnable : List KanbanTask} :
    start o b draw op ≠ .checking task dependencies ready runnable := by
  cases op with
  | create init =>
    simp only [start]
    split
    · exact Stage.noConfusion
    · exact appendOf_ne_checking
  | heartbeat taskId leaseId now =>
    simp only [start, heartbeat]
    split
    · exact Stage.noConfusion
    · exact appendOf_ne_checking
  | _ =>
    simp only [start]
    first
      | exact appendOf_ne_checking
      | exact Stage.noConfusion

theorem proceed_checking {task : KanbanTask} {dependencies : List KanbanDependency}
    {ready runnable : List KanbanTask}
    (h : proceed o b draw op stage = .checking task dependencies ready runnable) :
    stage = .checking task dependencies ready runnable ∨
    (stage = .scanning (task :: ready) runnable ∧ dependencies = task.dependencies) ∨
    ∃ dependency, stage = .checking task (dependency :: dependencies) ready runnable := by
  unfold proceed at h
  split at h
  case h_9 =>
    cases h
    exact .inr (.inl ⟨rfl, rfl⟩)
  case h_11 =>
    split at h
    · cases h
      exact .inr (.inr ⟨_, rfl⟩)
    · cases h
  all_goals first
    | exact .inl h
    | cases h
    | (split at h <;> cases h)
    | (simp only [settle, cancel, target, hop, claim, reclaim] at h
       repeat' split at h
       all_goals first | exact absurd h appendOf_ne_checking | cases h)

/-- The append that `claimNext` asks for: the claim of the first runnable task, at the version it was
read in. -/
theorem Asks.claims {now : String} {read : Option Stage}
    (h : Asks o b draw (.claimNext workerId now) read commit) :
    ∃ task runnable base command clock claim, read = some (.scanning [] (task :: runnable)) ∧
      commit.taskId = task.id ∧ commit.origin = .mutated base (.transition command clock) ∧
      b.tasks.get commit.taskId = some base ∧ base.version = task.version ∧
      Applied base (.transition command clock) commit.event commit.next ∧
      command.claim = some claim ∧ claim.claimant = workerId := by
  cases h with
  | mutated hlease hnote hother hclaim h => exact absurd rfl (hother _ _)
  | renewed hlease h => cases hlease
  | settled hlease howned hversion hclaim h => cases hlease
  | @claimed _ _ leaseId expiresAt clock task runnable _ command hversion hdst hclaim h =>
    obtain ⟨hcomputed, htask, base, horigin⟩ := mutate_computed h
    rw [Commit.Computed, horigin] at hcomputed
    have happlied := applied_of_apply hcomputed.2.1
    have hbase := (applyTransition_ok happlied.of_transition).1
    exact ⟨task, runnable, base, command, clock, _, rfl, htask, horigin, hcomputed.1,
      hbase.symm.trans hversion, happlied, hclaim, rfl⟩

theorem claim_dependencies (hlogged : Logged False b) {now : String} {task : KanbanTask}
    {runnable : List KanbanTask} (hseen : Seen False b task.id task)
    (h : Asks o b draw (.claimNext workerId now) (some (.scanning [] (task :: runnable))) commit) :
    commit.next.dependencies = task.dependencies := by
  obtain ⟨task', runnable', base, command, clock, claim, hread, htask, -, hget, hversion, happlied, -⟩ :=
    h.claims
  cases hread
  have hbase := hlogged.projected _ _ hget
  rw [htask] at hbase
  obtain ⟨at_, rfl, -⟩ := Logged.seen_alike hbase hseen hversion
  exact happlied.dependencies_eq

theorem satisfied_of_check (hlogged : Logged False b) (hcurrent : Current b)
    (hshown : dependency.kind = .blocks → ∀ d next t, Pending b.calls d next →
      next.id = dependency.taskId → b.tasks.get next.id = some t → next.status = t.status)
    (h : satisfied b.tasks dependency) : Satisfied b dependency := by
  intro hkind
  simp only [satisfied, hkind, ne_eq, not_true_eq_false, decide_false, Bool.false_or,
    Option.any_eq_true, decide_eq_true_eq] at h
  obtain ⟨t, ht, hstatus⟩ := h
  obtain ⟨-, hpos, hle, u, hu, halike⟩ := hlogged.projected _ _ ht
  rcases hcurrent.current dependency.taskId with hversion | ⟨d, next, hpending, hid⟩
  · rw [Board.version, ht] at hversion
    rw [show t.version = (b.stream dependency.taskId).length from hversion, taskAt_length] at hu
    obtain ⟨at_, rfl, -⟩ := halike
    exact ⟨_, hu, hstatus⟩
  · have hsame := hshown hkind d next t hpending hid (hid ▸ ht)
    have hnewest := hcurrent.newest d next hpending
    obtain ⟨call, hcall, hindexing⟩ := hpending
    have hmem : next ∈ call.stage.tasks := by
      cases hstage : call.stage with
      | indexing next' after =>
        rw [hstage] at hindexing
        cases hindexing
        exact List.mem_cons_self
      | _ => rw [hstage] at hindexing; cases hindexing
    obtain ⟨-, -, -, v, hv, at', rfl, -⟩ := hlogged.held d call next hcall hmem
    rw [hnewest, taskAt_length, hid] at hv
    exact ⟨_, hv, hsame.trans hstatus⟩

namespace Rested

theorem proceed (h : Rested b) (hlogged : Logged False b) (hcurrent : Current b) {now : String}
    (hcall : b.calls[c]? = some call) (hop : call.op = .claimNext workerId now)
    (hguard : Disciplined b (.resume c draw)) :
    ∀ dependency ∈ (Kanban.proceed o b draw call.op call.stage).rests, Satisfied b dependency := by
  have hrests : ∀ dependency ∈ call.stage.rests, Satisfied b dependency := by
    intro dependency hdependency
    exact h.satisfied c call dependency hcall (by rwa [Call.rests, hop])
  rw [hop]
  cases hstage : call.stage with
  | counting running =>
    intro dependency hdependency
    simp only [Kanban.proceed] at hdependency
    split at hdependency <;> cases hdependency
  | scanning ready runnable =>
    rw [hstage] at hrests
    cases ready with
    | nil =>
      cases runnable with
      | nil =>
        intro dependency hdependency
        cases hdependency
      | cons task runnable =>
        intro dependency hdependency
        cases hproceed : Kanban.proceed o b draw (.claimNext workerId now)
          (.scanning [] (task :: runnable)) with
        | appending commit after =>
          rw [hproceed] at hdependency
          rcases proceed_asks hproceed with hsame | hasks
          · cases hsame
          · have hseen := hlogged.held c call task hcall (by rw [hstage]; simp [Stage.tasks])
            rw [Stage.rests, claim_dependencies hlogged hseen hasks] at hdependency
            exact hrests dependency hdependency
        | finished result =>
          rw [hproceed] at hdependency
          cases hdependency
        | _ =>
          simp only [Kanban.proceed, claim] at hproceed
          split at hproceed
          · cases hproceed
          · next hnone =>
            cases hasked : transition o.formats b.tasks task.id _ draw.clock <;>
              rw [hasked] at hproceed <;> cases hproceed
    | cons task ready =>
      cases runnable with
      | nil =>
        intro dependency hdependency
        simp [Kanban.proceed, Stage.rests] at hdependency
      | cons first runnable => exact hrests
  | checking task dependencies ready runnable =>
    obtain ⟨checked, hchecked⟩ := h.split c call task dependencies ready runnable hcall hstage
    rw [hstage] at hrests
    cases dependencies with
    | nil =>
      cases runnable with
      | nil => simpa [Kanban.proceed, Stage.rests] using hrests
      | cons first runnable => exact hrests
    | cons dependency dependencies =>
      simp only [Kanban.proceed]
      split
      · next hsatisfied =>
        cases runnable with
        | nil =>
          intro dependency' hdependency'
          have hsplit : task.dependencies.take (task.dependencies.length - dependencies.length) =
              checked ++ [dependency] := by
            rw [hchecked, List.append_cons, List.take_left' (by simp; omega)]
          rw [Stage.rests, hsplit] at hdependency'
          rcases List.mem_append.mp hdependency' with hold | hnew
          · refine hrests dependency' ?_
            rw [Stage.rests, hchecked, List.take_left' (by simp)]
            exact hold
          · obtain rfl := List.mem_singleton.mp hnew
            exact satisfied_of_check hlogged hcurrent
              (hguard.shown c draw call task dependency' dependencies ready [] rfl hcall hstage)
              hsatisfied
        | cons first runnable => exact hrests
      · cases runnable with
        | nil =>
          intro dependency hdependency
          cases hdependency
        | cons first runnable => exact hrests
  | _ =>
    rw [hstage] at hrests
    exact hrests

/-- A write keeps a dependency satisfied, unless it changes the status of that very task. -/
theorem satisfied_of_landing (hland : Landing False b b' commit) (h : Satisfied b dependency)
    (hsame : ∀ base mutation, commit.origin = .mutated base mutation →
      dependency.kind = .blocks → dependency.taskId = commit.taskId →
      commit.next.status = base.status) : Satisfied b' dependency := by
  intro hkind
  obtain ⟨u, hu, hstatus⟩ := h hkind
  by_cases hk : dependency.taskId = commit.taskId
  · obtain ⟨v, hv, halike⟩ := hland.last
    rw [← hland.length, taskAt_length] at hv
    rw [hk] at hu ⊢
    refine ⟨v, hv, ?_⟩
    cases hland.asked with
    | created horigin hnew hid hevent hone =>
      have hzero : (b.stream commit.taskId).length = 0 := by
        have := hland.sequence
        omega
      rw [Board.events, List.length_eq_zero_iff.mp hzero] at hu
      cases hu
    | @mutated base mutation horigin =>
      obtain ⟨w, hw, hbase, -⟩ := hland.fold_base horigin
      rw [hu] at hw
      obtain rfl := Option.some.inj (Except.ok.inj hw)
      obtain ⟨at_, rfl, -⟩ := halike
      obtain ⟨at', rfl, -⟩ := hbase
      exact (hsame base mutation horigin hkind hk).trans hstatus
  · refine ⟨u, ?_, hstatus⟩
    rw [Board.events, hland.streams, if_neg hk]
    exact hu

theorem restage (h : Rested b) {stage : Stage} (hcall : b.calls[c]? = some call)
    (hstreams : b'.streams = b.streams) (hcalls : b'.calls = (b.withStage c stage).calls)
    (hsplit : ∀ task dependencies ready runnable, stage = .checking task dependencies ready runnable →
      ∃ checked, task.dependencies = checked ++ dependencies)
    (hrests : ∀ dependency ∈ ({ call with stage } : Call).rests, Satisfied b dependency) :
    Rested b' := by
  have hsatisfied : ∀ dependency, Satisfied b dependency → Satisfied b' dependency := by
    intro dependency hdependency hkind
    rw [Board.events, Board.stream, hstreams]
    exact hdependency hkind
  constructor
  · intro d call' task dependencies ready runnable hcall' hstage
    rw [hcalls] at hcall'
    rcases getElem?_withStage hcall' with ⟨rfl, call₀, -, rfl⟩ | ⟨-, hold⟩
    · exact hsplit task dependencies ready runnable hstage
    · exact h.split d call' task dependencies ready runnable hold hstage
  · intro d call' dependency hcall' hdependency
    rw [hcalls] at hcall'
    rcases getElem?_withStage hcall' with ⟨rfl, call₀, hcall₀, rfl⟩ | ⟨-, hold⟩
    · rw [hcall] at hcall₀
      cases hcall₀
      exact hsatisfied dependency (hrests dependency hdependency)
    · exact hsatisfied dependency (h.satisfied d call' dependency hold hdependency)

theorem rests_eq_nil (h : stage.rests = []) : ({ call with stage } : Call).rests = [] := by
  unfold Call.rests
  split
  · exact h
  · rfl

theorem land (h : Rested b) (hguard : Disciplined b (.resume c draw))
    (hcall : b.calls[c]? = some call) (hstage : call.stage = .appending commit after)
    (hland : Landing False b b' commit)
    (hcalls : b'.calls = (b.withStage c (.indexing commit.next after)).calls) : Rested b' := by
  constructor
  · intro d call' task dependencies ready runnable hcall' hstage'
    rw [hcalls] at hcall'
    rcases getElem?_withStage hcall' with ⟨rfl, call₀, -, rfl⟩ | ⟨-, hold⟩
    · cases hstage'
    · exact h.split d call' task dependencies ready runnable hold hstage'
  · intro d call' dependency hcall' hdependency
    rw [hcalls] at hcall'
    rcases getElem?_withStage hcall' with ⟨rfl, call₀, -, rfl⟩ | ⟨hd, hold⟩
    · rw [rests_eq_nil rfl] at hdependency
      cases hdependency
    · refine satisfied_of_landing hland (h.satisfied d call' dependency hold hdependency) ?_
      intro base mutation horigin hkind hid
      by_contra hchanged
      exact hguard.steady c draw call commit after base mutation rfl hcall hstage horigin hchanged
        d call' hd hold dependency hdependency hkind hid

theorem step (h : Rested b) (hlogged : Logged False b) (hcurrent : Current b)
    (hguard : Disciplined b input) (hstep : boardStep o b input = some b') : Rested b' := by
  cases boardStep_moves hstep with
  | called op draw =>
    have hcleared : b.cleared op = b := by
      cases op with
      | rebuild => exact hguard.unrebuilt.elim
      | _ => rfl
    rw [hcleared]
    constructor
    · intro d call' task dependencies ready runnable hcall' hstage
      rcases getElem?_called hcall' with hold | ⟨-, rfl⟩
      · exact h.split d call' task dependencies ready runnable hold hstage
      · exact absurd hstage start_ne_checking
    · intro d call' dependency hcall' hdependency
      rcases getElem?_called hcall' with hold | ⟨-, rfl⟩
      · exact h.satisfied d call' dependency hold hdependency
      · rw [start_rests] at hdependency
        cases hdependency
  | failed hcall hidle =>
    exact h.restage hcall rfl rfl (fun _ _ _ _ => Stage.noConfusion)
      (fun dependency hdependency => by rw [rests_eq_nil rfl] at hdependency; cases hdependency)
  | @proceeded c call draw hcall hidle =>
    refine h.restage hcall rfl rfl (fun task dependencies ready runnable hstage => ?_) ?_
    · rcases proceed_checking hstage with hsame | ⟨-, rfl⟩ | ⟨dependency, hbefore⟩
      · exact h.split c call task dependencies ready runnable hcall hsame
      · exact ⟨[], rfl⟩
      · obtain ⟨checked, hchecked⟩ := h.split c call task _ ready runnable hcall hbefore
        exact ⟨checked ++ [dependency], by rw [hchecked, List.append_assoc]; rfl⟩
    · intro dependency hdependency
      cases hop : call.op with
      | claimNext workerId now =>
        have hrested := h.proceed (o := o) hlogged hcurrent hcall hop hguard
        rw [hop] at hrested
        rw [Call.rests, hop] at hdependency
        exact hrested dependency hdependency
      | _ => rw [Call.rests, hop] at hdependency; cases hdependency
  | landed hcall hstage happend =>
    exact h.land hguard hcall hstage (hlogged.landing_of hcall hstage happend rfl) rfl
  | @indexed c call next after draw hcall hstage =>
    refine h.restage hcall rfl rfl (fun task dependencies ready runnable hstage' => ?_)
      (fun dependency hdependency => ?_)
    · cases after <;> cases hstage'
    · rw [rests_eq_nil (by cases after <;> rfl)] at hdependency
      cases hdependency
  | @replayed c call task rest draw hcall hstage =>
    exact absurd hstage ((hcurrent.plain c call hcall).2 task rest)

theorem initial : Rested .initial where
  split := fun _ _ _ _ _ _ hcall => nomatch hcall
  satisfied := fun _ _ _ hcall => nomatch hcall

end Rested

/-- A claim in the making whose worker has been found below the limit. -/
def Stage.claiming : Stage → Bool
  | .scanning _ _ | .checking _ _ _ _ | .appending _ _ => true
  | _ => false

def HeldBy (t : KanbanTask) (workerId : String) : Prop :=
  t.status = .running ∧ t.claimant? = some workerId

/-- The limit of one worker. -/
structure Capped (o : KanbanOptions) (workerId : String) (b : Board) : Prop where
  claims : ∀ (c : ℕ) (call : Call) commit after base mutation claim, b.calls[c]? = some call →
    call.stage = .appending commit after → commit.origin = .mutated base mutation →
    mutation.claim? = some claim → ∃ now, call.op = .claimNext claim.claimant now
  alone : ∀ (c d : ℕ) (call call' : Call) now now', b.calls[c]? = some call →
    b.calls[d]? = some call' → call.op = .claimNext workerId now →
    call'.op = .claimNext workerId now' → (∀ result, call.stage ≠ .finished result) →
    (∀ result, call'.stage ≠ .finished result) → c = d
  shown : ∀ k, b.holds workerId k → (∃ t, b.tasks.get k = some t ∧ HeldBy t workerId) ∨
    ∃ (c : ℕ) (call : Call) (now : String) (next : KanbanTask) (after : After),
      b.calls[c]? = some call ∧ call.op = .claimNext workerId now ∧
      call.stage = .indexing next after ∧ next.id = k
  counted : ∀ (c : ℕ) (call : Call) now running, b.calls[c]? = some call →
    call.op = .claimNext workerId now → call.stage = .counting running →
    (b.heldBy workerId).length ≤ (running.filter (·.claimant? = some workerId)).length
  below : ∀ (c : ℕ) (call : Call) now, b.calls[c]? = some call →
    call.op = .claimNext workerId now → call.stage.claiming →
    ((b.heldBy workerId).length : ℤ) < o.maxConcurrent
  cap : ((b.heldBy workerId).length : ℤ) ≤ o.maxConcurrent

theorem holds_iff : b.holds workerId k ↔
    ∃ u, foldStream (b.events k) = .ok (some u) ∧ HeldBy u workerId := by
  unfold Board.holds
  constructor
  · intro h
    split at h
    · next u hu => exact ⟨u, hu, by simpa [HeldBy] using h⟩
    · cases h
  · rintro ⟨u, hu, hstatus, hclaimant⟩
    simp [hu, hstatus, hclaimant]

theorem mem_heldBy : k ∈ b.heldBy workerId ↔ b.holds workerId k := by
  rw [Board.heldBy, List.mem_filter]
  refine ⟨fun h => h.2, fun h => ⟨?_, h⟩⟩
  obtain ⟨u, hu, -⟩ := holds_iff.mp h
  cases hget : b.streams.get k with
  | some s => exact OrderedMap.mem_keys_iff.mpr ⟨s, hget⟩
  | none =>
    rw [Board.events, Board.stream, hget] at hu
    cases hu

theorem heldBy_nodup : (b.heldBy workerId).Nodup := b.streams.nodup.filter _

theorem heldBy_length_le (h : ∀ k, b'.holds workerId k → b.holds workerId k) :
    (b'.heldBy workerId).length ≤ (b.heldBy workerId).length :=
  (List.subperm_of_subset heldBy_nodup fun k hk =>
    mem_heldBy.mpr (h k (mem_heldBy.mp hk))).length_le

theorem holds_of_ne (hland : Landing False b b' commit) (hk : k ≠ commit.taskId) :
    b'.holds workerId k = b.holds workerId k := by
  rw [Board.holds, Board.holds, Board.events, hland.streams, if_neg hk]
  rfl

theorem holds_of_landing (hland : Landing False b b' commit) :
    b'.holds workerId commit.taskId ↔ HeldBy commit.next workerId := by
  obtain ⟨u, hu, at_, rfl, -⟩ := hland.last
  rw [← hland.length, taskAt_length] at hu
  rw [holds_iff]
  constructor
  · rintro ⟨v, hv, hheld⟩
    rw [hu] at hv
    obtain rfl := Option.some.inj (Except.ok.inj hv)
    exact hheld
  · exact fun hheld => ⟨_, hu, hheld⟩

theorem held_before_landing (h : Sound b) (hland : Landing False b b' commit)
    (hheld : HeldBy commit.next workerId) :
    b.holds workerId commit.taskId ∨ ∃ base mutation claim, commit.origin = .mutated base mutation ∧
      mutation.claim? = some claim ∧ claim.claimant = workerId := by
  cases hasked : commit.origin with
  | created init =>
    cases hland.asked with
    | created horigin hnew => exact absurd (hnew.status.symm.trans hheld.1) (by decide)
    | mutated horigin' => rw [hasked] at horigin'; cases horigin'
  | mutated base mutation =>
    obtain ⟨v, hv, halike, hat, happlied⟩ := hland.fold_base hasked
    have hwell := (h.recorded.wellFormed le_rfl hat).alike halike.symm
    obtain ⟨hstatus, hclaimant⟩ := hheld
    obtain ⟨claim, hclaim, rfl⟩ := Option.map_eq_some_iff.mp hclaimant
    rcases happlied.claim_cases hwell hstatus hclaim with
      hbrought | ⟨hrunning, before, hbefore, hsame, -⟩
    · exact .inr ⟨base, mutation, claim, rfl, hbrought, rfl⟩
    · refine .inl (holds_iff.mpr ⟨v, hv, ?_⟩)
      obtain ⟨at_, rfl, -⟩ := halike
      exact ⟨hrunning, by rw [KanbanTask.claimant?, hbefore, Option.map_some, hsame]⟩

theorem Asks.claim_op {read : Option Stage} {base : KanbanTask} {mutation : Mutation}
    {claim : KanbanClaimLease} (h : Asks o b draw op read commit)
    (horigin : commit.origin = .mutated base mutation) (hclaim : mutation.claim? = some claim) :
    (∃ now, op = .claimNext claim.claimant now) ∨
      read = none ∧ ∃ k command, op = .transition k command ∧ command.claim = some claim := by
  have hmutation : ∀ {taskId mutation'}, mutate o.formats b.tasks taskId mutation' = .ok commit →
      mutation' = mutation := by
    intro taskId mutation' hmutate
    obtain ⟨-, -, base', horigin'⟩ := mutate_computed hmutate
    rw [horigin] at horigin'
    cases horigin'
    rfl
  cases h with
  | created hnew h =>
    have := (create_computed .empty h).2
    rw [horigin] at this
    cases this
  | commented h =>
    obtain rfl := hmutation h
    cases hclaim
  | mutated hlease hnote hother hplain h =>
    obtain rfl := hmutation h
    rcases hplain with hnone | ⟨hread, command, clock, rfl, rfl⟩
    · rw [hnone] at hclaim
      cases hclaim
    · exact .inr ⟨hread, _, command, rfl, hclaim⟩
  | renewed hlease h =>
    obtain rfl := hmutation h
    cases hclaim
  | settled hlease howned hversion hnone h =>
    obtain rfl := hmutation h
    exact nomatch hnone.symm.trans hclaim
  | claimed hversion hdst hbrought h =>
    obtain rfl := hmutation h
    obtain rfl := Option.some.inj (hbrought.symm.trans hclaim)
    exact .inl ⟨_, rfl⟩

theorem proceed_ne_counting {now : String} {running : List KanbanTask} :
    Kanban.proceed o b draw (.claimNext workerId now) stage ≠ .counting running := by
  cases stage with
  | counting running' =>
    simp only [Kanban.proceed]
    split <;> exact Stage.noConfusion
  | scanning ready runnable =>
    cases ready with
    | cons task ready => exact Stage.noConfusion
    | nil =>
      simp only [Kanban.proceed]
      unfold claim
      split
      · exact Stage.noConfusion
      split
      · exact Stage.noConfusion
      · intro h
        cases hasked : transition o.formats b.tasks _ _ draw.clock <;> rw [hasked] at h <;> cases h
  | checking task dependencies ready runnable =>
    cases dependencies with
    | nil => exact Stage.noConfusion
    | cons dependency dependencies =>
      simp only [Kanban.proceed]
      split <;> exact Stage.noConfusion
  | _ => exact Stage.noConfusion

theorem proceed_claiming {now : String}
    (h : (Kanban.proceed o b draw (.claimNext workerId now) stage).claiming) :
    stage.claiming ∨ ∃ running, stage = .counting running ∧ hasCapacity o workerId running := by
  cases stage with
  | counting running =>
    simp only [Kanban.proceed] at h
    split at h
    · next hcapacity => exact .inr ⟨running, rfl, hcapacity⟩
    · cases h
  | scanning ready runnable => exact .inl rfl
  | checking task dependencies ready runnable => exact .inl rfl
  | appending commit after => exact .inl rfl
  | _ => cases h

namespace Capped

theorem withStage (h : Capped o workerId b) (hcall : b.calls[c]? = some call)
    (hidle : call.stage.indexing? = none)
    (hlive : (∀ result, stage ≠ .finished result) → ∀ result, call.stage ≠ .finished result)
    (hclaims : ∀ commit after base mutation claim, stage = .appending commit after →
      commit.origin = .mutated base mutation → mutation.claim? = some claim →
      ∃ now, call.op = .claimNext claim.claimant now)
    (hcounted : ∀ now running, call.op = .claimNext workerId now → stage ≠ .counting running)
    (hbelow : ∀ now, call.op = .claimNext workerId now → stage.claiming →
      ((b.heldBy workerId).length : ℤ) < o.maxConcurrent) :
    Capped o workerId (b.withStage c stage) := by
  have hold : ∀ (d : ℕ) (call' : Call), (b.withStage c stage).calls[d]? = some call' →
      (d = c ∧ call' = { call with stage }) ∨ b.calls[d]? = some call' := by
    intro d call' hcall'
    rcases getElem?_withStage hcall' with ⟨rfl, call₀, hcall₀, rfl⟩ | ⟨-, hold⟩
    · rw [hcall] at hcall₀
      cases hcall₀
      exact .inl ⟨rfl, rfl⟩
    · exact .inr hold
  constructor
  · intro d call' commit after base mutation claim hcall' hstage horigin hclaim
    rcases hold d call' hcall' with ⟨rfl, rfl⟩ | hold
    · exact hclaims commit after base mutation claim hstage horigin hclaim
    · exact h.claims d call' commit after base mutation claim hold hstage horigin hclaim
  · intro d e call₁ call₂ now now' hcall₁ hcall₂ hop₁ hop₂ hlive₁ hlive₂
    rcases hold d call₁ hcall₁ with ⟨rfl, rfl⟩ | hold₁ <;>
      rcases hold e call₂ hcall₂ with ⟨rfl, rfl⟩ | hold₂
    · rfl
    · exact h.alone d e call call₂ now now' hcall hold₂ hop₁ hop₂ (hlive hlive₁) hlive₂
    · exact h.alone d e call₁ call now now' hold₁ hcall hop₁ hop₂ hlive₁ (hlive hlive₂)
    · exact h.alone d e call₁ call₂ now now' hold₁ hold₂ hop₁ hop₂ hlive₁ hlive₂
  · intro k hk
    rcases h.shown k hk with hshown | ⟨d, call', now, next, after, hcall', hop, hstage, hid⟩
    · exact .inl hshown
    · refine .inr ⟨d, call', now, next, after, ?_, hop, hstage, hid⟩
      have hd : c ≠ d := by
        rintro rfl
        rw [hcall] at hcall'
        cases hcall'
        rw [hstage] at hidle
        cases hidle
      simpa [Board.withStage, hd] using hcall'
  · intro d call' now running hcall' hop hstage
    rcases hold d call' hcall' with ⟨rfl, rfl⟩ | hold
    · exact absurd hstage (hcounted now running hop)
    · exact h.counted d call' now running hold hop hstage
  · intro d call' now hcall' hop hclaiming
    rcases hold d call' hcall' with ⟨rfl, rfl⟩ | hold
    · exact hbelow now hop hclaiming
    · exact h.below d call' now hold hop hclaiming
  · exact h.cap

/-- The worker holds no more tasks than the projection shows when no claim of the worker is under
way. -/
theorem held_le_shown (h : Capped o workerId b) (hlogged : Logged False b)
    (hquiet : ∀ (c : ℕ) (call : Call) now, b.calls[c]? = some call →
      call.op = .claimNext workerId now → ∃ result, call.stage = .finished result) :
    (b.heldBy workerId).length ≤
      ((list o.localeCompare b.tasks { status := some [.running] }).filter
        (·.claimant? = some workerId)).length := by
  have hsubset : b.heldBy workerId ⊆
      ((list o.localeCompare b.tasks { status := some [.running] }).filter
        (·.claimant? = some workerId)).map KanbanTask.id := by
    intro k hk
    rcases h.shown k (mem_heldBy.mp hk) with ⟨t, ht, hstatus, hclaimant⟩ |
      ⟨d, call', now, next, after, hcall', hop, hstage, -⟩
    · refine List.mem_map.mpr ⟨t, List.mem_filter.mpr ⟨?_, by simpa using hclaimant⟩,
        (hlogged.projected k t ht).1⟩
      refine mem_list (OrderedMap.mem_values_iff.mpr ⟨k, ht⟩) ?_ rfl
      simp [KanbanTaskQuery.accepts, hstatus]
    · obtain ⟨result, hresult⟩ := hquiet d call' now hcall' hop
      rw [hstage] at hresult
      cases hresult
  exact (List.subperm_of_subset heldBy_nodup hsubset).length_le.trans (List.length_map _).le

theorem called (h : Capped o workerId b) (hlogged : Logged False b)
    (hguard : Disciplined b (.call op draw)) :
    Capped o workerId { b with calls := b.calls ++ [⟨op, start o b draw op⟩] } := by
  constructor
  · intro d call' commit after base mutation claim hcall' hstage horigin hclaim
    rcases getElem?_called hcall' with hold | ⟨-, rfl⟩
    · exact h.claims d call' commit after base mutation claim hold hstage horigin hclaim
    · rcases (start_asks hstage).claim_op horigin hclaim with hop | ⟨-, k, command, rfl, hbrought⟩
      · exact hop
      · rw [hguard.plain k command draw rfl] at hbrought
        cases hbrought
  · intro d e call₁ call₂ now now' hcall₁ hcall₂ hop₁ hop₂ hlive₁ hlive₂
    rcases getElem?_called hcall₁ with hold₁ | ⟨rfl, rfl⟩ <;>
      rcases getElem?_called hcall₂ with hold₂ | ⟨rfl, rfl⟩
    · exact h.alone d e call₁ call₂ now now' hold₁ hold₂ hop₁ hop₂ hlive₁ hlive₂
    · obtain rfl : op = .claimNext workerId now' := hop₂
      obtain ⟨result, hresult⟩ := hguard.solitary workerId now' draw rfl d call₁ now hold₁ hop₁
      exact absurd hresult (hlive₁ result)
    · obtain rfl : op = .claimNext workerId now := hop₁
      obtain ⟨result, hresult⟩ := hguard.solitary workerId now draw rfl e call₂ now' hold₂ hop₂
      exact absurd hresult (hlive₂ result)
    · rfl
  · intro k hk
    rcases h.shown k hk with hshown | ⟨d, call', now, next, after, hcall', hrest⟩
    · exact .inl hshown
    · have hlt := (List.getElem?_eq_some_iff.mp hcall').1
      exact .inr ⟨d, call', now, next, after, (List.getElem?_append_left hlt).trans hcall', hrest⟩
  · intro d call' now running hcall' hop hstage
    rcases getElem?_called hcall' with hold | ⟨-, rfl⟩
    · exact h.counted d call' now running hold hop hstage
    · obtain rfl : op = .claimNext workerId now := hop
      cases hstage
      exact h.held_le_shown hlogged fun d call' now' hcall' hop' =>
        hguard.solitary workerId now draw rfl d call' now' hcall' hop'
  · intro d call' now hcall' hop hclaiming
    rcases getElem?_called hcall' with hold | ⟨-, rfl⟩
    · exact h.below d call' now hold hop hclaiming
    · obtain rfl : op = .claimNext workerId now := hop
      cases hclaiming
  · exact h.cap

theorem land (h : Capped o workerId b) (hsound : Sound b) (hcurrent : Current b)
    (hcall : b.calls[c]? = some call) (hstage : call.stage = .appending commit after)
    (hland : Landing False b b' commit) (htasks : b'.tasks = b.tasks)
    (hcalls : b'.calls = (b.withStage c (.indexing commit.next after)).calls) :
    Capped o workerId b' := by
  have hold : ∀ (d : ℕ) (call' : Call), b'.calls[d]? = some call' →
      (d = c ∧ call' = { call with stage := .indexing commit.next after }) ∨
        d ≠ c ∧ b.calls[d]? = some call' := by
    intro d call' hcall'
    rw [hcalls] at hcall'
    rcases getElem?_withStage hcall' with ⟨rfl, call₀, hcall₀, rfl⟩ | hold
    · rw [hcall] at hcall₀
      cases hcall₀
      exact .inl ⟨rfl, rfl⟩
    · exact .inr hold
  have hself : b'.calls[c]? = some { call with stage := .indexing commit.next after } := by
    rw [hcalls]
    simp [Board.withStage, hcall]
  have hlive : ∀ result, call.stage ≠ .finished result := by
    intro result hresult
    rw [hstage] at hresult
    cases hresult
  -- either the write is a claim of the worker, or the worker comes to hold nothing by it
  have hcases : (∃ now, call.op = .claimNext workerId now) ∨
      ∀ k, b'.holds workerId k → b.holds workerId k := by
    by_cases hclaims : ∃ now, call.op = .claimNext workerId now
    · exact .inl hclaims
    · refine .inr fun k hk => ?_
      by_cases heq : k = commit.taskId
      · subst heq
        rcases held_before_landing hsound hland ((holds_of_landing hland).mp hk) with
          hbefore | ⟨base, mutation, claim, horigin, hclaim, rfl⟩
        · exact hbefore
        · exact absurd (h.claims c call commit after base mutation claim hcall hstage horigin hclaim)
            hclaims
      · rwa [holds_of_ne hland heq] at hk
  have hgrow : ((b'.heldBy workerId).length : ℤ) ≤ (b.heldBy workerId).length + 1 := by
    have hsubset : b'.heldBy workerId ⊆ commit.taskId :: b.heldBy workerId := by
      intro k hk
      by_cases heq : k = commit.taskId
      · exact heq ▸ List.mem_cons_self
      · refine List.mem_cons_of_mem _ (mem_heldBy.mpr ?_)
        rw [← holds_of_ne hland heq]
        exact mem_heldBy.mp hk
    have := (List.subperm_of_subset heldBy_nodup hsubset).length_le
    rw [List.length_cons] at this
    exact_mod_cast this
  have hnone : ∀ (d : ℕ) (call' : Call) next after', b.calls[d]? = some call' →
      call'.stage = .indexing next after' → next.id ≠ commit.taskId := by
    intro d call' next after' hcall' hstage' hid
    have hpending : Pending b.calls d next := ⟨call', hcall', by rw [hstage']; rfl⟩
    have hle := hcurrent.asked d c next call commit after hpending hcall hstage hid.symm
    have hversion := hcurrent.newest d next hpending
    rw [hid] at hversion
    have := hland.sequence
    omega
  constructor
  · intro d call' commit' after' base mutation claim hcall' hstage' horigin hclaim
    rcases hold d call' hcall' with ⟨rfl, rfl⟩ | ⟨-, hold⟩
    · cases hstage'
    · exact h.claims d call' commit' after' base mutation claim hold hstage' horigin hclaim
  · intro d e call₁ call₂ now now' hcall₁ hcall₂ hop₁ hop₂ hlive₁ hlive₂
    rcases hold d call₁ hcall₁ with ⟨rfl, rfl⟩ | ⟨-, hold₁⟩ <;>
      rcases hold e call₂ hcall₂ with ⟨rfl, rfl⟩ | ⟨-, hold₂⟩
    · rfl
    · exact h.alone d e call call₂ now now' hcall hold₂ hop₁ hop₂ hlive hlive₂
    · exact h.alone d e call₁ call now now' hold₁ hcall hop₁ hop₂ hlive₁ hlive
    · exact h.alone d e call₁ call₂ now now' hold₁ hold₂ hop₁ hop₂ hlive₁ hlive₂
  · intro k hk
    rw [htasks]
    by_cases heq : k = commit.taskId
    · subst heq
      rcases hcases with ⟨now, hop⟩ | hbefore
      · exact .inr ⟨c, _, now, commit.next, after, hself, hop, rfl, hland.id⟩
      · rcases h.shown _ (hbefore _ hk) with hshown | ⟨d, call', now, next, after', hcall', hop, hstage', hid⟩
        · exact .inl hshown
        · exact absurd hid (hnone d call' next after' hcall' hstage')
    · rw [holds_of_ne hland heq] at hk
      rcases h.shown k hk with hshown | ⟨d, call', now, next, after', hcall', hop, hstage', hid⟩
      · exact .inl hshown
      · refine .inr ⟨d, call', now, next, after', ?_, hop, hstage', hid⟩
        have hd : c ≠ d := by
          rintro rfl
          rw [hcall] at hcall'
          cases hcall'
          rw [hstage] at hstage'
          cases hstage'
        rw [hcalls]
        simpa [Board.withStage, hd] using hcall'
  · intro d call' now running hcall' hop hstage'
    rcases hold d call' hcall' with ⟨rfl, rfl⟩ | ⟨hd, hold⟩
    · cases hstage'
    · rcases hcases with ⟨now', hop'⟩ | hbefore
      · refine absurd (h.alone d c call' call now now' hold hcall hop hop' ?_ hlive) hd
        intro result hresult
        rw [hstage'] at hresult
        cases hresult
      · exact (heldBy_length_le hbefore).trans (h.counted d call' now running hold hop hstage')
  · intro d call' now hcall' hop hclaiming
    rcases hold d call' hcall' with ⟨rfl, rfl⟩ | ⟨hd, hold⟩
    · cases hclaiming
    · rcases hcases with ⟨now', hop'⟩ | hbefore
      · refine absurd (h.alone d c call' call now now' hold hcall hop hop' ?_ hlive) hd
        intro result hresult
        rw [hresult] at hclaiming
        cases hclaiming
      · exact lt_of_le_of_lt (by exact_mod_cast heldBy_length_le hbefore)
          (h.below d call' now hold hop hclaiming)
  · rcases hcases with ⟨now, hop⟩ | hbefore
    · have := h.below c call now hcall hop (by rw [hstage]; rfl)
      omega
    · exact le_trans (by exact_mod_cast heldBy_length_le hbefore) h.cap

theorem index (h : Capped o workerId b) (hlogged : Logged False b) (hcurrent : Current b)
    {next : KanbanTask} (hcall : b.calls[c]? = some call) (hstage : call.stage = .indexing next after) :
    Capped o workerId ((b.index next).withStage c (resume next after)) := by
  have hold : ∀ (d : ℕ) (call' : Call),
      ((b.index next).withStage c (resume next after)).calls[d]? = some call' →
      (d = c ∧ call' = { call with stage := resume next after }) ∨ b.calls[d]? = some call' := by
    intro d call' hcall'
    rcases getElem?_withStage (b := b.index next) hcall' with ⟨rfl, call₀, hcall₀, rfl⟩ | ⟨-, hold⟩
    · have hcall₁ : b.calls[d]? = some call₀ := hcall₀
      rw [hcall] at hcall₁
      cases hcall₁
      exact .inl ⟨rfl, rfl⟩
    · exact .inr hold
  have hlive : ∀ result, call.stage ≠ .finished result := by
    intro result hresult
    rw [hstage] at hresult
    cases hresult
  constructor
  · intro d call' commit after' base mutation claim hcall' hstage' horigin hclaim
    rcases hold d call' hcall' with ⟨rfl, rfl⟩ | hold
    · cases after <;> cases hstage'
    · exact h.claims d call' commit after' base mutation claim hold hstage' horigin hclaim
  · intro d e call₁ call₂ now now' hcall₁ hcall₂ hop₁ hop₂ hlive₁ hlive₂
    rcases hold d call₁ hcall₁ with ⟨rfl, rfl⟩ | hold₁ <;>
      rcases hold e call₂ hcall₂ with ⟨rfl, rfl⟩ | hold₂
    · rfl
    · exact h.alone d e call call₂ now now' hcall hold₂ hop₁ hop₂ hlive hlive₂
    · exact h.alone d e call₁ call now now' hold₁ hcall hop₁ hop₂ hlive₁ hlive
    · exact h.alone d e call₁ call₂ now now' hold₁ hold₂ hop₁ hop₂ hlive₁ hlive₂
  · intro k hk
    have hk : b.holds workerId k := hk
    have hget : ((b.index next).withStage c (resume next after)).tasks.get k =
        if k = next.id then some next else b.tasks.get k := OrderedMap.get_set ..
    rw [hget]
    by_cases heq : k = next.id
    · subst heq
      rw [if_pos rfl]
      refine .inl ⟨next, rfl, ?_⟩
      obtain ⟨u, hu, hheld⟩ := holds_iff.mp hk
      obtain ⟨-, -, -, v, hv, at_, rfl, -⟩ :=
        hlogged.held c call next hcall (by rw [hstage]; simp [Stage.tasks])
      rw [hcurrent.newest c next ⟨call, hcall, by rw [hstage]; rfl⟩, taskAt_length, hu] at hv
      obtain rfl := Option.some.inj (Except.ok.inj hv)
      exact hheld
    · rw [if_neg heq]
      rcases h.shown k hk with hshown | ⟨d, call', now, next', after', hcall', hop, hstage', hid⟩
      · exact .inl hshown
      · refine .inr ⟨d, call', now, next', after', ?_, hop, hstage', hid⟩
        have hd : c ≠ d := by
          rintro rfl
          rw [hcall] at hcall'
          cases hcall'
          rw [hstage] at hstage'
          cases hstage'
          exact heq hid.symm
        simpa [Board.withStage, Board.index, hd] using hcall'
  · intro d call' now running hcall' hop hstage'
    rcases hold d call' hcall' with ⟨rfl, rfl⟩ | hold
    · cases after <;> cases hstage'
    · exact h.counted d call' now running hold hop hstage'
  · intro d call' now hcall' hop hclaiming
    rcases hold d call' hcall' with ⟨rfl, rfl⟩ | hold
    · cases after <;> cases hclaiming
    · exact h.below d call' now hold hop hclaiming
  · exact h.cap

theorem step (hpositive : 0 < o.maxConcurrent) (h : Capped o workerId b) (hsound : Sound b)
    (hcurrent : Current b) (hguard : Disciplined b input) (hstep : boardStep o b input = some b') :
    Capped o workerId b' := by
  cases boardStep_moves hstep with
  | called op draw =>
    have hcleared : b.cleared op = b := by
      cases op with
      | rebuild => exact hguard.unrebuilt.elim
      | _ => rfl
    rw [hcleared]
    exact h.called hsound.logged hguard
  | @failed c call e input hcall hidle =>
    refine h.withStage hcall hidle (fun hlive => absurd rfl (hlive _))
      (fun _ _ _ _ _ => Stage.noConfusion) (fun _ _ _ => Stage.noConfusion) (fun _ _ hclaiming => ?_)
    cases hclaiming
  | @proceeded c call draw hcall hidle =>
    refine h.withStage hcall hidle (fun hlive result hresult => ?_) ?_ ?_ ?_
    · exact hlive result (by rw [hresult]; cases call.op <;> rfl)
    · intro commit after base mutation claim hstage horigin hclaim
      rcases proceed_asks hstage with hsame | hasks
      · exact h.claims c call commit after base mutation claim hcall hsame horigin hclaim
      · rcases hasks.claim_op horigin hclaim with hop | ⟨hnone, -⟩
        · exact hop
        · cases hnone
    · intro now running hop
      rw [hop]
      exact proceed_ne_counting
    · intro now hop hclaiming
      rw [hop] at hclaiming
      rcases proceed_claiming hclaiming with hbefore | ⟨running, hstage, hcapacity⟩
      · exact h.below c call now hcall hop hbefore
      · have hle := h.counted c call now running hcall hop hstage
        rw [hasCapacity, Bool.or_eq_true, decide_eq_true_eq, decide_eq_true_eq] at hcapacity
        omega
  | landed hcall hstage happend =>
    exact h.land hsound hcurrent hcall hstage (hsound.logged.landing_of hcall hstage happend rfl) rfl rfl
  | indexed hcall hstage => exact h.index hsound.logged hcurrent hcall hstage
  | @replayed c call task rest draw hcall hstage =>
    exact absurd hstage ((hcurrent.plain c call hcall).2 task rest)

theorem initial (hpositive : 0 < o.maxConcurrent) : Capped o workerId .initial where
  claims := fun _ _ _ _ _ _ _ hcall => nomatch hcall
  alone := fun _ _ _ _ _ _ hcall => nomatch hcall
  shown := fun _ hk => nomatch hk
  counted := fun _ _ _ _ hcall => nomatch hcall
  below := fun _ _ _ hcall => nomatch hcall
  cap := hpositive.le

end Capped

/-- A task that runs under a lease takes on no other one in a step. -/
theorem Sound.step_held {leaseId leaseId' : String} (h : Sound b) (hheld : b.Held k leaseId)
    (hstep : boardStep o b input = some b') (hheld' : b'.Held k leaseId') : leaseId' = leaseId := by
  obtain ⟨t, ht, hruns⟩ := hheld
  obtain ⟨u, hu, hruns'⟩ := hheld'
  have hsame : u = t → leaseId' = leaseId := by
    rintro rfl
    exact Option.some.inj (hruns'.2.symm.trans hruns.2)
  rcases (boardStep_moves hstep).frame with
    ⟨hstreams, -⟩ | ⟨c, draw, call, commit, after, stream, rfl, hcall, hstage, happend, hb'⟩
  · rw [Board.events, Board.stream, hstreams] at hu
    exact hsame (Option.some.inj (Except.ok.inj (hu.symm.trans ht)))
  have hland : Landing False b b' commit := h.logged.landing_of hcall hstage happend (by rw [hb'])
  by_cases hk : k = commit.taskId
  · subst hk
    obtain ⟨v, hv, halike⟩ := hland.last
    rw [← hland.length, taskAt_length, hu] at hv
    obtain rfl : u = v := Option.some.inj (Except.ok.inj hv)
    have hnext : RunsUnder commit.next leaseId' := hruns'.alike halike.symm
    cases hasked : commit.origin with
    | created init =>
      cases hland.asked with
      | created horigin hnew => exact absurd (hnew.status.symm.trans hnext.1) (by decide)
      | mutated horigin => rw [hasked] at horigin; cases horigin
    | mutated base mutation =>
      obtain ⟨w, hw, halike', hat, happlied⟩ := hland.fold_base hasked
      obtain rfl : w = t := Option.some.inj (Except.ok.inj (hw.symm.trans ht))
      have hbase : RunsUnder base leaseId := hruns.alike halike'.symm
      have hwell := (h.recorded.wellFormed le_rfl hat).alike halike'.symm
      rcases happlied.runsUnder hwell hnext with hbase' | ⟨claim, hclaim, -⟩
      · exact Option.some.inj (hbase'.2.symm.trans hbase.2)
      · cases mutation with
        | transition command clock =>
          -- a task that runs is not moved to `running` again
          obtain ⟨-, hedge, hmoved⟩ := applyTransition_ok happlied.of_transition
          have hdst : command.dst = .running := by
            rw [← hnext.1, hmoved]
          rw [hbase.1, hdst] at hedge
          exact absurd hedge (by decide)
        | _ => cases hclaim
  · rw [Board.events, hland.streams, if_neg hk] at hu
    exact hsame (Option.some.inj (Except.ok.inj (hu.symm.trans ht)))

/-- A worker never holds more than the limit, a task that is held takes on no other lease, and a
claim that is written finds every dependency of its task satisfied. -/
theorem claiming_discipline (h : (board o).Reaches Disciplined .initial b) :
    (0 < o.maxConcurrent → ∀ workerId, ((b.heldBy workerId).length : ℤ) ≤ o.maxConcurrent) ∧
    (∀ k leaseId, b.Held k leaseId → ∀ input b', (board o).step b input = some b' →
      ∀ leaseId', b'.Held k leaseId' → leaseId' = leaseId) ∧
    ∀ (c : ℕ) (call : Call) workerId now commit after, b.calls[c]? = some call →
      call.op = .claimNext workerId now → call.stage = .appending commit after →
      ∀ dependency ∈ commit.next.dependencies, Satisfied b dependency := by
  have hbefore : ∀ b, (board o).Reaches Disciplined .initial b → Sound b ∧ Current b := fun b hb =>
    ⟨Sound.reaches hb, Current.reaches (fun _ _ hguard => hguard.unrebuilt) hb⟩
  have hrested : Rested b := h.invariant₂ hbefore Rested.initial
    fun _ _ _ hbefore hb hguard hstep => hb.step hbefore.1.logged hbefore.2 hguard hstep
  refine ⟨fun hpositive workerId => ?_, ?_, ?_⟩
  · exact (h.invariant₂ hbefore (Capped.initial hpositive) fun _ _ _ hbefore hb hguard hstep =>
      hb.step hpositive hbefore.1 hbefore.2 hguard hstep).cap
  · intro k leaseId hheld input b' hstep leaseId' hheld'
    exact (hbefore b h).1.step_held hheld hstep hheld'
  · intro c call workerId now commit after hcall hop hstage dependency hdependency
    refine hrested.satisfied c call dependency hcall ?_
    rw [Call.rests, hop, hstage]
    exact hdependency

/-- One call at a time, and no claim but by `claimNext`. -/
def sequentialCheck (b : Board) (input : Input) : Bool :=
  unrebuiltCheck input &&
    match input with
    | .call (.transition _ command) _ =>
      command.claim.isNone && b.calls.all (·.stage.isFinished)
    | .call _ _ => b.calls.all (·.stage.isFinished)
    | .resume c _ => (b.calls.eraseIdx c).all (·.stage.isFinished)
    | .fail _ => true

theorem disciplined_of_check (b : Board) (input : Input) (h : sequentialCheck b input) :
    Disciplined b input := by
  unfold sequentialCheck at h
  rw [Bool.and_eq_true] at h
  have hothers : ∀ (c d : ℕ) draw (call : Call), input = .resume c draw → d ≠ c →
      b.calls[d]? = some call → ∃ result, call.stage = .finished result := by
    rintro c d draw call rfl hd hcall
    exact finished_of_isFinished
      (List.all_eq_true.mp h.2 call (List.mem_eraseIdx_iff_getElem?.mpr ⟨d, hd, hcall⟩))
  constructor
  · exact unrebuilt_of_check b input h.1
  · rintro k command draw rfl
    simpa using (Bool.and_eq_true_iff.mp h.2).1
  · rintro workerId now draw rfl c call now' hcall -
    exact finished_of_isFinished (List.all_eq_true.mp h.2 call (List.mem_of_getElem? hcall))
  · intro c draw call commit after base mutation hinput hcall hstage horigin hchanged d call' hd
      hcall' dependency hdependency
    obtain ⟨result, hresult⟩ := hothers c d draw call' hinput hd hcall'
    have hnone : call'.rests = [] := Rested.rests_eq_nil (by rw [hresult]; rfl)
    rw [hnone] at hdependency
    cases hdependency
  · rintro c draw call task dependency dependencies ready runnable hinput hcall hstage - d next t
      ⟨call', hcall', hindexing⟩
    by_cases hd : d = c
    · rw [hd, hcall] at hcall'
      cases hcall'
      rw [hstage] at hindexing
      cases hindexing
    · obtain ⟨result, hresult⟩ := hothers c d draw call' hinput hd hcall'
      rw [hresult] at hindexing
      cases hindexing

/-- Two tasks, both made ready. -/
def readyTasks : List Input :=
  let moves (c : ℕ) (op : KanbanOperation) (draw : Draw) : List Input :=
    [.call op draw, .resume c draw, .resume c draw]
  moves 0 (.create { title := "first" }) (sampleDraw 1) ++
  moves 1 (.create { title := "second" }) (sampleDraw 2) ++
  moves 2 (.transition (sampleId 1) { dst := .triaged, expectedVersion := 1 }) (sampleDraw 3) ++
  moves 3 (.transition (sampleId 1) { dst := .ready, expectedVersion := 2 }) (sampleDraw 3) ++
  moves 4 (.transition (sampleId 2) { dst := .triaged, expectedVersion := 1 }) (sampleDraw 3) ++
  moves 5 (.transition (sampleId 2) { dst := .ready, expectedVersion := 2 }) (sampleDraw 3)

/-- A worker that asks for a task, and once it has one for another. -/
def claimedInTurn : List Input :=
  readyTasks ++ .call (.claimNext "worker" (sampleTime 4)) (sampleDraw 4) ::
    List.replicate 8 (.resume 6 (sampleDraw 4)) ++
    [.call (.claimNext "worker" (sampleTime 4)) (sampleDraw 5), .resume 7 (sampleDraw 5)]

theorem claiming_discipline_sample : ∃ b, (board sampleOptions).Reaches Disciplined .initial b ∧
    b.calls.length = 8 ∧ b.heldBy "worker" = [sampleId 1] ∧
    ∀ workerId, ((b.heldBy workerId).length : ℤ) ≤ 1 := by
  have hguard : (board sampleOptions).Guarded Disciplined .initial claimedInTurn :=
    guarded_of_allSteps disciplined_of_check _ (by decide +kernel)
  obtain ⟨b, hb, hcheck⟩ := hguard.exists_reaches
    (f := fun b : Board => decide (b.calls.length = 8) && decide (b.heldBy "worker" = [sampleId 1]))
    (a := true) (by decide +kernel)
  rw [Bool.and_eq_true, decide_eq_true_eq, decide_eq_true_eq] at hcheck
  exact ⟨b, hb, hcheck.1, hcheck.2, (claiming_discipline hb).1 (by decide)⟩

/-- Two claims of one worker: the second counts before the first has written, and looks for a task
after. -/
def racingClaims : List Input :=
  readyTasks ++ .call (.claimNext "worker" (sampleTime 4)) (sampleDraw 4) ::
    List.replicate 6 (.resume 6 (sampleDraw 4)) ++
    .call (.claimNext "worker" (sampleTime 4)) (sampleDraw 5) ::
    List.replicate 2 (.resume 6 (sampleDraw 4)) ++ List.replicate 6 (.resume 7 (sampleDraw 5))

theorem limit_exceeded : ∃ b, (board sampleOptions).Reaches anyStep .initial b ∧
    b.heldBy "worker" = [sampleId 1, sampleId 2] ∧ sampleOptions.maxConcurrent = 1 := by
  obtain ⟨b, hb, hcheck⟩ := exists_reaches_of_exec_map (M := board sampleOptions) (s := .initial)
    (f := fun b => b.heldBy "worker") (a := [sampleId 1, sampleId 2]) racingClaims
    (by decide +kernel)
  exact ⟨b, hb, hcheck, rfl⟩

end BeeAgent.Kanban
