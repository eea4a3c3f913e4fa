import BeeAgent.Runtime.Turns

/-! Runs in which a turn is entered again only when no call is live on it: each turn has one live
call at most, and a property of the live calls follows from what their own steps do. -/
namespace BeeAgent.Runtime
open BeeAgent.Data BeeAgent.Thread BeeAgent.Execution Transition Transition.Machine

variable {o : AgentLoopOptions}

def eventsOf (acts : List Act) : List ThreadEvent := acts.filterMap Act.event?

theorem Loop.log_eq (s : Loop) : s.log = eventsOf s.trace := rfl

@[simp] theorem eventsOf_append (acts acts' : List Act) :
    eventsOf (acts ++ acts') = eventsOf acts ++ eventsOf acts' :=
  List.filterMap_append

theorem mem_eventsOf {acts : List Act} {event : ThreadEvent} :
    event ∈ eventsOf acts ↔ .append event ∈ acts := by
  simp only [eventsOf, List.mem_filterMap]
  constructor
  · rintro ⟨a, ha, he⟩
    cases a <;> cases he
    exact ha
  · exact fun h => ⟨_, h, rfl⟩

@[simp] theorem log_apply (s : Loop) (t : ℕ) (step : TaskStep) :
    (s.apply t step).log = s.log ++ eventsOf step.acts := by
  unfold Loop.apply
  split <;> simp [Loop.log_eq]

@[simp] theorem trace_apply (s : Loop) (t : ℕ) (step : TaskStep) :
    (s.apply t step).trace = s.trace ++ step.acts := by
  unfold Loop.apply
  split <;> rfl

@[simp] theorem nextId_apply (s : Loop) (t : ℕ) (step : TaskStep) :
    (s.apply t step).nextId = s.nextId + step.drawn := by
  unfold Loop.apply
  split <;> rfl

theorem apply_tasks_cases {s : Loop} {t t' : ℕ} {step : TaskStep} {task : Task}
    (h : (s.apply t step).tasks t' = some task) :
    t' = t ∧ step.next = .continue task ∨ t' ≠ t ∧ s.tasks t' = some task := by
  by_cases ht : t' = t
  · subst ht
    unfold Loop.apply at h
    split at h
    · next hnext =>
      simp only [Function.update_self, Option.some.injEq] at h
      exact .inl ⟨rfl, by rw [hnext, h]⟩
    · simp at h
  · refine .inr ⟨ht, ?_⟩
    unfold Loop.apply at h
    split at h <;> simpa [Function.update_of_ne ht] using h

theorem start_tasks_cases {s : Loop} {t : ℕ} {task task' : Task}
    (h : (s.start task).tasks t = some task') :
    task' = task ∨ s.tasks t = some task' := by
  by_cases ht : t = s.nextTask
  · subst ht
    simp only [Loop.start, Function.update_self, Option.some.injEq] at h
    exact .inl h.symm
  · exact .inr (by simpa [Loop.start, Function.update_of_ne ht] using h)

/-- Where a live call comes from in one step of the loop. -/
inductive Origin (o : AgentLoopOptions) (s : Loop) (input : LoopInput) (t : ℕ) (task : Task) : Prop
  | kept (h : s.tasks t = some task)
  | run {turn} (h : task = startedTask o turn)
  | rebuilt {rebuilt pc} (h : task = Rebuilt.task o rebuilt pc)
    (hpc : pc = .driving ∨ ∃ pending decision, pc = .deciding pending decision)
  | aborted {before} (ht : s.tasks t = some before) (h : task = { before with aborted := true })
  | moved {before step taskInput} (hinput : input = .advance t taskInput)
    (ht : s.tasks t = some before)
    (hstep : taskStep o s.log s.nextId before taskInput = some step)
    (hnext : step.next = .continue task)

theorem loopStep_origin {s s' : Loop} {input : LoopInput} {t : ℕ} {task : Task}
    (h : loopStep o s input = some s') (ht : s'.tasks t = some task) : Origin o s input t task := by
  cases input with
  | advance t' taskInput =>
    obtain ⟨before, hbefore, h⟩ := Option.bind_eq_some_iff.mp h
    obtain ⟨step, hstep, rfl⟩ := Option.map_eq_some_iff.mp h
    obtain ⟨rfl, hnext⟩ | ⟨-, ht⟩ := apply_tasks_cases ht
    · exact .moved rfl hbefore hstep hnext
    · exact .kept ht
  | runTurn input structureVersion =>
    cases h
    obtain rfl | ht := start_tasks_cases (s := s) ht
    · exact .run rfl
    · exact .kept ht
  | recoverTurn turnId =>
    cases loopStep_move h with
    | recover =>
      obtain rfl | ht := start_tasks_cases ht
      · exact .rebuilt rfl (.inl rfl)
      · exact .kept ht
    | rebuildFailed | refuse => exact .kept ht
  | resumeTurn turnId approvalId decision =>
    cases loopStep_move h with
    | resume =>
      obtain rfl | ht := start_tasks_cases ht
      · exact .rebuilt rfl (.inr ⟨_, _, rfl⟩)
      · exact .kept ht
    | rebuildFailed | refuse => exact .kept ht
  | abort t' =>
    obtain ⟨before, hbefore, rfl⟩ := Option.map_eq_some_iff.mp h
    by_cases heq : t = t'
    · subst heq
      simp only [Function.update_self, Option.some.injEq] at ht
      exact .aborted hbefore ht.symm
    · exact .kept (by simpa [Function.update_of_ne heq] using ht)
  | fail t' =>
    obtain ⟨before, hbefore, rfl⟩ := Option.map_eq_some_iff.mp h
    by_cases heq : t = t'
    · subst heq
      simp at ht
    · exact .kept (by simpa [Function.update_of_ne heq] using ht)

theorem Move.turnId {log : List ThreadEvent} {nextId : ℕ} {task : Task} {input : TaskInput}
    {step : TaskStep} (h : Move o log nextId task input step) :
    (∀ a ∈ step.acts, a.turnId = task.turnId) ∧
      ∀ task', step.next = .continue task' → task'.turnId = task.turnId := by
  have hfailed : ∀ acts : List Act, (∀ a ∈ acts, ∃ attempt error,
      task.pc.stream? = some attempt ∧ a = itemFailedAct task attempt error) →
      ∀ a ∈ acts, a.turnId = task.turnId := by
    intro acts hacts a ha
    obtain ⟨_, _, -, rfl⟩ := hacts a ha
    rfl
  cases h with
  | throw | suspendTurn => simp
  | giveUp _ hacts | retry _ hacts =>
    refine ⟨hfailed _ hacts, ?_⟩
    rintro _ ⟨⟩
    rfl
  | batch =>
    refine ⟨?_, ?_⟩
    · simp only [List.mem_filterMap]
      rintro a ⟨intent, -, ha⟩
      unfold dispatchOf? at ha
      split at ha <;> cases ha
      rfl
    · rintro _ ⟨⟩
      rfl
  | slot _ _ _ hmove =>
    refine ⟨?_, ?_⟩
    · cases hmove <;> simp [Act.turnId, ThreadEvent.turnId, completedToolItem, checkpointEvent]
    · rintro _ ⟨⟩
      rfl
  | stream _ hacts =>
    refine ⟨?_, ?_⟩
    · intro a ha
      obtain ⟨_, rfl⟩ := hacts a ha
      rfl
    · rintro _ ⟨⟩
      rfl
  | @terminate terminal =>
    refine ⟨?_, by simp⟩
    cases terminal <;> simp [Runtime.terminate, Act.turnId, ThreadEvent.turnId, Task.turnId]
  | _ =>
    refine ⟨?_, ?_⟩
    · simp [Act.turnId, ThreadEvent.turnId, completedToolItem, checkpointEvent, startedToolItem,
        itemFailedAct]
    · rintro _ ⟨⟩
      rfl

theorem findTurn_mem {log : List ThreadEvent} {turnId : TurnId} {turn : Turn}
    (h : findTurn log turnId = some turn) :
    turn.id = turnId ∧ ∃ event ∈ log, event.turnId = turnId := by
  have hmem : ∀ {read : ThreadEvent → Option Turn}, (∀ e t, read e = some t → t.id = e.turnId) →
      ((turnEvents log turnId).filterMap read).getLast? = some turn →
      turn.id = turnId ∧ ∃ event ∈ log, event.turnId = turnId := by
    intro read hread hlast
    obtain ⟨event, hevent, ht⟩ := List.mem_filterMap.mp (List.mem_of_getLast? hlast)
    simp only [turnEvents, List.mem_filter, beq_iff_eq] at hevent
    exact ⟨by rw [hread _ _ ht, hevent.2], event, hevent⟩
  rw [findTurn, Option.orElse_eq_orElse, Option.orElse_eq_or, Option.or_eq_some_iff] at h
  obtain h | ⟨-, h⟩ := h
  · refine hmem (fun e t ht => ?_) h
    cases e <;> cases ht <;> rfl
  · refine hmem (fun e t ht => ?_) h
    cases e with
    | turnStarted turn =>
      simp only [startedTurn?] at ht
      split at ht <;> cases ht
      rfl
    | _ => cases ht

theorem rebuild_ok {log : List ThreadEvent} {turnId : TurnId} {rebuilt : Rebuilt}
    (h : rebuild o log turnId = .ok rebuilt) :
    findTurn log turnId = some rebuilt.state.turn ∧
      rebuilt.state.history = rebuiltHistory log turnId ∧
      rebuilt.carried = carriedMessages log turnId ∧
      rebuilt.pendingApproval = findPendingApproval o.uuid log turnId ∧
      rebuilt.state.compaction = loadCompaction o.sha256 log (rebuiltHistory log turnId) := by
  unfold rebuild at h
  split at h
  · cases h
  next hturn =>
  simp only at h
  split at h
  · cases h
    exact ⟨hturn, rfl, rfl, rfl, rfl⟩
  · split at h <;> cases h
    exact ⟨hturn, rfl, rfl, rfl, rfl⟩

theorem rebuilt_task_turnId {log : List ThreadEvent} {turnId : TurnId} {rebuilt : Rebuilt}
    (h : rebuild o log turnId = .ok rebuilt) (pc : Pc) :
    (rebuilt.task o pc).turnId = turnId :=
  (findTurn_mem (rebuild_ok h).1).1

def Loop.Idle (s : Loop) (turnId : TurnId) : Prop :=
  ∀ t task, s.tasks t = some task → task.turnId ≠ turnId

/-- A call goes on with a turn only when no other call is live on it. -/
def EntersIdle (o : AgentLoopOptions) (s : Loop) (input : LoopInput) : Prop :=
  ∀ turnId, Admits o s input turnId → s.Idle turnId

/-- Ids are drawn in order, and no two live calls share a turn. -/
structure Exclusive (s : Loop) : Prop where
  acts : ∀ a ∈ s.trace, a.turnId < s.nextId
  tasks : ∀ t task, s.tasks t = some task → task.turnId < s.nextId
  unique : ∀ t t' task task', s.tasks t = some task → s.tasks t' = some task' →
    task.turnId = task'.turnId → t = t'

theorem initial_exclusive : Exclusive Loop.initial where
  acts _ h := by cases h
  tasks _ _ h := by cases h
  unique _ _ _ _ h := by cases h

theorem rebuild_turnId_lt {s : Loop} (h : Exclusive s) {turnId : TurnId} {rebuilt : Rebuilt}
    (hrebuild : rebuild o s.log turnId = .ok rebuilt) : turnId < s.nextId := by
  obtain ⟨-, event, hevent, rfl⟩ := findTurn_mem (rebuild_ok hrebuild).1
  exact h.acts _ (mem_eventsOf.mp hevent)

theorem start_exclusive {s : Loop} (h : Exclusive s) {task : Task} (hlt : task.turnId < s.nextId)
    (hidle : s.Idle task.turnId) : Exclusive (s.start task) where
  acts := h.acts
  tasks t task' ht := by
    obtain rfl | ht := start_tasks_cases ht
    · exact hlt
    · exact h.tasks t task' ht
  unique t t' task₁ task₂ ht ht' heq := by
    by_cases h₁ : t = s.nextTask <;> by_cases h₂ : t' = s.nextTask
    · rw [h₁, h₂]
    all_goals
      simp only [Loop.start, h₁, h₂, Function.update_self, Function.update_of_ne, ne_eq,
        not_false_eq_true, Option.some.injEq] at ht ht'
    · subst ht
      exact absurd heq.symm (hidle _ _ ht')
    · subst ht'
      exact absurd heq (hidle _ _ ht)
    · exact h.unique t t' task₁ task₂ ht ht' heq

theorem recoveryFailed_turnId {turnId : TurnId} {error : RebuildError} :
    ∀ a ∈ recoveryFailed turnId error, a.turnId = turnId := by
  cases error <;> simp [recoveryFailed, Act.turnId, ThreadEvent.turnId]

theorem recoveryFailed_lt {s : Loop} (h : Exclusive s) {turnId : TurnId} {error : RebuildError}
    (hrebuild : rebuild o s.log turnId = .error error) :
    ∀ a ∈ recoveryFailed turnId error, a.turnId < s.nextId := by
  intro a ha
  rw [recoveryFailed_turnId a ha]
  cases hturn : findTurn s.log turnId with
  | none =>
    simp only [rebuild, hturn] at hrebuild
    cases hrebuild
    cases ha
  | some turn =>
    obtain ⟨-, event, hevent, rfl⟩ := findTurn_mem hturn
    exact h.acts _ (mem_eventsOf.mp hevent)

theorem advance_exclusive {s : Loop} (h : Exclusive s) {t : ℕ} {task : Task} {input : TaskInput}
    {step : TaskStep} (ht : s.tasks t = some task)
    (hmove : Move o s.log s.nextId task input step) : Exclusive (s.apply t step) := by
  obtain ⟨hacts, hnext⟩ := hmove.turnId
  have hlt := h.tasks t task ht
  refine ⟨fun a ha => ?_, fun t' task' ht' => ?_, fun t₁ t₂ task₁ task₂ h₁ h₂ heq => ?_⟩
  · rw [trace_apply, List.mem_append] at ha
    rw [nextId_apply]
    obtain ha | ha := ha
    · exact Nat.lt_add_right _ (h.acts a ha)
    · rw [hacts a ha]
      exact Nat.lt_add_right _ hlt
  · rw [nextId_apply]
    obtain ⟨-, hn⟩ | ⟨-, ht'⟩ := apply_tasks_cases ht'
    · rw [hnext task' hn]
      exact Nat.lt_add_right _ hlt
    · exact Nat.lt_add_right _ (h.tasks t' task' ht')
  · obtain ⟨e₁, n₁⟩ | ⟨e₁, n₁⟩ := apply_tasks_cases h₁ <;>
      obtain ⟨e₂, n₂⟩ | ⟨e₂, n₂⟩ := apply_tasks_cases h₂
    · rw [e₁, e₂]
    · rw [hnext _ n₁] at heq
      exact absurd (h.unique t t₂ task task₂ ht n₂ heq) (Ne.symm e₂)
    · rw [hnext _ n₂] at heq
      exact absurd (h.unique t₁ t task₁ task n₁ ht heq) e₁
    · exact h.unique t₁ t₂ task₁ task₂ n₁ n₂ heq

theorem Exclusive.update {s : Loop} (h : Exclusive s) {t : ℕ} {task : Task}
    (ht : s.tasks t = some task) {task' : Option Task}
    (hturn : ∀ t', task' = some t' → t'.turnId = task.turnId) (results : ℕ → Option TurnResult) :
    Exclusive { s with tasks := Function.update s.tasks t task', results } := by
  have hold : ∀ t₁ task₁, Function.update s.tasks t task' t₁ = some task₁ →
      ∃ task₂, s.tasks t₁ = some task₂ ∧ task₁.turnId = task₂.turnId := by
    intro t₁ task₁ h₁
    by_cases he : t₁ = t
    · subst he
      exact ⟨task, ht, hturn task₁ (by simpa using h₁)⟩
    · exact ⟨task₁, by simpa [Function.update_of_ne he] using h₁, rfl⟩
  refine ⟨h.acts, fun t₁ task₁ h₁ => ?_, fun t₁ t₂ task₁ task₂ h₁ h₂ heq => ?_⟩
  · obtain ⟨task₂, h₂, he⟩ := hold t₁ task₁ h₁
    exact he ▸ h.tasks t₁ task₂ h₂
  · obtain ⟨task₁', h₁', he₁⟩ := hold t₁ task₁ h₁
    obtain ⟨task₂', h₂', he₂⟩ := hold t₂ task₂ h₂
    exact h.unique t₁ t₂ _ _ h₁' h₂' (by rw [← he₁, ← he₂, heq])

theorem loopMove_exclusive {s s' : Loop} {input : LoopInput} (h : Exclusive s)
    (hidle : EntersIdle o s input) (hmove : LoopMove o s input s') : Exclusive s' := by
  cases hmove with
  | @runTurn input structureVersion =>
    have hstarted : Exclusive { s with
        nextId := s.nextId + 1
        trace := s.trace ++ [.append (.turnStarted (newTurn s.nextId input structureVersion))] } := by
      refine ⟨fun a ha => ?_, fun t task ht => Nat.lt_succ_of_lt (h.tasks t task ht), h.unique⟩
      obtain ha | ha := List.mem_append.mp ha
      · exact Nat.lt_succ_of_lt (h.acts a ha)
      · rw [List.mem_singleton.mp ha]
        exact Nat.lt_succ_self _
    have hlt : (startedTask o (newTurn s.nextId input structureVersion)).turnId < s.nextId + 1 :=
      Nat.lt_succ_self _
    exact start_exclusive hstarted hlt fun t task ht => Nat.ne_of_lt (h.tasks t task ht)
  | recover hrebuild hpending hactive =>
    refine start_exclusive h ?_ ?_ <;> rw [rebuilt_task_turnId hrebuild]
    · exact rebuild_turnId_lt h hrebuild
    · exact hidle _ (.recover hrebuild hpending hactive)
  | resume hrebuild hpending hid =>
    refine start_exclusive h ?_ ?_ <;> rw [rebuilt_task_turnId hrebuild]
    · exact rebuild_turnId_lt h hrebuild
    · exact hidle _ (.resume hrebuild hpending hid)
  | rebuildFailed hrebuild =>
    refine ⟨fun a ha => ?_, h.tasks, h.unique⟩
    obtain ha | ha := List.mem_append.mp ha
    · exact h.acts a ha
    · exact recoveryFailed_lt h hrebuild a ha
  | refuse => exact ⟨h.acts, h.tasks, h.unique⟩
  | abort ht =>
    refine h.update ht ?_ s.results
    rintro _ ⟨⟩
    rfl
  | advance ht hmove => exact advance_exclusive h ht hmove
  | fail ht => exact h.update ht (by simp) _

theorem reaches_exclusive {G : Loop → LoopInput → Prop} (hG : ∀ s input, G s input → EntersIdle o s input)
    {s : Loop} (h : (loop o).Reaches G Loop.initial s) : Exclusive s :=
  h.invariant initial_exclusive fun _ _ _ hs hg hstep =>
    loopMove_exclusive hs (hG _ _ hg) (loopStep_move hstep)

/-- An act that no live call of the turn did: it is of another turn, or the refusal of a rebuild. -/
def Act.Foreign (turnId : TurnId) (a : Act) : Prop :=
  a.turnId ≠ turnId ∨
    ∃ sequence expected actual, a = .append (.agentRecoveryFailed turnId sequence expected actual)

/-- A property of the acts so far, the next id and one live call, with the acts beside the call
that do not disturb it. -/
structure TaskProperty where
  holds : List Act → ℕ → Task → Prop
  undisturbing : TurnId → Act → Prop := fun _ _ => True
  frame : ∀ {trace n task acts n'}, holds trace n task →
    (∀ a ∈ acts, undisturbing task.turnId a) → n ≤ n' → holds (trace ++ acts) n' task
  abort : ∀ {trace n task}, holds trace n task → holds trace n { task with aborted := true }

def Loop.Holds (P : TaskProperty) (s : Loop) : Prop :=
  ∀ t task, s.tasks t = some task → P.holds s.trace s.nextId task

/-- What is to show of a property for it to hold of every live call: the entry points establish
it, and a call's own steps keep it. -/
structure TaskProperty.Kept (P : TaskProperty) (o : AgentLoopOptions)
    (G : Loop → LoopInput → Prop) (Q : Loop → Prop) : Prop where
  run : ∀ {s input structureVersion}, Q s → G s (.runTurn input structureVersion) →
    P.holds (s.trace ++ [.append (.turnStarted (newTurn s.nextId input structureVersion))])
      (s.nextId + 1) (startedTask o (newTurn s.nextId input structureVersion))
  recover : ∀ {s turnId rebuilt}, Q s → G s (.recoverTurn turnId) →
    rebuild o s.log turnId = .ok rebuilt → rebuilt.pendingApproval = none →
    rebuilt.state.turn.status = .active → P.holds s.trace s.nextId (rebuilt.task o .driving)
  resume : ∀ {s turnId approvalId decision rebuilt pending}, Q s →
    G s (.resumeTurn turnId approvalId decision) → rebuild o s.log turnId = .ok rebuilt →
    rebuilt.pendingApproval = some pending → pending.approvalId = approvalId →
    P.holds s.trace s.nextId (rebuilt.task o (.deciding pending decision))
  move : ∀ {s t task input step task'}, Q s → s.tasks t = some task →
    P.holds s.trace s.nextId task → G s (.advance t input) →
    Move o s.log s.nextId task input step → step.next = .continue task' →
    P.holds (s.trace ++ step.acts) (s.nextId + step.drawn) task'

/-- What a step of the loop writes beside the live call `t`. -/
inductive Beside (o : AgentLoopOptions) (s : Loop) (t : ℕ) : LoopInput → List Act → Prop where
  | runTurn {input structureVersion} : Beside o s t (.runTurn input structureVersion)
    [.append (.turnStarted (newTurn s.nextId input structureVersion))]
  | rebuildFailed {input turnId error} : Beside o s t input (recoveryFailed turnId error)
  | advance {t' task input step} (hne : t ≠ t') (ht : s.tasks t' = some task)
    (hmove : Move o s.log s.nextId task input step) : Beside o s t (.advance t' input) step.acts

/-- No step beside a live call disturbs the property. -/
def Loop.Undisturbed (o : AgentLoopOptions) (P : TaskProperty) (s : Loop) : Prop :=
  ∀ t task input acts, s.tasks t = some task → Beside o s t input acts →
    ∀ a ∈ acts, P.undisturbing task.turnId a

theorem start_holds {P : TaskProperty} {s : Loop} (h : s.Holds P) {task : Task}
    (htask : P.holds s.trace s.nextId task) : (s.start task).Holds P := by
  intro t task' ht
  obtain rfl | ht := start_tasks_cases ht
  · exact htask
  · exact h t task' ht

theorem recoveryFailed_foreign {turnId turnId' : TurnId} {error : RebuildError} :
    ∀ a ∈ recoveryFailed turnId error, a.Foreign turnId' := by
  intro a ha
  by_cases h : turnId = turnId'
  · subst h
    cases error with
    | notFound => cases ha
    | digestMismatch => exact .inr ⟨_, _, _, List.mem_singleton.mp ha⟩
  · exact .inl (by rw [recoveryFailed_turnId a ha]; exact h)

theorem Beside.foreign {s : Loop} (he : Exclusive s) {t : ℕ} {task : Task} {input : LoopInput}
    {acts : List Act} (ht : s.tasks t = some task) (h : Beside o s t input acts) :
    ∀ a ∈ acts, a.Foreign task.turnId := by
  cases h with
  | runTurn => exact fun a ha => .inl (List.mem_singleton.mp ha ▸ Nat.ne_of_gt (he.tasks t task ht))
  | rebuildFailed => exact recoveryFailed_foreign
  | advance hne ht' hmove =>
    intro a ha
    refine .inl ?_
    rw [hmove.turnId.1 a ha]
    exact fun heq => hne (he.unique _ _ _ _ ht ht' heq.symm)

theorem loopMove_holds {P : TaskProperty} {G : Loop → LoopInput → Prop} {Q : Loop → Prop}
    (hP : P.Kept o G Q) {s s' : Loop} {input : LoopInput} (hq : Q s) (hu : s.Undisturbed o P)
    (h : s.Holds P) (hg : G s input) (hmove : LoopMove o s input s') :
    s'.Holds P := by
  cases hmove with
  | @runTurn input structureVersion =>
    exact start_holds
      (s := { s with nextId := s.nextId + 1
                     trace := s.trace ++
                       [.append (.turnStarted (newTurn s.nextId input structureVersion))] })
      (fun t task ht => P.frame (h t task ht) (hu t task _ _ ht .runTurn) (Nat.le_succ _))
      (hP.run hq hg)
  | recover hrebuild hpending hactive =>
    exact start_holds h (hP.recover hq hg hrebuild hpending hactive)
  | resume hrebuild hpending hid =>
    exact start_holds h (hP.resume hq hg hrebuild hpending hid)
  | @rebuildFailed input =>
    exact fun t task ht =>
      P.frame (h t task ht) (hu t task input _ ht .rebuildFailed) (le_refl _)
  | refuse => exact h
  | @abort t task ht =>
    intro t' task' ht'
    by_cases hne : t' = t
    · subst hne
      simp only [Function.update_self, Option.some.injEq] at ht'
      subst ht'
      exact P.abort (h t' task ht)
    · exact h t' task' (by simpa [Function.update_of_ne hne] using ht')
  | @advance t task input step ht hmove =>
    intro t' task' ht'
    rw [trace_apply, nextId_apply]
    obtain ⟨rfl, hnext⟩ | ⟨hne, ht'⟩ := apply_tasks_cases ht'
    · exact hP.move hq ht (h t' task ht) hg hmove hnext
    · exact P.frame (h t' task' ht') (hu t' task' _ _ ht' (.advance hne ht hmove))
        (Nat.le_add_right _ _)
  | @fail t task _ ht =>
    intro t' task' ht'
    by_cases hne : t' = t
    · subst hne
      simp at ht'
    · exact h t' task' (by simpa [Function.update_of_ne hne] using ht')

/-- The run rule for exclusive runs: a property that is kept, and that foreign acts do not disturb,
holds of every live call of every state reached. -/
theorem reaches_holds {P : TaskProperty} (hforeign : ∀ turnId a, a.Foreign turnId →
      P.undisturbing turnId a) {G : Loop → LoopInput → Prop} {Q : Loop → Prop}
    (hG : ∀ s input, G s input → EntersIdle o s input) (hP : P.Kept o G Q) {s : Loop}
    (h : (loop o).Reaches G Loop.initial s)
    (hq : ∀ s, (loop o).Reaches G Loop.initial s → Exclusive s → Q s) : s.Holds P := by
  refine h.invariant₂ (Q := fun s => Q s ∧ Exclusive s)
    (fun t ht => ⟨hq t ht (reaches_exclusive hG ht), reaches_exclusive hG ht⟩)
    (fun _ _ ht => by cases ht) ?_
  intro s input s' hs hp hg hstep
  exact loopMove_holds hP hs.1
    (fun t task _ _ ht hb a ha => hforeign _ _ (hb.foreign hs.2 ht a ha)) hp hg (loopStep_move hstep)

end BeeAgent.Runtime
