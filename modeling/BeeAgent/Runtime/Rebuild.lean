import BeeAgent.Runtime.Log

/-! Checkpoint rebuildability: in the runs that commit in order, what `#rebuild` reconstructs at a
checkpoint is the live history that the checkpoint digests. -/
namespace BeeAgent.Runtime
open BeeAgent.Data BeeAgent.Thread BeeAgent.Execution Transition Transition.Machine

variable {o : AgentLoopOptions}

def unrecorded (task : Task) : List LlmMessage :=
  match task.pc with
  | .settling _ slots _ => slots.filterMap answeredMessage?
  | _ => []

/-- The log and the live history of a call agree: carried messages and the turn's own are the
history, followed by the answers of the batch that are logged and not yet in it. -/
def Agrees (log : List ThreadEvent) (task : Task) : Prop :=
  match task.pc with
  | .reading => ownMessages log task.turnId = []
  | .recordingInput =>
    ownMessages log task.turnId = [] ∧ task.history = carriedMessages log task.turnId
  | .deciding pending _ | .approved pending _ =>
    carriedMessages log task.turnId ++ ownMessages log task.turnId = task.history ∧
      pending.toolItem.2.isError = none
  | _ => carriedMessages log task.turnId ++ ownMessages log task.turnId =
      task.history ++ unrecorded task

theorem Agrees.of_plain {log : List ThreadEvent} {task : Task} (h : Agrees log task)
    (hpc : task.pc.plain) :
    carriedMessages log task.turnId ++ ownMessages log task.turnId = task.history := by
  cases hp : task.pc <;> simp_all [Agrees, Pc.plain, unrecorded]

theorem agrees_of_plain {log : List ThreadEvent} {task : Task} (hpc : task.pc.plain)
    (h : carriedMessages log task.turnId ++ ownMessages log task.turnId = task.history) :
    Agrees log task := by
  cases hp : task.pc <;> simp_all [Agrees, Pc.plain, unrecorded]

def agreement : TaskProperty where
  undisturbing := Act.Foreign
  holds trace _ task := Started (eventsOf trace) task.turnId ∧ Agrees (eventsOf trace) task
  frame {trace n task acts n'} h hacts _ := by
    rw [eventsOf_append]
    refine ⟨h.1.append, ?_⟩
    unfold Agrees
    rw [ownMessages_append_foreign hacts, carriedMessages_append h.1]
    exact h.2
  abort h := h

/-- A started turn carries exactly what was completed before it; the calls of a batch are recorded
in model order, and a suspension while none of them is answered. -/
def StepInOrder (o : AgentLoopOptions) (log : List ThreadEvent) (task : Task)
    (input : TaskInput) : Prop :=
  match task.pc with
  | .reading =>
    let started := (startedSequence? log task.turnId).getD 0
    messagesFromEvents (if o.carryThreadHistory = some false then log.take (started - 1)
      else log.drop (started - 1)) = []
  | .settling _ slots _ => ∀ index slot, slotIndex? input = some index → slots[index]? = some slot →
    input.records →
    match slot.state with
    | .suspending .. => slots.filterMap answeredMessage? = []
    | _ => (slots.drop (index + 1)).filterMap answeredMessage? = []
  | _ => True

/-- The guard: every step is in order, and a call goes on with a turn only when no other call is
live on it and none of its messages is logged behind its last checkpoint. -/
def CommitsInOrder (o : AgentLoopOptions) (s : Loop) (input : LoopInput) : Prop :=
  (∀ turnId, Admits o s input turnId → s.Idle turnId ∧
    ownMessages (s.log.drop (commitSequence s.log turnId)) turnId = []) ∧
  ∀ t i task, input = .advance t i → s.tasks t = some task → StepInOrder o s.log task i

theorem CommitsInOrder.entersIdle {s : Loop} {input : LoopInput} (h : CommitsInOrder o s input) :
    EntersIdle o s input :=
  fun turnId hadmits => (h.1 turnId hadmits).1

section Steps
variable {log es : List ThreadEvent} {task : Task}

theorem agrees_push {messages : List LlmMessage} {pc : Pc}
    (hplain : carriedMessages log task.turnId ++ ownMessages log task.turnId = task.history)
    (hstarted : Started log task.turnId) (hes : ∀ e ∈ es, e.turnId = task.turnId)
    (hmessages : messagesFromEvents es = messages) (hpc : pc.plain) :
    Agrees (log ++ es) ((task.push messages).goto pc) := by
  refine agrees_of_plain hpc ?_
  rw [Task.turnId_goto, Task.turnId_push, Task.history_goto, Task.history_push,
    carriedMessages_append hstarted, ownMessages_append_self hes, hmessages, ← List.append_assoc,
    hplain]

theorem Agrees.keep {task' : Task} (h : Agrees log task) (hpc : task.pc.plain)
    (hstarted : Started log task.turnId) (hes : ∀ e ∈ es, e.turnId = task.turnId)
    (hmessages : messagesFromEvents es = []) (hturn : task'.turnId = task.turnId)
    (hhistory : task'.history = task.history) (hpc' : task'.pc.plain) :
    Agrees (log ++ es) task' := by
  refine agrees_of_plain hpc' ?_
  rw [hturn, hhistory, carriedMessages_append hstarted, ownMessages_append_self hes, hmessages,
    List.append_nil, h.of_plain hpc]

end Steps

theorem slotMove_agrees {log : List ThreadEvent} {nextId : ℕ} {task : Task} {slot : Slot}
    {input : TaskInput} {after : AfterIntents} {slots : List Slot} {segments : List Segment}
    {index : ℕ} {acts : List Act} {state : SlotState} {drawn : ℕ}
    (h : Agrees log task) (hstarted : Started log task.turnId)
    (hpc : task.pc = .settling after slots segments) (hindex : slotIndex? input = some index)
    (hslot : slots[index]? = some slot) (hmove : SlotMove o nextId task slot input acts state drawn)
    (hes : ∀ e ∈ eventsOf acts, e.turnId = task.turnId) (hguard : StepInOrder o log task input) :
    Agrees (log ++ eventsOf acts)
      (task.goto (.settling after (slots.set index { slot with state }) segments)) := by
  simp only [Agrees, hpc, unrecorded] at h
  simp only [StepInOrder, hpc] at hguard
  obtain ⟨hold, hnew⟩ := filterMap_set answeredMessage? hslot { slot with state }
  simp only [Agrees, Task.goto, unrecorded]
  show carriedMessages (log ++ eventsOf acts) task.turnId ++
    ownMessages (log ++ eventsOf acts) task.turnId = _
  rw [carriedMessages_append hstarted, ownMessages_append_self hes, ← List.append_assoc, h, hnew]
  cases hmove with
  | answer hs hinput =>
    have hlater := hguard index slot hindex hslot hinput
    simp only [hs] at hlater
    rw [hold, hlater]
    simp [answeredMessage?, hs, eventsOf, Act.event?, messagesFromEvents, eventMessage?,
      completedToolItem, ThreadEvent.completedItem?, messageOf?, toolMessage, toolItemPayload,
      Task.history]
  | suspend hs | suspended hs _ =>
    rw [hold]
    simp [answeredMessage?, hs, eventsOf, Act.event?, messagesFromEvents, eventMessage?,
      ThreadEvent.completedItem?, checkpointEvent, Task.history]
  | reject hs =>
    have hnone : answeredMessage? slot = none := by
      cases hstate : slot.state <;> simp_all [answeredMessage?]
    rw [hold, hnone]
    simp [answeredMessage?, eventsOf, messagesFromEvents, Task.history]

theorem read_carried {log : List ThreadEvent} {turnId : TurnId} (hstarted : Started log turnId)
    (hguard : messagesFromEvents (if o.carryThreadHistory = some false then
      log.take ((startedSequence? log turnId).getD 0 - 1)
      else log.drop ((startedSequence? log turnId).getD 0 - 1)) = []) :
    messagesFromEvents (if o.carryThreadHistory = some false then [] else log) =
      carriedMessages log turnId := by
  obtain ⟨sequence, hs⟩ := Option.isSome_iff_exists.mp hstarted
  simp only [hs, Option.getD_some] at hguard
  rw [carriedMessages, hs]
  by_cases hcarry : o.carryThreadHistory = some false
  · rw [if_pos hcarry] at hguard ⊢
    exact hguard.symm
  · rw [if_neg hcarry] at hguard ⊢
    rw [← List.take_append_drop (sequence - 1) log, messagesFromEvents_append, hguard,
      List.append_nil, List.take_append_drop]

theorem itemFailed_messages {task : Task} {acts : List Act}
    (hacts : ∀ a ∈ acts, ∃ attempt error, task.pc.stream? = some attempt ∧
      a = itemFailedAct task attempt error) : messagesFromEvents (eventsOf acts) = [] := by
  refine messagesFromEvents_eq_nil fun e he => ?_
  obtain ⟨_, _, -, hf⟩ := hacts _ (mem_eventsOf.mp he)
  cases hf
  rfl

theorem Move.agrees {log : List ThreadEvent} {nextId : ℕ} {task task' : Task} {input : TaskInput}
    {step : TaskStep} (hmove : Move o log nextId task input step)
    (hnext : step.next = .continue task') (hstarted : Started log task.turnId)
    (h : Agrees log task) (hguard : StepInOrder o log task input) :
    Agrees (log ++ eventsOf step.acts) task' := by
  have hes := hmove.turnId_events
  cases hmove with
  | throw | suspendTurn | terminate => cases hnext
  | giveUp hpc hacts =>
    cases hnext
    exact h.keep hpc hstarted hes (itemFailed_messages hacts) rfl rfl rfl
  | read hpc hevents =>
    cases hnext
    simp only [Agrees, hpc] at h
    simp only [StepInOrder, hpc] at hguard
    have hcarried := read_carried hstarted hguard
    simp only [Agrees, eventsOf, List.filterMap_nil, List.append_nil]
    exact ⟨h, by rw [hevents]; exact hcarried⟩
  | recordInput hpc =>
    cases hnext
    simp only [Agrees, hpc] at h
    exact agrees_push (by rw [h.1, h.2, List.append_nil]) hstarted hes rfl rfl
  | decide hpc =>
    cases hnext
    simp only [Agrees, hpc] at h
    refine ⟨?_, h.2⟩
    rw [Task.turnId_goto, carriedMessages_append hstarted, ownMessages_append_self hes]
    exact (List.append_assoc ..).symm.trans ((List.append_nil _).trans h.1)
  | answerApproved hpc =>
    cases hnext
    simp only [Agrees, hpc] at h
    refine agrees_push h.1 hstarted hes ?_ rfl
    simp [eventsOf, Act.event?, messagesFromEvents, eventMessage?, ThreadEvent.completedItem?,
      completedToolItem, messageOf?, toolMessage, h.2]
  | recordAssistant hpc =>
    cases hnext
    exact agrees_push (h.of_plain (by rw [hpc]; rfl)) hstarted hes rfl rfl
  | slot hpc hindex hslot hmove =>
    cases hnext
    exact slotMove_agrees h hstarted hpc hindex hslot hmove hes hguard
  | @batch after segments batch rest hpc hbatch =>
    cases hnext
    have hnone : (batch.map fun i => (⟨i, .executing⟩ : Slot)).filterMap answeredMessage? = [] :=
      List.filterMap_eq_nil_iff.mpr fun slot hslot => by
        obtain ⟨i, -, rfl⟩ := List.mem_map.mp hslot
        rfl
    have hevents : eventsOf (batch.filterMap (dispatchOf? task.turnId)) = [] :=
      List.filterMap_eq_nil_iff.mpr fun a ha => by
        obtain ⟨i, -, ha⟩ := List.mem_filterMap.mp ha
        unfold dispatchOf? at ha
        split at ha <;> cases ha
        rfl
    simp only [Agrees, Task.goto, unrecorded, hnone, hevents, List.append_nil]
    exact h.of_plain (by rw [hpc]; rfl)
  | commit hpc hanswered =>
    cases hnext
    simp only [Agrees, hpc, unrecorded] at h
    refine agrees_of_plain rfl ?_
    simpa [eventsOf] using h
  | retry hpc hacts =>
    cases hnext
    have hplain : task.pc.plain := by
      cases hp : task.pc <;> simp [Pc.attempt?, Pc.plain, hp] at hpc ⊢
    exact h.keep hplain hstarted hes (itemFailed_messages hacts) rfl rfl rfl
  | stream hpc hacts hnext' =>
    cases hnext
    refine h.keep (by rw [hpc]; rfl) hstarted hes (messagesFromEvents_eq_nil ?_) rfl rfl ?_
    · intro e he
      obtain ⟨_, hf⟩ := hacts _ (mem_eventsOf.mp he)
      cases hf
      rfl
    · obtain ⟨_, rfl | rfl, -⟩ := hnext' <;> rfl
  | checkpointed hpc hpc' =>
    cases hnext
    refine h.keep (by rw [hpc]; rfl) hstarted hes rfl rfl rfl ?_
    obtain rfl | rfl := hpc' <;> rfl
  | generate hpc | redispatch hpc | finishIntents hpc | complete hpc | assemble hpc
  | summarize hpc | unsummarized hpc | compacted hpc | attempt hpc | intent hpc | escalate hpc =>
    cases hnext
    exact h.keep (by rw [hpc]; rfl) hstarted hes rfl rfl rfl rfl

theorem rebuilt_agrees {log : List ThreadEvent} {turnId : TurnId} {rebuilt : Rebuilt}
    (hcommitted : ownMessages (log.drop (commitSequence log turnId)) turnId = [])
    (hrebuild : rebuild o log turnId = .ok rebuilt) (pc : Pc) :
    carriedMessages log (rebuilt.task o pc).turnId ++ ownMessages log (rebuilt.task o pc).turnId =
      (rebuilt.task o pc).history := by
  rw [rebuilt_task_turnId hrebuild, ← rebuiltHistory_eq hcommitted, ← (rebuild_ok hrebuild).2.1]
  rfl

theorem agreement_kept :
    agreement.Kept o (CommitsInOrder o)
      (fun s => StartsClean s.log ∧ Rooted s ∧ Exclusive s) where
  run {s input structureVersion} hq _ := by
    have hold : ownMessages (eventsOf s.trace) s.nextId = [] := by
      exact ownMessages_eq_nil fun e hmem =>
        .inl (Nat.ne_of_lt (hq.2.2.acts _ (mem_eventsOf.mp hmem)))
    refine ⟨?_, ?_⟩
    · rw [eventsOf_append]
      exact started_append_turnStarted _ _
    · show ownMessages (eventsOf _) s.nextId = []
      rw [eventsOf_append, ownMessages_append, hold]
      simp [eventsOf, Act.event?, ownMessages, turnEvents, messagesFromEvents, newTurn,
        ThreadEvent.turnId, eventMessage?, ThreadEvent.completedItem?]
  recover {s turnId rebuilt} hq hg hrebuild hpending hactive := by
    have hcommitted := (hg.1 turnId (.recover hrebuild hpending hactive)).2
    refine ⟨?_, agrees_of_plain rfl (rebuilt_agrees hcommitted hrebuild .driving)⟩
    rw [rebuilt_task_turnId hrebuild]
    exact rebuild_started hq.2.1 hrebuild
  resume {s turnId approvalId decision rebuilt pending} hq hg hrebuild hpending hid := by
    have hcommitted := (hg.1 turnId (.resume hrebuild hpending hid)).2
    refine ⟨?_, rebuilt_agrees hcommitted hrebuild (.deciding pending decision), ?_⟩
    · rw [rebuilt_task_turnId hrebuild]
      exact rebuild_started hq.2.1 hrebuild
    · rw [(rebuild_ok hrebuild).2.2.2.1] at hpending
      obtain ⟨_, hmem, -⟩ := findPendingApproval_started hpending
      exact hq.1 _ _ _ hmem
  move {s t task input step task'} _ ht h hg hmove hnext := by
    refine ⟨?_, ?_⟩
    · rw [eventsOf_append, hmove.turnId.2 _ hnext]
      exact h.1.append
    · rw [eventsOf_append]
      exact hmove.agrees hnext h.1 h.2 (hg.2 t input task rfl ht)

theorem reaches_agreement {s : Loop}
    (h : (loop o).Reaches (CommitsInOrder o) Loop.initial s) : s.Holds agreement :=
  reaches_holds (fun _ _ => id) (fun _ _ => CommitsInOrder.entersIdle) agreement_kept h
    fun _ hr he => ⟨reaches_startsClean hr, reaches_rooted hr, he⟩

/-- A step of a call that appends a checkpoint appends it alone, with the digest of its history,
from a state in which the history is all that the log holds of the turn. -/
theorem Move.checkpoint {log : List ThreadEvent} {nextId : ℕ} {task : Task} {input : TaskInput}
    {step : TaskStep} (hmove : Move o log nextId task input step) {turnId : TurnId} {stepIndex : ℕ}
    {stateDigest : String}
    (hmem : .agentCheckpoint turnId stepIndex stateDigest ∈ eventsOf step.acts)
    (h : Agrees log task) (hguard : StepInOrder o log task input) :
    eventsOf step.acts = [checkpointEvent o task] ∧
      carriedMessages log task.turnId ++ ownMessages log task.turnId = task.history := by
  rw [mem_eventsOf] at hmem
  cases hmove with
  | giveUp _ hacts | retry _ hacts =>
    obtain ⟨_, _, -, he⟩ := hacts _ hmem
    cases he
  | stream _ hacts =>
    obtain ⟨_, he⟩ := hacts _ hmem
    cases he
  | batch =>
    obtain ⟨intent, -, he⟩ := List.mem_filterMap.mp hmem
    unfold dispatchOf? at he
    split at he <;> cases he
  | slot hpc hindex hslot hmove =>
    cases hmove with
    | suspended hs hinput =>
      simp only [StepInOrder, hpc] at hguard
      have hnone := hguard _ _ hindex hslot hinput
      simp only [hs] at hnone
      simp only [Agrees, hpc, unrecorded, hnone, List.append_nil] at h
      exact ⟨rfl, h⟩
    | answer | suspend | reject => simp [completedToolItem] at hmem
  | checkpointed hpc | complete hpc => exact ⟨rfl, h.of_plain (by rw [hpc]; rfl)⟩
  | @terminate terminal => cases terminal <;> simp [Runtime.terminate] at hmem
  | _ => simp [completedToolItem, startedToolItem, itemFailedAct] at hmem

/-- The digest of the turn's last checkpoint is that of what the log rebuilds to. -/
def Verified (o : AgentLoopOptions) (log : List ThreadEvent) (turnId : TurnId) : Prop :=
  ∀ last, lastCheckpoint? log turnId = some last →
    digest o.sha256 (rebuiltHistory log turnId) = last.stateDigest

theorem Verified.append {log es : List ThreadEvent} {turnId : TurnId} (h : Verified o log turnId)
    (hrooted : ∀ e ∈ log, Started log e.turnId)
    (hes : ∀ e ∈ es, isCheckpointOf turnId e = false) : Verified o (log ++ es) turnId := by
  intro last hlast
  rw [lastCheckpoint?_append_quiet hes] at hlast
  have hstarted : Started log turnId := hrooted _ (lastCheckpoint?_mem hlast).1
  rw [rebuiltHistory_append_quiet hstarted hes]
  exact h last hlast

/-- The rebuild at a checkpoint that a call appends is the live history. -/
theorem Move.rebuilds {log : List ThreadEvent} {nextId : ℕ} {task : Task} {input : TaskInput}
    {step : TaskStep} (hmove : Move o log nextId task input step) {turnId : TurnId} {stepIndex : ℕ}
    {stateDigest : String}
    (hmem : .agentCheckpoint turnId stepIndex stateDigest ∈ eventsOf step.acts)
    (hstarted : Started log task.turnId) (h : Agrees log task)
    (hguard : StepInOrder o log task input) :
    turnId = task.turnId ∧ stateDigest = digest o.sha256 task.history ∧
      eventsOf step.acts = [.agentCheckpoint turnId stepIndex stateDigest] ∧
      rebuiltHistory (log ++ eventsOf step.acts) turnId = task.history := by
  obtain ⟨hacts, hhistory⟩ := hmove.checkpoint hmem h hguard
  rw [hacts, List.mem_singleton, checkpointEvent, ThreadEvent.agentCheckpoint.injEq] at hmem
  obtain ⟨rfl, rfl, rfl⟩ := hmem
  refine ⟨rfl, rfl, hacts, ?_⟩
  rw [hacts, checkpointEvent, rebuiltHistory_append_checkpoint, carriedMessages_append hstarted,
    hhistory]

theorem isCheckpointOf_false {es : List ThreadEvent} {turnId : TurnId}
    (h : ∀ stepIndex stateDigest, .agentCheckpoint turnId stepIndex stateDigest ∉ es) :
    ∀ e ∈ es, isCheckpointOf turnId e = false := by
  intro e he
  cases e with
  | agentCheckpoint id stepIndex stateDigest =>
    simp only [isCheckpointOf, beq_eq_false_iff_ne]
    rintro rfl
    exact h stepIndex stateDigest he
  | _ => rfl

theorem reaches_verified {s : Loop} (h : (loop o).Reaches (CommitsInOrder o) Loop.initial s) :
    ∀ turnId, Verified o s.log turnId := by
  refine h.invariant₂ (P := fun s => ∀ turnId, Verified o s.log turnId)
    (Q := fun s => s.Holds agreement ∧ Rooted s)
    (fun s hs => ⟨reaches_agreement hs, reaches_rooted hs⟩)
    (fun _ _ hlast => by cases hlast) ?_
  intro s input s' hq hs hg hstep turnId
  have hquiet : ∀ es, (∀ stepIndex stateDigest,
      .agentCheckpoint turnId stepIndex stateDigest ∉ es) → Verified o (s.log ++ es) turnId :=
    fun es hes => (hs turnId).append hq.2.events (isCheckpointOf_false hes)
  cases loopStep_move hstep with
  | runTurn =>
    rw [runStep, Loop.log_eq, eventsOf_append]
    exact hquiet _ (by simp [eventsOf, Act.event?])
  | @rebuildFailed _ _ error =>
    rw [Loop.rebuildFailed, Loop.log_eq, eventsOf_append]
    refine hquiet _ fun _ _ => ?_
    cases error <;> simp [recoveryFailed, eventsOf, Act.event?]
  | recover | resume | refuse | abort | fail => exact hs turnId
  | @advance t task input step ht hmove =>
    rw [log_apply]
    obtain ⟨hstarted, hagrees⟩ := hq.1 t task ht
    by_cases hcheckpoint : ∃ stepIndex stateDigest,
        .agentCheckpoint turnId stepIndex stateDigest ∈ eventsOf step.acts
    · obtain ⟨stepIndex, stateDigest, hmem⟩ := hcheckpoint
      obtain ⟨-, hdigest, hacts, hrebuilt⟩ :=
        hmove.rebuilds hmem hstarted hagrees (hg.2 t input task rfl ht)
      intro last hlast
      rw [hrebuilt, ← hdigest]
      rw [hacts, lastCheckpoint?_append_checkpoint] at hlast
      cases hlast
      rfl
    · exact hquiet _ fun stepIndex stateDigest hmem => hcheckpoint ⟨stepIndex, stateDigest, hmem⟩

/-- In a run that commits in order, every checkpoint that is appended rebuilds to the live history
whose digest it records, and no rebuild rejects the log. -/
theorem checkpoint_rebuilds {s : Loop}
    (h : (loop o).Reaches (CommitsInOrder o) Loop.initial s) :
    (∀ input s', CommitsInOrder o s input → (loop o).step s input = some s' →
      ∃ es, s'.log = s.log ++ es ∧ ∀ turnId stepIndex stateDigest,
        .agentCheckpoint turnId stepIndex stateDigest ∈ es →
        ∃ t task, s.tasks t = some task ∧ task.turnId = turnId ∧
          stateDigest = digest o.sha256 task.history ∧
          rebuiltHistory s'.log turnId = task.history) ∧
      ∀ turnId error, rebuild o s.log turnId = .error error → error = .notFound := by
  refine ⟨fun input s' hg hstep => ?_, fun turnId error hrebuild => ?_⟩
  · cases loopStep_move hstep with
    | runTurn =>
      refine ⟨_, by rw [runStep, Loop.log_eq, eventsOf_append]; rfl, ?_⟩
      simp [eventsOf, Act.event?]
    | @rebuildFailed _ _ error =>
      refine ⟨_, by rw [Loop.rebuildFailed, Loop.log_eq, eventsOf_append]; rfl, ?_⟩
      cases error <;> simp [recoveryFailed, eventsOf, Act.event?]
    | recover | resume | refuse | abort | fail => exact ⟨[], (List.append_nil _).symm, by simp⟩
    | @advance t task input step ht hmove =>
      refine ⟨_, log_apply .., fun turnId stepIndex stateDigest hmem => ?_⟩
      obtain ⟨hstarted, hagrees⟩ := reaches_agreement h t task ht
      obtain ⟨hturn, hdigest, -, hrebuilt⟩ := hmove.rebuilds hmem hstarted hagrees (hg.2 t input task rfl ht)
      exact ⟨t, task, ht, hturn.symm, hdigest, by rw [log_apply, hrebuilt]⟩
  · have hverified := reaches_verified h turnId
    unfold rebuild at hrebuild
    split at hrebuild
    · cases hrebuild
      rfl
    · simp only at hrebuild
      split at hrebuild
      · cases hrebuild
      next last hlast =>
      rw [if_neg (not_not.mpr (hverified last hlast))] at hrebuild
      cases hrebuild

def answeredRun : List LoopInput :=
  startInputs 0 ++ replyInputs 0 [] .endTurn ++ [.advance 0 .proceed]

/-- A step of a fresh call outside of a batch, which the guard admits. -/
def fresh (s : Loop) : LoopInput → Bool
  | .runTurn .. => true
  | .advance t _ => (s.tasks t).all fun task =>
    match task.pc with
    | .settling .. => false
    | .reading => (messagesFromEvents s.log).isEmpty
    | _ => true
  | _ => false

theorem commitsInOrder_of_fresh (s : Loop) (input : LoopInput) (h : fresh s input) :
    CommitsInOrder o s input := by
  refine ⟨fun turnId hadmits => ?_, fun t i task hinput ht => ?_⟩
  · cases hadmits <;> cases h
  · subst hinput
    simp only [fresh, ht, Option.all_some] at h
    cases hpc : task.pc with
    | settling => simp [hpc] at h
    | reading =>
      simp only [hpc, List.isEmpty_iff] at h
      have hsplit : ∀ n, messagesFromEvents (s.log.take n) = [] ∧
          messagesFromEvents (s.log.drop n) = [] := fun n => by
        rw [← List.append_eq_nil_iff, ← messagesFromEvents_append, List.take_append_drop, h]
      simp only [StepInOrder, hpc]
      split
      · exact (hsplit _).1
      · exact (hsplit _).2
    | _ => simp [StepInOrder, hpc]

theorem checkpoint_rebuilds_sample :
    lastCheckpoint? ((loop sampleOptions).execGet Loop.initial answeredRun rfl).log 0 ≠ none ∧
      ∀ turnId error, rebuild sampleOptions
        ((loop sampleOptions).execGet Loop.initial answeredRun rfl).log turnId = .error error →
        error = .notFound := by
  refine ⟨by decide, (checkpoint_rebuilds (execGet_reaches answeredRun rfl ?_)).2⟩
  exact guarded_of_allSteps commitsInOrder_of_fresh _ rfl

/-- Two parallel calls whose results are logged against the model's order, up to the checkpoint. -/
def outOfOrderRun : List LoopInput :=
  startInputs 0 ++ replyInputs 0 [sampleCall "a", sampleCall "b"] .toolCalls ++
    advances 0 [.slot 1 (sampleAnswer "B"), .slot 0 (sampleAnswer "A"), .proceed, .proceed, .proceed]

def isMismatch : Except RebuildError Rebuilt → Bool
  | .error (.digestMismatch ..) => true
  | _ => false

theorem exists_of_isMismatch {result : Except RebuildError Rebuilt} (h : isMismatch result) :
    ∃ sequence expected actual, result = .error (.digestMismatch sequence expected actual) := by
  unfold isMismatch at h
  split at h
  · exact ⟨_, _, _, rfl⟩
  · cases h

/-- The log that this run writes is rejected by the rebuild. -/
theorem outOfOrder_rejected :
    ∃ sequence expected actual, rebuild sampleOptions
      ((loop sampleOptions).execGet Loop.initial outOfOrderRun rfl).log 0 =
        .error (.digestMismatch sequence expected actual) :=
  exists_of_isMismatch (by decide +kernel)

end BeeAgent.Runtime
