import BeeAgent.Runtime.Exclusive

/-! The thread's log: what appending does to the messages, the carried prefix and the checkpoints
read back from it, and what the events of every log the loop writes look like. -/
namespace BeeAgent.Runtime
open BeeAgent.Data BeeAgent.Thread BeeAgent.Execution Transition Transition.Machine

theorem filterMap_set {α β : Type} (f : α → Option β) {xs : List α} {i : ℕ} {x : α}
    (hx : xs[i]? = some x) (y : α) :
    xs.filterMap f = (xs.take i).filterMap f ++ (f x).toList ++ (xs.drop (i + 1)).filterMap f ∧
      (xs.set i y).filterMap f =
        (xs.take i).filterMap f ++ (f y).toList ++ (xs.drop (i + 1)).filterMap f := by
  obtain ⟨hlt, rfl⟩ := List.getElem?_eq_some_iff.mp hx
  have hcons : ∀ z zs, (z :: zs).filterMap f = (f z).toList ++ zs.filterMap f := by
    intro z zs
    rw [List.filterMap_cons]
    cases f z <;> rfl
  constructor
  · conv_lhs => rw [← List.take_append_drop i xs, List.drop_eq_getElem_cons hlt]
    rw [List.filterMap_append, hcons, List.append_assoc]
  · rw [List.set_eq_take_append_cons_drop, if_pos hlt, List.filterMap_append, hcons,
      List.append_assoc]

section Log
variable {log es : List ThreadEvent} {turnId : TurnId}

@[simp] theorem messagesFromEvents_append (log es : List ThreadEvent) :
    messagesFromEvents (log ++ es) = messagesFromEvents log ++ messagesFromEvents es :=
  List.filterMap_append

theorem messagesFromEvents_eq_nil (h : ∀ e ∈ es, eventMessage? e = none) :
    messagesFromEvents es = [] :=
  List.filterMap_eq_nil_iff.mpr h

def ownMessages (log : List ThreadEvent) (turnId : TurnId) : List LlmMessage :=
  messagesFromEvents (turnEvents log turnId)

@[simp] theorem turnEvents_append (log es : List ThreadEvent) (turnId : TurnId) :
    turnEvents (log ++ es) turnId = turnEvents log turnId ++ turnEvents es turnId :=
  List.filter_append ..

theorem turnEvents_self (h : ∀ e ∈ es, e.turnId = turnId) : turnEvents es turnId = es :=
  List.filter_eq_self.mpr fun e he => by simp [h e he]

theorem turnEvents_other (h : ∀ e ∈ es, e.turnId ≠ turnId) : turnEvents es turnId = [] :=
  List.filter_eq_nil_iff.mpr fun e he => by simp [h e he]

theorem ownMessages_append (log es : List ThreadEvent) (turnId : TurnId) :
    ownMessages (log ++ es) turnId = ownMessages log turnId ++ ownMessages es turnId := by
  simp [ownMessages]

theorem ownMessages_append_self (h : ∀ e ∈ es, e.turnId = turnId) :
    ownMessages (log ++ es) turnId = ownMessages log turnId ++ messagesFromEvents es := by
  rw [ownMessages_append, ownMessages, ownMessages, turnEvents_self h]

theorem ownMessages_eq_nil (h : ∀ e ∈ es, e.turnId ≠ turnId ∨ eventMessage? e = none) :
    ownMessages es turnId = [] :=
  messagesFromEvents_eq_nil fun e he => by
    obtain ⟨hmem, hturn⟩ := List.mem_filter.mp he
    exact (h e hmem).resolve_left (by simpa using hturn)

theorem ownMessages_append_foreign {acts : List Act} (h : ∀ a ∈ acts, a.Foreign turnId) :
    ownMessages (log ++ eventsOf acts) turnId = ownMessages log turnId := by
  have hnone : ownMessages (eventsOf acts) turnId = [] := ownMessages_eq_nil fun e he => ?_
  · rw [ownMessages_append, hnone, List.append_nil]
  obtain hne | ⟨_, _, _, he⟩ := h _ (mem_eventsOf.mp he)
  · exact .inl hne
  · cases he
    exact .inr rfl

def Started (log : List ThreadEvent) (turnId : TurnId) : Prop :=
  (startedSequence? log turnId).isSome

theorem startedSequence?_append (h : Started log turnId) :
    startedSequence? (log ++ es) turnId = startedSequence? log turnId := by
  rw [Started, startedSequence?, Option.isSome_map] at h
  rw [startedSequence?, List.findIdx?_append, startedSequence?, Option.or_of_isSome h]

theorem Started.append (h : Started log turnId) : Started (log ++ es) turnId := by
  rw [Started, startedSequence?_append h]
  exact h

theorem startedSequence?_le {sequence : ℕ} (h : startedSequence? log turnId = some sequence) :
    sequence ≤ log.length := by
  obtain ⟨index, hindex, rfl⟩ := Option.map_eq_some_iff.mp h
  exact (List.findIdx?_eq_some_iff_findIdx_eq.mp hindex).1

theorem carriedMessages_append (h : Started log turnId) :
    carriedMessages (log ++ es) turnId = carriedMessages log turnId := by
  rw [carriedMessages, startedSequence?_append h, carriedMessages]
  cases hs : startedSequence? log turnId with
  | none => rfl
  | some sequence =>
    have := startedSequence?_le hs
    simp only
    rw [List.take_append_of_le_length (by omega)]

theorem started_append_turnStarted (log : List ThreadEvent) (turn : Turn) :
    Started (log ++ [.turnStarted turn]) turn.id := by
  rw [Started, startedSequence?, Option.isSome_map, List.findIdx?_isSome]
  simp [ThreadEvent.isTurnStarted]

end Log

section Checkpoints
variable {log es : List ThreadEvent} {turnId : TurnId}

def isCheckpointOf (turnId : TurnId) : ThreadEvent → Bool
  | .agentCheckpoint id .. => id == turnId
  | _ => false

theorem checkpointOf?_eq_none {event : ThreadEvent} {sequence : ℕ}
    (h : isCheckpointOf turnId event = false) : checkpointOf? turnId (event, sequence) = none := by
  cases event <;> simp_all [isCheckpointOf, checkpointOf?]

theorem lastCheckpoint?_append_quiet (h : ∀ e ∈ es, isCheckpointOf turnId e = false) :
    lastCheckpoint? (log ++ es) turnId = lastCheckpoint? log turnId := by
  have hnil : (es.zipIdx (1 + log.length)).filterMap (checkpointOf? turnId) = [] := by
    rw [List.filterMap_eq_nil_iff]
    rintro ⟨e, i⟩ he
    exact checkpointOf?_eq_none (h e (List.fst_mem_of_mem_zipIdx he))
  rw [lastCheckpoint?, List.zipIdx_append, List.filterMap_append, hnil, List.append_nil,
    lastCheckpoint?]

theorem lastCheckpoint?_append_checkpoint (log : List ThreadEvent) (turnId : TurnId)
    (stepIndex : ℕ) (stateDigest : String) :
    lastCheckpoint? (log ++ [.agentCheckpoint turnId stepIndex stateDigest]) turnId =
      some ⟨log.length + 1, stepIndex, stateDigest⟩ := by
  simp [lastCheckpoint?, List.zipIdx_append, checkpointOf?, Nat.add_comm]

theorem lastCheckpoint?_mem {last : Checkpoint} (h : lastCheckpoint? log turnId = some last) :
    .agentCheckpoint turnId last.stepIndex last.stateDigest ∈ log ∧
      last.sequence ≤ log.length := by
  obtain ⟨⟨e, i⟩, hmem, hc⟩ := List.mem_filterMap.mp (List.mem_of_getLast? h)
  have hi := List.mem_zipIdx hmem
  have he := List.fst_mem_of_mem_zipIdx hmem
  unfold checkpointOf? at hc
  split at hc
  · split at hc <;> cases hc
    next heq hid =>
    simp only at heq
    subst heq hid
    exact ⟨he, by simp only; omega⟩
  · cases hc

theorem commitSequence_le (log : List ThreadEvent) (turnId : TurnId) :
    commitSequence log turnId ≤ log.length := by
  rw [commitSequence]
  cases h : lastCheckpoint? log turnId with
  | none => exact Nat.zero_le _
  | some last => exact (lastCheckpoint?_mem h).2

/-- With nothing logged behind the last checkpoint, the rebuild has all the turn's messages. -/
theorem rebuiltHistory_eq (h : ownMessages (log.drop (commitSequence log turnId)) turnId = []) :
    rebuiltHistory log turnId = carriedMessages log turnId ++ ownMessages log turnId := by
  rw [rebuiltHistory, rebuildHistory]
  conv_rhs => rw [← List.take_append_drop (commitSequence log turnId) log]
  rw [ownMessages_append, h, List.append_nil, List.take_append_drop]
  rfl

theorem rebuiltHistory_append_checkpoint (stepIndex : ℕ) (stateDigest : String) :
    rebuiltHistory (log ++ [.agentCheckpoint turnId stepIndex stateDigest]) turnId =
      carriedMessages (log ++ [.agentCheckpoint turnId stepIndex stateDigest]) turnId ++
        ownMessages log turnId := by
  rw [rebuiltHistory_eq, ownMessages_append]
  · simp [ownMessages, turnEvents, messagesFromEvents, eventMessage?, ThreadEvent.completedItem?,
      ThreadEvent.turnId]
  · rw [commitSequence, lastCheckpoint?_append_checkpoint]
    simp [ownMessages, turnEvents, messagesFromEvents]

theorem rebuiltHistory_append_quiet (hstarted : Started log turnId)
    (h : ∀ e ∈ es, isCheckpointOf turnId e = false) :
    rebuiltHistory (log ++ es) turnId = rebuiltHistory log turnId := by
  have hc : commitSequence (log ++ es) turnId = commitSequence log turnId := by
    rw [commitSequence, lastCheckpoint?_append_quiet h, commitSequence]
  rw [rebuiltHistory, hc, rebuiltHistory, carriedMessages_append hstarted, rebuildHistory,
    List.take_append_of_le_length (commitSequence_le log turnId), rebuildHistory]

end Checkpoints

variable {o : AgentLoopOptions}

theorem Move.turnId_events {log : List ThreadEvent} {nextId : ℕ} {task : Task} {input : TaskInput}
    {step : TaskStep} (h : Move o log nextId task input step) :
    ∀ e ∈ eventsOf step.acts, e.turnId = task.turnId :=
  fun _ he => h.turnId.1 _ (mem_eventsOf.mp he)

def StartsClean (log : List ThreadEvent) : Prop :=
  ∀ id turnId payload, .itemStarted ⟨id, turnId, .toolCall payload⟩ ∈ log → payload.isError = none

theorem Move.startsClean {log : List ThreadEvent} {nextId : ℕ} {task : Task} {input : TaskInput}
    {step : TaskStep} (h : Move o log nextId task input step) : StartsClean (eventsOf step.acts) := by
  intro id turnId payload hmem
  rw [mem_eventsOf] at hmem
  cases h with
  | giveUp _ hacts | retry _ hacts =>
    obtain ⟨_, _, -, he⟩ := hacts _ hmem
    cases he
  | stream _ hacts =>
    obtain ⟨_, he⟩ := hacts _ hmem
    cases he
  | batch =>
    obtain ⟨intent, -, he⟩ := List.mem_filterMap.mp hmem
    unfold dispatchOf? at he
    split at he <;> cases he
  | slot _ _ _ hmove => cases hmove <;> simp [completedToolItem, checkpointEvent] at hmem
  | intent =>
    simp only [List.mem_singleton, Act.append.injEq, startedToolItem, ThreadEvent.itemStarted.injEq,
      Item.mk.injEq, ItemPayload.toolCall.injEq] at hmem
    rw [hmem.2.2]
    rfl
  | @terminate terminal => cases terminal <;> simp [Runtime.terminate] at hmem
  | _ => simp [completedToolItem, checkpointEvent, itemFailedAct] at hmem

theorem StartsClean.append {log es : List ThreadEvent} (h : StartsClean log) (h' : StartsClean es) :
    StartsClean (log ++ es) := by
  intro id turnId payload hmem
  obtain hmem | hmem := List.mem_append.mp hmem
  · exact h id turnId payload hmem
  · exact h' id turnId payload hmem

theorem reaches_startsClean {G : Loop → LoopInput → Prop} {s : Loop}
    (h : (loop o).Reaches G Loop.initial s) : StartsClean s.log := by
  refine h.invariant (P := fun s => StartsClean s.log) (fun _ _ _ hmem => by cases hmem) ?_
  intro s input s' hs _ hstep
  cases loopStep_move hstep with
  | runTurn =>
    rw [runStep, Loop.log_eq, eventsOf_append]
    exact hs.append fun _ _ _ hmem => by simp [eventsOf, Act.event?] at hmem
  | @rebuildFailed _ turnId error =>
    rw [Loop.rebuildFailed, Loop.log_eq, eventsOf_append]
    refine hs.append fun _ _ _ hmem => ?_
    cases error <;> simp [recoveryFailed, eventsOf, Act.event?] at hmem
  | advance ht hmove =>
    rw [log_apply]
    exact hs.append hmove.startsClean
  | recover | resume | refuse | abort | fail => exact hs

theorem findPendingApproval_started {log : List ThreadEvent} {uuid : ℕ → String} {turnId : TurnId}
    {pending : PendingApproval} (h : findPendingApproval uuid log turnId = some pending) :
    ∃ id, .itemStarted ⟨pending.toolItem.1, id, .toolCall pending.toolItem.2⟩ ∈ log ∧ id = turnId := by
  obtain ⟨event, hevent, hp⟩ := List.exists_of_findSome?_eq_some h
  unfold pendingOf? at hp
  split at hp
  · split at hp
    · cases hp
    obtain ⟨callId, -, hp⟩ := Option.bind_eq_some_iff.mp hp
    obtain ⟨toolItem, hfind, rfl⟩ := Option.map_eq_some_iff.mp hp
    obtain ⟨started, hstarted, hactive⟩ :=
      List.mem_filterMap.mp (List.mem_reverse.mp (List.mem_of_find?_eq_some hfind))
    simp only [turnEvents, List.mem_filter, beq_iff_eq] at hstarted
    unfold activeToolItem? at hactive
    split at hactive
    · next id' turn' payload =>
      split at hactive <;> cases hactive
      exact ⟨turn', hstarted.1, hstarted.2⟩
    · cases hactive
  · cases hp

/-- Every event and every live call is of a turn that was started. -/
structure Rooted (s : Loop) : Prop where
  events : ∀ e ∈ s.log, Started s.log e.turnId
  tasks : ∀ t task, s.tasks t = some task → Started s.log task.turnId

theorem Rooted.of_start {s : Loop} (h : Rooted s) {task : Task}
    (htask : Started s.log task.turnId) : Rooted (s.start task) where
  events := h.events
  tasks t task' ht := by
    obtain rfl | ht := start_tasks_cases ht
    · exact htask
    · exact h.tasks t task' ht

theorem Rooted.of_append {s : Loop} (h : Rooted s) {acts : List Act} {turnId : TurnId}
    (hacts : ∀ a ∈ acts, a.turnId = turnId)
    (hstarted : acts ≠ [] → Started (s.log ++ eventsOf acts) turnId) (n : ℕ) :
    Rooted { s with trace := s.trace ++ acts, nextId := n } := by
  have hlog : Loop.log { s with trace := s.trace ++ acts, nextId := n } = s.log ++ eventsOf acts :=
    eventsOf_append ..
  refine ⟨fun e he => ?_, fun t task ht => ?_⟩
  · rw [hlog] at he ⊢
    obtain he | he := List.mem_append.mp he
    · exact (h.events e he).append
    · have ha := mem_eventsOf.mp he
      rw [show e.turnId = turnId from hacts _ ha]
      exact hstarted (List.ne_nil_of_mem ha)
  · rw [hlog]
    exact (h.tasks t task ht).append

theorem rebuild_started {s : Loop} (h : Rooted s) {turnId : TurnId} {rebuilt : Rebuilt}
    (hrebuild : rebuild o s.log turnId = .ok rebuilt) : Started s.log turnId := by
  obtain ⟨-, event, hevent, rfl⟩ := findTurn_mem (rebuild_ok hrebuild).1
  exact h.events event hevent

theorem reaches_rooted {G : Loop → LoopInput → Prop} {s : Loop}
    (h : (loop o).Reaches G Loop.initial s) : Rooted s := by
  refine h.invariant ⟨fun _ he => by (cases he), fun _ _ ht => by cases ht⟩ ?_
  intro s input s' hs _ hstep
  cases loopStep_move hstep with
  | @runTurn input structureVersion =>
    have hroot : Started (s.log ++ eventsOf
        [.append (.turnStarted (newTurn s.nextId input structureVersion))]) s.nextId :=
      started_append_turnStarted _ (newTurn s.nextId input structureVersion)
    have hacts : ∀ a ∈ [Act.append (.turnStarted (newTurn s.nextId input structureVersion))],
        a.turnId = s.nextId := by simp [Act.turnId, ThreadEvent.turnId, newTurn]
    refine (hs.of_append hacts (fun _ => hroot) (s.nextId + 1)).of_start
      (?_ : Started _ (startedTask o (newTurn s.nextId input structureVersion)).turnId)
    rw [Loop.log_eq, eventsOf_append]
    exact hroot
  | recover hrebuild =>
    refine hs.of_start ?_
    rw [rebuilt_task_turnId hrebuild]
    exact rebuild_started hs hrebuild
  | resume hrebuild =>
    refine hs.of_start ?_
    rw [rebuilt_task_turnId hrebuild]
    exact rebuild_started hs hrebuild
  | @rebuildFailed _ turnId error hrebuild =>
    have happend : recoveryFailed turnId error ≠ [] →
        Started (s.log ++ eventsOf (recoveryFailed turnId error)) turnId := ?_
    · have := hs.of_append recoveryFailed_turnId happend s.nextId
      exact ⟨this.events, this.tasks⟩
    intro hne
    cases hturn : findTurn s.log turnId with
    | none =>
      simp only [rebuild, hturn] at hrebuild
      cases hrebuild
      exact absurd rfl hne
    | some turn =>
      obtain ⟨-, event, hevent, rfl⟩ := findTurn_mem hturn
      exact (hs.events event hevent).append
  | refuse => exact ⟨hs.events, hs.tasks⟩
  | @advance t task input step ht hmove =>
    have := hs.of_append hmove.turnId.1 (fun _ => (hs.tasks t task ht).append)
      (s.nextId + step.drawn)
    refine ⟨?_, fun t' task' ht' => ?_⟩
    · rw [log_apply, Loop.log_eq, ← eventsOf_append]
      exact this.events
    · rw [log_apply]
      obtain ⟨-, hnext⟩ | ⟨-, ht'⟩ := apply_tasks_cases ht'
      · rw [hmove.turnId.2 _ hnext]
        exact (hs.tasks t task ht).append
      · exact (hs.tasks t' task' ht').append
  | @abort t task ht =>
    refine ⟨hs.events, fun t' task' ht' => ?_⟩
    by_cases hne : t' = t
    · subst hne
      simp only [Function.update_self, Option.some.injEq] at ht'
      subst ht'
      exact hs.tasks t' task ht
    · exact hs.tasks t' task' (by simpa [Function.update_of_ne hne] using ht')
  | @fail t =>
    refine ⟨hs.events, fun t' task' ht' => ?_⟩
    by_cases hne : t' = t
    · subst hne
      simp at ht'
    · exact hs.tasks t' task' (by simpa [Function.update_of_ne hne] using ht')

end BeeAgent.Runtime
