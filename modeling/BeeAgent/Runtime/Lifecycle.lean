import BeeAgent.Runtime.Log

/-! The lifecycle of a turn: in the runs in which a turn is entered only while it is open and idle,
nothing of a turn follows its terminal event, and each tool call is completed once. -/
namespace BeeAgent.Runtime
open BeeAgent.Data BeeAgent.Thread BeeAgent.Execution Transition Transition.Machine

variable {o : AgentLoopOptions}

def Act.endedTurn? (a : Act) : Option TurnId :=
  (a.event?.bind ThreadEvent.terminalTurn?).map Turn.id

theorem Act.turnId_of_ended {a : Act} {turnId : TurnId} (h : a.endedTurn? = some turnId) :
    a.turnId = turnId := by
  cases a with
  | append event => cases event <;> simp_all [endedTurn?, event?, ThreadEvent.terminalTurn?,
      Act.turnId, ThreadEvent.turnId]
  | _ => cases h

def Act.refusesRebuild : Act → Bool
  | .append (.agentRecoveryFailed ..) => true
  | _ => false

/-- The guard: a call goes on with a turn only when no other call is live on it, and a resumption
only when the turn has not ended. -/
def EntersOpen (o : AgentLoopOptions) (s : Loop) (input : LoopInput) : Prop :=
  ∀ turnId, Admits o s input turnId → s.Idle turnId ∧
    ∀ approvalId decision, input = .resumeTurn turnId approvalId decision →
      ∀ a ∈ s.trace, a.endedTurn? ≠ some turnId

theorem EntersOpen.entersIdle {s : Loop} {input : LoopInput} (h : EntersOpen o s input) :
    EntersIdle o s input :=
  fun turnId hadmits => (h turnId hadmits).1

def TerminalsClosed (log : List ThreadEvent) : Prop :=
  ∀ e ∈ log, ∀ turn, e.terminalTurn? = some turn → turn.status ≠ .active

theorem Move.ended {log : List ThreadEvent} {nextId : ℕ} {task : Task} {input : TaskInput}
    {step : TaskStep} (h : Move o log nextId task input step) {a : Act} (ha : a ∈ step.acts)
    {turn : Turn} (hended : a.event?.bind ThreadEvent.terminalTurn? = some turn) :
    step.acts = [a] ∧ turn.status ≠ .active ∧ ∃ result, step.next = .settle result := by
  have hfailed : ∀ acts : List Act, (∀ a ∈ acts, ∃ attempt error,
      task.pc.stream? = some attempt ∧ a = itemFailedAct task attempt error) → a ∉ acts := by
    intro acts hacts hmem
    obtain ⟨_, _, -, rfl⟩ := hacts a hmem
    cases hended
  cases h with
  | giveUp _ hacts | retry _ hacts => exact absurd ha (hfailed _ hacts)
  | stream _ hacts =>
    obtain ⟨_, rfl⟩ := hacts a ha
    cases hended
  | batch =>
    obtain ⟨intent, -, he⟩ := List.mem_filterMap.mp ha
    unfold dispatchOf? at he
    split at he <;> cases he
    cases hended
  | slot _ _ _ hmove =>
    cases hmove <;> simp only [List.mem_singleton, List.not_mem_nil] at ha <;> subst ha <;>
      cases hended
  | @terminate terminal =>
    simp only [List.mem_singleton] at ha
    subst ha
    refine ⟨rfl, ?_, _, rfl⟩
    cases terminal <;> cases hended <;> simp
  | throw | suspendTurn | read | generate | redispatch | finishIntents | commit | assemble
  | unsummarized => cases ha
  | recordInput | attempt | decide =>
    simp only [List.mem_cons, List.not_mem_nil, or_false] at ha
    obtain rfl | rfl := ha <;> cases hended
  | answerApproved | checkpointed | complete | summarize | compacted | intent | escalate
  | recordAssistant =>
    simp only [List.mem_singleton] at ha
    subst ha
    cases hended

theorem recoveryFailed_refuses {turnId : TurnId} {error : RebuildError} :
    ∀ a ∈ recoveryFailed turnId error, a.refusesRebuild ∧ a.endedTurn? = none := by
  cases error <;> simp [recoveryFailed, Act.refusesRebuild, Act.endedTurn?, Act.event?,
    ThreadEvent.terminalTurn?]

theorem reaches_terminalsClosed {G : Loop → LoopInput → Prop} {s : Loop}
    (h : (loop o).Reaches G Loop.initial s) : TerminalsClosed s.log := by
  refine h.invariant (P := fun s => TerminalsClosed s.log) (fun _ he => by cases he) ?_
  intro s input s' hs _ hstep
  have happend : ∀ acts : List Act, (∀ a ∈ acts, ∀ turn,
      a.event?.bind ThreadEvent.terminalTurn? = some turn → turn.status ≠ .active) →
      TerminalsClosed (s.log ++ eventsOf acts) := by
    intro acts hacts e he turn hturn
    obtain he | he := List.mem_append.mp he
    · exact hs e he turn hturn
    · exact hacts _ (mem_eventsOf.mp he) turn hturn
  cases loopStep_move hstep with
  | runTurn =>
    rw [runStep, Loop.log_eq, eventsOf_append]
    exact happend _ (by simp [Act.event?, ThreadEvent.terminalTurn?])
  | @rebuildFailed _ _ error =>
    rw [Loop.rebuildFailed, Loop.log_eq, eventsOf_append]
    refine happend _ fun a ha turn hturn => ?_
    have := (recoveryFailed_refuses a ha).2
    rw [Act.endedTurn?, hturn] at this
    cases this
  | advance ht hmove =>
    rw [log_apply]
    exact happend _ fun a ha turn hturn => (hmove.ended ha hturn).2.1
  | recover | resume | refuse | abort | fail => exact hs

theorem findTurn_active {log : List ThreadEvent} (hclosed : TerminalsClosed log) {turnId : TurnId}
    {turn : Turn} (h : findTurn log turnId = some turn) (hactive : turn.status = .active) :
    ∀ e ∈ log, e.terminalTurn?.map Turn.id ≠ some turnId := by
  intro e he hended
  obtain ⟨ended, hterminal, rfl⟩ := Option.map_eq_some_iff.mp hended
  have hturn : e.turnId = ended.id := Act.turnId_of_ended (a := .append e)
    (by simp [Act.endedTurn?, Act.event?, hterminal])
  have hmem : ended ∈ (turnEvents log ended.id).filterMap ThreadEvent.terminalTurn? :=
    List.mem_filterMap.mpr ⟨e, List.mem_filter.mpr ⟨he, by simp [hturn]⟩, hterminal⟩
  obtain ⟨last, hlast⟩ := Option.isSome_iff_exists.mp
    (List.getLast?_isSome.mpr (List.ne_nil_of_mem hmem))
  rw [findTurn, hlast] at h
  cases h
  obtain ⟨e', he', hterminal'⟩ := List.mem_filterMap.mp (List.mem_of_getLast? hlast)
  exact hclosed e' (List.mem_filter.mp he').1 _ hterminal' hactive

def openness : TaskProperty where
  undisturbing := Act.Foreign
  holds trace _ task := ∀ a ∈ trace, a.endedTurn? ≠ some task.turnId
  frame {trace n task acts n'} h hacts _ a ha hended := by
    obtain ha | ha := List.mem_append.mp ha
    · exact h a ha hended
    · obtain hne | ⟨_, _, _, rfl⟩ := hacts a ha
      · exact hne (Act.turnId_of_ended hended)
      · cases hended
  abort h := h

theorem openness_kept :
    openness.Kept o (EntersOpen o) (fun s => TerminalsClosed s.log ∧ Exclusive s) where
  run {s input structureVersion} hq _ a ha hended := by
    obtain ha | ha := List.mem_append.mp ha
    · exact Nat.ne_of_lt (hq.2.acts a ha) (Act.turnId_of_ended hended)
    · rw [List.mem_singleton.mp ha] at hended
      cases hended
  recover {s turnId rebuilt} hq _ hrebuild _ hactive a ha hended := by
    rw [rebuilt_task_turnId hrebuild] at hended
    obtain ⟨turn, hturn, rfl⟩ := Option.map_eq_some_iff.mp hended
    obtain ⟨e, he, hterminal⟩ := Option.bind_eq_some_iff.mp hturn
    cases a <;> cases he
    exact findTurn_active hq.1 (rebuild_ok hrebuild).1 hactive e (mem_eventsOf.mpr ha)
      (by rw [hterminal]; rfl)
  resume {s turnId approvalId decision rebuilt pending} _ hg hrebuild hpending hid := by
    show ∀ a ∈ s.trace, a.endedTurn? ≠ some (rebuilt.task o (.deciding pending decision)).turnId
    rw [rebuilt_task_turnId hrebuild]
    exact (hg turnId (.resume hrebuild hpending hid)).2 _ _ rfl
  move {s t task input step task'} _ ht h _ hmove hnext a ha hended := by
    rw [hmove.turnId.2 _ hnext] at hended
    obtain ha | ha := List.mem_append.mp ha
    · exact h a ha hended
    · obtain ⟨turn, hturn, -⟩ := Option.map_eq_some_iff.mp hended
      obtain ⟨-, -, result, hsettle⟩ := hmove.ended ha hturn
      rw [hsettle] at hnext
      cases hnext

theorem reaches_openness {s : Loop} (h : (loop o).Reaches (EntersOpen o) Loop.initial s) :
    s.Holds openness :=
  reaches_holds (fun _ _ => id) (fun _ _ => EntersOpen.entersIdle) openness_kept h
    fun _ hr he => ⟨reaches_terminalsClosed hr, he⟩

/-- An act that ends a turn is followed by nothing of the turn but refused rebuilds. -/
def Final (a b : Act) : Prop :=
  ∀ turnId, a.endedTurn? = some turnId → b.turnId = turnId → b.refusesRebuild

theorem reaches_final {s : Loop} (h : (loop o).Reaches (EntersOpen o) Loop.initial s) :
    s.trace.Pairwise Final := by
  refine h.invariant₂ (P := fun s => s.trace.Pairwise Final)
    (Q := fun s => s.Holds openness ∧ Exclusive s)
    (fun s hs => ⟨reaches_openness hs, reaches_exclusive (fun _ _ => EntersOpen.entersIdle) hs⟩)
    List.Pairwise.nil ?_
  intro s input s' hq hs _ hstep
  have happend : ∀ acts : List Act, acts.Pairwise Final →
      (∀ a ∈ s.trace, ∀ b ∈ acts, Final a b) → (s.trace ++ acts).Pairwise Final :=
    fun acts hacts hcross => List.pairwise_append.mpr ⟨hs, hacts, hcross⟩
  cases loopStep_move hstep with
  | runTurn =>
    refine happend _ (List.pairwise_singleton ..) fun a ha b hb turnId hended hturn => ?_
    rw [List.mem_singleton.mp hb] at hturn
    have hlt := hq.2.acts a ha
    rw [Act.turnId_of_ended hended, ← hturn] at hlt
    exact absurd hlt (Nat.lt_irrefl _)
  | rebuildFailed =>
    refine happend _ ?_ fun a ha b hb turnId _ _ => (recoveryFailed_refuses b hb).1
    exact List.pairwise_of_forall_mem_list fun a _ b hb _ _ _ => (recoveryFailed_refuses b hb).1
  | @advance t task input step ht hmove =>
    rw [trace_apply]
    refine happend _ ?_ fun a ha b hb turnId hended hturn => ?_
    · by_cases hended : ∃ a ∈ step.acts, a.endedTurn? ≠ none
      · obtain ⟨a, ha, hended⟩ := hended
        obtain ⟨turnId, hturnId⟩ := Option.ne_none_iff_exists'.mp hended
        obtain ⟨turn, hturn, -⟩ := Option.map_eq_some_iff.mp hturnId
        rw [(hmove.ended ha hturn).1]
        exact List.pairwise_singleton ..
      · refine List.pairwise_of_forall_mem_list fun a ha b _ turnId hturn => ?_
        exact absurd ⟨a, ha, by simp [hturn]⟩ hended
    · rw [hmove.turnId.1 b hb] at hturn
      subst hturn
      exact absurd hended (hq.1 t task ht a ha)
  | recover | resume | refuse | abort | fail => exact hs

/-- The tool call that an event completes, when it is of the turn. -/
def completedToolId? (turnId : TurnId) : ThreadEvent → Option ItemId
  | .itemCompleted ⟨id, turnId', .toolCall _⟩ => if turnId' = turnId then some id else none
  | _ => none

def completedToolIds (log : List ThreadEvent) (turnId : TurnId) : List ItemId :=
  log.filterMap (completedToolId? turnId)

@[simp] theorem completedToolIds_append (log es : List ThreadEvent) (turnId : TurnId) :
    completedToolIds (log ++ es) turnId = completedToolIds log turnId ++ completedToolIds es turnId :=
  List.filterMap_append

def executingItem? (slot : Slot) : Option ItemId :=
  match slot.state with
  | .executing => some slot.intent.item
  | _ => none

/-- The tool calls that a call may still complete. -/
def openItems : Pc → List ItemId
  | .deciding pending _ | .approved pending _ => [pending.toolItem.1]
  | .running _ segments => (segmentsIntents segments).map GenerationIntent.item
  | .settling _ slots segments =>
    slots.filterMap executingItem? ++ (segmentsIntents segments).map GenerationIntent.item
  | .streaming attempt | .awaitingResult attempt => attempt.intents.map GenerationIntent.item
  | _ => []

theorem completedToolIds_eq_nil {acts : List Act} {turnId : TurnId}
    (h : ∀ a ∈ acts, ∀ id turnId payload, a ≠ .append (.itemCompleted ⟨id, turnId, .toolCall payload⟩)) :
    completedToolIds (eventsOf acts) turnId = [] := by
  refine List.filterMap_eq_nil_iff.mpr fun e he => ?_
  unfold completedToolId?
  split
  · exact absurd rfl (h _ (mem_eventsOf.mp he) _ _ _)
  · rfl

theorem slotMove_items {nextId : ℕ} {task : Task} {slot : Slot} {input : TaskInput}
    {slots : List Slot} {index : ℕ} {acts : List Act} {state : SlotState} {drawn : ℕ}
    (hslot : slots[index]? = some slot)
    (hmove : SlotMove o nextId task slot input acts state drawn) :
    ((slots.set index { slot with state }).filterMap executingItem? ++
      completedToolIds (eventsOf acts) task.turnId).Subperm (slots.filterMap executingItem?) := by
  obtain ⟨hold, hnew⟩ := filterMap_set executingItem? hslot { slot with state }
  rw [hold, hnew]
  have hdrop : executingItem? { slot with state } = none := by cases hmove <;> rfl
  rw [hdrop, Option.toList_none, List.append_nil, List.append_assoc, List.append_assoc]
  refine (List.subperm_append_left _).mpr (List.perm_append_comm.subperm.trans ?_)
  refine (List.subperm_append_right _).mpr ?_
  cases hmove with
  | answer hs _ =>
    simp [executingItem?, hs, completedToolIds, eventsOf, Act.event?, completedToolItem,
      completedToolId?]
  | suspend | suspended | reject =>
    rw [completedToolIds_eq_nil (by simp [checkpointEvent])]
    exact List.nil_subperm

/-- What a step leaves open or completes was open before, or is drawn by the step. -/
theorem Move.items {log : List ThreadEvent} {nextId : ℕ} {task task' : Task} {input : TaskInput}
    {step : TaskStep} (h : Move o log nextId task input step) (hnext : step.next = .continue task') :
    (openItems task'.pc ++ completedToolIds (eventsOf step.acts) task.turnId).Subperm
      (openItems task.pc ++ List.range' nextId step.drawn) := by
  have hquiet : (∀ a ∈ step.acts, ∀ id turnId payload,
        a ≠ .append (.itemCompleted ⟨id, turnId, .toolCall payload⟩)) →
      (openItems task'.pc).Subperm (openItems task.pc ++ List.range' nextId step.drawn) →
      (openItems task'.pc ++ completedToolIds (eventsOf step.acts) task.turnId).Subperm
        (openItems task.pc ++ List.range' nextId step.drawn) := by
    intro hacts hsub
    rwa [completedToolIds_eq_nil hacts, List.append_nil]
  have hfailed : (∀ a ∈ step.acts, ∃ attempt error, task.pc.stream? = some attempt ∧
      a = itemFailedAct task attempt error) → ∀ a ∈ step.acts, ∀ id turnId payload,
        a ≠ .append (.itemCompleted ⟨id, turnId, .toolCall payload⟩) := by
    rintro hacts a ha id turnId payload rfl
    obtain ⟨_, _, -, he⟩ := hacts _ ha
    cases he
  cases h with
  | throw | suspendTurn | terminate => cases hnext
  | giveUp hpc hacts | retry hpc hacts =>
    cases hnext
    exact hquiet (hfailed hacts) List.nil_subperm
  | answerApproved hpc =>
    cases hnext
    simp [hpc, openItems, completedToolIds, eventsOf, Act.event?, completedToolItem,
      completedToolId?]
  | decide hpc =>
    cases hnext
    refine hquiet (by simp) ?_
    rw [hpc]
    exact (List.sublist_append_left ..).subperm
  | redispatch hpc =>
    cases hnext
    refine hquiet (by simp) (List.Subperm.trans ?_ (List.sublist_append_right ..).subperm)
    have hitems : (unansweredIntents nextId task.history).map GenerationIntent.item =
        List.range' nextId (unansweredIntents nextId task.history).length :=
      List.ext_getElem (by simp [unansweredIntents]) (by simp [unansweredIntents])
    simp only [Task.pc_goto, openItems, segmentsIntents_segmentIntents, hitems]
    exact List.Subperm.refl _
  | batch hpc hbatch =>
    cases hnext
    refine hquiet ?_ ?_
    · intro a ha id turnId payload
      obtain ⟨intent, -, ha⟩ := List.mem_filterMap.mp ha
      unfold dispatchOf? at ha
      split at ha <;> cases ha
      simp
    · have hslots : ∀ batch : List GenerationIntent,
          (batch.map fun i => (⟨i, .executing⟩ : Slot)).filterMap executingItem? =
            batch.map GenerationIntent.item := by
        intro batch
        rw [List.filterMap_map]
        exact List.filterMap_eq_map.symm ▸ rfl
      simp only [Task.pc_goto, openItems, hpc, hslots, nextBatch_some o hbatch, List.map_append,
        List.range'_zero, List.append_nil]
      exact List.Subperm.refl _
  | slot hpc hindex hslot hmove =>
    cases hnext
    have hitems := slotMove_items hslot hmove
    simp only [Task.pc_goto, openItems, hpc]
    refine List.Subperm.trans ?_ (List.sublist_append_left ..).subperm
    rw [List.append_assoc]
    refine ((List.perm_append_comm.append_left _).subperm).trans ?_
    rw [← List.append_assoc]
    exact (List.subperm_append_right _).mpr hitems
  | commit hpc hanswered =>
    cases hnext
    refine hquiet (by simp) ?_
    simp only [Task.pc_goto, openItems, hpc]
    rw [List.append_assoc]
    exact ((List.sublist_append_left ..).trans (List.sublist_append_right ..)).subperm
  | stream hpc hacts hnext' =>
    cases hnext
    refine hquiet ?_ ?_
    · rintro a ha id turnId payload rfl
      obtain ⟨_, he⟩ := hacts _ ha
      cases he
    · obtain ⟨attempt', hpc', -, -, hintents⟩ := hnext'
      refine List.Subperm.trans (List.Perm.of_eq ?_).subperm (List.sublist_append_left ..).subperm
      obtain rfl | rfl := hpc' <;> simp [openItems, hpc, hintents]
  | intent hpc =>
    cases hnext
    refine hquiet (by simp [startedToolItem]) (List.Perm.of_eq ?_).subperm
    simp [openItems, hpc]
  | recordAssistant hpc =>
    cases hnext
    refine hquiet (by simp) ?_
    simp only [Task.pc_goto, openItems, hpc, segmentsIntents_segmentIntents]
    exact (List.sublist_append_left ..).subperm
  | checkpointed hpc hpc' =>
    cases hnext
    refine hquiet (by simp [checkpointEvent]) ?_
    obtain rfl | rfl := hpc' <;> exact List.nil_subperm
  | finishIntents | generate | assemble | unsummarized | read | recordInput | complete
  | summarize | compacted | attempt | escalate =>
    cases hnext
    exact hquiet (by simp [checkpointEvent, itemFailedAct]) List.nil_subperm

/-- Tool items are drawn ids, and each is completed once at most. -/
structure ItemsDrawn (s : Loop) : Prop where
  started : ∀ id turnId payload, .itemStarted ⟨id, turnId, .toolCall payload⟩ ∈ s.log →
    id < s.nextId
  completed : ∀ turnId, ∀ id ∈ completedToolIds s.log turnId, id < s.nextId
  once : ∀ turnId, (completedToolIds s.log turnId).Nodup

/-- What a call may still complete is drawn and not completed. -/
def itemsOpen : TaskProperty where
  undisturbing := Act.Foreign
  holds trace n task := (openItems task.pc).Nodup ∧ ∀ id ∈ openItems task.pc,
    id < n ∧ id ∉ completedToolIds (eventsOf trace) task.turnId
  frame {trace n task acts n'} h hacts hn := by
    have hnone : completedToolIds (eventsOf acts) task.turnId = [] := by
      refine List.filterMap_eq_nil_iff.mpr fun e he => ?_
      obtain hne | ⟨_, _, _, he⟩ := hacts _ (mem_eventsOf.mp he)
      · unfold completedToolId?
        split
        · exact if_neg hne
        · rfl
      · cases he
        rfl
    refine ⟨h.1, fun id hid => ⟨Nat.lt_of_lt_of_le (h.2 id hid).1 hn, ?_⟩⟩
    rw [eventsOf_append, completedToolIds_append, hnone, List.append_nil]
    exact (h.2 id hid).2
  abort h := h

theorem Move.leavesOpen {s : Loop} {task task' : Task} {input : TaskInput} {step : TaskStep}
    (hmove : Move o s.log s.nextId task input step) (hnext : step.next = .continue task')
    (hdrawn : ItemsDrawn s) (h : itemsOpen.holds s.trace s.nextId task) :
    (openItems task'.pc ++ completedToolIds (eventsOf step.acts) task.turnId).Nodup ∧
      ∀ id ∈ openItems task'.pc ++ completedToolIds (eventsOf step.acts) task.turnId,
        id < s.nextId + step.drawn ∧ id ∉ completedToolIds s.log task.turnId := by
  have hsub := hmove.items hnext
  have hold : (openItems task.pc ++ List.range' s.nextId step.drawn).Nodup := by
    refine List.nodup_append.mpr ⟨h.1, List.nodup_range', fun x hx y hy => ?_⟩
    exact Nat.ne_of_lt (Nat.lt_of_lt_of_le (h.2 x hx).1 (List.mem_range'_1.mp hy).1)
  have hnodup := hsub
  obtain ⟨_, hperm, hsublist⟩ := hnodup
  refine ⟨hperm.nodup_iff.mp (hsublist.nodup hold), fun id hid => ?_⟩
  obtain hid | hid := List.mem_append.mp (hsub.subset hid)
  · exact ⟨Nat.lt_add_right _ (h.2 id hid).1, (h.2 id hid).2⟩
  · have hrange := List.mem_range'_1.mp hid
    exact ⟨hrange.2, fun hmem => absurd (hdrawn.completed _ id hmem) (Nat.not_lt.mpr hrange.1)⟩

theorem pendingOf?_open {uuid : ℕ → String} {completed : List ItemId}
    {items : List (ItemId × ToolCallItemPayload)} {event : ThreadEvent} {pending : PendingApproval}
    (h : pendingOf? uuid completed items event = some pending) : pending.toolItem ∈ items := by
  unfold pendingOf? at h
  split at h
  · split at h
    · cases h
    obtain ⟨callId, -, h⟩ := Option.bind_eq_some_iff.mp h
    obtain ⟨toolItem, hfind, rfl⟩ := Option.map_eq_some_iff.mp h
    exact List.mem_reverse.mp (List.mem_of_find?_eq_some hfind)
  · cases h

theorem findPendingApproval_open {log : List ThreadEvent} {uuid : ℕ → String} {turnId : TurnId}
    {pending : PendingApproval} (h : findPendingApproval uuid log turnId = some pending) :
    pending.toolItem.1 ∉ completedToolIds log turnId := by
  obtain ⟨event, -, hp⟩ := List.exists_of_findSome?_eq_some h
  obtain ⟨started, -, hactive⟩ := List.mem_filterMap.mp (pendingOf?_open hp)
  unfold activeToolItem? at hactive
  split at hactive
  · split at hactive
    · cases hactive
    next hcompleted =>
    rw [← Option.some.inj hactive]
    intro hmem
    obtain ⟨e, he, hid⟩ := List.mem_filterMap.mp hmem
    unfold completedToolId? at hid
    split at hid
    · split at hid <;> cases hid
      next hturn =>
      refine hcompleted (List.mem_filterMap.mpr ⟨_, List.mem_filter.mpr ⟨he, ?_⟩, rfl⟩)
      simpa [ThreadEvent.turnId] using hturn
    · cases hid
  · cases hactive

theorem itemsOpen_kept : itemsOpen.Kept o (EntersOpen o) ItemsDrawn where
  run _ _ := ⟨List.nodup_nil, fun _ h => by cases h⟩
  recover _ _ _ _ _ := ⟨List.nodup_nil, fun _ h => by cases h⟩
  resume {s turnId approvalId decision rebuilt pending} hdrawn _ hrebuild hpending _ := by
    rw [(rebuild_ok hrebuild).2.2.2.1] at hpending
    obtain ⟨_, hmem, -⟩ := findPendingApproval_started hpending
    refine ⟨List.nodup_singleton _, fun id hid => ?_⟩
    rw [List.mem_singleton.mp hid]
    refine ⟨hdrawn.started _ _ _ hmem, ?_⟩
    rw [rebuilt_task_turnId hrebuild]
    exact findPendingApproval_open hpending
  move {s t task input step task'} hdrawn _ h _ hmove hnext := by
    obtain ⟨hnodup, hopen⟩ := hmove.leavesOpen hnext hdrawn h
    refine ⟨(List.nodup_append.mp hnodup).1, fun id hid => ?_⟩
    obtain ⟨hlt, hnot⟩ := hopen id (List.mem_append_left _ hid)
    refine ⟨hlt, ?_⟩
    rw [hmove.turnId.2 _ hnext, eventsOf_append, completedToolIds_append, List.mem_append, not_or]
    exact ⟨hnot, fun hmem => (List.nodup_append.mp hnodup).2.2 id hid id hmem rfl⟩

theorem Move.startedItem {log : List ThreadEvent} {nextId : ℕ} {task : Task} {input : TaskInput}
    {step : TaskStep} (h : Move o log nextId task input step) {id : ItemId} {turnId : TurnId}
    {payload : ToolCallItemPayload}
    (hmem : .append (.itemStarted ⟨id, turnId, .toolCall payload⟩) ∈ step.acts) :
    id < nextId + step.drawn := by
  cases h with
  | giveUp _ hacts | retry _ hacts =>
    obtain ⟨_, _, -, he⟩ := hacts _ hmem
    cases he
  | stream _ hacts =>
    obtain ⟨_, he⟩ := hacts _ hmem
    cases he
  | batch =>
    obtain ⟨intent, -, he⟩ := List.mem_filterMap.mp hmem
    unfold dispatchOf? at he
    split at he <;> cases he
  | slot _ _ _ hmove => cases hmove <;> simp [completedToolItem, checkpointEvent] at hmem
  | intent =>
    simp only [List.mem_singleton, Act.append.injEq, startedToolItem, ThreadEvent.itemStarted.injEq,
      Item.mk.injEq] at hmem
    rw [hmem.1]
    exact Nat.lt_succ_self _
  | @terminate terminal => cases terminal <;> simp [Runtime.terminate] at hmem
  | _ => simp [completedToolItem, checkpointEvent, itemFailedAct] at hmem

theorem Move.completes {s : Loop} {task : Task} {input : TaskInput} {step : TaskStep}
    (hmove : Move o s.log s.nextId task input step) (hdrawn : ItemsDrawn s)
    (h : itemsOpen.holds s.trace s.nextId task) (turnId : TurnId) :
    (completedToolIds (eventsOf step.acts) turnId).Nodup ∧
      ∀ id ∈ completedToolIds (eventsOf step.acts) turnId,
        id < s.nextId + step.drawn ∧ id ∉ completedToolIds s.log turnId := by
  by_cases hturn : turnId = task.turnId
  · subst hturn
    cases hnext : step.next with
    | «continue» task' =>
      obtain ⟨hnodup, hopen⟩ := hmove.leavesOpen hnext hdrawn h
      exact ⟨(List.nodup_append.mp hnodup).2.1,
        fun id hid => hopen id (List.mem_append_right _ hid)⟩
    | settle result =>
      have hnone : completedToolIds (eventsOf step.acts) task.turnId = [] := by
        cases hmove with
        | throw | suspendTurn => rfl
        | @terminate terminal => cases terminal <;> rfl
        | _ => cases hnext
      rw [hnone]
      exact ⟨List.nodup_nil, fun _ hid => by cases hid⟩
  · have hnone : completedToolIds (eventsOf step.acts) turnId = [] := by
      refine List.filterMap_eq_nil_iff.mpr fun e he => ?_
      have he := hmove.turnId_events e he
      unfold completedToolId?
      split
      · exact if_neg fun heq => hturn (heq.symm.trans he)
      · rfl
    rw [hnone]
    exact ⟨List.nodup_nil, fun _ hid => by cases hid⟩

theorem ItemsDrawn.append {s : Loop} (h : ItemsDrawn s) {acts : List Act} {n : ℕ}
    (hstarted : ∀ id turnId payload, .append (.itemStarted ⟨id, turnId, .toolCall payload⟩) ∈ acts →
      id < s.nextId + n)
    (hcompleted : ∀ turnId, (completedToolIds (eventsOf acts) turnId).Nodup ∧
      ∀ id ∈ completedToolIds (eventsOf acts) turnId,
        id < s.nextId + n ∧ id ∉ completedToolIds s.log turnId)
    {s' : Loop} (hlog : s'.log = s.log ++ eventsOf acts) (hnext : s'.nextId = s.nextId + n) :
    ItemsDrawn s' := by
  refine ⟨fun id turnId payload hmem => ?_, fun turnId id hmem => ?_, fun turnId => ?_⟩
  · rw [hnext]
    rw [hlog] at hmem
    obtain hmem | hmem := List.mem_append.mp hmem
    · exact Nat.lt_add_right _ (h.started id turnId payload hmem)
    · exact hstarted id turnId payload (mem_eventsOf.mp hmem)
  · rw [hnext]
    rw [hlog, completedToolIds_append] at hmem
    obtain hmem | hmem := List.mem_append.mp hmem
    · exact Nat.lt_add_right _ (h.completed turnId id hmem)
    · exact ((hcompleted turnId).2 id hmem).1
  · rw [hlog, completedToolIds_append]
    refine List.nodup_append.mpr ⟨h.once turnId, (hcompleted turnId).1, ?_⟩
    rintro id hid _ hid' rfl
    exact ((hcompleted turnId).2 id hid').2 hid

theorem initial_itemsDrawn : ItemsDrawn Loop.initial where
  started _ _ _ h := by cases h
  completed _ _ h := by cases h
  once _ := List.nodup_nil

theorem reaches_items {s : Loop} (h : (loop o).Reaches (EntersOpen o) Loop.initial s) :
    ItemsDrawn s ∧ s.Holds itemsOpen := by
  refine h.invariant₂ (P := fun s => ItemsDrawn s ∧ s.Holds itemsOpen) (Q := Exclusive)
    (fun s hs => reaches_exclusive (fun _ _ => EntersOpen.entersIdle) hs)
    ⟨initial_itemsDrawn, fun _ _ ht => by cases ht⟩ ?_
  rintro s input s' hexclusive ⟨hdrawn, hopen⟩ hg hstep
  have hmove := loopStep_move hstep
  refine ⟨?_, loopMove_holds itemsOpen_kept hdrawn
    (fun _ _ _ _ ht hb => hb.foreign hexclusive ht) hopen hg hmove⟩
  have hnone : ∀ acts : List Act, (∀ a ∈ acts, ∀ item, a ≠ .append (.itemStarted item) ∧
      a ≠ .append (.itemCompleted item)) → ∀ {s' : Loop} {n : ℕ},
      s'.log = s.log ++ eventsOf acts → s'.nextId = s.nextId + n → ItemsDrawn s' := by
    intro acts hacts s' n hlog hnext
    refine hdrawn.append (fun id turnId payload hmem => ?_) (fun turnId => ?_) hlog hnext
    · exact absurd rfl (hacts _ hmem _).1
    · rw [completedToolIds_eq_nil fun a ha _ _ _ => (hacts a ha _).2]
      exact ⟨List.nodup_nil, fun _ hid => by cases hid⟩
  cases hmove with
  | @runTurn input structureVersion =>
    exact hnone [.append (.turnStarted (newTurn s.nextId input structureVersion))] (by simp)
      (eventsOf_append ..) rfl
  | @rebuildFailed _ turnId error =>
    refine hnone (recoveryFailed turnId error) ?_ (eventsOf_append ..) (Nat.add_zero _).symm
    cases error <;> simp [recoveryFailed]
  | advance ht hmove =>
    exact hdrawn.append (fun _ _ _ hmem => hmove.startedItem hmem)
      (hmove.completes hdrawn (hopen _ _ ht)) (log_apply ..) (nextId_apply ..)
  | recover | resume | refuse | abort | fail =>
    exact ⟨hdrawn.started, hdrawn.completed, hdrawn.once⟩

theorem Move.approved {log : List ThreadEvent} {nextId : ℕ} {task task' : Task}
    {input : TaskInput} {step : TaskStep} {pending : PendingApproval} {decision : ApprovalAnswer}
    (h : Move o log nextId task input step) (hpc : task.pc = .approved pending decision)
    (hnext : step.next = .continue task') :
    completedToolIds (eventsOf step.acts) task.turnId = [pending.toolItem.1] ∧
      ∃ message, task'.history = task.history ++ [message] ∧
        message.answeredCallId? = some pending.toolItem.2.callId := by
  cases h with
  | throw | suspendTurn | terminate => cases hnext
  | answerApproved hpc' =>
    rw [hpc] at hpc'
    cases hpc'
    cases hnext
    exact ⟨by simp [completedToolIds, eventsOf, Act.event?, completedToolItem, completedToolId?],
      _, rfl, rfl⟩
  | giveUp hplain => simp [hpc, Pc.plain] at hplain
  | retry hattempt => simp [hpc, Pc.attempt?] at hattempt
  | read hpc' | recordInput hpc' | decide hpc' | generate hpc' | redispatch hpc'
  | finishIntents hpc' | batch hpc' | slot hpc' | commit hpc' | checkpointed hpc' | complete hpc'
  | assemble hpc' | summarize hpc' | unsummarized hpc' | compacted hpc' | attempt hpc'
  | stream hpc' | intent hpc' | escalate hpc' | recordAssistant hpc' =>
    rw [hpc] at hpc'
    cases hpc'

def LoopInput.isEntry : LoopInput → Bool
  | .recoverTurn _ | .resumeTurn .. => true
  | _ => false

theorem entersOpen_of_not_isEntry (s : Loop) (input : LoopInput) (h : !input.isEntry) :
    EntersOpen o s input := by
  intro turnId hadmits
  cases hadmits <;> cases h

def completedRun : List LoopInput :=
  startInputs 0 ++ replyInputs 0 [] .endTurn ++ advances 0 [.proceed, .proceed]

/-- A call that asks for approval, up to the suspension of its turn. -/
def suspendedRun : List LoopInput :=
  startInputs 0 ++ replyInputs 0 [sampleCall "a"] .toolCalls ++
    advances 0 [.slot 0 (.outcome (.approvalRequired "approval" "Allow?" "")), .slotRecorded 0,
      .proceed]

/-- A resumption behind its entry checks, to the end of the turn. -/
def resumedInputs (t : ℕ) : List LoopInput :=
  advances t [.proceed, .tool (sampleAnswer "A")] ++ replyInputs t [] .endTurn ++
    advances t [.proceed, .proceed]

/-- Two resumptions of one suspended turn that both pass the checks. -/
def resumedTwice : List LoopInput :=
  suspendedRun ++ [.resumeTurn 0 "approval" .approved, .resumeTurn 0 "approval" .approved] ++
    resumedInputs 1 ++ resumedInputs 2

end BeeAgent.Runtime
