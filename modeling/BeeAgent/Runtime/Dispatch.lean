import BeeAgent.Runtime.Log
import BeeAgent.Runtime.Owed

/-! Turn isolation of tool dispatch: in the runs in which the loop's search for leftover calls finds
the open calls of the turn itself, a turn dispatches what its own assistant messages ask for, and
answers all of it before it goes on. -/
namespace BeeAgent.Runtime
open BeeAgent.Data BeeAgent.Thread BeeAgent.Execution Transition Transition.Machine Pairing

variable {o : AgentLoopOptions}

def Task.own (task : Task) : List LlmMessage := task.history.drop task.carried.length

def rebuiltOwn (log : List ThreadEvent) (turnId : TurnId) : List LlmMessage :=
  rebuildHistory log turnId (commitSequence log turnId)

/-- No call of earlier turns is left over while the turn has asked for none, and no open call of
the turn has the id of a call that the history answers. -/
def OwnOpen (task : Task) : Prop :=
  ((∀ m ∈ task.own, m.calls = []) → unansweredCalls task.carried = []) ∧
    ∀ id ∈ owed task.own, id ∉ answeredIds task.history

/-- The guard: where a call looks for leftover calls, those are the open calls of its turn, and a
resumption answers an open call of its turn. -/
def DispatchesOwn (o : AgentLoopOptions) (s : Loop) (input : LoopInput) : Prop :=
  (∀ t i task, input = .advance t i → s.tasks t = some task → task.pc = .driving →
    OwnOpen task) ∧
  ∀ turnId approvalId decision pending, input = .resumeTurn turnId approvalId decision →
    findPendingApproval o.uuid s.log turnId = some pending → pending.approvalId = approvalId →
    (∃ m ∈ rebuiltOwn s.log turnId, pending.call ∈ m.calls) ∧
      pending.toolItem.2.callId ∈ owed (rebuiltOwn s.log turnId)

def Recorded (log : List ThreadEvent) (turnId : TurnId) (message : LlmMessage) : Prop :=
  ∃ e ∈ log, e.turnId = turnId ∧ eventMessage? e = some message

def Requested (log : List ThreadEvent) (turnId : TurnId) (call : ToolCall) : Prop :=
  ∃ message, Recorded log turnId message ∧ call ∈ message.calls

/-- The tool call was dispatched for the item, unless its arguments are malformed. -/
def Dispatched (trace : List Act) (turnId : TurnId) (item : ItemId) (call : ToolCall) : Prop :=
  call.inputError.isSome ∨ ∃ approval, .dispatch turnId item call approval ∈ trace

section Append
variable {trace acts : List Act} {log es : List ThreadEvent} {turnId : TurnId}

theorem Recorded.append {message : LlmMessage} (h : Recorded log turnId message) :
    Recorded (log ++ es) turnId message := by
  obtain ⟨e, he, hturn, hmessage⟩ := h
  exact ⟨e, List.mem_append_left _ he, hturn, hmessage⟩

theorem Requested.append {call : ToolCall} (h : Requested log turnId call) :
    Requested (log ++ es) turnId call := by
  obtain ⟨message, hrecorded, hcall⟩ := h
  exact ⟨message, hrecorded.append, hcall⟩

theorem Dispatched.append {item : ItemId} {call : ToolCall} (h : Dispatched trace turnId item call) :
    Dispatched (trace ++ acts) turnId item call :=
  h.imp id fun ⟨approval, hmem⟩ => ⟨approval, List.mem_append_left _ hmem⟩

theorem rebuiltOwn_recorded {message : LlmMessage} (h : message ∈ rebuiltOwn log turnId) :
    Recorded log turnId message := by
  obtain ⟨e, he, hmessage⟩ := List.mem_filterMap.mp h
  obtain ⟨hmem, hturn⟩ := List.mem_filter.mp he
  exact ⟨e, List.mem_of_mem_take hmem, by simpa using hturn, hmessage⟩

end Append

/-- The approved call is that of the pending tool item, which carries no error flag. -/
def PendingApproval.Sound (pending : PendingApproval) : Prop :=
  pending.call = { callId := pending.toolItem.2.callId, toolId := pending.toolItem.2.toolId,
                   input := pending.toolItem.2.input } ∧
    pending.toolItem.2.isError = none

theorem findPendingApproval_sound {log : List ThreadEvent} {uuid : ℕ → String} {turnId : TurnId}
    {pending : PendingApproval} (hclean : StartsClean log)
    (h : findPendingApproval uuid log turnId = some pending) : pending.Sound := by
  obtain ⟨_, hmem, -⟩ := findPendingApproval_started h
  refine ⟨?_, hclean _ _ _ hmem⟩
  obtain ⟨event, -, hp⟩ := List.exists_of_findSome?_eq_some h
  unfold pendingOf? at hp
  split at hp
  · split at hp
    · cases hp
    obtain ⟨callId, -, hp⟩ := Option.bind_eq_some_iff.mp hp
    obtain ⟨toolItem, -, rfl⟩ := Option.map_eq_some_iff.mp hp
    rfl
  · cases hp

/-- What stands behind the calls that a live call is about to dispatch or has dispatched. -/
def Backed (trace : List Act) (turnId : TurnId) : Pc → Prop
  | .deciding pending _ =>
    Requested (eventsOf trace) turnId pending.call ∧ pending.Sound
  | .approved pending decision =>
    .dispatch turnId pending.toolItem.1 pending.call (some decision) ∈ trace ∧
      pending.Sound
  | .running _ segments =>
    ∀ intent ∈ segmentsIntents segments, Requested (eventsOf trace) turnId intent.call
  | .settling _ slots segments =>
    (∀ intent ∈ segmentsIntents segments, Requested (eventsOf trace) turnId intent.call) ∧
      ∀ slot ∈ slots, Dispatched trace turnId slot.intent.item slot.intent.call ∧
        ∀ message, slot.state = .answered message → Recorded (eventsOf trace) turnId message
  | _ => True

theorem Backed.append {trace acts : List Act} {turnId : TurnId} {pc : Pc}
    (h : Backed trace turnId pc) : Backed (trace ++ acts) turnId pc := by
  have hrequested : ∀ {call}, Requested (eventsOf trace) turnId call →
      Requested (eventsOf (trace ++ acts)) turnId call := by
    intro call hcall
    rw [eventsOf_append]
    exact hcall.append
  cases pc with
  | deciding => exact ⟨hrequested h.1, h.2⟩
  | approved => exact ⟨List.mem_append_left _ h.1, h.2⟩
  | running => exact fun intent hintent => hrequested (h intent hintent)
  | settling =>
    refine ⟨fun intent hintent => hrequested (h.1 intent hintent), fun slot hslot => ?_⟩
    refine ⟨(h.2 slot hslot).1.append, fun message hstate => ?_⟩
    rw [eventsOf_append]
    exact ((h.2 slot hslot).2 message hstate).append
  | _ => trivial

/-- The turn's own messages are those a rebuild found, followed by what the call added: an
assistant message only when nothing was open. -/
def SettledSince (log : List ThreadEvent) (turnId : TurnId) (own : List LlmMessage) : Prop :=
  ∃ base since, own = base ++ since ∧
    (base = [] ∨ ∃ log', log' <+: log ∧ base = rebuiltOwn log' turnId) ∧
    Along Kind.AsksSettled (owed base) (kinds since)

structure Isolated (trace : List Act) (task : Task) : Prop where
  carried : task.carried <+: task.history
  recorded : ∀ m ∈ task.own, Recorded (eventsOf trace) task.turnId m
  settled : SettledSince (eventsOf trace) task.turnId task.own
  due : Due (owed task.own) task.pc
  backed : Backed trace task.turnId task.pc

theorem SettledSince.append {log es : List ThreadEvent} {turnId : TurnId} {own : List LlmMessage}
    (h : SettledSince log turnId own) : SettledSince (log ++ es) turnId own := by
  obtain ⟨base, since, hown, hbase, halong⟩ := h
  refine ⟨base, since, hown, hbase.imp id ?_, halong⟩
  rintro ⟨log', hprefix, rfl⟩
  exact ⟨log', hprefix.trans (List.prefix_append ..), rfl⟩

theorem Isolated.append {trace acts : List Act} {task : Task} (h : Isolated trace task) :
    Isolated (trace ++ acts) task where
  carried := h.carried
  recorded m hm := by
    rw [eventsOf_append]
    exact (h.recorded m hm).append
  settled := by
    rw [eventsOf_append]
    exact h.settled.append
  due := h.due
  backed := h.backed.append

def isolation : TaskProperty where
  holds trace _ task := Isolated trace task
  frame h _ _ := h.append
  abort h := ⟨h.carried, h.recorded, h.settled, h.due, h.backed⟩

theorem Isolated.search {trace : List Act} {task : Task} (h : Isolated trace task)
    (hopen : OwnOpen task) :
    (unansweredCalls task.history).map ToolCall.callId = owed task.own ∧
      ∀ call ∈ unansweredCalls task.history, Requested (eventsOf trace) task.turnId call := by
  have hcarried : (∀ m ∈ task.history.drop task.carried.length, m.calls = []) →
      unansweredCalls (task.history.take task.carried.length) = [] := by
    intro hnone
    rw [← List.prefix_iff_eq_take.mp h.carried]
    exact hopen.1 hnone
  refine ⟨unansweredCalls_eq_owed hcarried hopen.2, fun call hcall => ?_⟩
  obtain ⟨m, hm, hmem⟩ := mem_unansweredCalls hcarried hcall
  exact ⟨m, h.recorded m hm, hmem⟩

theorem completedToolItem_message {turnId : TurnId} {item : ItemId} {payload : ToolCallItemPayload}
    {result : ActionResult} (h : payload.isError = none) :
    eventMessage? (completedToolItem turnId item payload result) =
      some (toolMessage payload result) := by
  simp [eventMessage?, ThreadEvent.completedItem?, completedToolItem, messageOf?, toolMessage, h]

theorem recorded_of_mem {trace acts : List Act} {turnId : TurnId} {e : ThreadEvent}
    {message : LlmMessage} (hmem : .append e ∈ acts) (hturn : e.turnId = turnId)
    (hmessage : eventMessage? e = some message) :
    Recorded (eventsOf (trace ++ acts)) turnId message := by
  refine ⟨e, ?_, hturn, hmessage⟩
  rw [eventsOf_append]
  exact List.mem_append_right _ (mem_eventsOf.mpr hmem)

section Step
variable {log : List ThreadEvent} {nextId : ℕ} {task task' : Task} {input : TaskInput}
  {step : TaskStep} {trace : List Act}

theorem Move.carried_eq (hmove : Move o log nextId task input step)
    (hnext : step.next = .continue task') (hreading : task.pc ≠ .reading) :
    task'.carried = task.carried := by
  cases hmove with
  | read hpc => exact absurd hpc hreading
  | throw | suspendTurn | terminate => cases hnext
  | _ =>
    cases hnext
    rfl

theorem Move.recorded (hmove : Move o log nextId task input step)
    (hnext : step.next = .continue task') (hreading : task.pc ≠ .reading)
    (hbacked : Backed trace task.turnId task.pc) {since : List LlmMessage}
    (hsince : task'.history = task.history ++ since) :
    ∀ m ∈ since, Recorded (eventsOf (trace ++ step.acts)) task.turnId m := by
  have hpush : ∀ added, task'.history = task.history ++ added →
      (∀ m ∈ added, Recorded (eventsOf (trace ++ step.acts)) task.turnId m) →
      ∀ m ∈ since, Recorded (eventsOf (trace ++ step.acts)) task.turnId m := by
    intro added hadded hrecorded
    rwa [← List.append_cancel_left (hadded.symm.trans hsince)]
  cases hmove with
  | throw | suspendTurn | terminate => cases hnext
  | read hpc => exact absurd hpc hreading
  | recordInput hpc =>
    cases hnext
    refine hpush [_] rfl fun m hm => ?_
    rw [List.mem_singleton.mp hm]
    exact recorded_of_mem (List.mem_cons_of_mem _ (List.mem_cons_self ..)) rfl rfl
  | answerApproved hpc =>
    cases hnext
    rw [hpc] at hbacked
    refine hpush [_] rfl fun m hm => ?_
    rw [List.mem_singleton.mp hm]
    exact recorded_of_mem (List.mem_cons_self ..) rfl (completedToolItem_message hbacked.2.2)
  | recordAssistant hpc =>
    cases hnext
    refine hpush [_] rfl fun m hm => ?_
    rw [List.mem_singleton.mp hm]
    exact recorded_of_mem (List.mem_cons_self ..) rfl rfl
  | commit hpc hanswered =>
    cases hnext
    rw [hpc] at hbacked
    refine hpush _ rfl fun m hm => ?_
    obtain ⟨slot, hslot, hstate⟩ := List.mem_filterMap.mp hm
    rw [List.append_nil]
    refine (hbacked.2 slot hslot).2 m ?_
    unfold answeredMessage? at hstate
    split at hstate <;> cases hstate
    assumption
  | _ =>
    cases hnext
    exact hpush [] (List.append_nil _).symm fun m hm => by cases hm

/-- A call stays backed: it dispatches what is requested, and answers what it dispatched. -/
theorem Move.backed (hmove : Move o log nextId task input step)
    (hnext : step.next = .continue task') (hbacked : Backed trace task.turnId task.pc)
    (hsearch : task.pc = .driving → ∀ call ∈ unansweredCalls task.history,
      Requested (eventsOf trace) task.turnId call) :
    Backed (trace ++ step.acts) task.turnId task'.pc := by
  cases hmove with
  | throw | suspendTurn | terminate => cases hnext
  | decide hpc =>
    cases hnext
    rw [hpc] at hbacked
    refine ⟨?_, hbacked.2⟩
    exact List.mem_append_right _ (List.mem_cons_of_mem _ (List.mem_cons_self ..))
  | redispatch hpc =>
    cases hnext
    intro intent hintent
    rw [segmentsIntents_segmentIntents] at hintent
    obtain ⟨i, hi, rfl⟩ := List.mem_iff_getElem.mp hintent
    rw [List.append_nil]
    exact hsearch hpc _ (by simp [unansweredIntents])
  | batch hpc hbatch =>
    cases hnext
    rw [hpc] at hbacked
    have hsplit := nextBatch_some o hbatch
    refine ⟨fun intent hintent => ?_, fun slot hslot => ?_⟩
    · rw [eventsOf_append]
      exact (hbacked intent (by rw [hsplit]; exact List.mem_append_right _ hintent)).append
    · obtain ⟨intent, hintent, rfl⟩ := List.mem_map.mp hslot
      refine ⟨?_, fun message hstate => by cases hstate⟩
      by_cases hmalformed : intent.call.inputError.isSome
      · exact .inl hmalformed
      · refine .inr ⟨none, List.mem_append_right _ (List.mem_filterMap.mpr ⟨intent, hintent, ?_⟩)⟩
        rw [dispatchOf?, if_neg hmalformed]
  | @slot after slots segments index slot acts state drawn hpc hindex hslot hmove =>
    cases hnext
    rw [hpc] at hbacked
    have hmem : slot ∈ slots := List.mem_of_getElem? hslot
    refine ⟨fun intent hintent => ?_, fun slot' hslot' => ?_⟩
    · rw [eventsOf_append]
      exact (hbacked.1 intent hintent).append
    · obtain hold | rfl := List.mem_or_eq_of_mem_set hslot'
      · refine ⟨(hbacked.2 slot' hold).1.append, fun message hstate => ?_⟩
        rw [eventsOf_append]
        exact ((hbacked.2 slot' hold).2 message hstate).append
      · refine ⟨(hbacked.2 slot hmem).1.append, fun message hstate => ?_⟩
        cases hmove <;> cases hstate
        exact recorded_of_mem (List.mem_cons_self ..) rfl (completedToolItem_message rfl)
  | commit hpc =>
    cases hnext
    rw [hpc] at hbacked
    intro intent hintent
    rw [List.append_nil]
    exact hbacked.1 intent hintent
  | @recordAssistant attempt stopReason hpc =>
    cases hnext
    intro intent hintent
    rw [segmentsIntents_segmentIntents] at hintent
    refine ⟨assistantMessage attempt, recorded_of_mem (List.mem_cons_self ..) rfl rfl, ?_⟩
    have hne : attempt.intents ≠ [] := List.ne_nil_of_mem hintent
    simp only [assistantMessage, assistantCalls, LlmMessage.calls, List.isEmpty_iff, hne, if_false,
      Option.getD_some]
    exact List.mem_map_of_mem hintent
  | checkpointed hpc hpc' =>
    cases hnext
    obtain rfl | rfl := hpc' <;> trivial
  | stream hpc _ hnext' =>
    cases hnext
    obtain ⟨_, rfl | rfl, -⟩ := hnext' <;> trivial
  | _ =>
    cases hnext
    trivial

theorem Move.isolated (hmove : Move o log nextId task input step)
    (hnext : step.next = .continue task') (h : Isolated trace task)
    (hopen : task.pc = .driving → OwnOpen task) : Isolated (trace ++ step.acts) task' := by
  have hturn := hmove.turnId.2 _ hnext
  by_cases hreading : task.pc = .reading
  · cases hmove with
    | read hpc =>
      cases hnext
      have hown : ∀ messages : List LlmMessage, messages.drop messages.length = [] :=
        fun messages => List.drop_length
      refine ⟨List.prefix_rfl, ?_, ⟨[], [], ?_, .inl rfl, trivial⟩, ?_, trivial⟩
      · simp [Task.own, Task.history]
      · simp [Task.own, Task.history]
      · simp [Task.own, Task.history, Due, owed, kinds]
    | giveUp hpc | retry hpc => simp [hreading, Pc.plain, Pc.attempt?] at hpc
    | throw | suspendTurn | terminate => cases hnext
    | recordInput hpc | decide hpc | answerApproved hpc | generate hpc | redispatch hpc
    | finishIntents hpc | batch hpc | slot hpc | commit hpc | checkpointed hpc | complete hpc
    | assemble hpc | summarize hpc | unsummarized hpc | compacted hpc | attempt hpc | stream hpc
    | intent hpc | escalate hpc | recordAssistant hpc =>
      rw [hreading] at hpc
      cases hpc
  · have hlen := h.carried.length_le
    obtain ⟨since, hsince, halong, hdue⟩ := hmove.due hnext hreading hlen h.due
      fun hpc => (h.search (hopen hpc)).1
    have hcarried := hmove.carried_eq hnext hreading
    have hown : task'.own = task.own ++ since := by
      rw [Task.own, hcarried, hsince, List.drop_append_of_le_length hlen, Task.own]
    refine ⟨?_, fun m hm => ?_, ?_, ?_, ?_⟩
    · rw [hcarried, hsince]
      exact h.carried.trans (List.prefix_append ..)
    · rw [hturn]
      rw [hown] at hm
      obtain hm | hm := List.mem_append.mp hm
      · rw [eventsOf_append]
        exact (h.recorded m hm).append
      · exact hmove.recorded hnext hreading h.backed hsince m hm
    · obtain ⟨base, since₀, hbase, hrebuilt, hsettled⟩ := h.settled
      have hkept : SettledSince (eventsOf trace) task.turnId task'.own := by
        refine ⟨base, since₀ ++ since, by rw [hown, hbase, List.append_assoc], hrebuilt, ?_⟩
        rw [kinds_append, along_append, ← owed_append, ← hbase]
        exact ⟨hsettled, halong.mono fun _ _ => Kind.InOrder.asksSettled⟩
      rw [hturn, eventsOf_append]
      exact hkept.append
    · rw [Task.own, hcarried]
      exact hdue
    · rw [hturn]
      exact hmove.backed hnext h.backed fun hpc => (h.search (hopen hpc)).2

end Step

theorem rebuilt_isolated {s : Loop} {turnId : TurnId} {rebuilt : Rebuilt} {pc : Pc}
    (hrebuild : rebuild o s.log turnId = .ok rebuilt)
    (hdue : Due (owed (rebuiltOwn s.log turnId)) pc) (hbacked : Backed s.trace turnId pc) :
    Isolated s.trace (rebuilt.task o pc) := by
  obtain ⟨-, hhistory, hcarried, -⟩ := rebuild_ok hrebuild
  have hturn := rebuilt_task_turnId hrebuild pc
  have hsplit : (rebuilt.task o pc).history =
      (rebuilt.task o pc).carried ++ rebuiltOwn s.log turnId := by
    show rebuilt.state.history = rebuilt.carried ++ _
    rw [hhistory, hcarried, rebuiltHistory, rebuiltOwn]
  have hown : (rebuilt.task o pc).own = rebuiltOwn s.log turnId := by
    rw [Task.own, hsplit, List.drop_left]
  refine ⟨?_, fun m hm => ?_, ?_, ?_, ?_⟩
  · rw [hsplit]
    exact List.prefix_append ..
  · rw [hturn]
    exact rebuiltOwn_recorded (hown ▸ hm)
  · rw [hturn, hown]
    exact ⟨_, [], (List.append_nil _).symm, .inr ⟨s.log, List.prefix_rfl, rfl⟩, trivial⟩
  · rw [hown]
    exact hdue
  · rw [hturn]
    exact hbacked

theorem isolation_kept : isolation.Kept o (DispatchesOwn o) (fun s => StartsClean s.log) where
  run _ _ :=
    { carried := List.nil_prefix
      recorded := fun _ hm => nomatch hm
      settled := ⟨[], [], rfl, .inl rfl, trivial⟩
      due := rfl
      backed := trivial }
  recover _ _ hrebuild _ _ := rebuilt_isolated hrebuild trivial trivial
  resume {s turnId approvalId decision rebuilt pending} hclean hg hrebuild hpending hid := by
    rw [(rebuild_ok hrebuild).2.2.2.1] at hpending
    obtain ⟨⟨m, hm, hcall⟩, howed⟩ := hg.2 turnId approvalId decision pending rfl hpending hid
    exact rebuilt_isolated hrebuild howed
      ⟨⟨m, rebuiltOwn_recorded hm, hcall⟩, findPendingApproval_sound hclean hpending⟩
  move {s t task input step task'} _ ht h hg hmove hnext :=
    hmove.isolated hnext h fun hpc => hg.1 t input task rfl ht hpc

theorem reaches_isolated {s : Loop} (h : (loop o).Reaches (DispatchesOwn o) Loop.initial s) :
    s.Holds isolation := by
  refine h.invariant₂ (Q := fun s => StartsClean s.log) (fun _ hr => reaches_startsClean hr)
    (fun _ _ ht => by cases ht) ?_
  intro s input s' hclean hs hg hstep
  exact loopMove_holds isolation_kept hclean (fun _ _ _ _ _ _ _ _ => trivial) hs hg
    (loopStep_move hstep)

/-- Each dispatch follows the assistant message of its turn that asks for the call. -/
def Justified (trace : List Act) : Prop :=
  ∀ before turnId item call approval after,
    trace = before ++ .dispatch turnId item call approval :: after →
    Requested (eventsOf before) turnId call

theorem Justified.append {trace acts : List Act} (h : Justified trace)
    (hacts : ∀ turnId item call approval, .dispatch turnId item call approval ∈ acts →
      Requested (eventsOf trace) turnId call) : Justified (trace ++ acts) := by
  intro before turnId item call approval after hsplit
  obtain ⟨rest, rfl, hrest⟩ | ⟨rest, hrest, hacts'⟩ := List.append_eq_append_iff.mp hsplit
  · rw [eventsOf_append]
    exact (hacts turnId item call approval (by simp [hrest])).append
  · cases rest with
    | nil =>
      rw [List.append_nil] at hrest
      rw [← hrest]
      exact hacts turnId item call approval ((List.nil_append acts ▸ hacts') ▸ List.mem_cons_self ..)
    | cons a rest =>
      obtain ⟨rfl, rfl⟩ := List.cons_eq_cons.mp hacts'
      exact h before turnId item call approval rest hrest

/-- What completes as a tool call of a turn was dispatched for its item, or is malformed. -/
def CompletesDispatched (trace : List Act) : Prop :=
  ∀ id turnId payload, .append (.itemCompleted ⟨id, turnId, .toolCall payload⟩) ∈ trace →
    ∃ call, Dispatched trace turnId id call ∧ call.callId = payload.callId ∧
      call.toolId = payload.toolId ∧ call.input = payload.input

theorem CompletesDispatched.append {trace acts : List Act} (h : CompletesDispatched trace)
    (hacts : ∀ id turnId payload, .append (.itemCompleted ⟨id, turnId, .toolCall payload⟩) ∈ acts →
      ∃ call, Dispatched trace turnId id call ∧ call.callId = payload.callId ∧
        call.toolId = payload.toolId ∧ call.input = payload.input) :
    CompletesDispatched (trace ++ acts) := by
  intro id turnId payload hmem
  obtain hmem | hmem := List.mem_append.mp hmem
  · obtain ⟨call, hcall, hrest⟩ := h id turnId payload hmem
    exact ⟨call, hcall.append, hrest⟩
  · obtain ⟨call, hcall, hrest⟩ := hacts id turnId payload hmem
    exact ⟨call, hcall.append, hrest⟩

theorem Move.dispatches {trace : List Act} {nextId : ℕ} {log : List ThreadEvent} {task : Task}
    {input : TaskInput} {step : TaskStep} (hmove : Move o log nextId task input step)
    (hbacked : Backed trace task.turnId task.pc) {turnId : TurnId} {item : ItemId} {call : ToolCall}
    {approval : Option ApprovalAnswer} (hmem : .dispatch turnId item call approval ∈ step.acts) :
    Requested (eventsOf trace) turnId call := by
  cases hmove with
  | giveUp _ hacts | retry _ hacts =>
    obtain ⟨_, _, -, he⟩ := hacts _ hmem
    cases he
  | stream _ hacts =>
    obtain ⟨_, he⟩ := hacts _ hmem
    cases he
  | decide hpc =>
    rw [hpc] at hbacked
    simp only [List.mem_cons, reduceCtorEq, Act.dispatch.injEq, List.not_mem_nil, or_false,
      false_or] at hmem
    obtain ⟨rfl, -, rfl, -⟩ := hmem
    exact hbacked.1
  | batch hpc hbatch =>
    rw [hpc] at hbacked
    obtain ⟨intent, hintent, he⟩ := List.mem_filterMap.mp hmem
    unfold dispatchOf? at he
    split at he <;> cases he
    exact hbacked intent (by rw [nextBatch_some o hbatch]; exact List.mem_append_left _ hintent)
  | slot _ _ _ hmove => cases hmove <;> simp at hmem
  | _ => simp [itemFailedAct] at hmem

theorem Move.completesDispatched {trace : List Act} {nextId : ℕ} {log : List ThreadEvent}
    {task : Task} {input : TaskInput} {step : TaskStep}
    (hmove : Move o log nextId task input step) (hbacked : Backed trace task.turnId task.pc)
    {id : ItemId} {turnId : TurnId} {payload : ToolCallItemPayload}
    (hmem : .append (.itemCompleted ⟨id, turnId, .toolCall payload⟩) ∈ step.acts) :
    ∃ call, Dispatched trace turnId id call ∧ call.callId = payload.callId ∧
      call.toolId = payload.toolId ∧ call.input = payload.input := by
  cases hmove with
  | giveUp _ hacts | retry _ hacts =>
    obtain ⟨_, _, -, he⟩ := hacts _ hmem
    cases he
  | stream _ hacts =>
    obtain ⟨_, he⟩ := hacts _ hmem
    cases he
  | batch hpc hbatch =>
    obtain ⟨intent, hintent, he⟩ := List.mem_filterMap.mp hmem
    unfold dispatchOf? at he
    split at he <;> cases he
  | answerApproved hpc =>
    rw [hpc] at hbacked
    simp only [completedToolItem, List.mem_singleton, Act.append.injEq,
      ThreadEvent.itemCompleted.injEq, Item.mk.injEq, ItemPayload.toolCall.injEq] at hmem
    obtain ⟨rfl, rfl, rfl⟩ := hmem
    refine ⟨_, .inr ⟨_, hbacked.1⟩, ?_⟩
    rw [hbacked.2.1]
    exact ⟨rfl, rfl, rfl⟩
  | slot hpc _ hslot hmove =>
    rw [hpc] at hbacked
    cases hmove with
    | answer =>
      simp only [completedToolItem, List.mem_singleton, Act.append.injEq,
        ThreadEvent.itemCompleted.injEq, Item.mk.injEq, ItemPayload.toolCall.injEq] at hmem
      obtain ⟨rfl, rfl, rfl⟩ := hmem
      exact ⟨_, (hbacked.2 _ (List.mem_of_getElem? hslot)).1, rfl, rfl, rfl⟩
    | _ => simp [checkpointEvent] at hmem
  | @terminate terminal => cases terminal <;> simp [Runtime.terminate] at hmem
  | _ => simp [itemFailedAct, checkpointEvent, startedToolItem] at hmem

theorem reaches_justified {s : Loop} (h : (loop o).Reaches (DispatchesOwn o) Loop.initial s) :
    Justified s.trace ∧ CompletesDispatched s.trace := by
  refine h.invariant₂ (P := fun s => Justified s.trace ∧ CompletesDispatched s.trace)
    (Q := fun s => s.Holds isolation) (fun _ hr => reaches_isolated hr) ⟨?_, ?_⟩ ?_
  · intro before _ _ _ _ _ hsplit
    cases before <;> cases hsplit
  · intro _ _ _ hmem
    cases hmem
  intro s input s' hisolated hs _ hstep
  cases loopStep_move hstep with
  | runTurn =>
    exact ⟨hs.1.append (by simp), hs.2.append (by simp)⟩
  | @rebuildFailed _ _ error =>
    refine ⟨hs.1.append ?_, hs.2.append ?_⟩ <;> cases error <;> simp [recoveryFailed]
  | @advance t task input step ht hmove =>
    have hbacked := (hisolated t task ht).backed
    rw [trace_apply]
    exact ⟨hs.1.append fun _ _ _ _ hmem => hmove.dispatches hbacked hmem,
      hs.2.append fun _ _ _ hmem => hmove.completesDispatched hbacked hmem⟩
  | recover | resume | refuse | abort | fail => exact hs

/-- The awaits of a generation and of the completion of the turn. -/
def Pc.atModel : Pc → Bool
  | .generating | .summarizing .. | .attempting .. | .streaming _ | .awaitingResult _
  | .terminating (.completed _) => true
  | _ => false

/-- The acts with which a call goes on from what it asked for: it asks the model, records the
model's message, or completes the turn. -/
def Act.goesOn : Act → Bool
  | .request .. | .append (.turnCompleted _) => true
  | .append (.itemCompleted ⟨_, _, .message payload⟩) => payload.role == .assistant
  | _ => false

theorem Move.goesOn {nextId : ℕ} {log : List ThreadEvent} {task : Task} {input : TaskInput}
    {step : TaskStep} (hmove : Move o log nextId task input step) {a : Act} (hmem : a ∈ step.acts)
    (ha : a.goesOn) : task.pc.atModel := by
  cases hmove with
  | giveUp _ hacts | retry _ hacts =>
    obtain ⟨_, _, -, rfl⟩ := hacts _ hmem
    cases ha
  | stream hpc | attempt hpc | recordAssistant hpc | summarize hpc =>
    rw [hpc]
    rfl
  | batch =>
    obtain ⟨intent, -, he⟩ := List.mem_filterMap.mp hmem
    unfold dispatchOf? at he
    split at he <;> cases he
    cases ha
  | slot _ _ _ hmove =>
    cases hmove <;> simp only [List.mem_singleton, List.not_mem_nil] at hmem <;> subst hmem <;>
      cases ha
  | @terminate terminal hpc =>
    simp only [List.mem_singleton] at hmem
    subst hmem
    rw [hpc]
    cases terminal with
    | completed => rfl
    | failed | cancelled => cases ha
  | throw | suspendTurn | read | generate | redispatch | finishIntents | commit | assemble
  | unsummarized => cases hmem
  | recordInput | decide =>
    simp only [List.mem_cons, List.not_mem_nil, or_false] at hmem
    obtain rfl | rfl := hmem <;> cases ha
  | answerApproved | checkpointed | complete | compacted | intent | escalate =>
    simp only [List.mem_singleton] at hmem
    subst hmem
    cases ha

/-- All the turn's messages are recorded, and every assistant message that the call added, as the
last one that it found, is answered under each of its call ids before the next one. -/
def AnswersOwn (log : List ThreadEvent) (task : Task) : Prop :=
  (∀ m ∈ task.own, Recorded log task.turnId m) ∧
    ∃ base since, task.own = base ++ since ∧
      (base = [] ∨ ∃ log', log' <+: log ∧ base = rebuiltOwn log' task.turnId) ∧
      ∀ before m after, task.own = before ++ m :: after → m.calls ≠ [] →
        base.length ≤ before.length ∨ (∀ m' ∈ after, m'.calls = []) →
        (m.calls.map ToolCall.callId).Subperm
          (answeredIds (after.takeWhile fun m' => m'.calls.isEmpty))

theorem LlmMessage.not_isAsk_kind (message : LlmMessage) :
    (!message.kind.isAsk) = message.calls.isEmpty := by
  cases h : message.calls with
  | nil => simp [LlmMessage.isAsk_kind h]
  | cons =>
    have hcalls : message.calls ≠ [] := by simp [h]
    simp [LlmMessage.kind_of_calls hcalls, Kind.isAsk]

theorem answeredIds_takeWhile (messages : List LlmMessage) :
    answerKeys ((kinds messages).takeWhile fun kind => !kind.isAsk) =
      answeredIds (messages.takeWhile fun m => m.calls.isEmpty) := by
  rw [kinds, List.takeWhile_map, ← kinds, answerKeys_kinds]
  congr 2
  funext m
  exact m.not_isAsk_kind

theorem Isolated.answersOwn {trace : List Act} {task : Task} (h : Isolated trace task)
    (hmodel : task.pc.atModel) : AnswersOwn (eventsOf trace) task := by
  have hnone : owed task.own = [] := by
    have hdue := h.due
    cases hpc : task.pc with
    | terminating terminal =>
      rw [hpc] at hdue hmodel
      cases terminal with
      | completed => exact hdue
      | failed | cancelled => cases hmodel
    | _ => simp_all [Pc.atModel, Due]
  obtain ⟨base, since, hown, hbase, hsettled⟩ := h.settled
  refine ⟨h.recorded, base, since, hown, hbase, fun before m after hsplit hcalls hplace => ?_⟩
  have hend : outstanding (m.calls.map ToolCall.callId) (kinds after) = [] := by
    rw [hsplit, owed_append] at hnone
    have := hnone
    rwa [kinds, List.map_cons, outstanding_cons, LlmMessage.kind_of_calls hcalls] at this
  have halong : Along Kind.AsksSettled (m.calls.map ToolCall.callId) (kinds after) := by
    obtain hle | hnoask := hplace
    · obtain ⟨middle, rfl⟩ : ∃ middle, before = base ++ middle := by
        rw [hown] at hsplit
        exact List.prefix_iff_exists_eq_append.mp
          (List.prefix_of_prefix_length_le ⟨since, rfl⟩ ⟨m :: after, hsplit.symm⟩ hle)
      rw [hown, List.append_assoc] at hsplit
      rw [List.append_cancel_left hsplit, kinds_append, along_append] at hsettled
      have hafter := hsettled.2.2
      rwa [LlmMessage.kind_of_calls hcalls] at hafter
    · exact along_asksSettled_of_no_ask (isAsk_kinds hnoask)
  rw [← answeredIds_takeWhile]
  exact subperm_answers_of_settled halong hend

/-- In a run whose searches find the open calls of the turn itself: every dispatched call was asked
for by an assistant message of its turn before; every tool result answers a dispatch of its turn, or
malformed arguments; and when a call goes on from the calls it asked for, all of them are answered. -/
theorem dispatch_isolated {s : Loop}
    (h : (loop o).Reaches (DispatchesOwn o) Loop.initial s) :
    Justified s.trace ∧ CompletesDispatched s.trace ∧
      ∀ t task input s' acts, s.tasks t = some task →
        (loop o).step s (.advance t input) = some s' → s'.trace = s.trace ++ acts →
        (∃ a ∈ acts, a.goesOn) → AnswersOwn s.log task := by
  obtain ⟨hjustified, hcompletes⟩ := reaches_justified h
  refine ⟨hjustified, hcompletes, fun t task input s' acts ht hstep htrace hgoesOn => ?_⟩
  obtain ⟨task', ht', hmap⟩ := Option.bind_eq_some_iff.mp hstep
  obtain ⟨step, hstep, rfl⟩ := Option.map_eq_some_iff.mp hmap
  rw [ht] at ht'
  cases ht'
  rw [trace_apply, List.append_cancel_left_eq] at htrace
  obtain ⟨a, ha, hgoes⟩ := hgoesOn
  exact (reaches_isolated h t task ht).answersOwn ((taskStep_move hstep).goesOn (htrace ▸ ha) hgoes)

def Act.dispatchedId? : Act → Option (TurnId × String)
  | .dispatch turnId _ call _ => some (turnId, call.callId)
  | _ => none

/-- A step that looks for leftover calls where there are none, which the guard admits. -/
def nothingLeft (s : Loop) : LoopInput → Bool
  | .advance t _ => (s.tasks t).all fun task =>
    match task.pc with
    | .driving => (unansweredCalls task.carried).isEmpty && (owed task.own).isEmpty
    | _ => true
  | .resumeTurn .. => false
  | _ => true

theorem dispatchesOwn_of_nothingLeft (s : Loop) (input : LoopInput) (h : nothingLeft s input) :
    DispatchesOwn o s input := by
  refine ⟨?_, ?_⟩
  · rintro t i task rfl ht hpc
    simp only [nothingLeft, ht, hpc, Option.all_some, Bool.and_eq_true, List.isEmpty_iff] at h
    exact ⟨fun _ => h.1, fun id hid => by rw [h.2] at hid; cases hid⟩
  · rintro turnId approvalId decision pending rfl
    cases h

theorem dispatch_isolated_sample :
    ∃ s : Loop, s.trace.filterMap Act.dispatchedId? = [(0, "a")] ∧ Justified s.trace := by
  have hguarded : (loop sampleOptions).Guarded (DispatchesOwn sampleOptions) Loop.initial
      answeredCallRun :=
    guarded_of_allSteps dispatchesOwn_of_nothingLeft answeredCallRun
      (by rw [loop_eq_quick]; decide +kernel)
  have hread : ((loop sampleOptions).exec Loop.initial answeredCallRun).map
      (fun s => s.trace.filterMap Act.dispatchedId?) = some [(0, "a")] := by
    rw [loop_eq_quick]
    decide +kernel
  obtain ⟨s, hreaches, hread⟩ := hguarded.exists_reaches hread
  exact ⟨s, hread, (dispatch_isolated hreaches).1⟩

def requestedIds (log : List ThreadEvent) (turnId : TurnId) : List String :=
  (ownMessages log turnId).flatMap fun m => m.calls.map ToolCall.callId

theorem Requested.mem_requestedIds {log : List ThreadEvent} {turnId : TurnId} {call : ToolCall}
    (h : Requested log turnId call) : call.callId ∈ requestedIds log turnId := by
  obtain ⟨message, ⟨e, he, hturn, hmessage⟩, hcall⟩ := h
  refine List.mem_flatMap.mpr ⟨message, ?_, List.mem_map_of_mem hcall⟩
  exact List.mem_filterMap.mpr ⟨e, List.mem_filter.mpr ⟨he, by simp [hturn]⟩, hmessage⟩

/-- The next turn dispatches the call, which none of its messages asks for. -/
theorem leftover_dispatched :
    ∃ s turnId item call approval, (loop sampleOptions).Reaches anyStep Loop.initial s ∧
      .dispatch turnId item call approval ∈ s.trace ∧ ¬Requested s.log turnId call := by
  have hread : ((loop sampleOptions).exec Loop.initial leftoverRun).map
      (fun s => (s.trace.filterMap Act.dispatchedId?, requestedIds s.log 4)) =
        some ([(4, "a")], []) := by decide +kernel
  obtain ⟨s, hreaches, hread⟩ := exists_reaches_of_exec_map leftoverRun hread
  obtain ⟨hdispatched, hrequested⟩ := Prod.mk.inj hread
  obtain ⟨a, ha, hid⟩ := List.mem_filterMap.mp (hdispatched ▸ List.mem_singleton_self (4, "a"))
  cases a with
  | dispatch turnId item call approval =>
    obtain ⟨rfl, -⟩ := Prod.mk.inj (Option.some.inj hid)
    refine ⟨s, _, item, call, approval, hreaches, ha, fun h => ?_⟩
    have := h.mem_requestedIds
    rw [hrequested] at this
    cases this
  | append | request => cases hid

end BeeAgent.Runtime
