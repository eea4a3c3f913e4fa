import BeeAgent.Data.Units
import BeeAgent.Runtime.AgentLoop
import Mathlib.Logic.Function.Basic

/-! The entry points of the loop, the machine over all its calls on one thread, and what one step
of a call can do. -/
namespace BeeAgent.Runtime
open BeeAgent.Data BeeAgent.Thread BeeAgent.Execution

variable (o : AgentLoopOptions)

structure Rebuilt where
  state : LoopState
  carried : List LlmMessage
  pendingApproval : Option PendingApproval

inductive RebuildError where
  | notFound
  | digestMismatch (checkpointSequence : ℕ) (expectedDigest actualDigest : String)

def commitSequence (log : List ThreadEvent) (turnId : TurnId) : ℕ :=
  ((lastCheckpoint? log turnId).map Checkpoint.sequence).getD 0

def rebuiltHistory (log : List ThreadEvent) (turnId : TurnId) : List LlmMessage :=
  carriedMessages log turnId ++ rebuildHistory log turnId (commitSequence log turnId)

/-- `#rebuild`: the committed state of a turn from the log and its last checkpoint. -/
def rebuild (log : List ThreadEvent) (turnId : TurnId) : Except RebuildError Rebuilt :=
  match findTurn log turnId with
  | none => .error .notFound
  | some turn =>
    let history := rebuiltHistory log turnId
    let rebuilt : Rebuilt :=
      { state := { turn, history
                   stepIndex := ((lastCheckpoint? log turnId).map Checkpoint.stepIndex).getD 0
                   compaction := loadCompaction o.sha256 log history
                   compactionAttempts := 0 }
        carried := carriedMessages log turnId
        pendingApproval := findPendingApproval o.uuid log turnId }
    match lastCheckpoint? log turnId with
    | none => .ok rebuilt
    | some last =>
      if digest o.sha256 history ≠ last.stateDigest then
        .error (.digestMismatch last.sequence last.stateDigest (digest o.sha256 history))
      else .ok rebuilt

/-- All calls of the loop on one thread: what they did so far, oldest first, and where the live
ones stand. -/
structure Loop where
  trace : List Act
  tasks : ℕ → Option Task
  results : ℕ → Option TurnResult
  nextTask : ℕ
  nextId : ℕ

def Loop.initial : Loop :=
  { trace := [], tasks := fun _ => none, results := fun _ => none, nextTask := 0, nextId := 0 }

def Loop.log (s : Loop) : List ThreadEvent := s.trace.filterMap Act.event?

inductive LoopInput where
  | runTurn (input : String) (structureVersion : Option String)
  | recoverTurn (turnId : TurnId)
  | resumeTurn (turnId : TurnId) (approvalId : String) (decision : ApprovalAnswer)
  | abort (task : ℕ)
  | advance (task : ℕ) (input : TaskInput)
  /-- The call throws at an await, or the process ends. -/
  | fail (task : ℕ)

def initialCap : ℕ := min (o.maxOutputTokens.getD o.modelMaxOutputTokens) o.modelMaxOutputTokens

def Loop.start (s : Loop) (task : Task) : Loop :=
  { s with tasks := Function.update s.tasks s.nextTask (some task), nextTask := s.nextTask + 1 }

def Loop.refuse (s : Loop) (message : String) : Loop :=
  { s with results := Function.update s.results s.nextTask (some (.thrown message)),
           nextTask := s.nextTask + 1 }

def recoveryFailed (turnId : TurnId) : RebuildError → List Act
  | .notFound => []
  | .digestMismatch sequence expected actual =>
    [.append (.agentRecoveryFailed turnId sequence expected actual)]

def Loop.rebuildFailed (s : Loop) (turnId : TurnId) (error : RebuildError) : Loop :=
  { s.refuse "The turn cannot be rebuilt" with trace := s.trace ++ recoveryFailed turnId error }

def Rebuilt.task (rebuilt : Rebuilt) (pc : Pc) : Task :=
  { state := rebuilt.state, carried := rebuilt.carried, outputTokenCap := initialCap o, pc }

/-- The first step of `recoverTurn`: the read of the log and the checks on it. -/
def recoverStep (s : Loop) (turnId : TurnId) : Loop :=
  match rebuild o s.log turnId with
  | .error error => s.rebuildFailed turnId error
  | .ok rebuilt =>
    match rebuilt.pendingApproval with
    | some _ => s.refuse "The turn is suspended awaiting approval; use resumeTurn instead"
    | none =>
      if rebuilt.state.turn.status ≠ .active then s.refuse "The turn is not recoverable"
      else s.start (rebuilt.task o .driving)

/-- The first step of `resumeTurn`. -/
def resumeStep (s : Loop) (turnId : TurnId) (approvalId : String)
    (decision : ApprovalAnswer) : Loop :=
  match rebuild o s.log turnId with
  | .error error => s.rebuildFailed turnId error
  | .ok rebuilt =>
    match rebuilt.pendingApproval with
    | none => s.refuse "The turn has no pending approval"
    | some pending =>
      if pending.approvalId ≠ approvalId then
        s.refuse "The approval does not match the pending approval"
      else s.start (rebuilt.task o (.deciding pending decision))

/-- A call of `runTurn` whose `turn.started` is appended. -/
def startedTask (turn : Turn) : Task :=
  { state := { turn, history := [], stepIndex := 0, compaction := none, compactionAttempts := 0 }
    carried := [], outputTokenCap := initialCap o, pc := .reading }

def runStep (s : Loop) (input : String) (structureVersion : Option String) : Loop :=
  let turn := newTurn s.nextId input structureVersion
  { s.start (startedTask o turn) with
    trace := s.trace ++ [.append (.turnStarted turn)]
    nextId := s.nextId + 1 }

def Loop.apply (s : Loop) (t : ℕ) (step : TaskStep) : Loop :=
  match step.next with
  | .continue task =>
    { s with
      trace := s.trace ++ step.acts
      nextId := s.nextId + step.drawn
      tasks := Function.update s.tasks t (some task) }
  | .settle result =>
    { s with
      trace := s.trace ++ step.acts
      nextId := s.nextId + step.drawn
      tasks := Function.update s.tasks t none
      results := Function.update s.results t (some result) }

def loopStep (s : Loop) : LoopInput → Option Loop
  | .runTurn input structureVersion => some (runStep o s input structureVersion)
  | .recoverTurn turnId => some (recoverStep o s turnId)
  | .resumeTurn turnId approvalId decision => some (resumeStep o s turnId approvalId decision)
  | .abort t => (s.tasks t).map fun task =>
    { s with tasks := Function.update s.tasks t (some { task with aborted := true }) }
  | .advance t input =>
    (s.tasks t).bind fun task => (taskStep o s.log s.nextId task input).map (s.apply t)
  | .fail t => (s.tasks t).map fun _ =>
    { s with tasks := Function.update s.tasks t none
             results := Function.update s.results t (some (.thrown "The call failed")) }

def loop : Transition.Machine Loop LoopInput := ⟨loopStep o⟩

/-- The inputs that record a slot: its tool result, or its suspension. -/
def TaskInput.records : TaskInput → Bool
  | .slot _ answer => (answerResult? answer).isSome
  | .slotRecorded _ => true
  | _ => false

/-- What one intent of a batch can do. -/
inductive SlotMove (nextId : ℕ) (task : Task) (slot : Slot) (input : TaskInput) :
    List Act → SlotState → ℕ → Prop where
  | answer {result} (hs : slot.state = .executing) (hinput : input.records) :
    SlotMove nextId task slot input
      [.append (completedToolItem task.turnId slot.intent.item (toolItemPayload slot.intent.call)
        result)]
      (.answered (toolMessage (toolItemPayload slot.intent.call) result)) 0
  | suspend {payload approvalId title} (hs : slot.state = .executing) :
    SlotMove nextId task slot input [.append (.itemStarted ⟨nextId, task.turnId, .approval payload⟩)]
      (.suspending approvalId title) 1
  | suspended {approvalId title} (hs : slot.state = .suspending approvalId title)
    (hinput : input.records) :
    SlotMove nextId task slot input [.append (checkpointEvent o task)] (.suspended approvalId title) 0
  | reject (hs : ∀ message, slot.state ≠ .answered message) :
    SlotMove nextId task slot input [] .rejected 0

/-- The attempt under way and its messages. -/
def Pc.attempt? : Pc → Option (ℕ × List LlmMessage)
  | .attempting retry messages => some (retry, messages)
  | .streaming attempt | .awaitingResult attempt => some (attempt.retry, attempt.messages)
  | _ => none

/-- The attempt whose stream is open or awaits its result. -/
def Pc.stream? : Pc → Option Attempt
  | .streaming attempt | .awaitingResult attempt => some attempt
  | _ => none

/-- The steps of the loop proper: the input is recorded, no answer is awaited and no batch runs. -/
def Pc.plain : Pc → Bool
  | .reading | .recordingInput | .deciding .. | .approved .. | .settling .. => false
  | _ => true

/-- What one step of a call can do. -/
inductive Move (log : List ThreadEvent) (nextId : ℕ) (task : Task) (input : TaskInput) :
    TaskStep → Prop where
  | read {events compaction} (hpc : task.pc = .reading)
    (hevents : events = if o.carryThreadHistory = some false then [] else log)
    (hcompaction : compaction = loadCompaction o.sha256 events (messagesFromEvents events)) :
    Move log nextId task input
      { next := .continue { task with
          state := { task.state with history := messagesFromEvents events, compaction }
          carried := messagesFromEvents events
          pc := .recordingInput } }
  | recordInput (hpc : task.pc = .recordingInput) :
    Move log nextId task input
      { acts :=
          [.append (.itemStarted ⟨nextId, task.turnId, .message
            { role := .user, content := task.state.turn.input }⟩),
           .append (.itemCompleted ⟨nextId, task.turnId, .message
            { role := .user, content := task.state.turn.input }⟩)]
        next := .continue ((task.push [.user task.state.turn.input]).goto .driving)
        drawn := 1 }
  | decide {pending decision payload} (hpc : task.pc = .deciding pending decision) :
    Move log nextId task input
      { acts :=
          [.append (.itemCompleted ⟨pending.approvalItem.1, task.turnId, .approval payload⟩),
           .dispatch task.turnId pending.toolItem.1 pending.call (some decision)]
        next := .continue (task.goto (.approved pending decision)) }
  | answerApproved {pending decision result} (hpc : task.pc = .approved pending decision) :
    Move log nextId task input
      { acts := [.append (completedToolItem task.turnId pending.toolItem.1 pending.toolItem.2
          result)]
        next := .continue ((task.push [toolMessage pending.toolItem.2 result]).goto .driving) }
  | throw {message} : Move log nextId task input { next := .settle (.thrown message) }
  | giveUp {acts terminal} (hpc : task.pc.plain) (hacts : ∀ a ∈ acts, ∃ attempt error,
      task.pc.stream? = some attempt ∧ a = itemFailedAct task attempt error)
    (hterminal : ∀ output, terminal ≠ .completed output) :
    Move log nextId task input { acts, next := .continue (task.goto (.terminating terminal)) }
  | generate (hpc : task.pc = .driving) (hnone : unansweredCalls task.history = []) :
    Move log nextId task input { next := .continue (task.goto .generating) }
  | redispatch (hpc : task.pc = .driving) :
    Move log nextId task input
      { next := .continue (task.goto (.running .recovered
          (segmentIntents o (unansweredIntents nextId task.history))))
        drawn := (unansweredIntents nextId task.history).length }
  | finishIntents {after segments} (hpc : task.pc = .running after segments)
    (hnone : nextBatch o segments = none) :
    Move log nextId task input { next := .continue (task.goto (.checkpointing after)) }
  | batch {after segments batch rest} (hpc : task.pc = .running after segments)
    (hbatch : nextBatch o segments = some (batch, rest)) :
    Move log nextId task input
      { acts := batch.filterMap (dispatchOf? task.turnId)
        next := .continue (task.goto (.settling after (batch.map fun i => ⟨i, .executing⟩) rest)) }
  | slot {after slots segments index slot acts state drawn}
    (hpc : task.pc = .settling after slots segments) (hindex : slotIndex? input = some index)
    (hslot : slots[index]? = some slot) (hmove : SlotMove o nextId task slot input acts state drawn) :
    Move log nextId task input
      { acts, drawn
        next := .continue (task.goto
          (.settling after (slots.set index { slot with state }) segments)) }
  | suspendTurn {after slots segments approvalId title}
    (hpc : task.pc = .settling after slots segments) :
    Move log nextId task input { next := .settle (.suspended approvalId title task.state.turn) }
  | commit {after slots segments} (hpc : task.pc = .settling after slots segments)
    (hanswered : ∀ slot ∈ slots, ∃ message, slot.state = .answered message) :
    Move log nextId task input
      { next := .continue ((task.push (slots.filterMap answeredMessage?)).goto
          (.running after segments)) }
  | checkpointed {after pc} (hpc : task.pc = .checkpointing after)
    (hnext : pc = .generating ∨ pc = .driving) :
    Move log nextId task input
      { acts := [.append (checkpointEvent o task)]
        next := .continue (task.settledStep.goto pc) }
  | complete {after output} (hpc : task.pc = .checkpointing after) :
    Move log nextId task input
      { acts := [.append (checkpointEvent o task)]
        next := .continue (task.goto (.terminating (.completed output))) }
  | assemble {retrieved planned system} (hpc : task.pc = .generating)
    (hinput : input = .assembled retrieved planned system) :
    Move log nextId task input { next := .continue (startAttempts o task retrieved planned system) }
  | summarize {retrieved planned system covered} (hpc : task.pc = .generating)
    (hinput : input = .assembled retrieved planned system)
    (hspan : compactionSpan o task.state (Runtime.assemble o task.state retrieved planned system) =
      some covered) :
    Move log nextId task input
      { acts := [.request task.turnId (summaryRequest (task.history.take covered))]
        next := .continue { task with
          state := { task.state with compactionAttempts := task.state.compactionAttempts + 1 }
          pc := .summarizing retrieved planned system covered } }
  | unsummarized {retrieved planned system covered}
    (hpc : task.pc = .summarizing retrieved planned system covered) :
    Move log nextId task input { next := .continue (startAttempts o task retrieved planned system) }
  | compacted {retrieved planned system covered summary}
    (hpc : task.pc = .summarizing retrieved planned system covered)
    (hinput : input = .summarized (some summary)) :
    Move log nextId task input
      { acts := [.append (.contextCompacted task.turnId summary covered
          (digest o.sha256 (task.history.take covered))
          (estimateTokens (task.history.take covered)))]
        next := .continue (startAttempts o
          { task with state := { task.state with
              compaction := some ⟨summary, covered, digest o.sha256 (task.history.take covered)⟩ } }
          retrieved planned system) }
  | attempt {retry messages} (hpc : task.pc = .attempting retry messages) :
    Move log nextId task input
      { acts := [.append (.itemStarted ⟨nextId, task.turnId, .message
          { role := .assistant, content := "" }⟩), .request task.turnId messages]
        next := .continue (task.goto (.streaming { retry, messages, item := nextId }))
        drawn := 1 }
  | retry {acts retry messages} (hpc : task.pc.attempt? = some (retry, messages))
    (hacts : ∀ a ∈ acts, ∃ attempt error, task.pc.stream? = some attempt ∧
      a = itemFailedAct task attempt error) :
    Move log nextId task input
      { acts, next := .continue (task.goto (.attempting (retry + 1) messages)) }
  | stream {acts attempt pc} (hpc : task.pc = .streaming attempt)
    (hacts : ∀ a ∈ acts, ∃ delta, a = .append (.itemDelta task.turnId attempt.item delta))
    (hnext : ∃ attempt' : Attempt, (pc = .streaming attempt' ∨ pc = .awaitingResult attempt') ∧
      attempt'.messages = attempt.messages ∧ attempt'.item = attempt.item ∧
      attempt'.intents = attempt.intents) :
    Move log nextId task input { acts, next := .continue (task.goto pc) }
  | intent {attempt call} (hpc : task.pc = .streaming attempt) :
    Move log nextId task input
      { acts := [.append (startedToolItem task.turnId ⟨call, nextId⟩)]
        next := .continue (task.goto (.streaming { attempt with
          intents := attempt.intents ++ [⟨call, nextId⟩] }))
        drawn := 1 }
  | escalate {attempt error cap} (hpc : task.pc = .awaitingResult attempt) :
    Move log nextId task input
      { acts := [itemFailedAct task attempt error]
        next := .continue ({ task with outputTokenCap := cap }.goto .driving) }
  | recordAssistant {attempt stopReason} (hpc : task.pc = .awaitingResult attempt) :
    Move log nextId task input
      { acts := [.append (.itemCompleted ⟨attempt.item, task.turnId,
          .message (assistantPayload attempt)⟩)]
        next := .continue ((task.push [assistantMessage attempt]).goto
          (.running (.generated stopReason (generationOutput attempt))
            (segmentIntents o attempt.intents))) }
  | terminate {terminal} (hpc : task.pc = .terminating terminal) :
    Move log nextId task input
      { acts := [.append (Runtime.terminate task.state.turn terminal).1]
        next := .settle (Runtime.terminate task.state.turn terminal).2 }

section Inversion
variable {o} {log : List ThreadEvent} {nextId : ℕ} {task : Task} {input : TaskInput}
  {step : TaskStep}

theorem slotStep_move {slot : Slot} {acts : List Act} {state : SlotState}
    {drawn : ℕ} (h : slotStep o nextId task slot input = some (acts, state, drawn)) :
    SlotMove o nextId task slot input acts state drawn := by
  cases input with
  | slot index answer =>
    simp only [slotStep] at h
    split at h
    · next hs _ =>
      split at h <;> cases h
      · exact .suspend hs
      · exact .answer hs rfl
      · exact .answer hs rfl
    · cases h
  | slotRecorded index =>
    simp only [slotStep] at h
    split at h <;> cases h
    · next hs _ => exact .answer hs rfl
    · next hs => exact .suspended hs rfl
  | slotRejected index =>
    simp only [slotStep] at h
    split at h <;> cases h <;> next hs => exact .reject (by simp [hs])
  | _ => cases h

theorem driveStep_move (hpc : task.pc = .driving) :
    Move o log nextId task input (driveStep o nextId task) := by
  rw [driveStep]
  split
  · exact .giveUp (by rw [hpc]; rfl) (by simp) (by simp)
  split
  · exact .giveUp (by rw [hpc]; rfl) (by simp) (by simp)
  split
  · next hnone => exact .generate hpc (by simpa [unansweredIntents] using hnone)
  · exact .redispatch hpc

theorem runningStep_move {after : AfterIntents} {segments : List Segment}
    (hpc : task.pc = .running after segments) :
    Move o log nextId task input (runningStep o task after segments) := by
  rw [runningStep]
  split
  · next hnone => exact .finishIntents hpc hnone
  · next hbatch =>
    split
    · exact .giveUp (by rw [hpc]; rfl) (by simp) (by simp)
    · exact .batch hpc hbatch

theorem commitStep_move {after : AfterIntents} {slots : List Slot} {segments : List Segment}
    (hpc : task.pc = .settling after slots segments) (hsettled : slots.all Slot.settled) :
    Move o log nextId task input (commitStep task after slots segments) := by
  rw [commitStep]
  split
  · exact .throw
  next hrejected =>
  split
  · exact .suspendTurn hpc
  next hsuspension =>
  refine .commit hpc fun slot hslot => ?_
  have hs := List.all_eq_true.mp hsettled slot hslot
  have hr : slot.rejected ≠ true := fun hr => hrejected (List.any_eq_true.mpr ⟨slot, hslot, hr⟩)
  have hu := List.findSome?_eq_none_iff.mp hsuspension slot hslot
  cases hstate : slot.state with
  | answered message => exact ⟨message, rfl⟩
  | executing | suspending => simp [Slot.settled, hstate] at hs
  | suspended => simp [suspension?, hstate] at hu
  | rejected => simp [Slot.rejected, hstate] at hr

theorem checkpointStep_move {after : AfterIntents} (hpc : task.pc = .checkpointing after) :
    Move o log nextId task input (checkpointStep o task after) := by
  cases after with
  | recovered => exact .checkpointed hpc (.inl rfl)
  | generated stopReason output =>
    cases stopReason with
    | endTurn | decision => exact .complete hpc
    | toolCalls | maxTokens | cancelled => exact .checkpointed hpc (.inr rfl)

theorem attemptCaught_move {acts : List Act} {retry : ℕ} {messages : List LlmMessage}
    {error : LoopError} (hpc : task.pc.attempt? = some (retry, messages))
    (hacts : ∀ a ∈ acts, ∃ attempt error, task.pc.stream? = some attempt ∧
      a = itemFailedAct task attempt error) :
    Move o log nextId task input
      { acts, next := .continue (attemptCaught o task retry messages error) } := by
  have hplain : task.pc.plain := by
    cases hp : task.pc <;> simp [Pc.attempt?, Pc.plain, hp] at hpc ⊢
  rw [attemptCaught]
  split
  · exact .giveUp hplain hacts (by simp)
  split
  · exact .retry hpc hacts
  · exact .giveUp hplain hacts (by simp)

theorem streamStep_move {attempt : Attempt} {event : LlmStreamEvent}
    (hpc : task.pc = .streaming attempt) :
    Move o log nextId task input (streamStep nextId task attempt event) := by
  cases event with
  | messageDelta delta =>
    simp only [streamStep]
    split
    · exact .stream hpc (by simp) ⟨_, .inl rfl, rfl, rfl, rfl⟩
    · exact .stream hpc (by simp) ⟨_, .inl rfl, rfl, rfl, rfl⟩
  | toolIntent call => exact .intent hpc
  | decision decision => exact .stream hpc (by simp) ⟨_, .inl rfl, rfl, rfl, rfl⟩

theorem resultStep_move {attempt : Attempt} {stopReason : StopReason}
    (hpc : task.pc = .awaitingResult attempt) :
    Move o log nextId task input (resultStep o task attempt stopReason) := by
  have hstream : task.pc.stream? = some attempt := by rw [hpc]; rfl
  have hacts : ∀ error, ∀ a ∈ [itemFailedAct task attempt error], ∃ attempt error,
      task.pc.stream? = some attempt ∧ a = itemFailedAct task attempt error :=
    fun error a ha => ⟨attempt, error, hstream, List.mem_singleton.mp ha⟩
  cases stopReason with
  | cancelled =>
    refine .giveUp (by rw [hpc]; rfl) (hacts _) fun output => ?_
    split <;> simp
  | maxTokens =>
    simp only [resultStep]
    split
    · exact .escalate hpc
    · exact .giveUp (by rw [hpc]; rfl) (hacts _) (by simp)
  | endTurn | toolCalls | decision => exact .recordAssistant hpc

theorem resultThrownStep_move {attempt : Attempt} {error : LoopError}
    (hpc : task.pc = .awaitingResult attempt) :
    Move o log nextId task input (resultThrownStep o task attempt error) := by
  have hacts : ∀ a ∈ [itemFailedAct task attempt error.message], ∃ attempt error,
      task.pc.stream? = some attempt ∧ a = itemFailedAct task attempt error :=
    fun a ha => ⟨attempt, _, by rw [hpc]; rfl, List.mem_singleton.mp ha⟩
  rw [resultThrownStep]
  split
  · exact .giveUp (by rw [hpc]; rfl) hacts (by simp)
  split
  · exact .giveUp (by rw [hpc]; rfl) hacts (by simp)
  · exact .giveUp (by rw [hpc]; rfl) hacts (by simp)
  · exact attemptCaught_move (by rw [hpc]; rfl) hacts

theorem taskStep_move (h : taskStep o log nextId task input = some step) :
    Move o log nextId task input step := by
  rw [taskStep.eq_def] at h
  split at h
  · next hpc =>
    cases h
    exact .read hpc rfl rfl
  · next hpc =>
    cases h
    exact .recordInput hpc
  · next hpc =>
    cases h
    exact .decide hpc
  · next hpc =>
    split at h <;> cases h
    · exact .answerApproved hpc
    · exact .throw
  · next hpc =>
    cases h
    exact driveStep_move hpc
  · next hpc =>
    cases h
    exact runningStep_move hpc
  · next hpc =>
    split at h <;> cases h
    next hsettled => exact commitStep_move hpc hsettled
  · next hpc _ =>
    split at h <;> [cases h; skip]
    next hindex =>
    split at h <;> [cases h; skip]
    next hslot =>
    split at h <;> cases h
    next hstep => exact .slot hpc hindex hslot (slotStep_move hstep)
  · next hpc =>
    cases h
    exact checkpointStep_move hpc
  · next hpc =>
    split at h <;> cases h
    · exact .assemble hpc rfl
    · next hspan => exact .summarize hpc rfl hspan
  · next hpc =>
    split at h <;> cases h
    · exact .unsummarized hpc
    · exact .compacted hpc rfl
  · next hpc =>
    split at h <;> cases h
    · exact .giveUp (by rw [hpc]; rfl) (by simp) (by simp)
    · exact .attempt hpc
  · next hpc =>
    cases h
    exact attemptCaught_move (by rw [hpc]; rfl) (by simp)
  · next attempt _ hpc =>
    split at h <;> cases h
    · exact .giveUp (by rw [hpc]; rfl) (fun a ha => ⟨attempt, _, by rw [hpc]; rfl, List.mem_singleton.mp ha⟩) (by simp)
    · exact streamStep_move hpc
  · next hpc =>
    cases h
    refine .stream hpc ?_ ⟨_, .inr rfl, rfl, rfl, rfl⟩
    split <;> simp
  · next hpc =>
    cases h
    exact resultStep_move hpc
  · next hpc =>
    cases h
    exact resultThrownStep_move hpc
  · next hpc =>
    cases h
    exact attemptCaught_move (by rw [hpc]; rfl) (by simp)
  · next hpc =>
    cases h
    exact attemptCaught_move (by rw [hpc]; rfl) (by simp)
  · next hpc =>
    cases h
    exact .terminate hpc
  · cases h

end Inversion

/-- The checks of an entry point pass, and a call goes on with the turn. -/
inductive Admits (s : Loop) : LoopInput → TurnId → Prop where
  | recover {turnId rebuilt} (hrebuild : rebuild o s.log turnId = .ok rebuilt)
    (hpending : rebuilt.pendingApproval = none) (hactive : rebuilt.state.turn.status = .active) :
    Admits s (.recoverTurn turnId) turnId
  | resume {turnId approvalId decision rebuilt pending}
    (hrebuild : rebuild o s.log turnId = .ok rebuilt)
    (hpending : rebuilt.pendingApproval = some pending)
    (hid : pending.approvalId = approvalId) :
    Admits s (.resumeTurn turnId approvalId decision) turnId

/-- What one step of the loop can do. -/
inductive LoopMove (s : Loop) : LoopInput → Loop → Prop where
  | runTurn {input structureVersion} :
    LoopMove s (.runTurn input structureVersion) (runStep o s input structureVersion)
  | recover {turnId rebuilt} (hrebuild : rebuild o s.log turnId = .ok rebuilt)
    (hpending : rebuilt.pendingApproval = none) (hactive : rebuilt.state.turn.status = .active) :
    LoopMove s (.recoverTurn turnId) (s.start (rebuilt.task o .driving))
  | resume {turnId approvalId decision rebuilt pending}
    (hrebuild : rebuild o s.log turnId = .ok rebuilt)
    (hpending : rebuilt.pendingApproval = some pending)
    (hid : pending.approvalId = approvalId) :
    LoopMove s (.resumeTurn turnId approvalId decision)
      (s.start (rebuilt.task o (.deciding pending decision)))
  | rebuildFailed {input turnId error} (hrebuild : rebuild o s.log turnId = .error error) :
    LoopMove s input (s.rebuildFailed turnId error)
  | refuse {input message} : LoopMove s input (s.refuse message)
  | abort {t task} (ht : s.tasks t = some task) :
    LoopMove s (.abort t)
      { s with tasks := Function.update s.tasks t (some { task with aborted := true }) }
  | advance {t task input step} (ht : s.tasks t = some task)
    (hmove : Move o s.log s.nextId task input step) :
    LoopMove s (.advance t input) (s.apply t step)
  | fail {t task result} (ht : s.tasks t = some task) :
    LoopMove s (.fail t)
      { s with tasks := Function.update s.tasks t none
               results := Function.update s.results t (some result) }

theorem loopStep_move {o} {s s' : Loop} {input : LoopInput} (h : loopStep o s input = some s') :
    LoopMove o s input s' := by
  cases input with
  | runTurn input structureVersion =>
    cases h
    exact .runTurn
  | recoverTurn turnId =>
    cases h
    rw [recoverStep]
    split
    · next hrebuild => exact .rebuildFailed hrebuild
    next hrebuild =>
    split
    · exact .refuse
    next hpending =>
    split
    · exact .refuse
    · next hactive => exact .recover hrebuild hpending (not_not.mp hactive)
  | resumeTurn turnId approvalId decision =>
    cases h
    rw [resumeStep]
    split
    · next hrebuild => exact .rebuildFailed hrebuild
    next hrebuild =>
    split
    · exact .refuse
    next hpending =>
    split
    · exact .refuse
    · next hid => exact .resume hrebuild hpending (not_not.mp hid)
  | abort t =>
    obtain ⟨task, ht, rfl⟩ := Option.map_eq_some_iff.mp h
    exact .abort ht
  | advance t input =>
    obtain ⟨task, ht, h⟩ := Option.bind_eq_some_iff.mp h
    obtain ⟨step, hstep, rfl⟩ := Option.map_eq_some_iff.mp h
    exact .advance ht (taskStep_move hstep)
  | fail t =>
    obtain ⟨task, ht, rfl⟩ := Option.map_eq_some_iff.mp h
    exact .fail ht

/-- `#maybeCompact`, which counts the tokens last. -/
def quickSpan (state : LoopState) (assembled : List LlmMessage) : Option ℕ :=
  let alreadyCovered := (state.compaction.map CompactionView.coveredMessageCount).getD 0
  let coveredCount := max alreadyCovered (state.history.length - o.keepRecentMessages)
  if coveredCount ≤ alreadyCovered then none
  else if o.maxAttemptsPerTurn ≤ state.compactionAttempts then none
  else if coveredCount < o.minCoveredMessages then none
  else if o.compactionThresholdTokens = 0 ∧ assembled ≠ [] then some coveredCount
  else compactionSpan o state assembled

theorem estimateTokens_pos {messages : List LlmMessage} (h : messages ≠ []) :
    0 < estimateTokens messages := by
  obtain ⟨message, rest, rfl⟩ := List.exists_cons_of_ne_nil h
  have hne : canonicalJson message.toValue ≠ "" := by
    cases message <;> simp [LlmMessage.toValue, canonicalJson, canonicalJson?, joinFields]
  have := mt length_utf16_eq_zero.mp hne
  rw [estimateTokens, List.map_cons, List.sum_cons, estimateMessageTokens]
  omega

theorem quickSpan_eq (state : LoopState) (assembled : List LlmMessage) :
    quickSpan o state assembled = compactionSpan o state assembled := by
  have hpos : assembled ≠ [] →
      0 < estimateTokens (projectHistory o.sha256 assembled o.toolResultCompaction).messages :=
    fun h => estimateTokens_pos (by simpa [projectHistory] using h)
  unfold quickSpan compactionSpan
  grind

/-- A step of the loop in which the tokens are counted last. -/
def quickStep (s : Loop) : LoopInput → Option Loop
  | .advance t (.assembled retrieved planned system) => (s.tasks t).bind fun task =>
    match task.pc with
    | .generating =>
      let span := quickSpan o task.state (assemble o task.state retrieved planned system)
      some (s.apply t (span.elim { next := .continue (startAttempts o task retrieved planned system) }
        fun covered =>
          { acts := [.request task.turnId (summaryRequest (task.history.take covered))]
            next := .continue { task with
              state := { task.state with
                compactionAttempts := task.state.compactionAttempts + 1 }
              pc := .summarizing retrieved planned system covered } }))
    | _ => loopStep o s (.advance t (.assembled retrieved planned system))
  | input => loopStep o s input

theorem loop_eq_quick : loop o = ⟨quickStep o⟩ := by
  refine congrArg Transition.Machine.mk (funext fun s => funext fun input => ?_)
  unfold quickStep
  split
  · next t retrieved planned system =>
    rw [loopStep]
    cases ht : s.tasks t with
    | none => rfl
    | some task =>
      simp only [Option.bind_some]
      split
      · next hpc =>
        simp only [taskStep, hpc, quickSpan_eq]
        split <;> simp_all
      · simp
  · rfl

/-- Options under which a run evaluates: the hash is the identity, every tool call is parallel. -/
def sampleOptions : AgentLoopOptions :=
  { sha256 := id, uuid := toString, concurrency := fun _ => some .parallel
    modelMaxOutputTokens := 4096, compactionThresholdTokens := 100000 }

def sampleCall (callId : String) : ToolCall := { callId, toolId := "files.read", input := .null }

def sampleAnswer (content : String) : ToolAnswer :=
  .outcome (.result { output := .string content, content })

def advances (t : ℕ) (inputs : List TaskInput) : List LoopInput := inputs.map (.advance t)

/-- From the top of the step loop to the model's reply with the given calls, recorded. -/
def replyInputs (t : ℕ) (calls : List ToolCall) (stopReason : StopReason) : List LoopInput :=
  advances t ([.proceed, .assembled [] [] none, .proceed] ++
    calls.map (fun call => .streamEvent (.toolIntent call)) ++
    [.streamEnd, .result stopReason, .proceed])

def startInputs (t : ℕ) : List LoopInput :=
  [.runTurn "hello" none, .advance t .proceed, .advance t .proceed]

/-- A turn with one tool call, up to the request that follows its answer. -/
def answeredCallRun : List LoopInput :=
  startInputs 0 ++ replyInputs 0 [sampleCall "a"] .toolCalls ++
    advances 0 [.slot 0 (sampleAnswer "A"), .proceed, .proceed, .proceed, .proceed,
      .assembled [] [] none, .proceed]

/-- A turn that is cancelled before its call is dispatched, and the next turn's first steps. -/
def leftoverRun : List LoopInput :=
  startInputs 0 ++ (replyInputs 0 [sampleCall "a"] .toolCalls).dropLast ++ [.abort 0] ++
    advances 0 [.proceed, .proceed] ++ startInputs 1 ++ advances 1 [.proceed, .proceed]

end BeeAgent.Runtime
