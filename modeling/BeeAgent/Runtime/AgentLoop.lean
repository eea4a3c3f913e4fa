import BeeAgent.Execution.World
import BeeAgent.Runtime.History
import BeeAgent.Transition.Machine

/-! The agent loop as a machine: any number of `runTurn`, `recoverTurn` and `resumeTurn` calls on
one thread that interleave between their awaits, with aborts, failures and crashes. An append that
is awaited takes effect in the step that ends the wait. -/
namespace BeeAgent.Runtime
open BeeAgent.Data BeeAgent.Thread BeeAgent.Execution

inductive ToolConcurrency where
  | parallel | exclusive
  deriving DecidableEq

/-- The options of a loop with their defaults, the hash, and the text of the n-th `randomUUID`. -/
structure AgentLoopOptions where
  sha256 : String → String
  uuid : ℕ → String
  concurrency : ToolCall → Option ToolConcurrency := fun _ => none
  maxSteps : ℕ := 8
  maxRetries : ℕ := 2
  modelMaxOutputTokens : ℕ
  maxOutputTokens : Option ℕ := none
  carryThreadHistory : Option Bool := none
  maxParallelToolCalls : ℕ := 8
  toolResultCompaction : ToolResultCompactionPolicy := {}
  compactionThresholdTokens : ℕ
  keepRecentMessages : ℕ := 12
  maxAttemptsPerTurn : ℕ := 2
  minCoveredMessages : ℕ := 2

structure LoopState where
  turn : Turn
  history : List LlmMessage
  stepIndex : ℕ
  compaction : Option CompactionView
  compactionAttempts : ℕ

structure GenerationIntent where
  call : ToolCall
  item : ItemId

inductive StopReason where
  | endTurn | toolCalls | decision | maxTokens | cancelled
  deriving DecidableEq

inductive Retryability where
  | retryable | fatal | contextOverflow
  deriving DecidableEq

/-- A thrown error; one of the model runtime carries its retryability. -/
structure LoopError where
  message : String
  retryability : Option Retryability := none

inductive ToolExecutionOutcome where
  | result (result : ActionResult)
  | approvalRequired (approvalId title detail : String)

/-- What one `ToolExecutionPort.execute` call comes to. -/
inductive ToolAnswer where
  | outcome (outcome : ToolExecutionOutcome)
  | thrown (message : String)

inductive LlmStreamEvent where
  | messageDelta (delta : String)
  | toolIntent (call : ToolCall)
  | decision (decision : Value)

/-- Where the dispatch of one intent of a batch stands. -/
inductive SlotState where
  | executing
  | suspending (approvalId title : String)
  | answered (message : LlmMessage)
  | suspended (approvalId title : String)
  | rejected

structure Slot where
  intent : GenerationIntent
  state : SlotState

/-- Why intents run: they are left over from an interrupted step, or were just generated. -/
inductive AfterIntents where
  | recovered
  | generated (stopReason : StopReason) (output : String)

inductive Terminal where
  | completed (output : String)
  | failed (error : String)
  | cancelled

abbrev Segment := ToolConcurrency × List GenerationIntent

/-- One attempt of a generation, with what its stream gave so far. -/
structure Attempt where
  retry : ℕ
  messages : List LlmMessage
  item : ItemId
  content : String := ""
  buffered : String := ""
  intents : List GenerationIntent := []
  decision : Option Value := none

/-- The await at which a call of the loop stands. -/
inductive Pc where
  | reading
  | recordingInput
  | deciding (pending : PendingApproval) (decision : ApprovalAnswer)
  | approved (pending : PendingApproval) (decision : ApprovalAnswer)
  | driving
  | running (after : AfterIntents) (segments : List Segment)
  | settling (after : AfterIntents) (slots : List Slot) (segments : List Segment)
  | checkpointing (after : AfterIntents)
  | generating
  | summarizing (retrieved planned : List LlmMessage) (system : Option String) (covered : ℕ)
  | attempting (retry : ℕ) (messages : List LlmMessage)
  | streaming (attempt : Attempt)
  | awaitingResult (attempt : Attempt)
  | terminating (terminal : Terminal)

/-- A live call. `carried` is the local that holds the messages of earlier turns. -/
structure Task where
  state : LoopState
  carried : List LlmMessage
  outputTokenCap : ℕ
  aborted : Bool := false
  pc : Pc

namespace Task

def turnId (task : Task) : TurnId := task.state.turn.id

def history (task : Task) : List LlmMessage := task.state.history

def goto (task : Task) (pc : Pc) : Task := { task with pc }

def push (task : Task) (messages : List LlmMessage) : Task :=
  { task with state := { task.state with history := task.state.history ++ messages } }

def settledStep (task : Task) : Task :=
  { task with state := { task.state with stepIndex := task.state.stepIndex + 1 } }

@[simp] theorem history_goto (task : Task) (pc : Pc) : (task.goto pc).history = task.history := rfl

@[simp] theorem pc_goto (task : Task) (pc : Pc) : (task.goto pc).pc = pc := rfl

@[simp] theorem turnId_goto (task : Task) (pc : Pc) : (task.goto pc).turnId = task.turnId := rfl

@[simp] theorem history_push (task : Task) (messages : List LlmMessage) :
    (task.push messages).history = task.history ++ messages := rfl

@[simp] theorem turnId_push (task : Task) (messages : List LlmMessage) :
    (task.push messages).turnId = task.turnId := rfl

end Task

inductive TurnResult where
  | completed (output : String) (turn : Turn)
  | failed (error : String) (turn : Turn)
  | cancelled (turn : Turn)
  | suspended (approvalId title : String) (turn : Turn)
  | thrown (message : String)

/-- What the loop does to the world: a durable event, a model request, a tool dispatch. -/
inductive Act where
  | append (event : ThreadEvent)
  | request (turnId : TurnId) (messages : List LlmMessage)
  | dispatch (turnId : TurnId) (item : ItemId) (call : ToolCall)
      (approval : Option ApprovalAnswer)

def Act.event? : Act → Option ThreadEvent
  | .append event => some event
  | _ => none

def Act.turnId : Act → TurnId
  | .append event => event.turnId
  | .request turnId _ | .dispatch turnId .. => turnId

/-- How an await of a call ends. -/
inductive TaskInput where
  | proceed
  | tool (answer : ToolAnswer)
  | slot (index : ℕ) (answer : ToolAnswer)
  | slotRecorded (index : ℕ)
  | slotRejected (index : ℕ)
  | assembled (retrieved planned : List LlmMessage) (system : Option String)
  | summarized (summary : Option String)
  | streamEvent (event : LlmStreamEvent)
  | streamEnd
  | result (stopReason : StopReason)
  | resultThrown (error : LoopError)
  | attemptThrown (error : LoopError)

inductive TaskNext where
  | continue (task : Task)
  | settle (result : TurnResult)

structure TaskStep where
  acts : List Act := []
  next : TaskNext
  drawn : ℕ := 0

variable (o : AgentLoopOptions)

def toolItemPayload (call : ToolCall) : ToolCallItemPayload :=
  { toolId := call.toolId, callId := call.callId, input := call.input,
    inputError := call.inputError }

def startedToolItem (turnId : TurnId) (intent : GenerationIntent) : ThreadEvent :=
  .itemStarted ⟨intent.item, turnId, .toolCall (toolItemPayload intent.call)⟩

def completedToolItem (turnId : TurnId) (item : ItemId) (payload : ToolCallItemPayload)
    (result : ActionResult) : ThreadEvent :=
  .itemCompleted ⟨item, turnId, .toolCall { payload with
    output := some result.output
    content := some result.content
    isError := result.isError <|> payload.isError }⟩

def toolMessage (payload : ToolCallItemPayload) (result : ActionResult) : LlmMessage :=
  .tool payload.callId payload.toolId result.content result.isError

/-- A tool failure as the result that `#errorToolItem` records. -/
def errorResult (message : String) : ActionResult :=
  { output := .object [("error", .string message)], content := message, isError := some true }

def toolFailed (message : String) : String := "Tool execution failed: " ++ message

def answerResult? : ToolAnswer → Option ActionResult
  | .outcome (.result result) => some result
  | .outcome (.approvalRequired ..) => none
  | .thrown message => some (errorResult (toolFailed message))

def concurrencyOf (intent : GenerationIntent) : ToolConcurrency :=
  if intent.call.inputError.isSome then .exclusive
  else (o.concurrency intent.call).getD .exclusive

/-- Groups consecutive intents with the same concurrency class. -/
def segmentIntents (intents : List GenerationIntent) : List Segment :=
  intents.foldl (fun segments intent =>
    match segments.getLast? with
    | some (concurrency, is) =>
      if concurrency = concurrencyOf o intent then
        segments.dropLast ++ [(concurrency, is ++ [intent])]
      else segments ++ [(concurrencyOf o intent, [intent])]
    | none => [(concurrencyOf o intent, [intent])]) []

/-- The next batch and what is left: one exclusive intent, or a bounded slice of parallel ones. -/
def nextBatch : List Segment → Option (List GenerationIntent × List Segment)
  | [] => none
  | (_, []) :: rest => nextBatch rest
  | (.exclusive, i :: is) :: rest => some ([i], (.exclusive, is) :: rest)
  | (.parallel, i :: is) :: rest =>
    some ((i :: is).take o.maxParallelToolCalls,
      (.parallel, (i :: is).drop o.maxParallelToolCalls) :: rest)

def segmentsIntents (segments : List Segment) : List GenerationIntent :=
  segments.flatMap Prod.snd

theorem segmentsIntents_segmentIntents (intents : List GenerationIntent) :
    segmentsIntents (segmentIntents o intents) = intents := by
  have hfold : ∀ (is : List GenerationIntent) (segments : List Segment),
      segmentsIntents (is.foldl (fun segments intent =>
        match segments.getLast? with
        | some (concurrency, is) =>
          if concurrency = concurrencyOf o intent then
            segments.dropLast ++ [(concurrency, is ++ [intent])]
          else segments ++ [(concurrencyOf o intent, [intent])]
        | none => [(concurrencyOf o intent, [intent])]) segments) =
        segmentsIntents segments ++ is := by
    intro is
    induction is with
    | nil => simp
    | cons i is ih =>
      intro segments
      rw [List.foldl_cons, ih, List.append_cons (segmentsIntents segments)]
      congr 1
      cases hlast : segments.getLast? with
      | none =>
        rw [List.getLast?_eq_none_iff] at hlast
        simp [segmentsIntents, hlast]
      | some last =>
        have hsplit := List.dropLast_append_getLast? last hlast
        simp only
        split
        · conv_rhs => rw [← hsplit]
          simp [segmentsIntents]
        · simp [segmentsIntents]
  exact hfold intents []

theorem nextBatch_none {segments : List Segment} (h : nextBatch o segments = none) :
    segmentsIntents segments = [] := by
  induction segments with
  | nil => rfl
  | cons segment rest ih =>
    obtain ⟨concurrency, is⟩ := segment
    cases is with
    | nil => exact ih h
    | cons i is => cases concurrency <;> cases h

theorem nextBatch_some {segments rest : List Segment} {batch : List GenerationIntent}
    (h : nextBatch o segments = some (batch, rest)) :
    segmentsIntents segments = batch ++ segmentsIntents rest := by
  induction segments with
  | nil => cases h
  | cons segment segments ih =>
    obtain ⟨concurrency, is⟩ := segment
    cases is with
    | nil => exact ih h
    | cons i is =>
      cases concurrency with
      | exclusive =>
        cases h
        rfl
      | parallel =>
        simp only [nextBatch, Option.some.injEq, Prod.mk.injEq] at h
        obtain ⟨rfl, rfl⟩ := h
        simp only [segmentsIntents, List.flatMap_cons, ← List.append_assoc, List.take_append_drop]

/-- `#unansweredIntents`: leftover calls as intents with fresh items. -/
def unansweredIntents (nextId : ℕ) (history : List LlmMessage) : List GenerationIntent :=
  (unansweredCalls history).mapIdx fun i call => ⟨call, nextId + i⟩

/-- A call with malformed arguments is answered without a dispatch. -/
def dispatchOf? (turnId : TurnId) (intent : GenerationIntent) : Option Act :=
  if intent.call.inputError.isSome then none
  else some (.dispatch turnId intent.item intent.call none)

def answeredMessage? (slot : Slot) : Option LlmMessage :=
  match slot.state with
  | .answered message => some message
  | _ => none

def Slot.settled (slot : Slot) : Bool :=
  match slot.state with
  | .answered _ | .suspended .. | .rejected => true
  | _ => false

def Slot.rejected (slot : Slot) : Bool :=
  match slot.state with
  | .rejected => true
  | _ => false

def suspension? (slot : Slot) : Option (String × String) :=
  match slot.state with
  | .suspended approvalId title => some (approvalId, title)
  | _ => none

def checkpointEvent (task : Task) : ThreadEvent :=
  .agentCheckpoint task.turnId (task.state.stepIndex + 1) (digest o.sha256 task.history)

def assemble (state : LoopState) (retrieved planned : List LlmMessage)
    (system : Option String) : List LlmMessage :=
  (system.map .system).toList ++ compactView o.sha256 state.history state.compaction ++
    retrieved ++ planned

/-- `#maybeCompact` up to the summarization: the count of messages to cover, if any. -/
def compactionSpan (state : LoopState) (assembled : List LlmMessage) : Option ℕ :=
  let projected := projectHistory o.sha256 assembled o.toolResultCompaction
  let alreadyCovered := (state.compaction.map CompactionView.coveredMessageCount).getD 0
  let coveredCount := max alreadyCovered (state.history.length - o.keepRecentMessages)
  if o.maxAttemptsPerTurn ≤ state.compactionAttempts then none
  else if estimateTokens projected.messages ≤ o.compactionThresholdTokens then none
  else if coveredCount ≤ alreadyCovered then none
  else if coveredCount < o.minCoveredMessages then none
  else some coveredCount

def compactionPrompt : String :=
  "Summarize the conversation so far for another instance of yourself that " ++
  "will continue it without seeing the original messages. " ++
  "Keep: the user’s goal and stated preferences, decisions taken, tool " ++
  "actions and their outcomes (including failures), and any open thread. " ++
  "Drop: pleasantries, verbatim transcripts, and redundant detail. " ++
  "Write dense prose or bullets, under 400 words. Output only the summary."

def transcriptLine : LlmMessage → String
  | .tool callId toolId content _ => "[tool " ++ toolId ++ " (" ++ callId ++ ")] " ++ content
  | .system content => "[system] " ++ content
  | .user content => "[user] " ++ content
  | .assistant content toolCalls =>
    "[assistant] " ++ content ++ match toolCalls with
      | none => ""
      | some calls => " " ++ stringify (.array (calls.map toolCallValue))

def summaryRequest (covered : List LlmMessage) : List LlmMessage :=
  [.system compactionPrompt, .user ("\n".intercalate (covered.map transcriptLine))]

def startAttempts (task : Task) (retrieved planned : List LlmMessage)
    (system : Option String) : Task :=
  task.goto (.attempting 0 (projectHistory o.sha256 (assemble o task.state retrieved planned system)
    o.toolResultCompaction).messages)

/-- The catch clause of `#generate`. -/
def attemptCaught (task : Task) (retry : ℕ) (messages : List LlmMessage) (error : LoopError) :
    Task :=
  if task.aborted then task.goto (.terminating .cancelled)
  else if error.retryability = some .retryable ∧ retry < o.maxRetries then
    task.goto (.attempting (retry + 1) messages)
  else task.goto (.terminating (.failed error.message))

/-- A generation that gave no outcome. -/
def notGenerated (task : Task) (error : String) : Task :=
  task.goto (.terminating (if task.aborted then .cancelled else .failed error))

def assistantItem (turnId : TurnId) (attempt : Attempt) : MessageItemPayload → Item :=
  fun payload => ⟨attempt.item, turnId, .message payload⟩

def assistantCalls (attempt : Attempt) : Option (List ToolCall) :=
  if attempt.intents.isEmpty then none else some (attempt.intents.map GenerationIntent.call)

def assistantPayload (attempt : Attempt) : MessageItemPayload :=
  { role := .assistant, content := attempt.content, toolCalls := assistantCalls attempt }

def assistantMessage (attempt : Attempt) : LlmMessage :=
  .assistant attempt.content (assistantCalls attempt)

def generationOutput (attempt : Attempt) : String :=
  match attempt.decision with
  | some decision => stringify decision
  | none => attempt.content

def deltaFlushChars : ℕ := 256

/-- The loop over the model's stream, for one event. -/
def streamStep (nextId : ℕ) (task : Task) (attempt : Attempt) : LlmStreamEvent → TaskStep
  | .messageDelta delta =>
    let buffered := attempt.buffered ++ delta
    let attempt := { attempt with content := attempt.content ++ delta }
    if deltaFlushChars ≤ (utf16 buffered).length then
      { acts := [.append (.itemDelta task.turnId attempt.item buffered)]
        next := .continue (task.goto (.streaming { attempt with buffered := "" })) }
    else { next := .continue (task.goto (.streaming { attempt with buffered })) }
  | .toolIntent call =>
    { acts := [.append (startedToolItem task.turnId ⟨call, nextId⟩)]
      next := .continue (task.goto (.streaming { attempt with
        intents := attempt.intents ++ [⟨call, nextId⟩] }))
      drawn := 1 }
  | .decision decision =>
    { next := .continue (task.goto (.streaming { attempt with decision := some decision })) }

def itemFailedAct (task : Task) (attempt : Attempt) (error : String) : Act :=
  .append (.itemFailed task.turnId attempt.item error)

/-- The settled result of a model call, up to the next await of `#drive`. -/
def resultStep (task : Task) (attempt : Attempt) : StopReason → TaskStep
  | .cancelled =>
    { acts := [itemFailedAct task attempt "cancelled"]
      next := .continue (notGenerated task "Generation failed") }
  | .maxTokens =>
    let cap := task.outputTokenCap
    let escalated := min (cap * 2) o.modelMaxOutputTokens
    if cap < escalated then
      { acts := [itemFailedAct task attempt ("Output token limit reached at " ++ toString cap ++
          " tokens; retrying with " ++ toString escalated)]
        next := .continue ({ task with outputTokenCap := escalated }.goto .driving) }
    else
      { acts := [itemFailedAct task attempt "Model hit the output token limit"]
        next := .continue (task.goto (.terminating (.failed
          ("Model hit the output token limit (" ++ toString cap ++
            " tokens, the model maximum)")))) }
  | stopReason =>
    { acts := [.append (.itemCompleted (assistantItem task.turnId attempt
        (assistantPayload attempt)))]
      next := .continue ((task.push [assistantMessage attempt]).goto
        (.running (.generated stopReason (generationOutput attempt))
          (segmentIntents o attempt.intents))) }

/-- A result that rejects: the attempt is recorded as failed, then retried or given up. -/
def resultThrownStep (task : Task) (attempt : Attempt) (error : LoopError) : TaskStep :=
  { acts := [itemFailedAct task attempt error.message]
    next := .continue
      (if task.aborted then task.goto (.terminating .cancelled)
      else
        match error.retryability with
        | some .contextOverflow =>
          task.goto (.terminating (.failed "Model context overflow while generating"))
        | some .fatal => task.goto (.terminating (.failed error.message))
        | _ => attemptCaught o task attempt.retry attempt.messages error) }

def terminate (turn : Turn) : Terminal → ThreadEvent × TurnResult
  | .completed output =>
    let turn := { turn with status := .completed }
    (.turnCompleted turn, .completed output turn)
  | .failed error =>
    let turn := { turn with status := .failed }
    (.turnFailed turn error, .failed error turn)
  | .cancelled =>
    let turn := { turn with status := .cancelled }
    (.turnCancelled turn, .cancelled turn)

/-- The top of the step loop. -/
def driveStep (nextId : ℕ) (task : Task) : TaskStep :=
  if task.aborted then { next := .continue (task.goto (.terminating .cancelled)) }
  else if o.maxSteps ≤ task.state.stepIndex then
    { next := .continue (task.goto (.terminating (.failed
        ("Exceeded the maximum of " ++ toString o.maxSteps ++ " steps")))) }
  else
    match unansweredIntents nextId task.history with
    | [] => { next := .continue (task.goto .generating) }
    | intents =>
      { next := .continue (task.goto (.running .recovered (segmentIntents o intents)))
        drawn := intents.length }

def runningStep (task : Task) (after : AfterIntents) (segments : List Segment) : TaskStep :=
  match nextBatch o segments with
  | none => { next := .continue (task.goto (.checkpointing after)) }
  | some (batch, rest) =>
    if task.aborted then { next := .continue (task.goto (.terminating .cancelled)) }
    else
      { acts := batch.filterMap (dispatchOf? task.turnId)
        next := .continue (task.goto (.settling after (batch.map fun i => ⟨i, .executing⟩) rest)) }

/-- One intent of a batch goes on: `#dispatchIntent` behind its awaits. -/
def slotStep (nextId : ℕ) (task : Task) (slot : Slot) : TaskInput → Option (List Act × SlotState × ℕ)
  | .slot _ answer =>
    match slot.state, slot.intent.call.inputError with
    | .executing, none =>
      let payload := toolItemPayload slot.intent.call
      match answer with
      | .outcome (.approvalRequired approvalId title detail) =>
        some ([.append (.itemStarted ⟨nextId, task.turnId, .approval
          { title, detail := some detail, status := .pending, approvalId := some approvalId,
            callId := some slot.intent.call.callId, toolId := some slot.intent.call.toolId }⟩)],
          .suspending approvalId title, 1)
      | .outcome (.result result) =>
        some ([.append (completedToolItem task.turnId slot.intent.item payload result)],
          .answered (toolMessage payload result), 0)
      | .thrown message =>
        let result := errorResult (toolFailed message)
        some ([.append (completedToolItem task.turnId slot.intent.item payload result)],
          .answered (toolMessage payload result), 0)
    | _, _ => none
  | .slotRecorded _ =>
    match slot.state, slot.intent.call.inputError with
    | .executing, some inputError =>
      let payload := toolItemPayload slot.intent.call
      let result := errorResult inputError
      some ([.append (completedToolItem task.turnId slot.intent.item payload result)],
        .answered (toolMessage payload result), 0)
    | .suspending approvalId title, _ =>
      some ([.append (checkpointEvent o task)], .suspended approvalId title, 0)
    | _, _ => none
  | .slotRejected _ =>
    match slot.state with
    | .executing | .suspending .. => some ([], .rejected, 0)
    | _ => none
  | _ => none

def slotIndex? : TaskInput → Option ℕ
  | .slot index _ | .slotRecorded index | .slotRejected index => some index
  | _ => none

/-- The whole batch settled: results enter history in model order, then a suspension ends the
call. -/
def commitStep (task : Task) (after : AfterIntents) (slots : List Slot)
    (segments : List Segment) : TaskStep :=
  if slots.any Slot.rejected then { next := .settle (.thrown "Tool dispatch failed") }
  else
    match slots.findSome? suspension? with
    | some (approvalId, title) => { next := .settle (.suspended approvalId title task.state.turn) }
    | none =>
      { next := .continue ((task.push (slots.filterMap answeredMessage?)).goto
          (.running after segments)) }

def checkpointStep (task : Task) (after : AfterIntents) : TaskStep :=
  { acts := [.append (checkpointEvent o task)]
    next := .continue (match after with
      | .recovered => task.settledStep.goto .generating
      | .generated .endTurn output | .generated .decision output =>
        task.goto (.terminating (.completed output))
      | .generated _ _ => task.settledStep.goto .driving) }

/-- One await of a call ends, and the code runs on to the next one. -/
def taskStep (log : List ThreadEvent) (nextId : ℕ) (task : Task) (input : TaskInput) :
    Option TaskStep :=
  match task.pc, input with
  | .reading, .proceed =>
    let events := if o.carryThreadHistory = some false then [] else log
    let carried := messagesFromEvents events
    some { next := .continue { task with
      state := { task.state with
        history := carried
        compaction := loadCompaction o.sha256 events carried }
      carried
      pc := .recordingInput } }
  | .recordingInput, .proceed =>
    let item : Item := ⟨nextId, task.turnId, .message
      { role := .user, content := task.state.turn.input }⟩
    some { acts := [.append (.itemStarted item), .append (.itemCompleted item)]
           next := .continue ((task.push [.user task.state.turn.input]).goto .driving)
           drawn := 1 }
  | .deciding pending decision, .proceed =>
    let status := match decision with
      | .approved => .approved
      | .rejected => .rejected
    some { acts :=
             [.append (.itemCompleted ⟨pending.approvalItem.1, task.turnId,
               .approval { pending.approvalItem.2 with status }⟩),
              .dispatch task.turnId pending.toolItem.1 pending.call (some decision)]
           next := .continue (task.goto (.approved pending decision)) }
  | .approved pending _, .tool answer =>
    match answerResult? answer with
    | some result =>
      some { acts := [.append (completedToolItem task.turnId pending.toolItem.1
               pending.toolItem.2 result)]
             next := .continue ((task.push [toolMessage pending.toolItem.2 result]).goto
               .driving) }
    | none =>
      some { next := .settle (.thrown "ExecutionWorld requested approval after a decision") }
  | .driving, .proceed => some (driveStep o nextId task)
  | .running after segments, .proceed => some (runningStep o task after segments)
  | .settling after slots segments, .proceed =>
    if slots.all Slot.settled then some (commitStep task after slots segments) else none
  | .settling after slots segments, input =>
    match slotIndex? input with
    | none => none
    | some index =>
      match slots[index]? with
      | none => none
      | some slot =>
        match slotStep o nextId task slot input with
        | none => none
        | some (acts, state, drawn) =>
          some { acts, drawn
                 next := .continue (task.goto
                   (.settling after (slots.set index { slot with state }) segments)) }
  | .checkpointing after, .proceed => some (checkpointStep o task after)
  | .generating, .assembled retrieved planned system =>
    match compactionSpan o task.state (assemble o task.state retrieved planned system) with
    | none => some { next := .continue (startAttempts o task retrieved planned system) }
    | some covered =>
      some { acts := [.request task.turnId (summaryRequest (task.history.take covered))]
             next := .continue { task with
               state := { task.state with
                 compactionAttempts := task.state.compactionAttempts + 1 }
               pc := .summarizing retrieved planned system covered } }
  | .summarizing retrieved planned system covered, .summarized summary =>
    match summary with
    | none => some { next := .continue (startAttempts o task retrieved planned system) }
    | some summary =>
      let span := task.history.take covered
      let compaction := ⟨summary, covered, digest o.sha256 span⟩
      some { acts := [.append (.contextCompacted task.turnId summary covered
               (digest o.sha256 span) (estimateTokens span))]
             next := .continue (startAttempts o
               { task with state := { task.state with compaction := some compaction } }
               retrieved planned system) }
  | .attempting retry messages, .proceed =>
    if task.aborted then some { next := .continue (task.goto (.terminating .cancelled)) }
    else
      let attempt : Attempt := { retry, messages, item := nextId }
      some { acts := [.append (.itemStarted (assistantItem task.turnId attempt
               { role := .assistant, content := "" })), .request task.turnId messages]
             next := .continue (task.goto (.streaming attempt))
             drawn := 1 }
  | .attempting retry messages, .attemptThrown error =>
    some { next := .continue (attemptCaught o task retry messages error) }
  | .streaming attempt, .streamEvent event =>
    if task.aborted then
      some { acts := [itemFailedAct task attempt "cancelled"]
             next := .continue (task.goto (.terminating .cancelled)) }
    else some (streamStep nextId task attempt event)
  | .streaming attempt, .streamEnd =>
    some { acts := if attempt.buffered = "" then []
             else [.append (.itemDelta task.turnId attempt.item attempt.buffered)]
           next := .continue (task.goto (.awaitingResult { attempt with buffered := "" })) }
  | .awaitingResult attempt, .result stopReason => some (resultStep o task attempt stopReason)
  | .awaitingResult attempt, .resultThrown error => some (resultThrownStep o task attempt error)
  | .streaming attempt, .attemptThrown error | .awaitingResult attempt, .attemptThrown error =>
    some { next := .continue (attemptCaught o task attempt.retry attempt.messages error) }
  | .terminating terminal, .proceed =>
    let (event, result) := terminate task.state.turn terminal
    some { acts := [.append event], next := .settle result }
  | _, _ => none

end BeeAgent.Runtime
