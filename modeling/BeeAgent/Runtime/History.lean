import Mathlib.Algebra.GroupWithZero.Nat
import BeeAgent.Data.Value
import BeeAgent.Thread.Protocol

/-! The message history of a turn: its reconstruction from the thread's events, the digests taken
over it, and the views of it that the model sees. -/
namespace BeeAgent.Runtime
open BeeAgent.Data BeeAgent.Thread

inductive LlmMessage where
  | system (content : String)
  | user (content : String)
  | assistant (content : String) (toolCalls : Option (List ToolCall) := none)
  | tool (callId toolId content : String) (isError : Option Bool := none)

namespace LlmMessage

def content : LlmMessage → String
  | system content | user content | assistant content _ | tool _ _ content _ => content

/-- The calls that a message asks for. -/
def calls : LlmMessage → List ToolCall
  | assistant _ toolCalls => toolCalls.getD []
  | _ => []

def answeredCallId? : LlmMessage → Option String
  | tool callId .. => some callId
  | _ => none

def isTool (message : LlmMessage) : Bool := message.answeredCallId?.isSome

end LlmMessage

def toolCallValue (call : ToolCall) : Value :=
  .object ([("callId", .string call.callId), ("toolId", .string call.toolId),
    ("input", call.input)] ++ optionalField "inputError" (call.inputError.map .string))

def LlmMessage.toValue : LlmMessage → Value
  | .system content => .object [("role", .string "system"), ("content", .string content)]
  | .user content => .object [("role", .string "user"), ("content", .string content)]
  | .assistant content toolCalls =>
    .object ([("role", .string "assistant"), ("content", .string content)] ++
      optionalField "toolCalls" (toolCalls.map fun calls => .array (calls.map toolCallValue)))
  | .tool callId toolId content isError =>
    .object ([("role", .string "tool"), ("callId", .string callId), ("toolId", .string toolId),
      ("content", .string content)] ++ optionalField "isError" (isError.map .boolean))

/-- The message of a completed item. -/
def messageOf? : ItemPayload → Option LlmMessage
  | .message payload =>
    match payload.role with
    | .user => some (.user payload.content)
    | .system => some (.system payload.content)
    | .assistant => some (.assistant payload.content payload.toolCalls)
    | .tool => none
  | .toolCall payload =>
    some (.tool payload.callId payload.toolId
      (payload.content.getD (match payload.output with
        | some (.string output) => output
        | some output => stringify output
        | none => stringify .undefined)) payload.isError)
  | .approval _ => none

def eventMessage? (event : ThreadEvent) : Option LlmMessage :=
  event.completedItem?.bind fun item => messageOf? item.payload

/-- Completed items, in event order, in their message form. -/
def messagesFromEvents (events : List ThreadEvent) : List LlmMessage :=
  events.filterMap eventMessage?

def digest (sha256 : String → String) (history : List LlmMessage) : String :=
  "sha256:" ++ sha256 (canonicalJson (.array (history.map LlmMessage.toValue)))

structure CompactionView where
  summary : String
  coveredMessageCount : ℕ
  coveredDigest : String
  deriving DecidableEq

/-- A compaction whose covered digest matches the history prefix takes over. -/
def newerView (sha256 : String → String) (history : List LlmMessage)
    (view : Option CompactionView) : ThreadEvent → Option CompactionView
  | .contextCompacted _ summary coveredMessageCount coveredDigest _ =>
    if coveredMessageCount ≤ history.length ∧
        digest sha256 (history.take coveredMessageCount) = coveredDigest then
      some ⟨summary, coveredMessageCount, coveredDigest⟩
    else view
  | _ => view

/-- The newest compaction whose covered digest still matches the history prefix. -/
def loadCompaction (sha256 : String → String) (events : List ThreadEvent)
    (history : List LlmMessage) : Option CompactionView :=
  events.foldl (newerView sha256 history) none

def summaryMessage (compaction : CompactionView) : LlmMessage :=
  .user ("Summary of the earlier conversation (" ++ toString compaction.coveredMessageCount ++
    " messages):\n\n" ++ compaction.summary)

/-- The model-visible history: the covered prefix folded into the summary. -/
def compactView (sha256 : String → String) (history : List LlmMessage) :
    Option CompactionView → List LlmMessage
  | none => history
  | some compaction =>
    if digest sha256 (history.take compaction.coveredMessageCount) ≠ compaction.coveredDigest then
      history
    else if history.length ≤ compaction.coveredMessageCount then [summaryMessage compaction]
    else summaryMessage compaction :: history.drop compaction.coveredMessageCount

structure ToolResultCompactionPolicy where
  toolResultBudgetTokens : ℕ := 4096
  keepRecentToolResults : ℕ := 4

structure ContextElision where
  messageIndex : ℕ
  toolId : String
  originalTokens : ℕ
  digest : String
  deriving DecidableEq

def estimateMessageTokens (content : String) : ℕ := ((utf16 content).length + 3) / 4

def elisionPlaceholder (elision : ContextElision) : String :=
  let shortDigest := String.ofList ((elision.digest.toList.drop 7).take 8)
  "[elided by context policy: ~" ++ toString elision.originalTokens ++ "-token tool result for '" ++
    elision.toolId ++ "' (" ++ shortDigest ++
    "); the full output is retained in this thread's durable log]"

/-- `slice(-n)`, which is the whole array for `n = 0`. -/
def lastN {α : Type} (n : ℕ) (xs : List α) : List α :=
  if n = 0 then xs else xs.drop (xs.length - n)

def toolIndexes (history : List LlmMessage) : List ℕ :=
  history.zipIdx.filterMap fun m => if m.1.isTool then some m.2 else none

/-- The indexes to elide, oldest first, while the total is over the budget. -/
def elideIndexes (policy : ToolResultCompactionPolicy) (history : List LlmMessage)
    (recent : List ℕ) : ℕ → List ℕ → List ℕ
  | _, [] => []
  | total, index :: rest =>
    if total ≤ policy.toolResultBudgetTokens then []
    else
      match history[index]? with
      | some (.tool _ _ content isError) =>
        if index ∈ recent ∨ isError = some true then
          elideIndexes policy history recent total rest
        else
          index :: elideIndexes policy history recent (total - estimateMessageTokens content) rest
      | _ => elideIndexes policy history recent total rest

def elisionOf (sha256 : String → String) (index : ℕ) (toolId content : String) : ContextElision :=
  { messageIndex := index, toolId, originalTokens := estimateMessageTokens content,
    digest := "sha256:" ++ sha256 (canonicalJson (.string content)) }

/-- A tool result that is elided keeps everything but its content. -/
def elideMessage (sha256 : String → String) (elide : List ℕ) (m : LlmMessage × ℕ) : LlmMessage :=
  match m.1 with
  | .tool callId toolId content isError =>
    if m.2 ∈ elide then
      .tool callId toolId (elisionPlaceholder (elisionOf sha256 m.2 toolId content)) isError
    else m.1
  | _ => m.1

def elisionOf? (sha256 : String → String) (elide : List ℕ) (m : LlmMessage × ℕ) :
    Option ContextElision :=
  match m.1 with
  | .tool _ toolId content _ =>
    if m.2 ∈ elide then some (elisionOf sha256 m.2 toolId content) else none
  | _ => none

structure ProjectedHistory where
  messages : List LlmMessage
  elisions : List ContextElision

/-- Projects history under the tool-result budget; errors and the recent results are protected. -/
def projectHistory (sha256 : String → String) (history : List LlmMessage)
    (policy : ToolResultCompactionPolicy) : ProjectedHistory :=
  let indexes := toolIndexes history
  let tokens := (indexes.map fun index =>
    estimateMessageTokens ((history[index]?.map LlmMessage.content).getD "")).sum
  let elide := elideIndexes policy history (lastN policy.keepRecentToolResults indexes) tokens indexes
  { messages := history.zipIdx.map (elideMessage sha256 elide)
    elisions := history.zipIdx.filterMap (elisionOf? sha256 elide) }

def estimateTokens (messages : List LlmMessage) : ℕ :=
  (messages.map fun message => estimateMessageTokens (canonicalJson message.toValue)).sum

/-- The calls of the last assistant message with calls that no tool message of the whole history
answers. -/
def unansweredCalls (history : List LlmMessage) : List ToolCall :=
  match history.reverse.find? fun message => !message.calls.isEmpty with
  | none => []
  | some lastAssistant =>
    let answered := history.filterMap LlmMessage.answeredCallId?
    lastAssistant.calls.filter fun call => call.callId ∉ answered

/-- The sequence of the `turn.started` event. -/
def startedSequence? (events : List ThreadEvent) (turnId : TurnId) : Option ℕ :=
  (events.findIdx? (ThreadEvent.isTurnStarted turnId)).map (· + 1)

/-- Everything durably completed on the thread before the turn started. -/
def carriedMessages (events : List ThreadEvent) (turnId : TurnId) : List LlmMessage :=
  match startedSequence? events turnId with
  | none => []
  | some sequence => messagesFromEvents (events.take (sequence - 1))

structure Checkpoint where
  sequence : ℕ
  stepIndex : ℕ
  stateDigest : String
  deriving DecidableEq

def checkpointOf? (turnId : TurnId) (event : ThreadEvent × ℕ) : Option Checkpoint :=
  match event.1 with
  | .agentCheckpoint id stepIndex stateDigest =>
    if id = turnId then some ⟨event.2, stepIndex, stateDigest⟩ else none
  | _ => none

def lastCheckpoint? (events : List ThreadEvent) (turnId : TurnId) : Option Checkpoint :=
  ((events.zipIdx 1).filterMap (checkpointOf? turnId)).getLast?

def turnEvents (events : List ThreadEvent) (turnId : TurnId) : List ThreadEvent :=
  events.filter fun event => event.turnId == turnId

/-- The turn's messages up to the commit sequence. -/
def rebuildHistory (events : List ThreadEvent) (turnId : TurnId) (commitSequence : ℕ) :
    List LlmMessage :=
  messagesFromEvents (turnEvents (events.take commitSequence) turnId)

def startedTurn? (turnId : TurnId) : ThreadEvent → Option Turn
  | .turnStarted turn => if turn.id = turnId then some turn else none
  | _ => none

/-- A terminal state if one exists, otherwise the started turn. -/
def findTurn (events : List ThreadEvent) (turnId : TurnId) : Option Turn :=
  let own := turnEvents events turnId
  (own.filterMap ThreadEvent.terminalTurn?).getLast? <|>
    (own.filterMap (startedTurn? turnId)).getLast?

structure PendingApproval where
  approvalId : String
  title : String
  call : ToolCall
  toolItem : ItemId × ToolCallItemPayload
  approvalItem : ItemId × ApprovalItemPayload

def completedIds (events : List ThreadEvent) : List ItemId :=
  events.filterMap fun event => event.completedItem?.map Item.id

/-- A started tool call that no event completed. -/
def activeToolItem? (completed : List ItemId) : ThreadEvent → Option (ItemId × ToolCallItemPayload)
  | .itemStarted ⟨id, _, .toolCall payload⟩ => if id ∈ completed then none else some (id, payload)
  | _ => none

def pendingOf? (uuid : ℕ → String) (completed : List ItemId)
    (activeToolItems : List (ItemId × ToolCallItemPayload)) : ThreadEvent → Option PendingApproval
  | .itemStarted ⟨id, _, .approval payload⟩ =>
    if id ∈ completed ∨ payload.status ≠ .pending then none
    else
      payload.callId.bind fun callId =>
        -- the map keeps the newest item of a call id
        (activeToolItems.reverse.find? fun item => item.2.callId == callId).map fun toolItem =>
          { approvalId := payload.approvalId.getD (uuid id)
            title := payload.title
            call := { callId := toolItem.2.callId, toolId := toolItem.2.toolId,
                      input := toolItem.2.input }
            toolItem
            approvalItem := (id, payload) }
  | _ => none

def findPendingApproval (uuid : ℕ → String) (events : List ThreadEvent) (turnId : TurnId) :
    Option PendingApproval :=
  let own := turnEvents events turnId
  let completed := completedIds own
  own.findSome? (pendingOf? uuid completed (own.filterMap (activeToolItem? completed)))

end BeeAgent.Runtime
