import BeeAgent.Data.Value

/-! The thread protocol: turns, items and the events of one thread's stream. Turn and item ids
number the draws of `randomUUID`; the sequence of an event is its position in the stream. -/
namespace BeeAgent.Thread
open BeeAgent.Data

abbrev TurnId := ℕ

abbrev ItemId := ℕ

inductive TurnStatus where
  | active | completed | failed | cancelled
  deriving DecidableEq, Repr

def TurnStatus.text : TurnStatus → String
  | .active => "active"
  | .completed => "completed"
  | .failed => "failed"
  | .cancelled => "cancelled"

structure Turn where
  id : TurnId
  status : TurnStatus
  input : String
  structureVersion : Option String := none
  deriving DecidableEq, Repr

def newTurn (id : TurnId) (input : String) (structureVersion : Option String) : Turn :=
  { id, status := .active, input, structureVersion }

/-- A call as the model emits it; `inputError` marks malformed arguments. -/
structure ToolCall where
  callId : String
  toolId : String
  input : Value
  inputError : Option String := none

inductive MessageRole where
  | user | assistant | system | tool
  deriving DecidableEq

structure MessageItemPayload where
  role : MessageRole
  content : String
  toolCalls : Option (List ToolCall) := none

structure ToolCallItemPayload where
  toolId : String
  callId : String
  input : Value
  inputError : Option String := none
  output : Option Value := none
  content : Option String := none
  isError : Option Bool := none

inductive ApprovalStatus where
  | pending | approved | rejected
  deriving DecidableEq

structure ApprovalItemPayload where
  title : String
  detail : Option String := none
  status : ApprovalStatus
  approvalId : Option String := none
  callId : Option String := none
  toolId : Option String := none

inductive ItemPayload where
  | message (payload : MessageItemPayload)
  | toolCall (payload : ToolCallItemPayload)
  | approval (payload : ApprovalItemPayload)

structure Item where
  id : ItemId
  turnId : TurnId
  payload : ItemPayload

inductive ThreadEvent where
  | turnStarted (turn : Turn)
  | turnCompleted (turn : Turn)
  | turnFailed (turn : Turn) (error : String)
  | turnCancelled (turn : Turn)
  | itemStarted (item : Item)
  | itemDelta (turnId : TurnId) (itemId : ItemId) (delta : String)
  | itemCompleted (item : Item)
  | itemFailed (turnId : TurnId) (itemId : ItemId) (error : String)
  | agentCheckpoint (turnId : TurnId) (stepIndex : ℕ) (stateDigest : String)
  | agentRecoveryFailed (turnId : TurnId) (checkpointSequence : ℕ)
      (expectedDigest actualDigest : String)
  | contextCompacted (turnId : TurnId) (summary : String) (coveredMessageCount : ℕ)
      (coveredDigest : String) (coveredTokens : ℕ)

namespace ThreadEvent

def turnId : ThreadEvent → TurnId
  | turnStarted turn | turnCompleted turn | turnFailed turn _ | turnCancelled turn => turn.id
  | itemStarted item | itemCompleted item => item.turnId
  | itemDelta turnId .. | itemFailed turnId .. | agentCheckpoint turnId ..
  | agentRecoveryFailed turnId .. | contextCompacted turnId .. => turnId

def isTurnStarted (turnId : TurnId) : ThreadEvent → Bool
  | turnStarted turn => turn.id == turnId
  | _ => false

/-- The turn of a terminal event. -/
def terminalTurn? : ThreadEvent → Option Turn
  | turnCompleted turn | turnFailed turn _ | turnCancelled turn => some turn
  | _ => none

def completedItem? : ThreadEvent → Option Item
  | itemCompleted item => some item
  | _ => none

end ThreadEvent

end BeeAgent.Thread
