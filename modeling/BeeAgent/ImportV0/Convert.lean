import BeeAgent.Data.OrderedMap
import BeeAgent.Data.Access
import BeeAgent.Runtime.History
import Mathlib.Data.List.Sort

/-! The import of a v0 event store: one pass over its rows drafts a thread for each task, and each
draft that the thread protocol accepts is appended as a stream of its own. -/
namespace BeeAgent.ImportV0
open Data Thread

/-! ### The v0 table -/

inductive V0Type where
  | taskCreated | agentMessage | toolCall | toolResult | approvalRequested | approvalDecided
  | taskCompleted | taskFailed | taskCancelled | other
  deriving DecidableEq

/-- A row of `agent_events`, its payload parsed; `createdAt` is a time, or the column is empty. -/
structure V0Row where
  taskId : String
  sequence : ℕ
  type : V0Type
  payload : Value
  createdAt : Option String

/-- `row.payload.key` -/
def V0Row.prop (row : V0Row) (key : String) : Value := (row.payload.property? key).getD .undefined

/-! ### Drafts -/

inductive DraftType where
  | message | toolCall | approval
  deriving DecidableEq

abbrev Fields := List (String × Value)

def property (key : String) (fields : Fields) : Value :=
  ((fields.find? fun f => f.1 = key).map Prod.snd).getD .undefined

/-- An item; its id numbers the row that it is drafted from. -/
structure ItemDraft where
  id : ItemId
  type : DraftType
  payload : Fields

/-- A chronicle event of the import. The one turn of a thread has the id `0`. -/
inductive NewChronicleEvent where
  | threadCreated (createdAt : Option String)
  | turnStarted (startedAt : Option String)
  | itemStarted (item : ItemDraft) (stamp : Option String)
  | itemCompleted (item : ItemDraft) (stamp : Option String)
  | turnCompleted (startedAt : Option String)
  | turnFailed (startedAt : Option String) (error : String)
  | turnCancelled (startedAt : Option String)

structure TaskDraft where
  createdAt : Option String
  status : TurnStatus := .active
  error : Option String := none
  openItems : List ItemDraft := []
  events : List NewChronicleEvent
  /-- How many rows of the task have been read. -/
  rows : ℕ := 0

def textOr (fallback : String) : Value → String
  | .string s => s
  | _ => fallback

/-- The item that a row begins, the `i`-th of its task. A call or an approval without an id draws
one. -/
def draftItem (uuid : ℕ → String) (i : ℕ) (row : V0Row) : Option ItemDraft :=
  match row.type with
  | .taskCreated =>
    let spec := row.prop "spec"
    some ⟨i, .message, [("role", .string "user"),
      ("content", ((spec.property? "input").getD .undefined).orElse (.string ""))]⟩
  | .agentMessage =>
    let role := textOr "assistant" (row.prop "role")
    if role = "user" ∨ role = "system" then none
    else some ⟨i, .message, [("role", .string "assistant"),
      ("content", .string (textOr "" (row.prop "content")))]⟩
  | .toolCall =>
    some ⟨i, .toolCall, [("toolId", .string (textOr "unknown" (row.prop "toolId"))),
      ("callId", .string (textOr (uuid i) (row.prop "id"))),
      ("input", (row.prop "arguments").orElse (.object []))]⟩
  | .approvalRequested =>
    some ⟨i, .approval, [("title", .string (textOr "v0 approval" (row.prop "message"))),
      ("detail", .string ""), ("status", .string "pending"),
      ("approvalId", .string (textOr (uuid i) (row.prop "approvalId")))]⟩
  | _ => none

def callIdOf (item : ItemDraft) : Option String :=
  match property "callId" item.payload with
  | .string callId => some callId
  | _ => none

/-- Whether a result is one of the call with the given id; a result without an id is one of any. -/
def names (result : V0Row) (callId : Option String) : Bool :=
  match result.prop "callId" with
  | .undefined => true
  | .string named => callId = some named
  | _ => false

def answers (result : V0Row) (item : ItemDraft) : Bool :=
  item.type = .toolCall && names result (callIdOf item)

def withResult (call : ItemDraft) (result : V0Row) : ItemDraft :=
  let output := (result.prop "output").orElse (.object [])
  let error := result.prop "error"
  { call with
    payload := call.payload ++ [("output", output),
      ("content", match error, result.prop "output" with
        | .undefined, .string output => .string output
        | .undefined, _ => .string (stringify output)
        | error, _ => error)] ++
      match error with
      | .undefined => []
      | _ => [("isError", .boolean true)] }

def isTrueValue : Value → Bool
  | .boolean b => b
  | _ => false

def decided (item : ItemDraft) (row : V0Row) : ItemDraft :=
  { item with
    payload := item.payload.map fun f =>
      if f.1 = "status" then
        ("status", .string (if isTrueValue (row.prop "approved") then "approved" else "rejected"))
      else f }

/-! ### Converting -/

def TaskDraft.emitMessage (task : TaskDraft) (item : ItemDraft) (stamp : Option String) :
    TaskDraft :=
  { task with events := task.events ++ [.itemStarted item stamp, .itemCompleted item stamp] }

def TaskDraft.begin (task : TaskDraft) (item : ItemDraft) (stamp : Option String) : TaskDraft :=
  { task with
    openItems := task.openItems ++ [item]
    events := task.events ++ [.itemStarted item stamp] }

/-- The first open item that is meant comes out of the list and is completed. -/
def TaskDraft.finish (task : TaskDraft) (meant : ItemDraft → Bool)
    (complete : ItemDraft → ItemDraft) (stamp : Option String) : TaskDraft :=
  match task.openItems.find? meant with
  | none => task
  | some item =>
    { task with
      openItems := task.openItems.eraseP meant
      events := task.events ++ [.itemCompleted (complete item) stamp] }

def errorText (row : V0Row) : String := textOr "v0 task failed" (row.prop "error")

/-- What a row adds to its task. -/
def TaskDraft.read (uuid : ℕ → String) (task : TaskDraft) (row : V0Row) : TaskDraft :=
  let stamp := row.createdAt.or task.createdAt
  match row.type, draftItem uuid task.rows row with
  | .taskCreated, some item | .agentMessage, some item => task.emitMessage item stamp
  | .toolCall, some item | .approvalRequested, some item => task.begin item stamp
  | .toolResult, _ => task.finish (answers row) (withResult · row) stamp
  | .approvalDecided, _ => task.finish (fun item => item.type = .approval) (decided · row) stamp
  | .taskCompleted, _ => { task with status := .completed }
  | .taskFailed, _ => { task with status := .failed, error := some (errorText row) }
  | .taskCancelled, _ => { task with status := .cancelled }
  | _, _ => task

def TaskDraft.step (uuid : ℕ → String) (task : TaskDraft) (row : V0Row) : TaskDraft :=
  { task.read uuid row with rows := task.rows + 1 }

def newTask (row : V0Row) : TaskDraft where
  createdAt := row.createdAt
  events := [.threadCreated row.createdAt, .turnStarted row.createdAt]

/-- The terminal event of the turn, unless it is active. -/
def TaskDraft.terminal (task : TaskDraft) : List NewChronicleEvent :=
  match task.status with
  | .active => []
  | .completed => [.turnCompleted task.createdAt]
  | .failed => [.turnFailed task.createdAt (task.error.getD "v0 task failed")]
  | .cancelled => [.turnCancelled task.createdAt]

def TaskDraft.close (task : TaskDraft) : TaskDraft :=
  { task with events := task.events ++ task.terminal }

/-- `localeCompare`: a total preorder on strings. -/
structure Locale where
  le : String → String → Bool
  total : ∀ a b, le a b ∨ le b a
  trans : ∀ a b c, le a b → le b c → le a c

/-- The order of `convert`: by task, then by sequence. -/
def rowLe (locale : Locale) (a b : V0Row) : Prop :=
  locale.le a.taskId b.taskId ∧ (locale.le b.taskId a.taskId → a.sequence ≤ b.sequence)

instance (locale : Locale) : DecidableRel (rowLe locale) := fun _ _ =>
  inferInstanceAs (Decidable (_ ∧ _))

/-- Text of the draws of `randomUUID`, for each task and row. -/
abbrev Draws := String → ℕ → String

def addRow (uuid : Draws) (tasks : OrderedMap String TaskDraft) (row : V0Row) :
    OrderedMap String TaskDraft :=
  tasks.set row.taskId (((tasks.get row.taskId).getD (newTask row)).step (uuid row.taskId) row)

def convert (locale : Locale) (uuid : Draws) (rows : List V0Row) : List (String × TaskDraft) :=
  ((rows.insertionSort (rowLe locale)).foldl (addRow uuid) .empty).entries.map fun e =>
    (e.1, e.2.close)

/-! ### The thread protocol -/

def nonEmpty : Value → Option String
  | .string s => if s = "" then none else some s
  | _ => none

def text? : Value → Option String
  | .string s => some s
  | _ => none

def flag? : Value → Option Bool
  | .boolean b => some b
  | _ => none

/-- A field that may be left out. -/
def optionally {α : Type} (read : Value → Option α) : Value → Option (Option α)
  | .undefined => some none
  | v => (read v).map some

def roleOf : String → Option MessageRole
  | "user" => some .user
  | "assistant" => some .assistant
  | "system" => some .system
  | "tool" => some .tool
  | _ => none

def approvalStatusOf : String → Option ApprovalStatus
  | "pending" => some .pending
  | "approved" => some .approved
  | "rejected" => some .rejected
  | _ => none

def parseToolCall : Value → Option ToolCall
  | .object fields => do
    return { callId := ← nonEmpty (property "callId" fields)
             toolId := ← nonEmpty (property "toolId" fields)
             input := property "input" fields
             inputError := ← optionally text? (property "inputError" fields) }
  | _ => none

def parseToolCalls : Value → Option (List ToolCall)
  | .array items => items.mapM parseToolCall
  | _ => none

/-- The payload schemas of the item types that the import drafts. -/
def parsePayload (type : DraftType) (fields : Fields) : Option ItemPayload :=
  match type with
  | .message => do
    return .message {
      role := ← (text? (property "role" fields)).bind roleOf
      content := ← text? (property "content" fields)
      toolCalls := ← optionally parseToolCalls (property "toolCalls" fields) }
  | .toolCall => do
    return .toolCall {
      toolId := ← nonEmpty (property "toolId" fields)
      callId := ← nonEmpty (property "callId" fields)
      input := property "input" fields
      inputError := ← optionally text? (property "inputError" fields)
      output := ← optionally some (property "output" fields)
      content := ← optionally text? (property "content" fields)
      isError := ← optionally flag? (property "isError" fields) }
  | .approval => do
    return .approval {
      title := ← nonEmpty (property "title" fields)
      detail := ← optionally text? (property "detail" fields)
      status := ← (text? (property "status" fields)).bind approvalStatusOf
      approvalId := ← optionally nonEmpty (property "approvalId" fields)
      callId := ← optionally nonEmpty (property "callId" fields)
      toolId := ← optionally nonEmpty (property "toolId" fields) }

def parseItem (item : ItemDraft) : Option Item :=
  (parsePayload item.type item.payload).map fun payload => ⟨item.id, 0, payload⟩

def turnOf (status : TurnStatus) : Turn := ⟨0, status, "", none⟩

/-- The event of the protocol; `thread.created` is only checked. Each carries a time. -/
def parseEvent : NewChronicleEvent → Option (List ThreadEvent)
  | .threadCreated createdAt => createdAt.map fun _ => []
  | .turnStarted startedAt => startedAt.map fun _ => [.turnStarted (turnOf .active)]
  | .itemStarted item stamp =>
    stamp.bind fun _ => (parseItem item).map fun item => [.itemStarted item]
  | .itemCompleted item stamp =>
    stamp.bind fun _ => (parseItem item).map fun item => [.itemCompleted item]
  | .turnCompleted startedAt => startedAt.map fun _ => [.turnCompleted (turnOf .completed)]
  | .turnFailed startedAt error =>
    startedAt.bind fun _ => if error = "" then none else some [.turnFailed (turnOf .failed) error]
  | .turnCancelled startedAt => startedAt.map fun _ => [.turnCancelled (turnOf .cancelled)]

def parseStream (events : List NewChronicleEvent) : Option (List ThreadEvent) :=
  (events.mapM parseEvent).map List.flatten

/-! ### The import -/

abbrev Store := OrderedMap String (List NewChronicleEvent)

structure ImportSummary where
  tasksImported : ℕ := 0
  tasksSkipped : ℕ := 0
  eventsRead : ℕ
  eventsImported : ℕ := 0

def threadStreamId (threadId : String) : String := "thread:" ++ threadId

def getLatestSequence (store : Store) (streamId : String) : ℕ :=
  ((store.get streamId).getD []).length

/-- The tasks in turn, up to one that the chronicle refuses. -/
def importTasks (store : Store) (summary : ImportSummary) :
    List (String × TaskDraft) → Store × Except String ImportSummary
  | [] => (store, .ok summary)
  | (threadId, task) :: tasks =>
    if 0 < getLatestSequence store (threadStreamId threadId) then
      importTasks store { summary with tasksSkipped := summary.tasksSkipped + 1 } tasks
    else
      match parseStream task.events with
      | none => (store, .error "invalid payload")
      | some _ =>
        importTasks (store.set (threadStreamId threadId) task.events)
          { summary with
            tasksImported := summary.tasksImported + 1
            eventsImported := summary.eventsImported + task.events.length } tasks

def importV0Database (locale : Locale) (uuid : Draws) (rows : List V0Row) (store : Store) :
    Store × Except String ImportSummary :=
  importTasks store { eventsRead := rows.length } (convert locale uuid rows)

end BeeAgent.ImportV0
