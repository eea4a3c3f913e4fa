import BeeAgent.Data.Parse
import BeeAgent.Runtime.Trajectory
import BeeAgent.Thread.Protocol

/-! The transcript of a thread: the entries that the web client derives from the events it has. -/
namespace BeeAgent.Client
open Data Thread
open Runtime.Trajectory (trim)

inductive ChatEntry where
  | user (content : String) (at_ : Option String)
  | assistant (content : String) (at_ : Option String) (streaming : Bool)
  | tool (toolId : String) (turnId : TurnId) (preview : Option String) (result : String)
      (isError : Option Bool)
  | approval (title : String) (status : ApprovalStatus)
  deriving DecidableEq

/-! ### Tool results -/

def previewKeys : List String :=
  ["title", "url", "status", "statement", "hypothesis", "query", "id"]

mutual
/-- The text that says the most of a value. -/
def pick : Value → Option String
  | .string s => some s
  | .array items => pickItems items
  | .object fields =>
    let found := pickFields fields
    (previewKeys.findSome? fun key => (found.find? (·.1 = key)).bind Prod.snd) <|>
      found.findSome? Prod.snd
  | _ => none

def pickItems : List Value → Option String
  | [] => none
  | item :: items =>
    match pick item with
    | some found => if found ≠ "" then some found else pickItems items
    | none => pickItems items

def pickFields : List (String × Value) → List (String × Option String)
  | [] => []
  | (key, v) :: fields => (key, pick v) :: pickFields fields
end

def firstLine (trimmed : String) : Option String :=
  let lines := (trimmed.toList.splitOnP (· = '\n')).map fun line => trim (String.ofList line)
  (lines.find? (· ≠ "")).map (sliceText · 110)

def summarizeToolResult (content : String) : Option String :=
  let trimmed := trim content
  if trimmed = "" then none
  else if trimmed.toList.head? = some '{' || trimmed.toList.head? = some '[' then
    match (parseJson trimmed).bind pick with
    | some found => some (sliceText found 110)
    | none => firstLine trimmed
  else firstLine trimmed

/-- The content of a result, or the text of its output. -/
def resultContent (payload : ToolCallItemPayload) : String :=
  match payload.content, payload.output with
  | some content, _ => content
  | none, some (.string s) => s
  | none, none | none, some .undefined => ""
  | none, some output => stringify output

/-! ### The reduction -/

section Reduction
variable (createdAt : ItemId → Option String)

/-- What a completed item is shown as, if it is shown. -/
def completedEntries (item : Item) : List ChatEntry :=
  match item.payload with
  | .message payload =>
    match payload.role with
    | .user => [.user payload.content (createdAt item.id)]
    | .assistant =>
      if trim payload.content ≠ "" then [.assistant payload.content (createdAt item.id) false]
      else []
    | _ => []
  | .toolCall payload =>
    let content := resultContent payload
    if content ≠ "" then
      [.tool payload.toolId item.turnId (summarizeToolResult content)
        (if 4000 < (utf16 content).length then sliceText content 4000 ++ "…" else content)
        payload.isError]
    else []
  | .approval payload => [.approval payload.title payload.status]

structure Reduction where
  entries : List ChatEntry := []
  assistant : String := ""
  assistantOpen : Bool := false

def isMessageOf (role : MessageRole) (item : Item) : Bool :=
  match item.payload with
  | .message payload => payload.role = role
  | _ => false

namespace Reduction
variable (r : Reduction)

def flushAssistant : Reduction where
  entries := if r.assistantOpen && r.assistant ≠ "" then
    r.entries ++ [.assistant r.assistant none false] else r.entries

def push (entries : List ChatEntry) : Reduction := { r with entries := r.entries ++ entries }

def step : ThreadEvent → Reduction
  | .itemStarted item =>
    if isMessageOf .assistant item then { r.flushAssistant with assistantOpen := true } else r
  | .itemDelta _ _ delta => { r with assistant := r.assistant ++ delta }
  | .itemCompleted item =>
    if isMessageOf .user item then r.flushAssistant.push (completedEntries createdAt item)
    else if isMessageOf .assistant item then
      { r with assistantOpen := false, assistant := "" }.push (completedEntries createdAt item)
    else r.push (completedEntries createdAt item)
  | _ => r

/-- A message in flight is shown as it streams. -/
def shown : List ChatEntry :=
  if r.assistantOpen && r.assistant ≠ "" then r.entries ++ [.assistant r.assistant none true]
  else r.entries

end Reduction

def deriveEntries (events : List ThreadEvent) : List ChatEntry :=
  (events.foldl (Reduction.step createdAt) {}).shown

/-! ### What a transcript is to show -/

def streamStep (streaming : Option (ItemId × String)) : ThreadEvent → Option (ItemId × String)
  | .itemStarted item => if isMessageOf .assistant item then some (item.id, "") else streaming
  | .itemDelta _ id delta =>
    streaming.map fun open_ => if open_.1 = id then (open_.1, open_.2 ++ delta) else open_
  | .itemCompleted item => streaming.filter (·.1 ≠ item.id)
  | .itemFailed _ id _ => streaming.filter (·.1 ≠ id)
  | _ => streaming

/-- The assistant item that was started last and the text it has received, while it has neither
completed nor failed. -/
def streaming (events : List ThreadEvent) : Option (ItemId × String) := events.foldl streamStep none

def streamingEntries : Option (ItemId × String) → List ChatEntry
  | some (_, text) => if text ≠ "" then [.assistant text none true] else []
  | none => []

/-- Each completed item in event order, then the text that streams. -/
def transcript (events : List ThreadEvent) : List ChatEntry :=
  (events.filterMap ThreadEvent.completedItem?).flatMap (completedEntries createdAt) ++
    streamingEntries (streaming events)

end Reduction

end BeeAgent.Client
