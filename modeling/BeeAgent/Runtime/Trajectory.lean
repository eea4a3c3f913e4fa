import BeeAgent.Chronicle.Stores
import BeeAgent.Data.Reading
import BeeAgent.Data.Units
import BeeAgent.Learning.SkillTemplate
import BeeAgent.Memory.Embedded

/-! The global timeline: the recent events of every Chronicle stream, classified by loop and by
category, newest first. -/
namespace BeeAgent.Runtime.Trajectory
open Data Chronicle.Stores
open Data.Value (chainedLength itemsOf)
open Learning (entriesOf)
open BeeAgent.Memory (collapseSpaces isWhitespace sortBy)

inductive TrajectoryLoop where
  | fast | slow
  deriving DecidableEq, Repr

inductive TrajectoryCategory where
  | input | llm | tool | memory | reasoning | proposal | system
  deriving DecidableEq, Repr

structure TrajectoryEntry where
  eventId : String
  streamId : String
  sequence : ℕ
  eventTime : String
  eventType : String
  loop : TrajectoryLoop
  category : TrajectoryCategory
  summary : Value
  threadId : Option String
  turnId : Option String
  detail : Value

structure GlobalTrajectoryQuery where
  loop : Option TrajectoryLoop := none
  category : Option TrajectoryCategory := none
  streamId : Option String := none
  limit : Option ℤ := none

structure Counts where
  fast : ℕ := 0
  slow : ℕ := 0
  byCategory : TrajectoryCategory → ℕ := fun _ => 0

structure GlobalTrajectory where
  entries : List TrajectoryEntry
  counts : Counts
  scannedStreams : ℕ

/-- What the timeline reads a store by. -/
structure ChronicleReads where
  listStreams : List String
  getLatestSequence : String → ℕ
  readStream : String → ℤ → Except StoreError (List StoredEvent)

inductive TimelineError where
  | store (e : StoreError)
  | payload (e : TypeError)
  deriving DecidableEq, Repr

/-- The summary is a text, or what an item has in the place of its type. -/
structure EntryDraft where
  event : StoredEvent
  loop : TrajectoryLoop
  category : TrajectoryCategory
  summary : Value

/-! ### Texts -/

def startsWith (text beginning : String) : Bool := beginning.toList.isPrefixOf text.toList

def trim (text : String) : String :=
  String.ofList ((text.toList.dropWhile isWhitespace).rdropWhile isWhitespace)

def clip (text : String) (max : ℕ) : String :=
  let flat := trim (String.ofList (collapseSpaces text.toList))
  if (utf16 flat).length ≤ max then flat else sliceText flat max ++ "…"

/-- `replace('structure.', '')` -/
def withoutFirst (piece : List Char) : List Char → List Char
  | [] => []
  | c :: cs =>
    if piece <+: c :: cs then (c :: cs).drop piece.length else c :: withoutFirst piece cs

mutual
/-- The value cut down, and what is left of the budget. -/
def trimDetail (budget : ℤ) : Value → Value × ℤ
  | .string s =>
    let length := (utf16 s).length
    if length ≤ 512 ∨ budget ≤ 0 then (.string (sliceText s 512), budget)
    else (.string (sliceText s 512 ++ "…[truncated " ++ toString (length - 512) ++ " chars]"),
      budget - length)
  | .array items =>
    let (shown, budget) := trimItems budget 50 items
    (.array (shown ++ if 50 < items.length then
      [.string ("[+" ++ toString (items.length - 50) ++ " more]")] else []), budget)
  | .object fields =>
    let (out, budget) := trimFields budget fields
    (.object out, budget)
  | v => (v, budget)

def trimItems (budget : ℤ) : ℕ → List Value → List Value × ℤ
  | 0, _ | _, [] => ([], budget)
  | n + 1, item :: items =>
    let (first, budget) := trimDetail budget item
    let (shown, budget) := trimItems budget n items
    (first :: shown, budget)

/-- To set `__proto__` makes no property. -/
def trimFields (budget : ℤ) : List (String × Value) → List (String × Value) × ℤ
  | [] => ([], budget)
  | (key, item) :: fields =>
    let (first, budget) := trimDetail budget item
    let (out, budget) := trimFields budget fields
    (if key = "__proto__" then out else (key, first) :: out, budget)
end

/-! ### Classification -/

def loopOfStream (streamId : String) : TrajectoryLoop :=
  if startsWith streamId "thread:" || startsWith streamId "model-request:" ||
      startsWith streamId "execution:" then .fast
  else .slow

def payloadOf (event : StoredEvent) : Value :=
  match event.event.payload with
  | .array items => .array items
  | .object fields => .object fields
  | _ => .object []

abbrev Classified := Except TypeError (Option (TrajectoryCategory × Value))

def shown (category : TrajectoryCategory) (summary : String) : Classified :=
  .ok (some (category, .string summary))

def noCount : Value := .number (.ofNat 0)

section Classify
variable (payload : Value) (eventType : String)

def classifyItem (item : Value) : Classified := do
  let inner := item.chained "payload"
  if (item.chained "type").isText "message" then
    if (inner.chained "role").isText "assistant" then
      let content := clip (← (inner.chained "content").spelledOr "") 160
      let calls ← (chainedLength (inner.chained "toolCalls") |>.orElse noCount).spelled
      shown .llm (if content ≠ "" then content else "发起 " ++ calls ++ " 个工具调用")
    else return none
  else if (item.chained "type").isText "tool_call" then
    shown .tool (← (inner.chained "toolId").spelledOr "tool")
  else if (item.chained "type").isText "plan" then
    shown .reasoning (trim ("plan " ++ (← (inner.chained "title").spelledOr "")))
  else if (item.chained "type").isText "approval" then
    shown .tool (clip (← (inner.chained "title").spelledOr "审批") 160)
  else return some (.system, (item.chained "type").orElse (.string eventType))

def classifyThread : Classified := do
  match eventType with
  | "turn.started" =>
    shown .input (clip (← ((payload.chained "turn").chained "input").spelledOr "") 160)
  | "item.completed" => classifyItem eventType (payload.chained "item")
  | "item.failed" => shown .system (clip (← (payload.chained "error").spelledOr eventType) 160)
  | "item.delta" | "item.started" => return none
  | "approval.requested" | "approval.resolved" =>
    let approval := payload.chained "approval"
    let title ← (approval.chained "title").spelledOr ""
    let decision ← (approval.chained "decision").spelledOr ""
    shown .tool (clip (trim (title ++ " " ++ decision)) 160)
  | "agent.checkpoint" =>
    let digest ← (payload.chained "stateDigest").spelledOr ""
    shown .reasoning ("checkpoint " ++ sliceText digest 12)
  | "turn.completed" =>
    let output ← ((payload.chained "turn").chained "output").spelledOr "turn completed"
    shown .system (clip output 160)
  | "turn.failed" | "turn.cancelled" =>
    let turn := payload.chained "turn"
    let text ← ((turn.chained "error").orElse (turn.chained "status")).spelledOr eventType
    shown .system (clip text 160)
  | _ => shown .system eventType

def classifyModelRequest : Classified := do
  match eventType with
  | "model.requested" =>
    let model ← (payload.chained "model").spelledOr "model"
    let stepIndex ← ((payload.chained "stepIndex").orElse noCount).spelled
    let attempt ← ((payload.chained "attempt").orElse noCount).spelled
    shown .llm (model ++ " · step " ++ stepIndex ++ " · attempt " ++ attempt)
  | "model.completed" =>
    let result := payload.chained "result"
    let stopReason ← (result.chained "stopReason").spelledOr "completed"
    let totalTokens := (result.chained "usage").chained "totalTokens"
    if totalTokens.isUndefined then shown .llm stopReason
    else shown .llm (stopReason ++ " · " ++ (← totalTokens.spelled) ++ " tokens")
  | "model.failed" => shown .llm (clip (← (payload.chained "message").spelledOr eventType) 160)
  | "context.manifest" =>
    let manifest := payload.chained "manifest"
    let sections ← itemsOf (manifest.chained "sections")
    let kinds ← sections.mapM fun item => return (← item.propertyOf "kind").orElse (.string "?")
    let length := (chainedLength (manifest.chained "sections")).orElse noCount
    shown .llm ("sections=" ++ (← length.spelled) ++
      " · budget=" ++ (← (manifest.chained "tokenBudget").spelledOr "?") ++ " tokens" ++
      " · [" ++ ", ".intercalate (← Value.spelledItems (distinct kinds)) ++ "]")
  | _ => shown .llm eventType

def classifyExecution : Classified := do
  match eventType with
  | "execution.permission_snapshot" | "execution.started" => return none
  | "execution.requested" =>
    shown .tool (← ((payload.chained "request").chained "capability").spelledOr "action")
  | "execution.authorized" | "execution.denied" =>
    let decision ← (payload.chained "decision").spelledOr ""
    let reason ← (payload.chained "reason").spelledOr ""
    shown .tool (clip (trim (decision ++ " " ++ reason)) 160)
  | "execution.approval_required" =>
    shown .tool (clip (trim ("审批 " ++ (← (payload.chained "title").spelledOr ""))) 160)
  | "execution.completed" =>
    shown .tool (if ((payload.chained "result").chained "isError").isTrue then "completed (error)"
      else "completed")
  | "execution.failed" =>
    shown .tool (clip (← (payload.chained "message").spelledOr "failed") 160)
  | _ => shown .tool eventType

/-- How many of the things checked were rolled back, where there is such a list. -/
def rolledBack (checked : Value) : Except TypeError (Option ℕ) := do
  if checked.isNullish then return none
  let marks ← (← itemsOf checked).mapM fun item => return (← item.propertyOf "rolledBack").isTrue
  return some (marks.count true)

def classifyLearning : Classified := do
  match eventType with
  | "learning.loop.run" =>
    let selected ← ((payload.chained "selectedTrajectories").orElse noCount).spelled
    let derived ← ((payload.chained "derivedTurns").orElse noCount).spelled
    let patterns ← ((payload.chained "patternsFound").orElse noCount).spelled
    let proposals ← ((chainedLength (payload.chained "proposalsCreated")).orElse noCount).spelled
    shown .reasoning ("trajectories=" ++ selected ++ " derived=" ++ derived ++ " patterns=" ++
      patterns ++ " proposals=" ++ proposals)
  | "learning.proposal.created" =>
    let proposal := payload.chained "proposal"
    let type ← (proposal.chained "type").spelledOr "proposal"
    let hypothesis ← (proposal.chained "hypothesis").spelledOr ""
    shown .proposal (clip (type ++ ": " ++ hypothesis) 160)
  | "learning.proposal.status_changed" =>
    let before ← (payload.chained "from").spelledOr "?"
    let after ← (payload.chained "to").spelledOr "?"
    shown .proposal (before ++ " → " ++ after)
  | "learning.experiment.started" =>
    shown .proposal (trim ("experiment " ++ (← (payload.chained "evaluatorId").spelledOr "")))
  | "learning.experiment.completed" =>
    let metrics ← (entriesOf (payload.chained "metrics")).mapM fun metric =>
      return metric.1 ++ "=" ++ (← metric.2.spelled)
    let verdict ← (payload.chained "verdict").spelledOr "?"
    shown .proposal (clip (trim ("verdict=" ++ verdict ++ " " ++ " ".intercalate metrics)) 160)
  | "learning.experiment.failed" =>
    shown .proposal (clip (← (payload.chained "message").spelledOr "experiment failed") 160)
  | "learning.proposal.activated" =>
    let via ← (payload.chained "via").spelledOr "?"
    let claimId ← (payload.chained "claimId").spelledOr ""
    shown .proposal ("activated via " ++ via ++ " (" ++ sliceText claimId 8 ++ ")")
  | "learning.proposal.activation-reverted" =>
    let text := trim ("reverted " ++ (← (payload.chained "reason").spelledOr ""))
    shown .proposal (clip (if text ≠ "" then text else "reverted") 160)
  | "learning.drift.checked" =>
    let checked := payload.chained "checked"
    let rolled ← rolledBack checked
    let length ← ((chainedLength checked).orElse noCount).spelled
    let tail := if rolled.getD 0 ≠ 0 then " rolled_back=" ++ toString (rolled.getD 0) else ""
    shown .proposal ("checked=" ++ length ++ tail)
  | _ => shown .proposal eventType

def classifyMemory : Classified := do
  match eventType with
  | "memory.claim.recorded" =>
    let claim := payload.chained "claim"
    let kind ← (claim.chained "kind").spelledOr "claim"
    let statement ← (claim.chained "statement").spelledOr ""
    shown .memory (clip (kind ++ ": " ++ statement) 160)
  | "memory.claim.superseded" | "memory.claim.retracted" =>
    let claimId ← (payload.chained "claimId").spelledOr ""
    let reason ← (payload.chained "reason").spelledOr ""
    shown .memory (clip (trim (sliceText claimId 8 ++ " " ++ reason)) 160)
  | "memory.observation.recorded" =>
    let content ← ((payload.chained "observation").chained "content").spelledOr ""
    shown .memory (clip (trim ("观察: " ++ content)) 160)
  | "memory.consolidation.completed" =>
    let considered ← ((payload.chained "considered").orElse noCount).spelled
    let merged ← ((chainedLength (payload.chained "merged")).orElse noCount).spelled
    shown .memory ("considered=" ++ considered ++ " merged=" ++ merged)
  | "memory.health.changed" =>
    let before ← (payload.chained "from").spelledOr ""
    let after ← (payload.chained "to").spelledOr ""
    let detail ← (payload.chained "detail").spelledOr ""
    shown .memory (clip (trim (before ++ " → " ++ after ++ " " ++ detail)) 160)
  | _ => shown .memory eventType

/-- `minutes` is the text of `Math.round(v / 60_000)`, the language's arithmetic. -/
def cadenceOf (minutes : Value → Except TypeError String) (trigger : Value) :
    Except TypeError String := do
  let taskStatus := (trigger.chained "when").chained "taskStatus"
  if taskStatus.truthy then return "当任务进入 " ++ (← taskStatus.spelled)
  else if !(trigger.chained "intervalMs").isUndefined then
    return "每 " ++ (← minutes (trigger.chained "intervalMs")) ++ " 分钟"
  else return "一次性"

def classifyScheduler (minutes : Value → Except TypeError String) : Classified := do
  match eventType with
  | "scheduler.trigger.triggered" =>
    let status ← (payload.chained "status").spelledOr "?"
    let missed := payload.chained "missedIntervals"
    if missed.truthy then
      shown .system (clip ("status=" ++ status ++ " 追赶 " ++ (← missed.spelled) ++ " 次") 160)
    else shown .system (clip ("status=" ++ status) 160)
  | "scheduler.trigger.registered" =>
    let trigger := payload.chained "trigger"
    let cadence ← cadenceOf minutes trigger
    let input ← (trigger.chained "input").spelledOr ""
    shown .system (clip ("注册触发器（" ++ cadence ++ "）：" ++ input) 160)
  | _ =>
    let triggerId ← (payload.chained "triggerId").spelledOr ""
    shown .system ("移除触发器 " ++ sliceText triggerId 8)

def classifyStructure : Classified := do
  let fallback := String.ofList (withoutFirst "structure.".toList eventType.toList)
  let phase ← (payload.chained "phase").spelledOr fallback
  let digest ← (payload.chained "digest").spelledOr ""
  shown .system (clip (trim (phase ++ " " ++ sliceText digest 12)) 160)

def classifyWorld : Classified := do
  match eventType with
  | "world.entity.recorded" =>
    let entity := payload.chained "entity"
    let kind ← (entity.chained "kind").spelledOr ""
    let id ← (entity.chained "id").spelledOr ""
    shown .system (trim ("实体 " ++ kind ++ " " ++ sliceText id 24))
  | "world.relation.projected" =>
    let relation := payload.chained "relation"
    let type ← (relation.chained "type").spelledOr ""
    let fromEntityId ← (relation.chained "fromEntityId").spelledOr ""
    shown .system (trim ("关系 " ++ type ++ " " ++ sliceText fromEntityId 24))
  | _ => shown .system ("世界版本 v" ++ (← (payload.chained "version").spelledOr "?"))

end Classify

section Query
variable (minutes : Value → Except TypeError String)

/-- Streams that no case knows are shown by the types of their events. -/
def classified (streamId : String) (payload : Value) (eventType : String) : Classified :=
  if startsWith streamId "thread:" then classifyThread payload eventType
  else if startsWith streamId "model-request:" then classifyModelRequest payload eventType
  else if startsWith streamId "execution:" then classifyExecution payload eventType
  else if streamId = "learning" then classifyLearning payload eventType
  else if streamId = "memory" then classifyMemory payload eventType
  else if streamId = "scheduler" then classifyScheduler payload eventType minutes
  else if streamId = "structure" then classifyStructure payload eventType
  else if streamId = "world" then classifyWorld payload eventType
  else shown .system eventType

def classify (streamId : String) (event : StoredEvent) : Except TypeError (Option EntryDraft) :=
  (classified minutes streamId (payloadOf event) event.event.eventType).map <|
    Option.map fun entry => ⟨event, loopOfStream streamId, entry.1, entry.2⟩

/-! ### The query -/

def Counts.add (counts : Counts) (draft : EntryDraft) : Counts where
  fast := if draft.loop = .fast then counts.fast + 1 else counts.fast
  slow := if draft.loop = .slow then counts.slow + 1 else counts.slow
  byCategory c :=
    if c = draft.category then counts.byCategory c + 1 else counts.byCategory c

def compareDrafts (a b : EntryDraft) : Ordering :=
  if a.event.event.eventTime ≠ b.event.event.eventTime then
    if utf16 a.event.event.eventTime < utf16 b.event.event.eventTime then .gt else .lt
  else if a.event.streamId ≠ b.event.streamId then
    if utf16 a.event.streamId < utf16 b.event.streamId then .lt else .gt
  else compare b.event.sequence a.event.sequence

namespace GlobalTrajectoryQuery
variable (query : GlobalTrajectoryQuery)

/-- `Math.min(Math.max(query.limit ?? 100, 1), 500)` -/
def pageSize : ℕ := min (max (query.limit.getD 100).toNat 1) 500

def skipsStream (streamId : String) : Bool := query.streamId.any (· ≠ streamId)

def skips (draft : EntryDraft) : Bool :=
  query.loop.any (· ≠ draft.loop) || query.category.any (· ≠ draft.category)

end GlobalTrajectoryQuery

def EntryDraft.entry (draft : EntryDraft) : TrajectoryEntry where
  eventId := draft.event.event.eventId
  streamId := draft.event.streamId
  sequence := draft.event.sequence
  eventTime := draft.event.event.eventTime
  eventType := draft.event.event.eventType
  loop := draft.loop
  category := draft.category
  summary := draft.summary
  threadId := draft.event.event.scope.threadId
  turnId := draft.event.event.scope.turnId
  detail := (trimDetail 16384 draft.event.event.payload).1

/-- The loop over the sorted drafts, from the entries that it has. -/
def collect (query : GlobalTrajectoryQuery) :
    List TrajectoryEntry → List EntryDraft → List TrajectoryEntry
  | entries, [] => entries
  | entries, draft :: drafts =>
    if query.skips draft then collect query entries drafts
    else if entries.length = query.pageSize then entries
    else collect query (entries ++ [draft.entry]) drafts

/-- The drafts of the loop over the streams. -/
def scan (store : ChronicleReads) (query : GlobalTrajectoryQuery) :
    List String → List EntryDraft → Except TimelineError (List EntryDraft)
  | [], drafts => .ok drafts
  | streamId :: streams, drafts => do
    if query.skipsStream streamId then scan store query streams drafts
    else
      let latest := store.getLatestSequence streamId
      if latest = 0 then scan store query streams drafts
      else
        let events ← (store.readStream streamId ((latest - query.pageSize : ℕ) : ℤ)).mapError .store
        let found ← (events.mapM (classify minutes streamId)).mapError .payload
        scan store query streams (drafts ++ found.reduceOption)

def buildGlobalTrajectory (store : ChronicleReads) (query : GlobalTrajectoryQuery) :
    Except TimelineError GlobalTrajectory := do
  let streams := store.listStreams
  let drafts ← scan minutes store query streams []
  let counts := drafts.foldl Counts.add {}
  return ⟨collect query [] (sortBy compareDrafts drafts), counts, streams.length⟩

end Query

end BeeAgent.Runtime.Trajectory
