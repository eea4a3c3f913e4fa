import BeeAgent.Kanban.Store
import BeeAgent.Transition.Machine

/-! The board as interleaved calls of the store, of the dispatcher and of the walking tools. A call
reads the projection at once and asks for its append; the append lands, or fails, at a later step,
and the task is indexed at a later one still. -/
namespace BeeAgent.Kanban
open Data Transition

/-- What the board is set up with: the formats of the schemas, the collation of the queries, the end
of a lease taken at a time (`none` when that is not a date), and the limit of a worker. -/
structure KanbanOptions where
  formats : Formats
  localeCompare : String → String → ℤ
  expiry : String → Option String
  maxConcurrent : ℤ

/-- The operations; `now` is the argument or the clock where it is left out. -/
inductive KanbanOperation where
  | create (init : NewKanbanTaskInit)
  | transition (taskId : KanbanTaskId) (command : KanbanTransitionCommand)
  | renewLease (taskId : KanbanTaskId) (leaseId expiresAt : String)
  | update (taskId : KanbanTaskId) (patch : KanbanTaskUpdate)
  | comment (taskId : KanbanTaskId) (input : KanbanCommentInput)
  | rebuild
  | claimNext (workerId now : String)
  | heartbeat (taskId : KanbanTaskId) (leaseId now : String)
  | reclaimExpired (now : String)
  | complete (taskId : KanbanTaskId) (leaseId now : String)
  | fail (taskId : KanbanTaskId) (leaseId : String) (reason : Option String) (now : String)
  | block (taskId : KanbanTaskId) (leaseId : String) (reason : Option String) (now : String)
  | cancel (taskId : KanbanTaskId) (now : String)
  | transitionAlongPath (taskId : KanbanTaskId) (dst : KanbanTaskStatus) (reason : Option String)
  deriving DecidableEq

/-- The operations that go by a lease: the task and the lease id. -/
def KanbanOperation.lease? : KanbanOperation → Option (KanbanTaskId × String)
  | .renewLease taskId leaseId _ | .heartbeat taskId leaseId _ | .complete taskId leaseId _
  | .fail taskId leaseId _ _ | .block taskId leaseId _ _ => some (taskId, leaseId)
  | _ => none

inductive Result where
  | nothing
  | task (task : KanbanTask)
  | reclaimed (taskIds : List KanbanTaskId)
  | rebuilt
  deriving DecidableEq

/-- What follows a mutation: the operation returns the task, `reclaimExpired` goes on with the rest,
a walk takes the next hop. -/
inductive After where
  | done
  | reclaim (rest : List KanbanTask) (reclaimed : List KanbanTaskId)
  | walk (path : List KanbanTaskStatus)
  deriving DecidableEq

/-- Where a call stands. -/
inductive Stage where
  | appending (commit : Commit) (after : After)
  | indexing (next : KanbanTask) (after : After)
  /-- The task that `get` returned. -/
  | got (task : Option KanbanTask)
  | counting (running : List KanbanTask)
  | scanning (ready runnable : List KanbanTask)
  | checking (task : KanbanTask) (dependencies : List KanbanDependency)
      (ready runnable : List KanbanTask)
  | reclaiming (rest : List KanbanTask) (reclaimed : List KanbanTaskId)
  | walking (current : KanbanTask) (path : List KanbanTaskStatus)
  | listing
  | reading (streamIds : List KanbanTaskId)
  | replayed (task : Option KanbanTask) (streamIds : List KanbanTaskId)
  | finished (result : Except KanbanError Result)
  deriving DecidableEq

structure Call where
  op : KanbanOperation
  stage : Stage
  deriving DecidableEq

/-- A write that went through, and the call that made it. -/
structure Landed where
  call : ℕ
  commit : Commit
  deriving DecidableEq

abbrev Stream := List (Chronicle.ChronicleEvent KanbanTaskEvent)

structure Board where
  streams : OrderedMap KanbanTaskId Stream
  nextEventId : ℕ
  tasks : Tasks
  idempotency : OrderedMap String KanbanTaskId
  calls : List Call
  /-- The writes, in the order in which they went through. -/
  landed : List Landed

/-- What `randomUUID` and the clock give. -/
structure Draw where
  uuid : String
  clock : String

namespace Board

def initial : Board :=
  { streams := .empty, nextEventId := 0, tasks := .empty, idempotency := .empty, calls := []
    landed := [] }

def stream (b : Board) (taskId : KanbanTaskId) : Stream := (b.streams.get taskId).getD []

def events (b : Board) (taskId : KanbanTaskId) : List KanbanTaskEvent :=
  (b.stream taskId).map Chronicle.ChronicleEvent.payload

def index (b : Board) (task : KanbanTask) : Board :=
  { b with
    tasks := b.tasks.set task.id task
    idempotency := match task.idempotencyKey with
      | none => b.idempotency
      | some key => b.idempotency.set key task.id }

/-- `rebuild` begins with an empty projection. -/
def cleared (b : Board) : KanbanOperation → Board
  | .rebuild => { b with tasks := .empty, idempotency := .empty }
  | _ => b

def withStage (b : Board) (c : ℕ) (stage : Stage) : Board :=
  { b with calls := b.calls.modify c fun call => { call with stage } }

end Board

def appendOf (after : After) : Except KanbanError Commit → Stage
  | .error e => .finished (.error e)
  | .ok commit => .appending commit after

section Dispatcher
variable (o : KanbanOptions)

def owned (taskId : KanbanTaskId) (leaseId : String) :
    Option KanbanTask → Except KanbanError KanbanTask
  | none => .error (.notFound taskId)
  | some task =>
    if task.status ≠ .running ∨ task.leaseId? ≠ some leaseId then .error (.leaseLost taskId leaseId)
    else .ok task

def hasCapacity (workerId : String) (running : List KanbanTask) : Bool :=
  o.maxConcurrent ≤ 0 ||
    ((running.filter (·.claimant? = some workerId)).length : ℤ) < o.maxConcurrent

/-- A dependency other than one that blocks is passed over. -/
def satisfied (tasks : Tasks) (dependency : KanbanDependency) : Bool :=
  dependency.kind ≠ .blocks ||
    (tasks.get dependency.taskId).any (·.status = dependency.satisfiedWhen.getD .done)

variable (tasks : Tasks) (draw : Draw)

/-- `complete`, `fail` and `block`, once the task is there. -/
def settle (taskId : KanbanTaskId) (leaseId : String) (dst : KanbanTaskStatus)
    (reason : Option String) (now : String) (task : Option KanbanTask) : Stage :=
  match owned taskId leaseId task with
  | .error e => .finished (.error e)
  | .ok task =>
    appendOf .done <| transition o.formats tasks taskId
      { dst, expectedVersion := task.version, reason, at_ := some now } draw.clock

def cancel (taskId : KanbanTaskId) (now : String) : Option KanbanTask → Stage
  | none => .finished (.error (.notFound taskId))
  | some task =>
    appendOf .done <| transition o.formats tasks taskId
      { dst := .cancelled, expectedVersion := task.version, at_ := some now } draw.clock

/-- Where there is no walk the move is asked for as it is. -/
def target (taskId : KanbanTaskId) (dst : KanbanTaskStatus) (reason : Option String) :
    Option KanbanTask → Stage
  | none => .finished (.error (.notFound taskId))
  | some task =>
    match shortestTransitionPath task.status dst with
    | none =>
      appendOf .done <| transition o.formats tasks taskId
        { dst, expectedVersion := task.version, reason } draw.clock
    | some path => .walking task path

def hop (taskId : KanbanTaskId) (dst : KanbanTaskStatus) (reason : Option String)
    (current : KanbanTask) : List KanbanTaskStatus → Stage
  | [] => .finished (.ok (.task current))
  | next :: path =>
    appendOf (.walk path) <| transition o.formats tasks taskId
      { dst := next, expectedVersion := current.version, reason := if next = dst then reason else none }
      draw.clock

/-- The claim of the first runnable task. -/
def claim (workerId now : String) : List KanbanTask → Stage
  | [] => .finished (.ok .nothing)
  | task :: _ =>
    match o.expiry now with
    | none => .finished (.error .invalidTime)
    | some expiresAt =>
      appendOf .done <| transition o.formats tasks task.id
        { dst := .running, expectedVersion := task.version, at_ := some now
          claim := some { claimant := workerId, leaseId := draw.uuid, claimedAt := now, expiresAt } }
        draw.clock

def lapsed (task : KanbanTask) (now : String) : Bool :=
  task.claim.any fun claim => keyLe claim.expiresAt now

def reclaim (now : String) (reclaimed : List KanbanTaskId) : List KanbanTask → Stage
  | [] => .finished (.ok (.reclaimed reclaimed))
  | task :: rest =>
    if lapsed task now then
      appendOf (.reclaim rest (reclaimed ++ [task.id])) <| transition o.formats tasks task.id
        { dst := .ready, expectedVersion := task.version, at_ := some now } draw.clock
    else .reclaiming rest reclaimed

def heartbeat (taskId : KanbanTaskId) (leaseId now : String) : Stage :=
  match o.expiry now with
  | none => .finished (.error .invalidTime)
  | some expiresAt => appendOf .done (renewLease o.formats tasks taskId leaseId expiresAt)

end Dispatcher

section Steps
variable (o : KanbanOptions) (b : Board) (draw : Draw)

/-- What a call does at once. -/
def start : KanbanOperation → Stage
  | .create init =>
    match existing? b.tasks b.idempotency init with
    | some task => .finished (.ok (.task task))
    | none => appendOf .done (create o.formats init draw.uuid draw.clock)
  | .transition taskId command =>
    appendOf .done (transition o.formats b.tasks taskId command draw.clock)
  | .renewLease taskId leaseId expiresAt =>
    appendOf .done (renewLease o.formats b.tasks taskId leaseId expiresAt)
  | .update taskId patch => appendOf .done (update o.formats b.tasks taskId patch draw.clock)
  | .comment taskId input =>
    appendOf .done (comment o.formats b.tasks taskId input draw.uuid draw.clock)
  | .rebuild => .listing
  | .claimNext _ _ => .counting (list o.localeCompare b.tasks { status := some [.running] })
  | .heartbeat taskId leaseId now => heartbeat o b.tasks taskId leaseId now
  | .reclaimExpired _ => .reclaiming (list o.localeCompare b.tasks { status := some [.running] }) []
  | .complete taskId _ _ | .fail taskId _ _ _ | .block taskId _ _ _ | .cancel taskId _
  | .transitionAlongPath taskId _ _ => .got (b.tasks.get taskId)

/-- What a call does when an await settles that neither writes nor indexes. -/
def proceed : KanbanOperation → Stage → Stage
  | .complete taskId leaseId now, .got task =>
    settle o b.tasks draw taskId leaseId .done none now task
  | .fail taskId leaseId reason now, .got task =>
    settle o b.tasks draw taskId leaseId .failed reason now task
  | .block taskId leaseId reason now, .got task =>
    settle o b.tasks draw taskId leaseId .blocked reason now task
  | .cancel taskId now, .got task => cancel o b.tasks draw taskId now task
  | .transitionAlongPath taskId dst reason, .got task =>
    target o b.tasks draw taskId dst reason task
  | .transitionAlongPath taskId dst reason, .walking current path =>
    hop o b.tasks draw taskId dst reason current path
  | .claimNext workerId now, .counting running =>
    if hasCapacity o workerId running then
      .scanning (list o.localeCompare b.tasks
        { status := some [.ready], scheduledBefore := some now }) []
    else .finished (.ok .nothing)
  | .claimNext workerId now, .scanning [] runnable => claim o b.tasks draw workerId now runnable
  | .claimNext _ _, .scanning (task :: ready) runnable =>
    .checking task task.dependencies ready runnable
  | .claimNext _ _, .checking task [] ready runnable => .scanning ready (runnable ++ [task])
  | .claimNext _ _, .checking task (dependency :: dependencies) ready runnable =>
    if satisfied b.tasks dependency then .checking task dependencies ready runnable
    else .scanning ready runnable
  | .reclaimExpired now, .reclaiming rest reclaimed => reclaim o b.tasks draw now reclaimed rest
  | .rebuild, .listing => .reading b.streams.keys
  | .rebuild, .reading [] => .finished (.ok .rebuilt)
  | .rebuild, .reading (streamId :: rest) =>
    match foldStream (b.events streamId) with
    | .error e => .finished (.error e)
    | .ok task => .replayed task rest
  | _, stage => stage

/-- Where a call goes on after a task is indexed. -/
def resume (next : KanbanTask) : After → Stage
  | .done => .finished (.ok (.task next))
  | .reclaim rest reclaimed => .reclaiming rest reclaimed
  | .walk path => .walking next path

def land (c : ℕ) (commit : Commit) (after : After) : Board :=
  match Chronicle.append (b.stream commit.taskId) [⟨b.nextEventId, commit.event⟩]
    commit.expectedSequence with
  | .error e =>
    b.withStage c (.finished (.error (.sequenceConflict e.expectedSequence e.actualNextSequence)))
  | .ok stream =>
    { b.withStage c (.indexing commit.next after) with
      streams := b.streams.set commit.taskId stream
      nextEventId := b.nextEventId + 1
      landed := b.landed ++ [⟨c, commit⟩] }

end Steps

inductive Input where
  | call (op : KanbanOperation) (draw : Draw)
  | resume (call : ℕ) (draw : Draw)
  /-- The Chronicle store fails what the call awaits. -/
  | fail (call : ℕ)

/-- The stages that await the Chronicle store. -/
def Stage.awaitsChronicle : Stage → Bool
  | .appending _ _ | .listing | .reading (_ :: _) => true
  | _ => false

variable (o : KanbanOptions)

def boardStep (b : Board) : Input → Option Board
  | .call op draw =>
    let b := b.cleared op
    some { b with calls := b.calls ++ [⟨op, start o b draw op⟩] }
  | .resume c draw =>
    (b.calls[c]?).bind fun call =>
      match call.stage with
      | .finished _ => none
      | .appending commit after => some (land b c commit after)
      | .indexing next after => some ((b.index next).withStage c (resume next after))
      | .replayed task rest =>
        some ((task.elim b b.index).withStage c (.reading rest))
      | stage => some (b.withStage c (proceed o b draw call.op stage))
  | .fail c =>
    (b.calls[c]?).bind fun call =>
      if call.stage.awaitsChronicle then some (b.withStage c (.finished (.error .chronicle)))
      else none

def board : Machine Board Input := ⟨boardStep o⟩

def sampleId (n : ℕ) : String := "00000000-0000-4000-8000-00000000000" ++ toString n

/-- The n-th minute of a morning. -/
def sampleTime (n : ℕ) : String := "2026-01-05T09:0" ++ toString n ++ ":00.000Z"

def sampleDraw (n : ℕ) : Draw := ⟨sampleId n, sampleTime n⟩

/-- Leases of one minute, one task for a worker at a time. -/
def sampleOptions : KanbanOptions :=
  { formats := ⟨fun s => s.length = 36, fun s => s.length = 24⟩
    localeCompare := fun a b => if a = b then 0 else if keyLe a b then -1 else 1
    expiry := fun now => ((List.range 9).find? (sampleTime · = now)).map fun n => sampleTime (n + 1)
    maxConcurrent := 1 }

end BeeAgent.Kanban
