import BeeAgent.Chronicle.Stream
import BeeAgent.Scheduler.Triggers
import BeeAgent.Transition.Machine

/-! The agent scheduler: the calls in flight, what each does when an await settles, and the machine
of all of them. Ticks, notifications and rebuilds run one after another; `register` and `remove` run
beside them. -/
namespace BeeAgent.Scheduler
open Data Transition
open Kanban (Formats)

/-- What the scheduler takes from outside: the formats of the schema, the order of
`localeCompare`, and the times that `Date` reads and writes. -/
structure SchedulerOptions where
  formats : Formats
  localeCompare : String → String → ℤ
  parse : String → Option ℤ
  toISOString : ℤ → Option String

structure RegisterSchedulerTriggerInput where
  input : String
  threadId : String
  at_ : Option String := none
  intervalMs : Option ℤ := none
  when : Option SchedulerWhen := none
  deriving DecidableEq, Repr

structure ObservedEvent where
  streamId : String
  eventType : String
  deriving DecidableEq, Repr

inductive SchedulerOperation where
  | register (init : RegisterSchedulerTriggerInput)
  | remove (triggerId : String) (reason : Option String)
  | tick
  | notify (event : ObservedEvent)
  | rebuild
  deriving DecidableEq, Repr

/-- Ticks, notifications and rebuilds go through `#serialize`. -/
def SchedulerOperation.serialized : SchedulerOperation → Bool
  | .tick | .notify _ | .rebuild => true
  | _ => false

/-- Where the caller of `#fire` goes on. -/
inductive After where
  | due (rest : List SchedulerTrigger) (fired : List SchedulerFiredRun)
  /-- The iterator over the live map goes on from `cursor`. -/
  | pending (cursor : ℕ) (fired : List SchedulerFiredRun)
  | notified
  deriving DecidableEq, Repr

/-- What is appended, and for whom. -/
inductive Job where
  | register (trigger : SchedulerTrigger)
  | remove (triggerId : String) (reason : Option String)
  | fire (trigger : SchedulerTrigger) (now : String) (run : SchedulerFiredRun)
      (following : Option String) (after : After)
  deriving DecidableEq, Repr

inductive SchedulerResult where
  | registered (trigger : SchedulerTrigger)
  | removed
  | report (fired : List SchedulerFiredRun)
  | notified (run : Option SchedulerFiredRun)
  | rebuilt
  deriving DecidableEq, Repr

/-- Where a call stands: each stage but the last two is an await. -/
inductive Stage where
  | queued
  /-- The stream is read; these of its events are still to be folded. -/
  | replaying (rest : List SchedulerEvent)
  | reading (trigger : SchedulerTrigger) (cursor : ℕ) (fired : List SchedulerFiredRun) (now : String)
  | running (trigger : SchedulerTrigger) (now : String) (after : After)
  | latest (job : Job) (attempt : ℕ)
  | appending (job : Job) (attempt expectedSequence : ℕ)
  /-- The event is written; the call has not gone on yet. -/
  | recorded (job : Job)
  | finished (result : Except SchedulerError SchedulerResult)
  /-- The process went down before. -/
  | dropped

structure Call where
  op : SchedulerOperation
  stage : Stage

/-- An event of the stream of a kanban task, as far as it is read here. -/
structure TaskEvent where
  eventType : String
  ingestTime : String
  taskId : String
  status : Kanban.KanbanTaskStatus
  deriving DecidableEq, Repr

/-- What the outside sees of the scheduler and of the streams it reads. -/
inductive Happening where
  | recorded (event : SchedulerEvent)
  | changed (taskId : String) (event : TaskEvent)
  /-- The turn of a serialized call has come. -/
  | began (call : ℕ) (op : SchedulerOperation)
  | started (call : ℕ) (trigger : SchedulerTrigger)
  | ended (call : ℕ)
  deriving DecidableEq, Repr

/-- `history` lists what has happened, in order; no step looks at it. -/
structure AgentScheduler where
  stream : List (Chronicle.ChronicleEvent SchedulerEvent)
  nextEventId : ℕ
  kanban : OrderedMap String (List TaskEvent)
  triggers : Triggers
  calls : List Call
  history : List Happening

/-- The clock and the id drawn in a step. -/
structure Draw where
  now : String
  uuid : String

namespace Job

def event : Job → SchedulerEvent
  | .register trigger => .registered trigger
  | .remove triggerId reason => .removed triggerId reason
  | .fire trigger now run following _ =>
    .triggered { triggerId := trigger.id, threadId := trigger.threadId, turnId := run.turnId
                 status := run.status, firedAt := now, missedIntervals := run.missedIntervals
                 nextRunAt := following }

/-- The change of the live map once the event is written. -/
def apply (triggers : Triggers) : Job → Triggers
  | .register trigger => triggers.set trigger.id trigger
  | .remove triggerId _ => triggers.delete triggerId
  | .fire trigger _ _ following _ =>
    if trigger.when.isSome then triggers.delete trigger.id
    else triggers.set trigger.id { trigger with nextRunAt := following }

end Job

namespace Stage

def isOver : Stage → Bool
  | .finished _ | .dropped => true
  | _ => false

def drop : Stage → Stage
  | .finished result => .finished result
  | _ => .dropped

/-- What is seen of a call that gets to the stage. -/
def happening (c : ℕ) : Stage → List Happening
  | .running trigger _ _ => [.started c trigger]
  | .finished _ => [.ended c]
  | _ => []

end Stage

namespace AgentScheduler

def initial : AgentScheduler := ⟨[], 0, .empty, .empty, [], []⟩

def events (s : AgentScheduler) : List SchedulerEvent := s.stream.map (·.payload)

def happens (s : AgentScheduler) (happening : Happening) : AgentScheduler :=
  { s with history := s.history ++ [happening] }

def withStage (s : AgentScheduler) (c : ℕ) (stage : Stage) : AgentScheduler :=
  { s with
    calls := s.calls.modify c fun call => { call with stage }
    history := s.history ++ stage.happening c }

end AgentScheduler

section Selection

def isDue (now : String) (trigger : SchedulerTrigger) : Bool :=
  trigger.enabled && trigger.when.isNone && trigger.nextRunAt.any (keyLe · now)

def awaitsTask (trigger : SchedulerTrigger) : Bool :=
  trigger.enabled && trigger.nextRunAt.isNone && (trigger.when.bind (·.taskStatus)).isSome

def awaitsEvent (event : ObservedEvent) (trigger : SchedulerTrigger) : Bool :=
  trigger.enabled && trigger.nextRunAt.isNone &&
    (trigger.when.bind (·.event)).any fun condition =>
      event.eventType = condition.eventType &&
        condition.streamPrefix.all fun start => start.toList.isPrefixOf event.streamId.toList

def taskReachedStatus (stream : List TaskEvent) (condition : TaskStatusCondition) (since : String) :
    Bool :=
  stream.any fun event =>
    event.eventType = "kanban.task.status_changed" && !keyLe event.ingestTime since &&
      event.taskId = condition.taskId && event.status = condition.status

end Selection

section Firing
variable (o : SchedulerOptions)

/-- The due triggers, by their time and then by their id. -/
def due (triggers : Triggers) (now : String) : List SchedulerTrigger :=
  (triggers.values.filter (isDue now)).insertionSort fun a b =>
    let byTime := o.localeCompare (a.nextRunAt.getD "") (b.nextRunAt.getD "")
    (if byTime ≠ 0 then byTime else o.localeCompare a.id b.id) ≤ 0

/-- Nothing where a time does not parse: the source goes on with `NaN`. -/
def missedIntervals (trigger : SchedulerTrigger) (now : String) : Option ℕ :=
  match trigger.intervalMs, trigger.nextRunAt with
  | some intervalMs, some nextRunAt =>
    (o.parse now).bind fun now => (o.parse nextRunAt).map fun next =>
      ((now - next) / intervalMs).toNat
  | _, _ => some 0

/-- Nothing where `toISOString` throws. -/
def following (trigger : SchedulerTrigger) (now : String) (missed : ℕ) : Option (Option String) :=
  match trigger.intervalMs, trigger.nextRunAt with
  | some intervalMs, some nextRunAt =>
    (o.parse now).bind fun now => (o.parse nextRunAt).bind fun next =>
      (o.toISOString (max (next + (missed + 1) * intervalMs) (now + intervalMs))).map some
  | _, _ => some none

def nextPending (triggers : Triggers) (cursor : ℕ) (fired : List SchedulerFiredRun) (now : String) :
    Stage :=
  match triggers.findFrom cursor awaitsTask with
  | some (n, trigger) => .reading trigger (n + 1) fired now
  | none => .finished (.ok (.report fired))

def nextDue (triggers : Triggers) (fired : List SchedulerFiredRun) (now : String) :
    List SchedulerTrigger → Stage
  | trigger :: rest => .running trigger now (.due rest fired)
  | [] => nextPending triggers 0 fired now

/-- What a serialized call does when its turn has come. -/
def enter (triggers : Triggers) (events : List SchedulerEvent) (now : String) :
    SchedulerOperation → Stage
  | .tick => nextDue triggers [] now (due o triggers now)
  | .notify event =>
    match triggers.values.find? (awaitsEvent event) with
    | some trigger => .running trigger now .notified
    | none => .finished (.ok (.notified none))
  | .rebuild => .replaying events
  | _ => .queued

/-- The rest of `#fire`, once the run has settled. -/
def settle (trigger : SchedulerTrigger) (now : String) (after : After) (turnId : Option String)
    (status : SchedulerRunStatus) : Stage :=
  match missedIntervals o trigger now with
  | none => .finished (.error .invalidTime)
  | some missed =>
    match following o trigger now missed with
    | none => .finished (.error .invalidTime)
    | some following =>
      let run := { triggerId := trigger.id, threadId := trigger.threadId, turnId, status
                   missedIntervals := missed }
      .latest (.fire trigger now run following after) 0

end Firing

def newTrigger (init : RegisterSchedulerTriggerInput) (draw : Draw) : SchedulerTrigger :=
  { id := draw.uuid, input := init.input, threadId := init.threadId, at_ := init.at_
    intervalMs := init.intervalMs, when := init.when, enabled := true, createdAt := draw.now
    nextRunAt := if init.when.isNone then some (init.at_.getD draw.now) else none }

def register (f : Formats) (init : RegisterSchedulerTriggerInput) (draw : Draw) :
    Except SchedulerError SchedulerTrigger :=
  let hasSchedule := init.at_.isSome || init.intervalMs.isSome
  if init.intervalMs.any (· < 1) then .error .intervalNotPositive
  else if init.when.isSome && hasSchedule then .error .whenExclusive
  else if init.when.isNone && !hasSchedule then .error .noSchedule
  else parseTrigger f (newTrigger init draw)

section Steps
variable (o : SchedulerOptions) (s : AgentScheduler)

/-- What a call does at once. -/
def start (draw : Draw) : SchedulerOperation → Stage
  | .register init =>
    match register o.formats init draw with
    | .error e => .finished (.error e)
    | .ok trigger => .latest (.register trigger) 0
  | .remove triggerId reason =>
    match s.triggers.get triggerId with
    | none => .finished (.error (.notFound triggerId))
    | some _ => .latest (.remove triggerId reason) 0
  | .tick | .notify _ | .rebuild => .queued

def free (c : ℕ) : Bool :=
  (s.calls.take c).all fun call => !call.op.serialized || call.stage.isOver

/-- The append of `#append`: a conflict is tried again twice. -/
def land (c : ℕ) (job : Job) (attempt expectedSequence : ℕ) : AgentScheduler :=
  match Chronicle.append s.stream [⟨s.nextEventId, job.event⟩] expectedSequence with
  | .error e =>
    s.withStage c <| if attempt < 2 then .latest job (attempt + 1)
      else .finished (.error (.sequenceConflict e.expectedSequence e.actualNextSequence))
  | .ok stream =>
    { (s.withStage c (.recorded job)).happens (.recorded job.event) with
      stream, nextEventId := s.nextEventId + 1 }

/-- Where a call goes on when what it appended is written. -/
def proceed (triggers : Triggers) : Job → Stage
  | .register trigger => .finished (.ok (.registered trigger))
  | .remove _ _ => .finished (.ok .removed)
  | .fire _ now run _ (.due rest fired) => nextDue triggers (fired ++ [run]) now rest
  | .fire _ now run _ (.pending cursor fired) => nextPending triggers cursor (fired ++ [run]) now
  | .fire _ _ run _ .notified => .finished (.ok (.notified (some run)))

def conclude (c : ℕ) (job : Job) : AgentScheduler :=
  let s := { s with triggers := job.apply s.triggers }
  s.withStage c (proceed s.triggers job)

/-- The live map is cleared before it is rebuilt. -/
def cleared (op : SchedulerOperation) : AgentScheduler :=
  match op with
  | .rebuild => { s with triggers := .empty }
  | _ => s

/-- The next event of a rebuild. -/
def replay (c : ℕ) : List SchedulerEvent → AgentScheduler
  | [] => s.withStage c (.finished (.ok .rebuilt))
  | event :: rest =>
    match foldEvent s.triggers event with
    | .error e => s.withStage c (.finished (.error e))
    | .ok triggers => { s.withStage c (.replaying rest) with triggers }

def reached (trigger : SchedulerTrigger) : Bool :=
  (trigger.when.bind (·.taskStatus)).any fun condition =>
    taskReachedStatus ((s.kanban.get condition.taskId).getD []) condition trigger.createdAt

end Steps

inductive Input where
  | call (op : SchedulerOperation) (draw : Draw)
  | resume (call : ℕ) (draw : Draw)
  /-- The turn of a fired trigger settles. -/
  | ran (call : ℕ) (turnId : String) (status : SchedulerRunStatus)
  /-- The turn throws, or the Chronicle store fails what the call awaits. -/
  | fail (call : ℕ)
  /-- Another component writes to the stream of a kanban task. -/
  | observed (taskId : String) (event : TaskEvent)
  /-- The process goes down and a new one rebuilds before anything is asked of it. -/
  | restart

variable (o : SchedulerOptions)

def schedulerStep (s : AgentScheduler) : Input → Option AgentScheduler
  | .call op draw =>
    let stage := start o s draw op
    some { s with
      calls := s.calls ++ [⟨op, stage⟩]
      history := s.history ++ stage.happening s.calls.length }
  | .resume c draw =>
    (s.calls[c]?).bind fun call =>
      match call.stage with
      | .queued =>
        if free s c then
          some (((cleared s call.op).happens (.began c call.op)).withStage c
            (enter o s.triggers s.events draw.now call.op))
        else none
      | .replaying rest => some (replay s c rest)
      | .reading trigger cursor fired now =>
        some <| s.withStage c <|
          if reached s trigger then .running trigger now (.pending cursor fired)
          else nextPending s.triggers cursor fired now
      | .latest job attempt =>
        some (s.withStage c (.appending job attempt (Chronicle.getLatestSequence s.stream + 1)))
      | .appending job attempt expectedSequence => some (land s c job attempt expectedSequence)
      | .recorded job => some (conclude s c job)
      | .running _ _ _ | .finished _ | .dropped => none
  | .ran c turnId status =>
    (s.calls[c]?).bind fun call =>
      match call.stage with
      | .running trigger now after =>
        some (s.withStage c (settle o trigger now after (some turnId) status))
      | _ => none
  | .fail c =>
    (s.calls[c]?).bind fun call =>
      match call.stage with
      | .running trigger now after =>
        some (s.withStage c (settle o trigger now after none .error))
      | .replaying _ | .reading _ _ _ _ | .latest _ _ | .appending _ _ _ =>
        some (s.withStage c (.finished (.error .chronicle)))
      | _ => none
  | .observed taskId event =>
    some { s.happens (.changed taskId event) with
      kanban := s.kanban.set taskId ((s.kanban.get taskId).getD [] ++ [event]) }
  | .restart =>
    match rebuild s.events with
    | .error _ => none
    | .ok triggers =>
      some { s with
        triggers
        calls := s.calls.map fun call => { call with stage := call.stage.drop } }

def scheduler : Machine AgentScheduler Input := ⟨schedulerStep o⟩

end BeeAgent.Scheduler
