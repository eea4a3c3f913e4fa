import BeeAgent.Kanban.StateMachine
import BeeAgent.Data.OrderedMap
import BeeAgent.Chronicle.Stream

/-! The events of a task, the fold that reads a task back from them, the queries over the projected
tasks, and the appends that the mutations ask for. -/
namespace BeeAgent.Kanban
open Data

inductive KanbanTaskEvent where
  | created (task : KanbanTask)
  | statusChanged (src dst : KanbanTaskStatus) (reason : Option String) (task : KanbanTask)
  | leaseRenewed (leaseId expiresAt : String)
  | updated (task : KanbanTask)
  | commented (note : KanbanComment)
  deriving DecidableEq, Repr

def KanbanTask.leaseId? (task : KanbanTask) : Option String :=
  task.claim.map KanbanClaimLease.leaseId

def KanbanTask.claimant? (task : KanbanTask) : Option String :=
  task.claim.map KanbanClaimLease.claimant

def KanbanTask.commentedWith (task : KanbanTask) (note : KanbanComment) : KanbanTask :=
  { task with comments := task.comments ++ [note], version := task.version + 1 }

def KanbanTask.renewed (task : KanbanTask) (expiresAt : String) : KanbanTask :=
  { task with claim := task.claim.map fun claim => { claim with expiresAt }
              version := task.version + 1 }

/-- A comment keeps the time of the last update; a renewal of a lease that is not held is
ignored. -/
def foldTask (task : Option KanbanTask) : KanbanTaskEvent → Except KanbanError KanbanTask
  | .created task | .statusChanged _ _ _ task | .updated task => .ok task
  | .commented note =>
    match task with
    | none => .error .commentedBeforeCreated
    | some task => .ok (task.commentedWith note)
  | .leaseRenewed leaseId expiresAt =>
    match task with
    | none => .error .leaseRenewedBeforeCreated
    | some task =>
      if task.status ≠ .running ∨ task.leaseId? ≠ some leaseId then .ok task
      else .ok (task.renewed expiresAt)

def foldStream (events : List KanbanTaskEvent) : Except KanbanError (Option KanbanTask) :=
  events.foldlM (fun task event => (foldTask task event).map some) none

abbrev Tasks := OrderedMap KanbanTaskId KanbanTask

structure KanbanTaskQuery where
  status : Option (List KanbanTaskStatus) := none
  labels : List String := []
  priority : Option KanbanPriority := none
  scheduledBefore : Option String := none
  sourceThreadId : Option String := none
  sourceItemId : Option String := none
  limit : Option ℤ := none

def priorityOrder : KanbanPriority → ℤ
  | .urgent => 0
  | .high => 1
  | .medium => 2
  | .low => 3
  | .lowest => 4

section Order
variable (localeCompare : String → String → ℤ)

def compareOptionalDate : Option String → Option String → ℤ
  | none, none => 0
  | none, some _ => 1
  | some _, none => -1
  | some a, some b => localeCompare a b

def compareTasks (a b : KanbanTask) : ℤ :=
  let byPriority := priorityOrder a.priority - priorityOrder b.priority
  if byPriority ≠ 0 then byPriority
  else
    let byDeadline := compareOptionalDate localeCompare a.deadline b.deadline
    if byDeadline ≠ 0 then byDeadline
    else
      let bySchedule := compareOptionalDate localeCompare a.scheduledAt b.scheduledAt
      if bySchedule ≠ 0 then bySchedule
      else localeCompare a.createdAt b.createdAt

end Order

namespace KanbanTaskQuery

def accepts (query : KanbanTaskQuery) (task : KanbanTask) : Bool :=
  query.status.all (·.contains task.status) &&
  (query.labels.isEmpty || query.labels.any task.labels.contains) &&
  query.priority.all (task.priority = ·) &&
  query.scheduledBefore.all (fun before => task.scheduledAt.all fun at_ => keyLe at_ before) &&
  query.sourceThreadId.all (fun id => task.source.map KanbanSource.threadId = some id) &&
  query.sourceItemId.all fun id => task.source.bind KanbanSource.itemId = some id

/-- `slice(0, limit)`: a negative limit counts from the end. -/
def cut (query : KanbanTaskQuery) (tasks : List KanbanTask) : List KanbanTask :=
  match query.limit with
  | none => tasks
  | some limit =>
    if 0 ≤ limit then tasks.take limit.toNat else tasks.take (tasks.length - limit.natAbs)

end KanbanTaskQuery

def list (localeCompare : String → String → ℤ) (tasks : Tasks) (query : KanbanTaskQuery) :
    List KanbanTask :=
  query.cut <| (tasks.values.filter query.accepts).insertionSort fun a b =>
    compareTasks localeCompare a b ≤ 0

structure KanbanTaskUpdate where
  expectedVersion : ℕ
  at_ : Option String := none
  title : Option String := none
  goal : Option String := none
  acceptanceCriteria : Option (List String) := none
  priority : Option KanbanPriority := none
  labels : Option (List String) := none
  deadline : Option String := none
  scheduledAt : Option String := none
  deriving DecidableEq, Repr

structure KanbanCommentInput where
  author : String
  body : String
  at_ : Option String := none
  deriving DecidableEq, Repr

/-- A mutation of a task, with the time or the id it draws. -/
inductive Mutation where
  | transition (command : KanbanTransitionCommand) (clock : String)
  | renewLease (leaseId expiresAt : String)
  | update (patch : KanbanTaskUpdate) (clock : String)
  | comment (note : KanbanComment)
  deriving DecidableEq, Repr

def KanbanTask.patched (current : KanbanTask) (patch : KanbanTaskUpdate) (clock : String) :
    KanbanTask :=
  { current with
    title := patch.title.getD current.title
    goal := patch.goal <|> current.goal
    acceptanceCriteria := patch.acceptanceCriteria.getD current.acceptanceCriteria
    priority := patch.priority.getD current.priority
    labels := patch.labels.getD current.labels
    deadline := patch.deadline <|> current.deadline
    scheduledAt := patch.scheduledAt <|> current.scheduledAt
    version := current.version + 1
    updatedAt := patch.at_.getD clock }

/-- The event that is written and the task that is indexed after it. -/
def Mutation.apply (f : Formats) (current : KanbanTask) :
    Mutation → Except KanbanError (KanbanTaskEvent × KanbanTask)
  | .transition command clock =>
    match applyTransition current command clock with
    | .error e => .error e
    | .ok next => .ok (.statusChanged current.status next.status command.reason next, next)
  | .renewLease leaseId expiresAt =>
    if current.status ≠ .running ∨ current.leaseId? ≠ some leaseId then
      .error (.leaseLost current.id leaseId)
    else .ok (.leaseRenewed leaseId expiresAt, current.renewed expiresAt)
  | .update patch clock =>
    if patch.expectedVersion ≠ current.version then
      .error (.versionConflict current.id patch.expectedVersion current.version)
    else
      match parseTask f (current.patched patch clock) with
      | .error e => .error e
      | .ok next => .ok (.updated next, next)
  | .comment note => .ok (.commented note, { current.commentedWith note with updatedAt := note.at_ })

/-- Where the task of an append comes from. -/
inductive Origin where
  | created (init : NewKanbanTaskInit)
  | mutated (base : KanbanTask) (mutation : Mutation)
  deriving DecidableEq

/-- An append that an operation asks for, and the task it indexes once the append has landed. -/
structure Commit where
  taskId : KanbanTaskId
  origin : Origin
  event : KanbanTaskEvent
  expectedSequence : ℕ
  next : KanbanTask
  deriving DecidableEq

def mutate (f : Formats) (tasks : Tasks) (taskId : KanbanTaskId) (mutation : Mutation) :
    Except KanbanError Commit :=
  match tasks.get taskId with
  | none => .error (.notFound taskId)
  | some current =>
    match mutation.apply f current with
    | .error e => .error e
    | .ok (event, next) =>
      .ok { taskId, origin := .mutated current mutation, event
            expectedSequence := current.version + 1, next }

section Mutations
variable (f : Formats) (tasks : Tasks) (taskId : KanbanTaskId)

/-- `expectedVersion + 1` of the command is the version of the task plus one. -/
def transition (command : KanbanTransitionCommand) (clock : String) : Except KanbanError Commit :=
  mutate f tasks taskId (.transition command clock)

def renewLease (leaseId expiresAt : String) : Except KanbanError Commit :=
  mutate f tasks taskId (.renewLease leaseId expiresAt)

def update (patch : KanbanTaskUpdate) (clock : String) : Except KanbanError Commit :=
  mutate f tasks taskId (.update patch clock)

def comment (input : KanbanCommentInput) (uuid clock : String) : Except KanbanError Commit :=
  mutate f tasks taskId
    (.comment { id := uuid, author := input.author, body := input.body
                at_ := input.at_.getD clock })

/-- The append of a new task, at the start of a stream of its own. -/
def create (init : NewKanbanTaskInit) (uuid clock : String) : Except KanbanError Commit :=
  match newKanbanTask f init uuid clock with
  | .error e => .error e
  | .ok task =>
    .ok { taskId := task.id, origin := .created init, event := .created task
          expectedSequence := 1, next := task }

end Mutations

/-- The task that a create with a key finds instead of making one. -/
def existing? (tasks : Tasks) (idempotency : OrderedMap String KanbanTaskId)
    (init : NewKanbanTaskInit) : Option KanbanTask := do
  let key ← init.idempotencyKey
  let existingId ← idempotency.get key
  tasks.get existingId

/-- What a commit is: the start of a task, or a mutation of the task it names. -/
def Commit.Computed (f : Formats) (tasks : Tasks) (commit : Commit) : Prop :=
  match commit.origin with
  | .created init => ∃ uuid clock, newKanbanTask f init uuid clock = .ok commit.next ∧
      commit.taskId = commit.next.id ∧ commit.event = .created commit.next ∧
      commit.expectedSequence = 1
  | .mutated base mutation => tasks.get commit.taskId = some base ∧
      mutation.apply f base = .ok (commit.event, commit.next) ∧
      commit.expectedSequence = base.version + 1

theorem mutate_computed {f : Formats} {tasks : Tasks} {taskId : KanbanTaskId} {mutation : Mutation}
    {commit : Commit} (h : mutate f tasks taskId mutation = .ok commit) :
    commit.Computed f tasks ∧ commit.taskId = taskId ∧
      ∃ base, commit.origin = .mutated base mutation := by
  unfold mutate at h
  split at h
  · cases h
  · next current hget =>
    split at h
    · cases h
    · next event next happly =>
      cases h
      exact ⟨⟨hget, happly, rfl⟩, rfl, current, rfl⟩

theorem create_computed {f : Formats} (tasks : Tasks) {init : NewKanbanTaskInit}
    {uuid clock : String} {commit : Commit} (h : create f init uuid clock = .ok commit) :
    commit.Computed f tasks ∧ commit.origin = .created init := by
  unfold create at h
  split at h
  · cases h
  · next task htask =>
    cases h
    exact ⟨⟨uuid, clock, htask, rfl, rfl, rfl⟩, rfl⟩

end BeeAgent.Kanban
