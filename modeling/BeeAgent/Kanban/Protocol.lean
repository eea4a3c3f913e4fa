import BeeAgent.Data.Value

/-! The durable task card of the board, the schema a card is parsed by, and the card a new task
starts as. -/
namespace BeeAgent.Kanban
open Data

abbrev KanbanTaskId := String

inductive KanbanTaskStatus where
  | inbox | triaged | ready | running | blocked | review | done | failed | cancelled | archived
  deriving DecidableEq, Repr

namespace KanbanTaskStatus

def name : KanbanTaskStatus → String
  | inbox => "inbox"
  | triaged => "triaged"
  | ready => "ready"
  | running => "running"
  | blocked => "blocked"
  | review => "review"
  | done => "done"
  | failed => "failed"
  | cancelled => "cancelled"
  | archived => "archived"

end KanbanTaskStatus

inductive KanbanPriority where
  | lowest | low | medium | high | urgent
  deriving DecidableEq, Repr

inductive KanbanDependencyKind where
  | blocks | related
  deriving DecidableEq, Repr

/-- `satisfiedWhen` is the status the other task must have; `done` when it is left out. -/
structure KanbanDependency where
  taskId : KanbanTaskId
  kind : KanbanDependencyKind
  satisfiedWhen : Option KanbanTaskStatus := none
  deriving DecidableEq, Repr

structure KanbanSource where
  threadId : String
  turnId : Option String := none
  itemId : Option String := none
  deriving DecidableEq, Repr

structure KanbanWorkspace where
  workspaceId : String
  path : Option String := none
  deriving DecidableEq, Repr

structure KanbanBudget where
  maxTokens : Option ℤ := none
  maxCostCents : Option ℤ := none
  maxDurationMs : Option ℤ := none
  deriving DecidableEq, Repr

/-- The lease of the worker that runs the task; `leaseId` is the fencing token. -/
structure KanbanClaimLease where
  claimant : String
  leaseId : String
  claimedAt : String
  expiresAt : String
  deriving DecidableEq, Repr

structure KanbanRef where
  id : String
  version : String
  deriving DecidableEq, Repr

structure KanbanComment where
  id : String
  author : String
  body : String
  at_ : String
  deriving DecidableEq, Repr

structure KanbanTask where
  id : KanbanTaskId
  title : String
  goal : Option String
  acceptanceCriteria : List String
  priority : KanbanPriority
  labels : List String
  dependencies : List KanbanDependency
  source : Option KanbanSource
  workspace : Option KanbanWorkspace
  requiredCapabilities : List String
  budget : Option KanbanBudget
  scheduledAt : Option String
  deadline : Option String
  idempotencyKey : Option String
  status : KanbanTaskStatus
  claim : Option KanbanClaimLease
  artifactRefs : List KanbanRef
  trajectoryRefs : List KanbanRef
  comments : List KanbanComment
  version : ℕ
  createdAt : String
  updatedAt : String
  endedAt : Option String
  deriving DecidableEq, Repr

inductive KanbanError where
  | notFound (taskId : KanbanTaskId)
  | leaseLost (taskId : KanbanTaskId) (leaseId : String)
  | versionConflict (taskId : KanbanTaskId) (expectedVersion actualVersion : ℕ)
  | invalidTransition (src dst : KanbanTaskStatus)
  /-- `ZodError`: the paths of the fields that fail their schema. -/
  | zod (issues : List String)
  | sequenceConflict (expectedSequence actualNextSequence : ℕ)
  | commentedBeforeCreated
  | leaseRenewedBeforeCreated
  /-- `toISOString` of an invalid date. -/
  | invalidTime
  /-- The Chronicle store fails an append or a read. -/
  | chronicle
  deriving DecidableEq, Repr

/-- The string formats of the schemas. -/
structure Formats where
  uuid : String → Bool
  datetime : String → Bool

namespace Schema

def check (path : String) (ok : Bool) : List String := if ok then [] else [path]

def optional {α : Type} (o : Option α) (issues : α → List String) : List String :=
  o.elim [] issues

def each {α : Type} (path : String) (xs : List α) (issues : String → α → List String) :
    List String :=
  xs.zipIdx.flatMap fun (x, i) => issues (path ++ "." ++ toString i) x

/-- `z.string().min(1)` -/
def nonempty (path s : String) : List String := check path (s ≠ "")

/-- `z.number().int()` takes the safe integers only. -/
def safeInt (n : ℤ) : Bool := n.natAbs < 9007199254740992

def positive (path : String) (n : ℤ) : List String := check path (safeInt n && 0 < n)

def nonnegative (path : String) (n : ℤ) : List String := check path (safeInt n && 0 ≤ n)

variable (f : Formats)

def uuid (path s : String) : List String := check path (f.uuid s)

def datetime (path s : String) : List String := check path (f.datetime s)

def dependency (path : String) (d : KanbanDependency) : List String :=
  uuid f (path ++ ".taskId") d.taskId

def source (s : KanbanSource) : List String :=
  uuid f "source.threadId" s.threadId ++ optional s.turnId (uuid f "source.turnId") ++
    optional s.itemId (uuid f "source.itemId")

def budget (b : KanbanBudget) : List String :=
  optional b.maxTokens (positive "budget.maxTokens") ++
    optional b.maxCostCents (nonnegative "budget.maxCostCents") ++
    optional b.maxDurationMs (positive "budget.maxDurationMs")

def claim (c : KanbanClaimLease) : List String :=
  nonempty "claim.claimant" c.claimant ++ uuid f "claim.leaseId" c.leaseId ++
    datetime f "claim.claimedAt" c.claimedAt ++ datetime f "claim.expiresAt" c.expiresAt

def ref (path : String) (r : KanbanRef) : List String :=
  nonempty (path ++ ".id") r.id ++ nonempty (path ++ ".version") r.version

def comment (path : String) (c : KanbanComment) : List String :=
  uuid f (path ++ ".id") c.id ++ nonempty (path ++ ".author") c.author ++
    nonempty (path ++ ".body") c.body ++ datetime f (path ++ ".at") c.at_

def task (t : KanbanTask) : List String :=
  uuid f "id" t.id ++ nonempty "title" t.title ++ optional t.goal (nonempty "goal") ++
    each "acceptanceCriteria" t.acceptanceCriteria nonempty ++ each "labels" t.labels nonempty ++
    each "dependencies" t.dependencies (dependency f) ++ optional t.source (source f) ++
    optional t.workspace (fun w => nonempty "workspace.workspaceId" w.workspaceId) ++
    each "requiredCapabilities" t.requiredCapabilities nonempty ++ optional t.budget budget ++
    optional t.scheduledAt (datetime f "scheduledAt") ++
    optional t.deadline (datetime f "deadline") ++
    optional t.idempotencyKey (nonempty "idempotencyKey") ++ optional t.claim (claim f) ++
    each "artifactRefs" t.artifactRefs ref ++ each "trajectoryRefs" t.trajectoryRefs ref ++
    each "comments" t.comments (comment f) ++ positive "version" t.version ++
    datetime f "createdAt" t.createdAt ++ datetime f "updatedAt" t.updatedAt ++
    optional t.endedAt (datetime f "endedAt")

end Schema

/-- `KanbanTaskSchema.parse` -/
def parseTask (f : Formats) (t : KanbanTask) : Except KanbanError KanbanTask :=
  match Schema.task f t with
  | [] => .ok t
  | issues => .error (.zod issues)

theorem parseTask_ok {f : Formats} {t t' : KanbanTask} (h : parseTask f t = .ok t') : t' = t := by
  unfold parseTask at h
  split at h
  · exact (Except.ok.inj h).symm
  · cases h

-- only `parseTask_ok` tells what it does: no proof is to run the checks of a schema
attribute [irreducible] parseTask

structure NewKanbanTaskInit where
  title : String
  priority : Option KanbanPriority := none
  goal : Option String := none
  acceptanceCriteria : List String := []
  labels : List String := []
  dependencies : List KanbanDependency := []
  source : Option KanbanSource := none
  workspace : Option KanbanWorkspace := none
  requiredCapabilities : List String := []
  budget : Option KanbanBudget := none
  scheduledAt : Option String := none
  deadline : Option String := none
  idempotencyKey : Option String := none
  id : Option KanbanTaskId := none
  now : Option String := none
  deriving DecidableEq, Repr

/-- `uuid` and `clock` are what `randomUUID` and the clock give. -/
def newKanbanTask (f : Formats) (init : NewKanbanTaskInit) (uuid clock : String) :
    Except KanbanError KanbanTask :=
  let now := init.now.getD clock
  parseTask f
    { id := init.id.getD uuid
      title := init.title
      goal := init.goal
      acceptanceCriteria := init.acceptanceCriteria
      priority := init.priority.getD .medium
      labels := init.labels
      dependencies := init.dependencies
      source := init.source
      workspace := init.workspace
      requiredCapabilities := init.requiredCapabilities
      budget := init.budget
      scheduledAt := init.scheduledAt
      deadline := init.deadline
      idempotencyKey := init.idempotencyKey
      status := .inbox
      claim := none
      artifactRefs := []
      trajectoryRefs := []
      comments := []
      version := 1
      createdAt := now
      updatedAt := now
      endedAt := none }

/-- What every new task starts with. -/
structure Newborn (init : NewKanbanTaskInit) (t : KanbanTask) : Prop where
  version : t.version = 1
  status : t.status = .inbox
  claim : t.claim = none
  endedAt : t.endedAt = none
  idempotencyKey : t.idempotencyKey = init.idempotencyKey

theorem newborn_of_newKanbanTask {f : Formats} {init : NewKanbanTaskInit} {uuid clock : String}
    {t : KanbanTask} (h : newKanbanTask f init uuid clock = .ok t) : Newborn init t := by
  simp only [newKanbanTask] at h
  have heq := parseTask_ok h
  subst heq
  exact ⟨rfl, rfl, rfl, rfl, rfl⟩

end BeeAgent.Kanban
