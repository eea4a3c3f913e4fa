import BeeAgent.Kanban.Protocol

/-! The state machine of a task: the legal moves between statuses, what one transition makes of a
task, and the walk of several transitions. -/
namespace BeeAgent.Kanban

def kanbanTransitions : KanbanTaskStatus → List KanbanTaskStatus
  | .inbox => [.triaged, .cancelled, .failed, .archived]
  | .triaged => [.ready, .cancelled, .failed, .archived]
  | .ready => [.running, .cancelled, .failed, .archived]
  | .running => [.ready, .blocked, .review, .done, .cancelled, .failed, .archived]
  | .blocked => [.running, .ready, .cancelled, .failed, .archived]
  | .review => [.done, .running, .cancelled, .failed, .archived]
  | .done => [.archived]
  | .failed => [.ready, .running, .cancelled, .archived]
  | .cancelled => [.archived]
  | .archived => []

def kanbanTerminalStatuses : List KanbanTaskStatus := [.done, .failed, .cancelled, .archived]

def isTerminal (status : KanbanTaskStatus) : Bool := kanbanTerminalStatuses.contains status

def canTransition (src dst : KanbanTaskStatus) : Bool := (kanbanTransitions src).contains dst

structure KanbanTransitionCommand where
  dst : KanbanTaskStatus
  expectedVersion : ℕ
  reason : Option String := none
  at_ : Option String := none
  /-- The lease to attach when `running` is entered. -/
  claim : Option KanbanClaimLease := none
  deriving DecidableEq, Repr

def applyTransition (task : KanbanTask) (command : KanbanTransitionCommand) (clock : String) :
    Except KanbanError KanbanTask :=
  if command.expectedVersion ≠ task.version then
    .error (.versionConflict task.id command.expectedVersion task.version)
  else if canTransition task.status command.dst = false then
    .error (.invalidTransition task.status command.dst)
  else
    let at_ := command.at_.getD clock
    .ok { task with
      status := command.dst
      version := task.version + 1
      updatedAt := at_
      endedAt := if isTerminal command.dst then some at_ else task.endedAt
      claim := if command.dst = .running then command.claim <|> task.claim else none }

theorem applyTransition_ok {task next : KanbanTask} {command : KanbanTransitionCommand}
    {clock : String} (h : applyTransition task command clock = .ok next) :
    command.expectedVersion = task.version ∧ canTransition task.status command.dst ∧
      next = { task with
        status := command.dst
        version := task.version + 1
        updatedAt := command.at_.getD clock
        endedAt := if isTerminal command.dst then some (command.at_.getD clock) else task.endedAt
        claim := if command.dst = .running then command.claim <|> task.claim else none } := by
  unfold applyTransition at h
  split at h
  · cases h
  split at h
  · cases h
  · next hversion hto =>
    exact ⟨not_not.mp hversion, by simpa using hto, (Except.ok.inj h).symm⟩

/-- The statuses a walk does not pass through, however short that would be. -/
def terminalish (status : KanbanTaskStatus) : Bool :=
  status = .failed || status = .cancelled || status = .archived

/-- The moves from the end of `path` that lead to statuses not seen yet, in table order: the path
that arrives, or the paths to queue and the statuses seen now. -/
def extendPath (src dst : KanbanTaskStatus) (path : List KanbanTaskStatus) :
    List KanbanTaskStatus → List (List KanbanTaskStatus) → List KanbanTaskStatus →
      List KanbanTaskStatus ⊕ List (List KanbanTaskStatus) × List KanbanTaskStatus
  | [], queue, seen => .inr (queue, seen)
  | next :: rest, queue, seen =>
    if next ∈ seen then extendPath src dst path rest queue seen
    else if next ≠ dst && next ≠ src && terminalish next then
      extendPath src dst path rest queue seen
    else if next = dst then .inl (path ++ [next])
    else extendPath src dst path rest (queue ++ [path ++ [next]]) (seen ++ [next])

/-- Paths are kept without their start. -/
def searchPath (src dst : KanbanTaskStatus) :
    ℕ → List (List KanbanTaskStatus) → List KanbanTaskStatus → Option (List KanbanTaskStatus)
  | 0, _, _ | _, [], _ => none
  | fuel + 1, path :: queue, seen =>
    let last := path.getLastD src
    match extendPath src dst path (kanbanTransitions last) queue seen with
    | .inl found => some found
    | .inr (queue, seen) => searchPath src dst fuel queue seen

/-- The shortest legal walk, breadth first. A status enters the queue once, so that the ten
statuses bound the search. -/
def shortestTransitionPath (src dst : KanbanTaskStatus) : Option (List KanbanTaskStatus) :=
  if src = dst then some [] else searchPath src dst 10 [[]] [src]

/-- Consecutive statuses are legal moves. -/
def legalWalk : KanbanTaskStatus → List KanbanTaskStatus → Bool
  | _, [] => true
  | src, dst :: rest => canTransition src dst && legalWalk dst rest

/-- A legal walk to `dst` that passes through no failed, cancelled or archived task. -/
structure HealthyWalk (src dst : KanbanTaskStatus) (walk : List KanbanTaskStatus) : Prop where
  legal : legalWalk src walk
  arrives : walk.getLastD src = dst
  healthy : ∀ status ∈ walk, status = dst ∨ terminalish status = false

def statuses : List KanbanTaskStatus :=
  [.inbox, .triaged, .ready, .running, .blocked, .review, .done, .failed, .cancelled, .archived]

theorem mem_statuses (status : KanbanTaskStatus) : status ∈ statuses := by
  cases status <;> decide

def pathIsWalk (src dst : KanbanTaskStatus) : Bool :=
  (shortestTransitionPath src dst).all fun path => legalWalk src path && path.getLastD src = dst &&
    path.all fun status => status = dst || !terminalish status

theorem shortestTransitionPath_walk {src dst : KanbanTaskStatus} {path : List KanbanTaskStatus}
    (h : shortestTransitionPath src dst = some path) : HealthyWalk src dst path := by
  have hall : statuses.all fun src => statuses.all fun dst => pathIsWalk src dst := by decide +kernel
  have hpath := List.all_eq_true.mp (List.all_eq_true.mp hall src (mem_statuses src)) dst
    (mem_statuses dst)
  simp only [pathIsWalk, h, Option.all_some, Bool.and_eq_true, List.all_eq_true, Bool.or_eq_true,
    decide_eq_true_eq, Bool.not_eq_eq_eq_not, Bool.not_true] at hpath
  exact ⟨hpath.1.1, hpath.1.2, hpath.2⟩

/-- A move to where a path begins makes the path at most one move longer. -/
def extendsPath (src next dst : KanbanTaskStatus) : Bool :=
  !canTransition src next || next ≠ dst && terminalish next ||
    (shortestTransitionPath next dst).all fun rest =>
      (shortestTransitionPath src dst).any fun path => path.length ≤ rest.length + 1

theorem length_le_of_walk {dst : KanbanTaskStatus} {walk : List KanbanTaskStatus} :
    ∀ {src : KanbanTaskStatus}, HealthyWalk src dst walk →
      ∃ path, shortestTransitionPath src dst = some path ∧ path.length ≤ walk.length := by
  induction walk with
  | nil =>
    rintro src ⟨-, rfl, -⟩
    exact ⟨[], if_pos rfl, le_rfl⟩
  | cons next rest ih =>
    rintro src ⟨hlegal, harrives, hhealthy⟩
    obtain ⟨hedge, hlegal⟩ := Bool.and_eq_true_iff.mp hlegal
    obtain ⟨tail, htail, hle⟩ := ih
      ⟨hlegal, by rwa [List.getLastD_cons] at harrives, fun s hs => hhealthy s (by simp [hs])⟩
    have hall : statuses.all fun src => statuses.all fun next => statuses.all fun dst =>
        extendsPath src next dst := by decide +kernel
    have hextends := List.all_eq_true.mp (List.all_eq_true.mp (List.all_eq_true.mp hall src
      (mem_statuses src)) next (mem_statuses next)) dst (mem_statuses dst)
    have hpass : ¬ (next ≠ dst ∧ terminalish next) := by
      rintro ⟨hne, hterminal⟩
      simpa [hne, hterminal] using hhealthy next (by simp)
    simp only [extendsPath, hedge, htail, Option.all_some, Bool.not_true, Bool.false_or,
      Bool.or_eq_true, Bool.and_eq_true, decide_eq_true_eq, Option.any_eq_true] at hextends
    obtain ⟨path, hpath, hlen⟩ := hextends.resolve_left hpass
    exact ⟨path, hpath, hlen.trans (Nat.succ_le_succ hle)⟩

end BeeAgent.Kanban
