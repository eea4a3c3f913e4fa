import BeeAgent.Execution.Binding
import BeeAgent.Posix.Paths

/-! Git worktrees through the execution world: the requests of `create` and `remove`, and what a
second attempt of the same operation meets. -/
namespace BeeAgent.Execution.Worktrees
open Data Chronicle Transition Transition.Machine

structure WorktreeRequestScope where
  threadId : String
  turnId : String
  structureVersion : Option String

structure WorktreeHandle where
  id : String
  path : String
  baseRef : String
  deriving DecidableEq, Repr

/-- The way from one path to another, as a text. -/
def relativeText (root path : String) : String :=
  String.ofList (['/'].intercalate
    ((Posix.relative (Posix.resolve [] root) (Posix.resolve [] path)).map String.toList))

def contained (root path : String) : Bool :=
  let child := relativeText root path
  child ≠ "" && !(child.toList.take 2 == ['.', '.']) && !isAbsolute child

/-- Provider options that the constructor accepts. -/
structure ExecutionWorktreeProvider where
  gitExecutable : String
  repositoryRoot : String
  worktreeRoot : String
  git : isAbsolute gitExecutable
  roots : isAbsolute repositoryRoot && isAbsolute worktreeRoot

def ExecutionWorktreeProvider.new (gitExecutable repositoryRoot worktreeRoot : String) :
    Except String ExecutionWorktreeProvider :=
  if git : isAbsolute gitExecutable then
    if roots : isAbsolute repositoryRoot && isAbsolute worktreeRoot then
      .ok ⟨gitExecutable, repositoryRoot, worktreeRoot, git, roots⟩
    else .error "Worktree roots must be absolute"
  else .error "Git executable must be absolute"

/-- `/^[a-zA-Z0-9][a-zA-Z0-9._-]{0,63}$/` -/
def safeName (name : String) : Bool :=
  match name.toList with
  | [] => false
  | c :: cs => c.isAlphanum && cs.length ≤ 63 &&
      cs.all fun d => d.isAlphanum || d == '.' || d == '_' || d == '-'

structure CreateInput where
  scope : WorktreeRequestScope
  name : String
  baseRef : Option String

/-- What is asked of the provider. -/
inductive Operation where
  | create (input : CreateInput)
  | remove (handle : WorktreeHandle) (scope : WorktreeRequestScope)

section Requests
variable (p : ExecutionWorktreeProvider)

/-- `#request` -/
def request (id key capability : String) (scope : WorktreeRequestScope) (command : List String)
    (effects : List String) : ActionRequest where
  id
  idempotencyKey := key
  capability
  subject := ⟨.system, "worktree-provider"⟩
  input := .object [("command", strings command)]
  requirements :=
    { readPaths := [p.repositoryRoot]
      writePaths := [p.repositoryRoot, p.worktreeRoot]
      networkTargets := []
      commands := [command]
      secretEnv := []
      workingDirectory := some p.repositoryRoot
      timeoutMs := some 120000
      maxOutputBytes := some 1048576 }
  expectedEffects := effects
  verification := ["git worktree list reflects the requested lifecycle change"]
  scope := ⟨scope.threadId, scope.turnId, none⟩
  structureVersion := scope.structureVersion

/-- `join(worktreeRoot, name)` -/
def worktreePath (name : String) : String :=
  Posix.text (Posix.join [] (Posix.components (p.worktreeRoot ++ "/" ++ name)))

/-- `create` with the id that it draws, up to its call of the world. -/
def create (input : CreateInput) (uuid : String) :
    Except String (WorktreeHandle × ActionRequest) :=
  if !safeName input.name then .error "Worktree name must be a safe 1-64 character slug"
  else
    let path := worktreePath p input.name
    if !contained p.worktreeRoot path then
      .error "Worktree path escapes the configured root"
    else
      let baseRef := input.baseRef.getD "HEAD"
      .ok (⟨uuid, path, baseRef⟩,
        request p uuid
          ("worktree:create:" ++ input.scope.threadId ++ ":" ++ input.scope.turnId ++ ":" ++
            input.name)
          "workspace:worktree:create" input.scope
          [p.gitExecutable, "-C", p.repositoryRoot, "worktree", "add", "--detach", path, baseRef]
          ["Create isolated Git worktree at " ++ path])

def remove (handle : WorktreeHandle) (scope : WorktreeRequestScope) (uuid : String) :
    Except String ActionRequest :=
  if !contained p.worktreeRoot handle.path then .error "Worktree path escapes the configured root"
  else .ok (request p uuid
    ("worktree:remove:" ++ scope.threadId ++ ":" ++ scope.turnId ++ ":" ++ handle.id)
    "workspace:worktree:remove" scope
    [p.gitExecutable, "-C", p.repositoryRoot, "worktree", "remove", "--force", handle.path]
    ["Remove isolated Git worktree at " ++ handle.path])

/-- The request of an attempt that draws the id. -/
def attempt (uuid : String) : Operation → Except String ActionRequest
  | .create input => (create p input uuid).map Prod.snd
  | .remove handle scope => remove p handle scope uuid

variable {p} {operation : Operation} {uuid uuid' : String} {candidate candidate' : ActionRequest}

theorem attempt_id (h : attempt p uuid operation = .ok candidate) : candidate.id = uuid := by
  cases operation with
  | create input =>
    simp only [attempt, create] at h
    split at h
    · cases h
    split at h
    · cases h
    · cases h
      rfl
  | remove handle scope =>
    simp only [attempt, remove] at h
    split at h
    · cases h
    · cases h
      rfl

end Requests

/-! ### The second attempt -/

section Retry
variable {sha256 : String → String}

def Fresh (uuid : String) (_ : World) (input : WorldInput) : Prop :=
  ∀ candidate approval, input = .execute candidate approval → candidate.id ≠ uuid

theorem bound_of_fresh {uuid : String} {secrets : Option SecretBroker} {w : World}
    (h : (machine sha256).Reaches (Fresh uuid) (World.initial secrets) w) :
    Bound sha256 (· ≠ uuid) w :=
  h.invariant (initial_bound secrets) fun _ _ _ hbound hfresh hstep =>
    (worldMove_bound hbound (worldStep_move hstep) hfresh).1

/-- A call resumes what is recorded: it returns the outcome, or goes on. -/
def Resumes (existing : List ExecutionEvent) (pc : CallPc) : Prop :=
  if recorded .requested existing then
    match existing.findSome? completedResult? with
    | some result => pc = .settled (.ok (.result result true))
    | none =>
      if recorded .started existing then
        pc = .settled (.ok (.reconciliationRequired reconciliationReason))
      else
        match existing.findSome? deniedReason? with
        | some reason => pc = .settled (.ok (.denied reason))
        | none => pc = .executing (.deciding existing)
  else ∃ next, pc = .executing next

/-- The second attempt, up to what it makes of the stream that it reads. -/
def second (candidate : ActionRequest) (approval : Option ApprovalAnswer) (w : World)
    (canonicalPath : String → Except String String) : List WorldInput :=
  [.execute candidate approval, .canonicalized w.nextCall canonicalPath, .advance w.nextCall .ok]

theorem exec_second {w : World} {candidate request : ActionRequest}
    {canonicalPath : String → Except String String}
    (hcanonical : canonicalizeActionRequest canonicalPath candidate = .ok request)
    (hfree : w.inflight candidate.idempotencyKey = none) (approval : Option ApprovalAnswer) :
    ∃ w', (machine sha256).exec w (second candidate approval w canonicalPath) = some w' ∧
      (w'.calls w.nextCall).map Call.pc = some (replay ⟨sha256, w.secrets⟩ request
        (w.stream sha256 candidate.idempotencyKey)).toCallPc := by
  obtain ⟨-, hkey⟩ := canonicalizeActionRequest_key hcanonical
  rw [← hkey] at hfree ⊢
  simp [second, Machine.exec, machine, worldStep, World.setCall, hcanonical, enter, hfree, bodyStep,
    World.stream, runBody]

theorem not_resumes_collision {existing : List ExecutionEvent} {key : String}
    (h : recorded .requested existing) :
    ¬ Resumes existing (.settled (.error (.idempotencyKeyCollision key))) := by
  unfold Resumes
  rw [if_pos h]
  split
  · simp
  split
  · simp
  split <;> simp

theorem requestedDigest_none {existing : List ExecutionEvent}
    (h : recorded .requested existing = false) : existing.findSome? requestedDigest? = none := by
  refine List.findSome?_eq_none_iff.mpr fun e he => ?_
  have hother := List.any_eq_false.mp h e he
  obtain ⟨id, payload⟩ := e
  cases payload with
  | requested => exact absurd rfl hother
  | _ => rfl

/-- A second attempt resumes the execution exactly where the first one has left no request. -/
theorem worktree_retry_iff (hsha : Function.Injective sha256) {p : ExecutionWorktreeProvider}
    {operation : Operation} {uuid : String} {candidate request : ActionRequest}
    (hattempt : attempt p uuid operation = .ok candidate) {secrets : Option SecretBroker}
    {w : World} (h : (machine sha256).Reaches (Fresh uuid) (World.initial secrets) w)
    (hfree : w.inflight candidate.idempotencyKey = none)
    {canonicalPath : String → Except String String}
    (hcanonical : canonicalizeActionRequest canonicalPath candidate = .ok request)
    (approval : Option ApprovalAnswer) :
    ∃ w' pc, (machine sha256).exec w (second candidate approval w canonicalPath) = some w' ∧
      (w'.calls w.nextCall).map Call.pc = some pc ∧
      (Resumes (w.stream sha256 candidate.idempotencyKey) pc ↔
        recorded .requested (w.stream sha256 candidate.idempotencyKey) = false) := by
  obtain ⟨w', hexec, hpc⟩ := exec_second hcanonical hfree approval
  refine ⟨w', _, hexec, hpc, ?_⟩
  cases hrecorded : recorded .requested (w.stream sha256 candidate.idempotencyKey) with
  | true =>
    have helsewhere := (bound_of_fresh h).boundElsewhere hsha hrecorded (not_not.mpr rfl)
    have hid : request.id = uuid :=
      (canonicalizeActionRequest_key hcanonical).1.trans (attempt_id hattempt)
    rw [replay_boundElsewhere w.secrets (hid ▸ helsewhere)]
    simp only [Bool.true_eq_false, iff_false]
    exact not_resumes_collision hrecorded
  | false =>
    have hnone := requestedDigest_none hrecorded
    simp only [iff_true]
    rw [Resumes, hrecorded, if_neg (by simp), replay]
    simp only [hnone]
    exact ⟨_, rfl⟩

end Retry

/-! ### A worktree that waits for approval -/

def sampleProvider : ExecutionWorktreeProvider where
  gitExecutable := "/usr/bin/git"
  repositoryRoot := "/repo"
  worktreeRoot := "/trees"
  git := rfl
  roots := rfl

def sampleCreate : Operation := .create ⟨⟨"thread", "turn", none⟩, "fix", none⟩

def firstId : String := "0f1e2d3c-4b5a-4000-8000-000000000001"

def secondId : String := "0f1e2d3c-4b5a-4000-8000-000000000002"

def sampleKey : String := "worktree:create:thread:turn:fix"

def sampleRequest (uuid : String) : ActionRequest :=
  request sampleProvider uuid sampleKey "workspace:worktree:create" ⟨"thread", "turn", none⟩
    ["/usr/bin/git", "-C", "/repo", "worktree", "add", "--detach", "/trees/fix", "HEAD"]
    ["Create isolated Git worktree at /trees/fix"]

theorem attempt_sample (uuid : String) :
    attempt sampleProvider uuid sampleCreate = .ok (sampleRequest uuid) := by
  have hpath : worktreePath sampleProvider "fix" = "/trees/fix" := by decide +kernel
  have hname : safeName "fix" = true := by decide +kernel
  have hcontained : contained "/trees" "/trees/fix" = true := by decide +kernel
  have hcreate : create sampleProvider ⟨⟨"thread", "turn", none⟩, "fix", none⟩ uuid =
      .ok (⟨uuid, "/trees/fix", "HEAD"⟩, sampleRequest uuid) := by
    unfold create
    simp only [hname, hpath]
    rw [show sampleProvider.worktreeRoot = "/trees" from rfl, hcontained]
    rfl
  rw [sampleCreate, attempt, hcreate]
  rfl

def crashedEarly : List WorldInput :=
  [.execute (sampleRequest firstId) none, .canonicalized 0 .ok, .advance 0 .ok, .crash none]

theorem canonicalize_sample :
    canonicalizeActionRequest .ok (sampleRequest secondId) = .ok (sampleRequest secondId) := by
  rfl

theorem worktree_retry_sample : ∃ w w' pc,
    ((machine id).exec (World.initial none) crashedEarly = some w ∧ w.stream id sampleKey = []) ∧
    (machine id).exec w (second (sampleRequest secondId) none w .ok) = some w' ∧
    (w'.calls w.nextCall).map Call.pc = some pc ∧
    (Resumes (w.stream id sampleKey) pc ↔
      recorded .requested (w.stream id sampleKey) = false) := by
  have hrun : ((machine id).exec (World.initial none) crashedEarly).map (fun w =>
      ((w.stream id sampleKey).isEmpty, (w.inflight sampleKey).isNone)) = some (true, true) := by
    decide +kernel
  obtain ⟨w, hw, hread⟩ := Option.map_eq_some_iff.mp hrun
  obtain ⟨hempty, hfree⟩ := Prod.mk.inj hread
  have hguarded : (machine id).Guarded (Fresh secondId) (World.initial none) crashedEarly := by
    refine guarded_of_allSteps (fun _ input hcheck candidate approval heq => ?_) _
      (by decide +kernel : (machine id).allSteps (fun _ input => match input with
        | .execute candidate _ => candidate.id != secondId
        | _ => true) (World.initial none) crashedEarly = true)
    subst heq
    simpa using hcheck
  have hfree : w.inflight (sampleRequest secondId).idempotencyKey = none :=
    Option.isNone_iff_eq_none.mp hfree
  obtain ⟨w', pc, hexec, hpc, hiff⟩ := worktree_retry_iff Function.injective_id
    (attempt_sample secondId) (exec_reaches crashedEarly hguarded hw) hfree canonicalize_sample none
  exact ⟨w, w', pc, ⟨hw, List.isEmpty_iff.mp hempty⟩, hexec, hpc, hiff⟩

/-- The first attempt waits for approval. -/
def waitsForApproval : List WorldInput :=
  [.execute (sampleRequest firstId) none, .canonicalized 0 .ok, .advance 0 .ok, .advance 0 .ok,
    .advance 0 .ok,
    .advance 0 (.capabilities (.inr ⟨.ask, "worktrees are asked for"⟩) ⟨"bwrap", true, true, true⟩),
    .advance 0 .ok, .advance 0 .ok, .advance 0 .ok, .advance 0 .ok, .finish 0]

def outcomeText (pc : CallPc) : String :=
  match pc with
  | .returned (.ok (.approvalRequired _ title _)) => title
  | .settled (.error error) => error.message
  | _ => ""

/-- The second attempt brings the approval, and collides. -/
theorem approval_collides :
    (attempt sampleProvider firstId sampleCreate = .ok (sampleRequest firstId) ∧
      attempt sampleProvider secondId sampleCreate = .ok (sampleRequest secondId)) ∧
    ∃ w, (machine id).Reaches anyStep (World.initial none) w ∧
    (eventTypes (w.stream id sampleKey), (w.calls 0).map (fun call => outcomeText call.pc),
      (w.calls 1).map (fun call => outcomeText call.pc)) =
    ([.requested, .permissionSnapshot, .approvalRequired],
      some "Allow workspace:worktree:create?",
      some "Idempotency key 'worktree:create:thread:turn:fix' was reused for another action") :=
  ⟨⟨attempt_sample firstId, attempt_sample secondId⟩,
    exists_reaches_of_exec_map (waitsForApproval ++
      [.execute (sampleRequest secondId) (some .approved), .canonicalized 1 .ok, .advance 1 .ok])
      (by decide +kernel)⟩

end BeeAgent.Execution.Worktrees
