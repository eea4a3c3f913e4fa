import BeeAgent.Chronicle.Stream
import BeeAgent.Execution.Request
import BeeAgent.Transition.Machine
import Mathlib.Logic.Function.Basic

/-! The execution world as a machine: any number of `execute` calls that interleave between their
awaits, over the durable streams of the Chronicle store, with crashes. -/
namespace BeeAgent.Execution
open BeeAgent.Data BeeAgent.Chronicle

structure ActionResult where
  output : Value
  content : String
  isError : Option Bool := none
  worldDiff : Option Value := none
  verification : List String := []

inductive ExecutionPayload where
  | requested (request : ActionRequest) (requestDigest : String)
  | permissionSnapshot (requestId : String) (snapshot : PermissionSnapshot)
  | authorized (requestId reason : String)
  | approvalRequired (requestId approvalId title detail : String)
  | denied (requestId reason : String)
  | started (requestId : String)
  | completed (requestId : String) (result : ActionResult)
  | failed (requestId message : String)

inductive EventType where
  | requested | permissionSnapshot | authorized | approvalRequired | denied | started | completed
  | failed
  deriving DecidableEq, Repr

def ExecutionPayload.eventType : ExecutionPayload → EventType
  | .requested .. => .requested
  | .permissionSnapshot .. => .permissionSnapshot
  | .authorized .. => .authorized
  | .approvalRequired .. => .approvalRequired
  | .denied .. => .denied
  | .started .. => .started
  | .completed .. => .completed
  | .failed .. => .failed

abbrev ExecutionEvent := ChronicleEvent ExecutionPayload

def ExecutionEvent.eventType (e : ExecutionEvent) : EventType := e.payload.eventType

def eventTypes (stream : List ExecutionEvent) : List EventType :=
  stream.map ExecutionEvent.eventType

/-- `existing.some((item) => item.eventType === type)`. -/
def recorded (type : EventType) (existing : List ExecutionEvent) : Bool :=
  existing.any fun e => e.eventType == type

inductive ApprovalAnswer where
  | approved | rejected
  deriving DecidableEq

inductive ExecutionOutcome where
  | result (result : ActionResult) (replayed : Bool)
  | approvalRequired (approvalId title detail : String)
  | denied (reason : String)
  | reconciliationRequired (reason : String)

inductive ExecutionError where
  | idempotencyKeyCollision (idempotencyKey : String)
  | sequenceConflict (streamId : String) (conflict : ChronicleSequenceConflictError)
  | thrown (message : String)

def ExecutionError.message : ExecutionError → String
  | .idempotencyKeyCollision key => "Idempotency key '" ++ key ++ "' was reused for another action"
  | .sequenceConflict streamId c =>
    "Chronicle stream '" ++ streamId ++ "' expected next sequence " ++
      toString c.expectedSequence ++ " but the next free sequence is " ++
      toString c.actualNextSequence
  | .thrown message => message

abbrev Settlement := Except ExecutionError ExecutionOutcome

structure SecretBroker where
  redact : String → String

/-- What one world is constructed with. The policy and the sandbox answer through the inputs of
the machine. -/
structure Host where
  sha256 : String → String
  secrets : Option SecretBroker

mutual
def redactUnknown (broker : SecretBroker) : Value → Value
  | .string s => .string (broker.redact s)
  | .array items => .array (redactItems broker items)
  | .object fields => .object (redactFields broker fields)
  | v => v

def redactItems (broker : SecretBroker) : List Value → List Value
  | [] => []
  | v :: vs => redactUnknown broker v :: redactItems broker vs

def redactFields (broker : SecretBroker) : List (String × Value) → List (String × Value)
  | [] => []
  | (k, v) :: fs => (k, redactUnknown broker v) :: redactFields broker fs
end

def safeResult (host : Host) (result : ActionResult) (worldDiff : Value) : ActionResult :=
  match host.secrets with
  | none => { result with worldDiff := some worldDiff }
  | some broker =>
    { result with
      output := redactUnknown broker result.output
      content := broker.redact result.content
      worldDiff := some (redactUnknown broker worldDiff) }

/-- What `#execute` does once the append it awaits is durable. -/
inductive After where
  | decide (existing : List ExecutionEvent)
  | enforce (existing : List ExecutionEvent) (decision : AuthorizationDecision)
      (capabilities : SandboxCapabilityReport)
  | respond (outcome : ExecutionOutcome)
  | run (decision : AuthorizationDecision)
  | conclude (outcome : ExecutionOutcome)
  | concludeFailed (outcome : ExecutionOutcome)

/-- The await at which a running `#execute` stands. -/
inductive ExecutePc where
  | reading
  | positioning (events : List ExecutionPayload) (after : After)
  | appending (expectedSequence : ℕ) (events : List ExecutionPayload) (after : After)
  | deciding (existing : List ExecutionEvent)
  | materializing (decision : AuthorizationDecision)
  | snapshotting (decision : AuthorizationDecision)
  | invoking (decision : AuthorizationDecision)
  | observing (result : ActionResult)
  | releasing (settlement : Settlement)

inductive Next where
  | goto (pc : ExecutePc)
  | settle (settlement : Settlement)

def appendThen (events : List ExecutionPayload) (after : After) : Next :=
  .goto (.positioning events after)

def requestedDigest? (e : ExecutionEvent) : Option String :=
  match e.payload with
  | .requested _ digest => some digest
  | _ => none

def completedResult? (e : ExecutionEvent) : Option ActionResult :=
  match e.payload with
  | .completed _ result => some result
  | _ => none

def deniedReason? (e : ExecutionEvent) : Option String :=
  match e.payload with
  | .denied _ reason => some reason
  | _ => none

def reconciliationReason : String :=
  "The action started without a durable result; automatic replay is unsafe"

/-- The replay scan over the persisted prefix. -/
def replay (host : Host) (request : ActionRequest) (existing : List ExecutionEvent) : Next :=
  let digest := requestDigest host.sha256 request
  match existing.findSome? requestedDigest? with
  | none => appendThen [.requested request digest] (.decide existing)
  | some recordedDigest =>
    if recordedDigest ≠ digest then
      .settle (.error (.idempotencyKeyCollision request.idempotencyKey))
    else
      match existing.findSome? completedResult? with
      | some result => .settle (.ok (.result result true))
      | none =>
        if recorded .started existing then
          .settle (.ok (.reconciliationRequired reconciliationReason))
        else
          match existing.findSome? deniedReason? with
          | some reason => .settle (.ok (.denied reason))
          | none => .goto (.deciding existing)

abbrev PolicyAnswer := PermissionSnapshot ⊕ AuthorizationDecision

def PolicyAnswer.decision : PolicyAnswer → AuthorizationDecision
  | .inl snapshot => ⟨snapshot.decision, snapshot.reason⟩
  | .inr decision => decision

def permissionSnapshot (request : ActionRequest) (policy : PolicyAnswer)
    (capabilities : SandboxCapabilityReport) : PermissionSnapshot :=
  match policy with
  | .inl snapshot => { snapshot with sandbox := some capabilities }
  | .inr decision =>
    { capability := request.capability
      decision := decision.decision
      reason := decision.reason
      layers := [⟨"policy", decision.decision, decision.reason⟩]
      sandbox := some capabilities }

def rejectedReason : String :=
  "用户拒绝了此操作。不要重试同一操作；如无需工具即可完成，请直接作答，否则换一条路径或向用户说明需要什么。"

def denyWith (request : ActionRequest) (reason : String) : Next :=
  appendThen [.denied request.id reason] (.respond (.denied reason))

/-- Everything from the permission snapshot to the start of the sandbox. -/
def enforce (host : Host) (request : ActionRequest) (approval : Option ApprovalAnswer)
    (existing : List ExecutionEvent) (decision : AuthorizationDecision)
    (capabilities : SandboxCapabilityReport) : Next :=
  if decision.decision = .deny ∨ approval = some .rejected then
    denyWith request (if approval = some .rejected then rejectedReason else decision.reason)
  else if decision.decision = .ask ∧ approval ≠ some .approved then
    let title := "Allow " ++ request.capability ++ "?"
    let detail := approvalDetail request
    let outcome := .approvalRequired request.id title detail
    if recorded .approvalRequired existing then .settle (.ok outcome)
    else appendThen [.approvalRequired request.id request.id title detail] (.respond outcome)
  else if 0 < request.requirements.secretEnv.length ∧ host.secrets.isNone then
    denyWith request "The action requires secrets but no SecretBroker is active"
  else if unsupported request.requirements capabilities ≠ [] then
    denyWith request ("Sandbox '" ++ capabilities.provider ++ "' cannot enforce: " ++
      ", ".intercalate (unsupported request.requirements capabilities))
  else
    appendThen [.authorized request.id
        (if decision.decision = .ask then "User approved the action" else decision.reason),
      .started request.id] (.run decision)

def authorize (host : Host) (request : ActionRequest) (approval : Option ApprovalAnswer)
    (existing : List ExecutionEvent) (policy : PolicyAnswer)
    (capabilities : SandboxCapabilityReport) : Next :=
  if recorded .permissionSnapshot existing then
    enforce host request approval existing policy.decision capabilities
  else
    appendThen [.permissionSnapshot request.id (permissionSnapshot request policy capabilities)]
      (.enforce existing policy.decision capabilities)

/-- The catch clause around the sandbox. -/
def caught (host : Host) (request : ActionRequest) (rawMessage : String) : Next :=
  let message := match host.secrets with
    | none => rawMessage
    | some broker => broker.redact rawMessage
  appendThen [.failed request.id (if message = "" then "Unknown execution failure" else message)]
    (.concludeFailed (.result
      { output := .object [("error", .string message)], content := message,
        isError := some true } false))

def appended (host : Host) (request : ActionRequest) (approval : Option ApprovalAnswer) :
    After → Next
  | .decide existing => .goto (.deciding existing)
  | .enforce existing decision capabilities =>
    enforce host request approval existing decision capabilities
  | .respond outcome => .settle (.ok outcome)
  | .run decision => .goto (.materializing decision)
  | .conclude outcome => .goto (.releasing (.ok outcome))
  | .concludeFailed outcome => .goto (.releasing (.ok outcome))

/-- An append that throws rejects the call, except inside the try block. -/
def appendFailed (host : Host) (request : ActionRequest) (error : ExecutionError) : After → Next
  | .conclude _ => caught host request error.message
  | .concludeFailed _ => .goto (.releasing (.error error))
  | _ => .settle (.error error)

/-- How an awaited operation settles. -/
inductive Await where
  | ok
  | capabilities (policy : PolicyAnswer) (report : SandboxCapabilityReport)
  | result (result : ActionResult)
  | diff (worldDiff : Value)
  | thrown (message : String)

/-- One `execute` call of the sandbox. -/
structure Invocation where
  idempotencyKey : String
  decision : Decision
  approval : Option ApprovalAnswer
  deriving DecidableEq

/-- The effect of one step of `#execute`. -/
structure BodyStep where
  next : Next
  stream : List ExecutionEvent
  drawn : ℕ := 0
  invoked : Option Invocation := none

def stamp (nextEventId : ℕ) (events : List ExecutionPayload) : List ExecutionEvent :=
  events.mapIdx fun i payload => ⟨nextEventId + i, payload⟩

/-- One await of `#execute` settles, and the code runs on to the next one. -/
def bodyStep (host : Host) (request : ActionRequest) (approval : Option ApprovalAnswer)
    (stream : List ExecutionEvent) (nextEventId : ℕ) : ExecutePc → Await → Option BodyStep
  | .reading, .ok => some { next := replay host request stream, stream }
  | .reading, .thrown message => some { next := .settle (.error (.thrown message)), stream }
  | .positioning events after, .ok =>
    some { next := .goto (.appending (getLatestSequence stream + 1) events after), stream }
  | .positioning _ after, .thrown message =>
    some { next := appendFailed host request (.thrown message) after, stream }
  | .appending expectedSequence events after, .ok =>
    match append stream (stamp nextEventId events) expectedSequence with
    | .ok stream' =>
      some { next := appended host request approval after, stream := stream',
             drawn := events.length }
    | .error conflict =>
      some { next := appendFailed host request (.sequenceConflict
               (executionStreamId host.sha256 request.idempotencyKey) conflict) after, stream }
  | .appending _ _ after, .thrown message =>
    some { next := appendFailed host request (.thrown message) after, stream }
  | .deciding existing, .capabilities policy report =>
    some { next := authorize host request approval existing policy report, stream }
  | .deciding _, .thrown message => some { next := .settle (.error (.thrown message)), stream }
  | .materializing decision, .ok => some { next := .goto (.snapshotting decision), stream }
  | .snapshotting decision, .ok =>
    some { next := .goto (.invoking decision), stream,
           invoked := some ⟨request.idempotencyKey, decision.decision, approval⟩ }
  | .invoking _, .result result => some { next := .goto (.observing result), stream }
  | .observing result, .diff worldDiff =>
    let safe := safeResult host result worldDiff
    some { next := appendThen [.completed request.id safe] (.conclude (.result safe false)), stream }
  | .materializing _, .thrown message | .snapshotting _, .thrown message
  | .invoking _, .thrown message | .observing _, .thrown message =>
    some { next := caught host request message, stream }
  | .releasing settlement, .ok => some { next := .settle settlement, stream }
  | .releasing _, .thrown message => some { next := .settle (.error (.thrown message)), stream }
  | _, _ => none

/-- Where an `execute` call stands. -/
inductive CallPc where
  | canonicalizing
  | joined (owner : ℕ)
  | executing (pc : ExecutePc)
  | settled (settlement : Settlement)
  | returned (settlement : Settlement)

structure Call where
  request : ActionRequest
  approval : Option ApprovalAnswer
  pc : CallPc

/-- The durable streams, and what one process holds in memory: the in-flight map and its calls. -/
structure World where
  streams : String → List ExecutionEvent
  secrets : Option SecretBroker
  inflight : String → Option ℕ
  calls : ℕ → Option Call
  nextCall : ℕ
  nextEventId : ℕ
  /-- Every call of the sandbox so far, oldest first. -/
  invocations : List Invocation

def World.initial (secrets : Option SecretBroker) : World :=
  { streams := fun _ => [], secrets, inflight := fun _ => none, calls := fun _ => none,
    nextCall := 0, nextEventId := 0, invocations := [] }

/-- After a crash a fresh world opens over the same streams. -/
inductive WorldInput where
  | execute (candidate : ActionRequest) (approval : Option ApprovalAnswer)
  | canonicalized (call : ℕ) (canonicalPath : String → Except String String)
  | rejoin (call : ℕ)
  | advance (call : ℕ) (await : Await)
  | finish (call : ℕ)
  | crash (secrets : Option SecretBroker)

def World.setCall (w : World) (c : ℕ) (call : Call) : World :=
  { w with calls := Function.update w.calls c (some call) }

def Next.toCallPc : Next → CallPc
  | .goto pc => .executing pc
  | .settle settlement => .settled settlement

variable (sha256 : String → String)

def World.stream (w : World) (idempotencyKey : String) : List ExecutionEvent :=
  w.streams (executionStreamId sha256 idempotencyKey)

/-- The synchronous part of `execute` behind the canonicalization: join the task in flight for
the key, or start one. -/
def enter (w : World) (c : ℕ) (call : Call) (request : ActionRequest) : World :=
  match w.inflight request.idempotencyKey with
  | some owner => w.setCall c { call with request, pc := .joined owner }
  | none =>
    { w.setCall c { call with request, pc := .executing .reading } with
      inflight := Function.update w.inflight request.idempotencyKey (some c) }

def runBody (w : World) (c : ℕ) (call : Call) (b : BodyStep) : World :=
  { w.setCall c { call with pc := b.next.toCallPc } with
    streams := Function.update w.streams
      (executionStreamId sha256 call.request.idempotencyKey) b.stream
    nextEventId := w.nextEventId + b.drawn
    invocations := w.invocations ++ b.invoked.toList }

def worldStep (w : World) : WorldInput → Option World
  | .execute candidate approval =>
    some { w.setCall w.nextCall ⟨candidate, approval, .canonicalizing⟩ with
      nextCall := w.nextCall + 1 }
  | .canonicalized c canonicalPath =>
    match w.calls c with
    | some call =>
      match call.pc with
      | .canonicalizing =>
        match canonicalizeActionRequest canonicalPath call.request with
        | .ok request => some (enter w c call request)
        | .error message =>
          some (w.setCall c { call with pc := .returned (.error (.thrown message)) })
      | _ => none
    | none => none
  | .rejoin c =>
    match w.calls c with
    | some call =>
      match call.pc with
      | .joined owner =>
        match (w.calls owner).map Call.pc with
        | some (.settled (.ok _)) | some (.returned (.ok _)) =>
          some (w.setCall c { call with pc := .canonicalizing })
        | some (.settled (.error e)) | some (.returned (.error e)) =>
          some (w.setCall c { call with pc := .returned (.error e) })
        | _ => none
      | _ => none
    | none => none
  | .advance c await =>
    match w.calls c with
    | some call =>
      match call.pc with
      | .executing pc =>
        (bodyStep ⟨sha256, w.secrets⟩ call.request call.approval
          (w.stream sha256 call.request.idempotencyKey) w.nextEventId pc await).map
          (runBody sha256 w c call)
      | _ => none
    | none => none
  | .finish c =>
    match w.calls c with
    | some call =>
      match call.pc with
      | .settled settlement =>
        some { w.setCall c { call with pc := .returned settlement } with
          inflight :=
            if w.inflight call.request.idempotencyKey = some c then
              Function.update w.inflight call.request.idempotencyKey none
            else w.inflight }
      | _ => none
    | none => none
  | .crash secrets => some { w with secrets, inflight := fun _ => none, calls := fun _ => none }

def machine : Transition.Machine World WorldInput := ⟨worldStep sha256⟩

section Lemmas
variable {sha256}

theorem setCall_calls_cases {w : World} {c c' : ℕ} {call call' : Call}
    (h : (w.setCall c call).calls c' = some call') :
    c' = c ∧ call' = call ∨ c' ≠ c ∧ w.calls c' = some call' := by
  by_cases hcc : c' = c
  · subst hcc
    simp only [World.setCall, Function.update_self, Option.some.injEq] at h
    exact .inl ⟨rfl, h.symm⟩
  · simp only [World.setCall, Function.update_of_ne hcc] at h
    exact .inr ⟨hcc, h⟩

theorem executionStreamId_injective (hsha : Function.Injective sha256) :
    Function.Injective (executionStreamId sha256) :=
  fun _ _ h => hsha ((String.append_right_inj _).mp h)

theorem runBody_stream_self (w : World) (c : ℕ) (call : Call) (b : BodyStep) :
    (runBody sha256 w c call b).stream sha256 call.request.idempotencyKey = b.stream :=
  Function.update_self ..

theorem runBody_stream_of_ne (hsha : Function.Injective sha256) (w : World) (c : ℕ) (call : Call)
    (b : BodyStep) {idempotencyKey : String} (hne : idempotencyKey ≠ call.request.idempotencyKey) :
    (runBody sha256 w c call b).stream sha256 idempotencyKey = w.stream sha256 idempotencyKey :=
  Function.update_of_ne (fun h => hne (executionStreamId_injective hsha h)) ..

end Lemmas

/-- What one step of the world can do. -/
inductive WorldMove (w : World) : WorldInput → World → Prop where
  | execute {candidate approval} :
    WorldMove w (.execute candidate approval) { w.setCall w.nextCall ⟨candidate, approval, .canonicalizing⟩ with
      nextCall := w.nextCall + 1 }
  | enter {input c call canonicalPath request} (hc : w.calls c = some call)
    (hpc : call.pc = .canonicalizing)
    (hreq : canonicalizeActionRequest canonicalPath call.request = .ok request) :
    WorldMove w input (enter w c call request)
  | refuse {input c call message} (hc : w.calls c = some call) (hpc : call.pc = .canonicalizing) :
    WorldMove w input (w.setCall c { call with pc := .returned (.error (.thrown message)) })
  | rejoin {input c call owner} (hc : w.calls c = some call) (hpc : call.pc = .joined owner) :
    WorldMove w input (w.setCall c { call with pc := .canonicalizing })
  | reject {input c call owner error} (hc : w.calls c = some call) (hpc : call.pc = .joined owner) :
    WorldMove w input (w.setCall c { call with pc := .returned (.error error) })
  | body {input c call pc await b} (hc : w.calls c = some call) (hpc : call.pc = .executing pc)
    (hb : bodyStep ⟨sha256, w.secrets⟩ call.request call.approval
      (w.stream sha256 call.request.idempotencyKey) w.nextEventId pc await = some b) :
    WorldMove w input (runBody sha256 w c call b)
  | finish {input c call settlement} (hc : w.calls c = some call)
    (hpc : call.pc = .settled settlement) :
    WorldMove w input { w.setCall c { call with pc := .returned settlement } with
      inflight :=
        if w.inflight call.request.idempotencyKey = some c then
          Function.update w.inflight call.request.idempotencyKey none
        else w.inflight }
  | crash {input secrets} :
    WorldMove w input { w with secrets, inflight := fun _ => none, calls := fun _ => none }

theorem worldStep_move {sha256 : String → String} {w w' : World} {input : WorldInput}
    (h : worldStep sha256 w input = some w') : WorldMove sha256 w input w' := by
  cases input with
  | execute candidate approval =>
    cases h
    exact .execute
  | canonicalized c canonicalPath =>
    simp only [worldStep] at h
    split at h <;> [skip; cases h]
    next call hc =>
    split at h <;> [skip; cases h]
    next hpc =>
    split at h
    · next request hreq =>
      cases h
      exact .enter hc hpc hreq
    · cases h
      exact .refuse hc hpc
  | rejoin c =>
    simp only [worldStep] at h
    split at h <;> [skip; cases h]
    next call hc =>
    split at h <;> [skip; cases h]
    next owner hpc =>
    split at h
    · cases h
      exact .rejoin hc hpc
    · cases h
      exact .rejoin hc hpc
    · cases h
      exact .reject hc hpc
    · cases h
      exact .reject hc hpc
    · cases h
  | advance c await =>
    simp only [worldStep] at h
    split at h <;> [skip; cases h]
    next call hc =>
    split at h <;> [skip; cases h]
    next pc hpc =>
    obtain ⟨b, hb, rfl⟩ := Option.map_eq_some_iff.mp h
    exact .body hc hpc hb
  | finish c =>
    simp only [worldStep] at h
    split at h <;> [skip; cases h]
    next call hc =>
    split at h <;> [skip; cases h]
    next settlement hpc =>
    cases h
    exact .finish hc hpc
  | crash secrets =>
    cases h
    exact .crash

end BeeAgent.Execution
