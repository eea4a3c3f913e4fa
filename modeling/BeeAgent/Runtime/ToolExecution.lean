import BeeAgent.Execution.World
import BeeAgent.Runtime.Turns

/-! The tool service, which turns each dispatch of the loop into one action request, and the system
of the loop and the execution world behind it, with crashes of the whole process. -/
namespace BeeAgent.Runtime
open BeeAgent.Data BeeAgent.Thread BeeAgent.Execution

structure ToolActionDescriptor where
  capability : String
  requirements : ResourceRequirements
  expectedEffects : List String
  verification : List String

/-- What the tool plugins answer; `describe` and `present` may throw. -/
structure ToolExecutor where
  describe : ToolCall → Except String ToolActionDescriptor
  present : Option (ActionResult → ToolCall → Except String ActionResult) := none

/-- One process: the loop on a thread, and the tools. The world and the loop share the hash. -/
structure Deployment where
  options : AgentLoopOptions
  threadId : String
  executor : ToolExecutor

def idempotencyKey (uuid : ℕ → String) (turnId : TurnId) (call : ToolCall) : String :=
  "tool:" ++ uuid turnId ++ ":" ++ call.callId

/-- The request of one `ToolExecutionService.execute`. -/
def toolRequest (d : Deployment) (descriptor : ToolActionDescriptor) (turnId : TurnId)
    (item : ItemId) (call : ToolCall) (structureVersion : Option String) : ActionRequest :=
  { id := d.options.uuid item
    idempotencyKey := idempotencyKey d.options.uuid turnId call
    capability := descriptor.capability
    subject := ⟨.agent, "bee"⟩
    input := .object [("call", toolCallValue call)]
    requirements := descriptor.requirements
    expectedEffects := descriptor.expectedEffects
    verification := descriptor.verification
    scope := { threadId := d.threadId, turnId := d.options.uuid turnId,
               itemId := some (d.options.uuid item) }
    structureVersion }

/-- An outcome without a result, as the result that the model sees. -/
def reasonResult (reason : String) : ActionResult :=
  { output := .object [("error", .string reason)], content := reason, isError := some true }

/-- What `execute` comes to when the world returns. -/
def toolAnswer (executor : ToolExecutor) (call : ToolCall) : Settlement → ToolAnswer
  | .ok (.result result _) =>
    match executor.present with
    | none => .outcome (.result result)
    | some present =>
      match present result call with
      | .ok presented => .outcome (.result presented)
      | .error message => .thrown message
  | .ok (.approvalRequired approvalId title detail) =>
    .outcome (.approvalRequired approvalId title detail)
  | .ok (.denied reason) | .ok (.reconciliationRequired reason) =>
    .outcome (.result (reasonResult reason))
  | .error error => .thrown error.message

/-- `executions` holds the call of the world behind the newest dispatch of an item. -/
structure System where
  loop : Loop
  world : World
  executions : ItemId → Option ℕ

def System.initial (secrets : Option SecretBroker) : System :=
  { loop := Loop.initial, world := World.initial secrets, executions := fun _ => none }

inductive SystemInput where
  | loop (input : LoopInput)
  /-- A tool call that a task awaits has come to its end: that of a slot, or the approved one. -/
  | answer (task : ℕ) (index : Option ℕ)
  | world (input : WorldInput)
  | crash (secrets : Option SecretBroker)

def LoopInput.answersTool : LoopInput → Bool
  | .advance _ (.slot ..) | .advance _ (.tool _) => true
  | _ => false

/-- The inputs of the world that neither a dispatch nor a crash of the process gives. -/
def isInner : WorldInput → Bool
  | .execute .. | .crash _ => false
  | _ => true

def LoopInput.structureVersion? (s : Loop) : LoopInput → Option String
  | .advance t _ => (s.tasks t).bind fun task => task.state.turn.structureVersion
  | _ => none

variable (d : Deployment)

/-- One dispatch calls the world, unless `describe` throws. -/
def issue (structureVersion : Option String) (s : System) : Act → Option System
  | .dispatch turnId item call approval =>
    match d.executor.describe call with
    | .error _ => some s
    | .ok descriptor =>
      (worldStep d.options.sha256 s.world (.execute
        (toolRequest d descriptor turnId item call structureVersion) approval)).map fun world =>
          { s with world, executions := Function.update s.executions item (some s.world.nextCall) }
  | _ => some s

def System.advanceLoop (s : System) (input : LoopInput) : Option System :=
  (loopStep d.options s.loop input).bind fun loop =>
    (loop.trace.drop s.loop.trace.length).foldlM (issue d (input.structureVersion? s.loop))
      { s with loop }

/-- The dispatched call that a task awaits. -/
def awaitedTool? : Pc → Option ℕ → Option (ItemId × ToolCall)
  | .approved pending _, none => some (pending.toolItem.1, pending.call)
  | .settling _ slots _, some index =>
    slots[index]?.map fun slot => (slot.intent.item, slot.intent.call)
  | _, _ => none

def settledAnswer? (s : System) (item : ItemId) (call : ToolCall) : Option ToolAnswer :=
  match d.executor.describe call with
  | .error message => some (.thrown message)
  | .ok _ =>
    match ((s.executions item).bind s.world.calls).map Call.pc with
    | some (.returned settlement) => some (toolAnswer d.executor call settlement)
    | _ => none

def answerInput (answer : ToolAnswer) : Option ℕ → TaskInput
  | none => .tool answer
  | some index => .slot index answer

def Loop.crash (s : Loop) : Loop := { s with tasks := fun _ => none }

def systemStep (s : System) : SystemInput → Option System
  | .loop input => if input.answersTool then none else s.advanceLoop d input
  | .answer t index =>
    (s.loop.tasks t).bind fun task =>
      (awaitedTool? task.pc index).bind fun (item, call) =>
        (settledAnswer? d s item call).bind fun answer =>
          s.advanceLoop d (.advance t (answerInput answer index))
  | .world input =>
    if isInner input then
      (worldStep d.options.sha256 s.world input).map fun world => { s with world }
    else none
  | .crash secrets =>
    (worldStep d.options.sha256 s.world (.crash secrets)).map fun world =>
      { loop := s.loop.crash, world, executions := fun _ => none }

def system : Transition.Machine System SystemInput := ⟨systemStep d⟩

/-- One tool, which needs approval. -/
def sampleDeployment : Deployment :=
  { options := sampleOptions, threadId := "thread"
    executor := { describe := fun _ => .ok ⟨"files.read", {}, [], []⟩ } }

/-- One call of the world from its entry to its return. -/
def worldInputs (c : ℕ) (awaits : List Await) : List SystemInput :=
  .world (.canonicalized c .ok) :: awaits.map (fun await => .world (.advance c await)) ++
    [.world (.finish c)]

def asks : Await := .capabilities (.inr ⟨.ask, "policy"⟩) ⟨"local", false, false, false⟩

/-- A call is suspended for approval, approved and run; the process dies before the checkpoint, and
the turn is recovered. -/
def recoveredRun : List SystemInput :=
  (startInputs 0 ++ replyInputs 0 [sampleCall "a"] .toolCalls).map .loop ++
    worldInputs 0 [.ok, .ok, .ok, asks, .ok, .ok, .ok, .ok] ++
    [.answer 0 (some 0), .loop (.advance 0 (.slotRecorded 0)), .loop (.advance 0 .proceed),
      .loop (.resumeTurn 0 "3" .approved), .loop (.advance 1 .proceed)] ++
    worldInputs 1 [.ok, asks, .ok, .ok, .ok, .ok, .result { output := .null, content := "A" },
      .diff .null, .ok, .ok, .ok] ++
    [.answer 1 none, .crash none, .loop (.recoverTurn 0)]

def redispatchInputs : List SystemInput :=
  [.loop (.advance 2 .proceed)] ++ worldInputs 2 [.ok] ++ [.answer 2 (some 0)]

end BeeAgent.Runtime
