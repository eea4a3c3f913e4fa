import BeeAgent.Runtime.Exclusive
import BeeAgent.Runtime.GrantStore
import BeeAgent.Skills.Running

/-! The approval route: the grant of an approval that is to be remembered is recorded first, looked
up over the whole thread, and the turn is resumed after it. -/
namespace BeeAgent.Runtime
open Data Thread Execution
open Grants (Draw GrantError GrantEvent UserGrantStore)
open Grants.UserGrantStore (append payloadOf)
open Kanban (Formats)

structure DecideApproval where
  turnId : TurnId
  approvalId : String
  decision : ApprovalAnswer
  persist : Option Bool

def DecideApproval.remembers (request : DecideApproval) : Bool :=
  request.persist == some true && decide (request.decision = .approved)

/-- How the awaits of the route end. -/
structure RouteAwaits where
  draw : Draw
  attempts : ℕ → Grants.Attempt
  /-- What the thread is appended before the turn is rebuilt. -/
  arrived : List ThreadEvent
  /-- The completion of the approval item is appended. -/
  completed : Bool

inductive RouteError where
  | grant (error : GrantError)
  | resume (message : String)

/-- The tool of an approval item that goes by the id. -/
def toolOfApproval? (uuid : ℕ → String) (approvalId : String) : ThreadEvent → Option String
  | .itemStarted ⟨id, _, .approval payload⟩ | .itemCompleted ⟨id, _, .approval payload⟩ =>
    match payload.approvalId with
    | some own => if own = approvalId then payload.toolId else none
    | none => if uuid id = approvalId then payload.toolId else none
  | _ => none

def rememberedTool? (uuid : ℕ → String) (log : List ThreadEvent) (approvalId : String) :
    Option String :=
  log.findSome? (toolOfApproval? uuid approvalId)

def capabilityOfApproval (uuid : ℕ → String) (log : List ThreadEvent) (approvalId : String) :
    Option String :=
  (rememberedTool? uuid log approvalId).map ("tool:" ++ ·)

def rememberReason (approvalId : String) : String := "审批「" ++ approvalId ++ "」时选择记住"

variable (o : AgentLoopOptions) (f : Formats)

def remember (grants : UserGrantStore) (log : List ThreadEvent) (request : DecideApproval)
    (awaits : RouteAwaits) : Except GrantError UserGrantStore :=
  if request.remembers then
    match capabilityOfApproval o.uuid log request.approvalId with
    | some capability =>
      grants.record f capability (some (rememberReason request.approvalId)) (some "web") awaits.draw
        awaits.attempts
    | none => .ok grants
  else .ok grants

/-- The approval is completed with the decision, and the suspended call goes to the tools. -/
def resumedActs (turnId : TurnId) (pending : PendingApproval) (decision : ApprovalAnswer) :
    List Act :=
  let status := match decision with
    | .approved => .approved
    | .rejected => .rejected
  [.append (.itemCompleted ⟨pending.approvalItem.1, turnId,
      .approval { pending.approvalItem.2 with status }⟩),
    .dispatch turnId pending.toolItem.1 pending.call (some decision)]

/-- `resumeTurn` up to the dispatch of the suspended call. -/
def resumeTurn (log : List ThreadEvent) (request : DecideApproval) (completed : Bool) :
    Except String (List Act) :=
  match rebuild o log request.turnId with
  | .error _ => .error "The turn cannot be rebuilt"
  | .ok rebuilt =>
    match rebuilt.pendingApproval with
    | none => .error "The turn has no pending approval"
    | some pending =>
      if pending.approvalId ≠ request.approvalId then
        .error "The approval does not match the pending approval"
      else if completed then .ok (resumedActs request.turnId pending request.decision)
      else .error "The call failed"

/-- The grants after one request to the route, and what it resumes. -/
def approvalRoute (grants : UserGrantStore) (log : List ThreadEvent) (request : DecideApproval)
    (awaits : RouteAwaits) : UserGrantStore × Except RouteError (List Act) :=
  match remember o f grants log request awaits with
  | .error error => (grants, .error (.grant error))
  | .ok grants =>
    (grants, (resumeTurn o (log ++ awaits.arrived) request awaits.completed).mapError .resume)

/-- A grant that the request records is that of the action it resumes: the pending approval goes by
the id of the request and is approved, and the capability is the one that the tools describe the
suspended call with. -/
def Earned (executor : ToolExecutor) (grants : UserGrantStore) (log : List ThreadEvent)
    (request : DecideApproval) (awaits : RouteAwaits) : Prop :=
  let routed := approvalRoute o f grants log request awaits
  ∀ payload, routed.1.stream = grants.stream ++ [.recorded payload] →
    ∃ pending descriptor,
      findPendingApproval o.uuid (log ++ awaits.arrived) request.turnId = some pending ∧
      pending.approvalId = request.approvalId ∧
      routed.2 = .ok (resumedActs request.turnId pending .approved) ∧
      executor.describe pending.call = .ok descriptor ∧ payload.capability = descriptor.capability

/-- The grant can be written: its time is well formed, and one of two appends goes through. -/
def RouteAwaits.Writes (awaits : RouteAwaits) : Prop :=
  f.datetime awaits.draw.eventAt ∧
    (awaits.attempts 0 = .written ∨ awaits.attempts 0 = .refused ∧ awaits.attempts 1 = .written)

/-- When the turn is rebuilt its pending approval is the one of the request, nothing fails before
its completion, and the suspended call was described under the given tool's name. -/
def Answers (executor : ToolExecutor) (log : List ThreadEvent) (request : DecideApproval)
    (completed : Bool) (toolId : String) : Prop :=
  ∃ rebuilt pending descriptor, rebuild o log request.turnId = .ok rebuilt ∧
    rebuilt.pendingApproval = some pending ∧ pending.approvalId = request.approvalId ∧
    completed = true ∧ executor.describe pending.call = .ok descriptor ∧
    descriptor.capability = "tool:" ++ toolId

section
variable {o f} {grants : UserGrantStore} {log : List ThreadEvent} {request : DecideApproval}
  {awaits : RouteAwaits}

theorem resumeTurn_ok {completed : Bool} {acts : List Act} :
    resumeTurn o log request completed = .ok acts ↔ ∃ rebuilt pending,
      rebuild o log request.turnId = .ok rebuilt ∧ rebuilt.pendingApproval = some pending ∧
      pending.approvalId = request.approvalId ∧ completed = true ∧
      acts = resumedActs request.turnId pending request.decision := by
  rw [resumeTurn]
  cases hrebuild : rebuild o log request.turnId with
  | error error => simp
  | ok rebuilt =>
    cases hpending : rebuilt.pendingApproval with
    | none => simp [hpending]
    | some pending =>
      by_cases hid : pending.approvalId = request.approvalId <;>
        cases completed <;> simp [hpending, hid, eq_comm (a := acts)]

/-- In the machine of the loop these are the first two steps of the call. -/
theorem resumeTurn_loop {s : Loop} {acts : List Act}
    (h : resumeTurn o s.log request true = .ok acts) :
    ∃ s', (loop o).exec s [.resumeTurn request.turnId request.approvalId request.decision,
      .advance s.nextTask .proceed] = some s' ∧ s'.trace = s.trace ++ acts := by
  obtain ⟨rebuilt, pending, hrebuild, hpending, hid, -, rfl⟩ := resumeTurn_ok.mp h
  set task := rebuilt.task o (.deciding pending request.decision) with htask
  have hresume : resumeStep o s request.turnId request.approvalId request.decision =
      s.start task := by
    simp [resumeStep, hrebuild, hpending, hid, htask]
  have hlive : (s.start task).tasks s.nextTask = some task := by simp [Loop.start]
  have hstep : taskStep o (s.start task).log (s.start task).nextId task .proceed =
      some { acts := resumedActs request.turnId pending request.decision
             next := .continue (task.goto (.approved pending request.decision)) } := by
    rw [← rebuilt_task_turnId hrebuild (.deciding pending request.decision)]
    rfl
  refine ⟨(s.start task).apply s.nextTask
    { acts := resumedActs request.turnId pending request.decision
      next := .continue (task.goto (.approved pending request.decision)) }, ?_, rfl⟩
  simp only [Transition.Machine.exec, loop, loopStep, hresume, hlive, hstep, Option.bind_some,
    Option.map_some]

/-- The only thing that can be wrong with the grant of a tool is its time. -/
theorem grant_issues (toolId approvalId : String) (draw : Draw) :
    (payloadOf ("tool:" ++ toolId) (some (rememberReason approvalId)) (some "web") draw).issues f =
      [] ↔ f.datetime draw.eventAt := by
  have hcapability : "tool:" ++ toolId ≠ "" := by simp
  have hreason : rememberReason approvalId ≠ "" := by simp [rememberReason]
  by_cases hat : f.datetime draw.eventAt <;>
    simp [Grants.GrantPayload.issues, payloadOf, Kanban.Schema.nonempty, Kanban.Schema.optional,
      Kanban.Schema.check, Kanban.Schema.datetime, hcapability, hreason, hat]

theorem record_stream (grants : UserGrantStore) (awaits : RouteAwaits) (toolId approvalId : String) :
    let payload := payloadOf ("tool:" ++ toolId) (some (rememberReason approvalId)) (some "web")
      awaits.draw
    let recorded := grants.record f ("tool:" ++ toolId) (some (rememberReason approvalId))
      (some "web") awaits.draw awaits.attempts
    (awaits.Writes f → ∃ after, recorded = .ok after ∧
      after.stream = grants.stream ++ [.recorded payload]) ∧
    (¬ awaits.Writes f → ∀ after, recorded = .ok after → after.stream = grants.stream) := by
  intro payload recorded
  have hissues := grant_issues (f := f) toolId approvalId awaits.draw
  by_cases hat : f.datetime awaits.draw.eventAt
  · have hrecord : recorded = (append grants.stream (.recorded payload) awaits.attempts 2 0).map
        fun stream => { stream, granted := insert ("tool:" ++ toolId) grants.granted,
                        details := grants.details.set ("tool:" ++ toolId) ⟨"tool:" ++ toolId,
                          some (rememberReason approvalId), "web", awaits.draw.at_⟩ } := by
      simp only [recorded, UserGrantStore.record, hissues.mpr hat]
      rfl
    simp only [hrecord, RouteAwaits.Writes, hat, true_and, append]
    cases awaits.attempts 0 <;> cases awaits.attempts 1 <;> simp [Except.map]
  · refine ⟨fun hwrites => absurd hwrites.1 hat, fun _ after hafter => ?_⟩
    simp only [recorded, UserGrantStore.record] at hafter
    split at hafter
    · next hnil => exact absurd (hissues.mp hnil) hat
    · cases hafter

/-- The grant is recorded, and the turn resumed, just when something is to be remembered. -/
theorem approvalRoute_recorded (grants : UserGrantStore) {toolId : String} (hremembers : request.remembers)
    (htool : rememberedTool? o.uuid log request.approvalId = some toolId)
    (hwrites : awaits.Writes f) :
    ∃ payload, payload.capability = "tool:" ++ toolId ∧
      (approvalRoute o f grants log request awaits).1.stream =
        grants.stream ++ [.recorded payload] ∧
      (approvalRoute o f grants log request awaits).2 =
        (resumeTurn o (log ++ awaits.arrived) request awaits.completed).mapError .resume := by
  obtain ⟨after, hrecord, hstream⟩ :=
    (record_stream grants awaits toolId request.approvalId).1 hwrites
  have hroute : remember o f grants log request awaits = .ok after := by
    simp only [remember, hremembers, if_true, capabilityOfApproval, htool, Option.map_some, hrecord]
  refine ⟨payloadOf ("tool:" ++ toolId) (some (rememberReason request.approvalId)) (some "web")
    awaits.draw, rfl, ?_, ?_⟩
  · simp only [approvalRoute, hroute, hstream]
  · simp only [approvalRoute, hroute]

theorem approvalRoute_unrecorded (grants : UserGrantStore)
    (h : ∀ toolId, request.remembers → rememberedTool? o.uuid log request.approvalId = some toolId →
      ¬ awaits.Writes f) :
    (approvalRoute o f grants log request awaits).1.stream = grants.stream := by
  rw [approvalRoute]
  cases hremember : remember o f grants log request awaits with
  | error error => rfl
  | ok after =>
    simp only [remember] at hremember
    split at hremember
    · next hremembers =>
      cases htool : rememberedTool? o.uuid log request.approvalId with
      | none =>
        simp only [capabilityOfApproval, htool, Option.map_none] at hremember
        cases hremember
        rfl
      | some toolId =>
        simp only [capabilityOfApproval, htool, Option.map_some] at hremember
        exact (record_stream grants awaits toolId request.approvalId).2 (h toolId hremembers htool) _ hremember
    · cases hremember
      rfl

/-- A grant is earned if and only if there is nothing to remember, or it cannot be written, or the
request answers the pending approval and the first approval item of the thread under its id names
the tool that the suspended call was described as. -/
theorem approvals_earned (executor : ToolExecutor) :
    Earned o f executor grants log request awaits ↔
      ∀ toolId, request.remembers → rememberedTool? o.uuid log request.approvalId = some toolId →
        awaits.Writes f →
          Answers o executor (log ++ awaits.arrived) request awaits.completed toolId := by
  constructor
  · intro h toolId hremembers htool hwrites
    obtain ⟨payload, hcapability, hstream, hresumed⟩ :=
      approvalRoute_recorded grants hremembers htool hwrites
    obtain ⟨pending, descriptor, hpending, hid, hroute, hdescribe, hcap⟩ := h payload hstream
    rw [hresumed] at hroute
    cases hresume : resumeTurn o (log ++ awaits.arrived) request awaits.completed with
    | error message =>
      rw [hresume] at hroute
      cases hroute
    | ok acts =>
      obtain ⟨rebuilt, own, hrebuild, hown, hownId, hcompleted, -⟩ := resumeTurn_ok.mp hresume
      have hsame : own = pending := by
        rw [(rebuild_ok hrebuild).2.2.2.1, hpending] at hown
        exact (Option.some.inj hown).symm
      subst hsame
      exact ⟨rebuilt, own, descriptor, hrebuild, hown, hownId, hcompleted, hdescribe,
        hcap.symm.trans hcapability⟩
  · intro h payload hstream
    by_cases hrecords : ∃ toolId, request.remembers ∧
        rememberedTool? o.uuid log request.approvalId = some toolId ∧ awaits.Writes f
    · obtain ⟨toolId, hremembers, htool, hwrites⟩ := hrecords
      obtain ⟨rebuilt, pending, descriptor, hrebuild, hpending, hid, hcompleted, hdescribe, hcap⟩ :=
        h toolId hremembers htool hwrites
      obtain ⟨recorded, hcapability, hrecorded, hresumed⟩ :=
        approvalRoute_recorded grants hremembers htool hwrites
      have hpayload : recorded = payload := by
        rw [hrecorded] at hstream
        simpa using hstream
      have hdecision : request.decision = .approved := by
        rw [DecideApproval.remembers, Bool.and_eq_true] at hremembers
        exact of_decide_eq_true hremembers.2
      refine ⟨pending, descriptor, (rebuild_ok hrebuild).2.2.2.1 ▸ hpending, hid, ?_, hdescribe,
        hpayload ▸ hcapability.trans hcap.symm⟩
      rw [hresumed, resumeTurn_ok.mpr ⟨rebuilt, pending, hrebuild, hpending, hid, hcompleted, rfl⟩,
        hdecision]
      rfl
    · have hsame := approvalRoute_unrecorded grants
        fun toolId hremembers htool hwrites => hrecords ⟨toolId, hremembers, htool, hwrites⟩
      rw [hsame] at hstream
      simp at hstream

end

/-- A turn whose only call is suspended for the approval `ap`. -/
def awaitingApproval (call : ToolCall) : List LoopInput :=
  startInputs 0 ++ replyInputs 0 [call] .toolCalls ++
    advances 0 [.slot 0 (.outcome (.approvalRequired "ap" "title" "detail")), .slotRecorded 0,
      .proceed]

/-- The approval is rejected, and the turn goes on. -/
def rejectedRun : List LoopInput :=
  awaitingApproval (sampleCall "a") ++ [.resumeTurn 0 "ap" .rejected] ++
    advances 1 [.proceed, .tool (sampleAnswer "rejected")]

def logOf (inputs : List LoopInput) : List ThreadEvent :=
  (((loop sampleOptions).exec .initial inputs).map Loop.log).getD []

def rememberApproval : DecideApproval := ⟨0, "ap", .approved, some true⟩

def plainAwaits : RouteAwaits :=
  ⟨⟨"2026-01-05T09:00:00.000Z", "2026-01-05T09:00:00.000Z"⟩, fun _ => .written, [], true⟩

def grantOf (toolId : String) : Grants.GrantPayload :=
  ⟨"tool:" ++ toolId, some (rememberReason "ap"), "web", "2026-01-05T09:00:00.000Z"⟩

def skillTools : ToolExecutor :=
  { describe := Skills.describe Skills.sampleHost (Skills.boundTo "clock") }

/-- An approval that was rejected before is remembered as approved, though it resumes nothing; and
the approval of a skill's run is remembered for every skill, though the call was described as one of
the clock. -/
theorem approvals_unearned :
    ¬ Earned sampleOptions Grants.UserGrantStore.sampleFormats sampleDeployment.executor .initial
      (logOf rejectedRun) rememberApproval plainAwaits ∧
    ¬ Earned sampleOptions Grants.UserGrantStore.sampleFormats skillTools .initial
      (logOf (awaitingApproval Skills.skillRun)) rememberApproval plainAwaits := by
  constructor
  · intro h
    obtain ⟨pending, -, hpending, -⟩ := h (grantOf "files.read") (by decide +kernel)
    have hnone : (findPendingApproval sampleOptions.uuid (logOf rejectedRun ++ []) 0).isNone := by
      decide +kernel
    rw [show findPendingApproval sampleOptions.uuid (logOf rejectedRun ++ []) 0 = some pending from
      hpending] at hnone
    cases hnone
  · intro h
    obtain ⟨pending, descriptor, hpending, -, -, hdescribe, hcapability⟩ :=
      h (grantOf "skill_run") (by decide +kernel)
    have hclock : ((findPendingApproval sampleOptions.uuid
        (logOf (awaitingApproval Skills.skillRun) ++ []) 0).bind fun pending =>
          (skillTools.describe pending.call).toOption.map (·.capability)) = some "tool:clock" := by
      decide +kernel
    rw [show findPendingApproval sampleOptions.uuid (logOf (awaitingApproval Skills.skillRun) ++ []) 0 =
      some pending from hpending, Option.bind_some, hdescribe] at hclock
    have hsame : some (grantOf "skill_run").capability = some "tool:clock" := by
      rw [hcapability]
      exact hclock
    exact absurd hsame (by decide)

end BeeAgent.Runtime
