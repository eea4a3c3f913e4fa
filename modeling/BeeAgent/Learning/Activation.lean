import BeeAgent.Data.Access
import BeeAgent.Learning.Proposals
import BeeAgent.Memory.Claims
import BeeAgent.Transition.Machine

/-! The activation service with any number of calls in flight: the learning stream, the map from
proposals to claims, and the memory, changed by the steps of `apply` and `revert` between their
awaits. -/
namespace BeeAgent.Learning.Activation
open Data Chronicle Transition
open Kanban (Formats)
open Kanban.Schema (optional nonempty uuid datetime)
open Memory (NewMemoryClaimInput MemoryClaimStatus)

def LEARNING_STREAM_ID : String := "learning"

/-- The governed channel a change takes effect through. -/
inductive ActivationVia where
  | memoryClaim
  deriving DecidableEq, Repr

structure ProposalActivated where
  proposalId : String
  via : ActivationVia
  claimId : String
  activatedAt : String
  deriving DecidableEq, Repr

structure ActivationReverted where
  proposalId : String
  claimId : String
  reason : Option String
  revertedAt : String
  deriving DecidableEq, Repr

/-- What the service reads of the learning stream. -/
inductive ActivationPayload where
  | activated (payload : ProposalActivated)
  | activationReverted (payload : ActivationReverted)
  | other
  deriving DecidableEq, Repr

inductive ActivationError where
  | notPermitted (proposalId reason : String)
  /-- A property is read of `undefined` or `null`. -/
  | type
  | zod (issues : List String)
  | sequenceConflict (expectedSequence actualNextSequence : ℕ)
  | chronicle
  | memory
  | skills
  deriving DecidableEq, Repr

def ActivationError.message : ActivationError → Option String
  | .notPermitted proposalId reason =>
    some ("Activation of '" ++ proposalId ++ "' is not permitted: " ++ reason)
  | _ => none

structure ActivationResult where
  proposalId : String
  claimId : String
  via : ActivationVia
  deriving DecidableEq, Repr

structure LearningActivationOptions where
  formats : Formats
  maxActiveActivations : Option ℕ := none
  /-- Whether promoted skill proposals register as executable skills. -/
  skillStore : Bool := false

def LearningActivationOptions.maxActive (o : LearningActivationOptions) : ℕ :=
  o.maxActiveActivations.getD 5

/-! ### Proposals and their claims -/

def typeText : ProposalType → String
  | .memory => "memory"
  | .knowledge => "knowledge"
  | .skill => "skill"
  | .prompt => "prompt"
  | .contextPolicy => "context-policy"
  | .planningPolicy => "planning-policy"
  | .tool => "tool"
  | .runtimeStructure => "runtime-structure"
  | .worldSchema => "world-schema"
  | .evaluation => "evaluation"
  | .guardrail => "guardrail"

def statusText : ProposalStatus → String
  | .draft => "draft"
  | .testing => "testing"
  | .review => "review"
  | .trial => "trial"
  | .promoted => "promoted"
  | .rejected => "rejected"
  | .rolledBack => "rolled-back"

def countText (change : Value) (key : String) : Option String :=
  (change.property? key).map fun count => (count.orElse (.number (.ofNat 0))).interpolated

/-- A change that is no object to read from throws. -/
def claimStatementFor (proposal : ImprovementProposal) : Option String :=
  let change := proposal.proposedChange
  match proposal.type with
  | .skill => do
    let toolId ← change.property? "toolId"
    let usageCount ← countText change "usageCount"
    return "Adopted usage pattern for tool '" ++ toolId.interpolated ++ "' (from " ++ usageCount ++
      " recent uses, learning proposal " ++ proposal.id ++
      "): package this invocation as a reusable skill and prefer it over re-describing the tool " ++
      "each time."
  | .guardrail => do
    let toolId ← change.property? "toolId"
    let failureCount ← countText change "failureCount"
    return "Adopted guidance for tool '" ++ toolId.interpolated ++ "' (from " ++ failureCount ++
      " recent failures, learning proposal " ++ proposal.id ++
      "): check the invocation shape before calling; repeated failures were observed with the " ++
      "current pattern."
  | .planningPolicy => do
    let turns ← countText change "turns"
    return "Adopted planning note (learning proposal " ++ proposal.id ++ "): " ++ turns ++
      " recent turns ran near the step cap; prefer decomposing similar tasks before executing."
  | type => some ("Adopted learning proposal " ++ proposal.id ++ " (" ++ typeText type ++ "): " ++
      proposal.hypothesis)

/-- The claim of an activation; its provenance cites the position that adopted it. -/
def adoptedClaim (proposal : ImprovementProposal) (payload : ProposalActivated) (sequence : ℕ) :
    Option NewMemoryClaimInput :=
  (claimStatementFor proposal).map fun statement =>
    { id := some payload.claimId
      kind := if proposal.type = .skill then .procedure else .fact
      statement
      subject := if proposal.type = .guardrail ∨ proposal.type = .skill then ⟨.project, none⟩
        else ⟨.user, none⟩
      provenance := { streamId := LEARNING_STREAM_ID, sequence }
      confidence := some ⟨false, 8, -1⟩
      recordedAt := some payload.activatedAt }

/-- Whether the activation goes on to register a skill. -/
def registersSkill (o : LearningActivationOptions) (proposal : ImprovementProposal) : Bool :=
  proposal.type = .skill && o.skillStore &&
    match proposal.proposedChange.property? "toolId" with
    | none | some .undefined => false
    | some _ => true

/-- Why a proposal may not be activated at all. -/
def refusal (proposal : ImprovementProposal) : Option String :=
  if proposal.status ≠ .promoted then
    some ("proposal is '" ++ statusText proposal.status ++ "', not 'promoted'")
  else if proposal.autonomyLevel.val = 0 then
    some "L0 proposals are evidence summaries and never change behavior"
  else if 3 ≤ proposal.autonomyLevel.val then
    some "L3 activations require the worktree ChangeSet pipeline"
  else none

def budgetReached (size maxActive : ℕ) : String :=
  "change budget reached: " ++ toString size ++ " active activations (max " ++
    toString maxActive ++ "); roll one back first"

def activatedIssues (f : Formats) (payload : ProposalActivated) : List String :=
  uuid f "proposalId" payload.proposalId ++ uuid f "claimId" payload.claimId ++
    datetime f "activatedAt" payload.activatedAt

def revertedIssues (f : Formats) (payload : ActivationReverted) : List String :=
  uuid f "proposalId" payload.proposalId ++ uuid f "claimId" payload.claimId ++
    optional payload.reason (nonempty "reason") ++ datetime f "revertedAt" payload.revertedAt

abbrev Claims := OrderedMap String String

def foldPayload (claims : Claims) : ActivationPayload → Claims
  | .activated payload => claims.set payload.proposalId payload.claimId
  | .activationReverted payload => claims.delete payload.proposalId
  | .other => claims

def rebuild (payloads : List ActivationPayload) : Claims := payloads.foldl foldPayload .empty

/-! ### Calls -/

inductive Operation where
  | apply (proposal : ImprovementProposal)
  | revertByProposalId (proposalId : String) (reason : Option String)
  | revert (proposal : ImprovementProposal) (reason : Option String)

inductive Outcome where
  | failed (error : ActivationError)
  | applied (result : ActivationResult)
  | reverted (proposalId claimId : String)
  /-- `revertByProposalId` of a proposal without an activation. -/
  | absent
  deriving DecidableEq, Repr

/-- Where a call stands: what it awaits, or that it is over. -/
inductive Stage where
  | latest (proposal : ImprovementProposal) (activatedAt : String)
  | appending (proposal : ImprovementProposal) (payload : ProposalActivated)
      (expectedSequence : ℕ)
  | ingesting (proposal : ImprovementProposal) (payload : ProposalActivated)
      (claim : NewMemoryClaimInput)
  /-- The claim is in memory; the call has not gone on yet. -/
  | ingested (proposal : ImprovementProposal) (payload : ProposalActivated)
  | registering (payload : ProposalActivated)
  | retracting (proposalId claimId : String) (reason : Option String)
  /-- The claim is retracted; the latest sequence is read. -/
  | latestAfter (payload : ActivationReverted)
  | reverting (payload : ActivationReverted) (expectedSequence : ℕ)
  /-- The event is written; the call has not gone on yet. -/
  | reverted (payload : ActivationReverted)
  | finished (outcome : Outcome)
  /-- The process went down before the call came to an end. -/
  | gone

/-- The service with what it works on. Of the memory it holds the claims that the service put in. -/
structure LearningActivation where
  stream : List (ChronicleEvent ActivationPayload)
  nextEventId : ℕ
  /-- The results of `crypto.randomUUID` so far; none comes twice. -/
  drawn : List String
  memory : OrderedMap String (NewMemoryClaimInput × MemoryClaimStatus)
  claims : Claims
  calls : List Stage

inductive Input where
  | call (op : Operation) (now : String)
  | resume (call : ℕ) (draw : Draw)
  /-- What the call awaits fails. -/
  | fail (call : ℕ)
  /-- Another component writes to the learning stream. -/
  | observed
  /-- The process goes down and a new one rebuilds before anything is asked of it. -/
  | restart

namespace LearningActivation

def initial : LearningActivation := ⟨[], 0, [], .empty, .empty, []⟩

variable (s : LearningActivation)

def payloads : List ActivationPayload := s.stream.map ChronicleEvent.payload

def inForce : Claims := rebuild s.payloads

def withStage (c : ℕ) (stage : Stage) : LearningActivation :=
  { s with calls := s.calls.set c stage }

def grow (payload : ActivationPayload) : LearningActivation :=
  { s with stream := s.stream ++ [⟨s.nextEventId, payload⟩], nextEventId := s.nextEventId + 1 }

end LearningActivation

section Steps
variable (o : LearningActivationOptions) (s : LearningActivation)

def failed (error : ActivationError) : Stage := .finished (.failed error)

/-- What a call does at once. -/
def start (now : String) : Operation → Stage
  | .apply proposal =>
    match refusal proposal with
    | some reason => failed (.notPermitted proposal.id reason)
    | none =>
      match s.claims.get proposal.id with
      | some claimId => .finished (.applied ⟨proposal.id, claimId, .memoryClaim⟩)
      | none =>
        if o.maxActive ≤ s.claims.size then
          failed (.notPermitted proposal.id (budgetReached s.claims.size o.maxActive))
        else .latest proposal now
  | .revertByProposalId proposalId reason =>
    match s.claims.get proposalId with
    | none => .finished .absent
    | some claimId => .retracting proposalId claimId reason
  | .revert proposal reason =>
    match s.claims.get proposal.id with
    | none => failed (.notPermitted proposal.id "no active activation to revert")
    | some claimId => .retracting proposal.id claimId reason

/-- The id of the claim is drawn and the event built once the latest sequence is known. -/
def prepare (c : ℕ) (proposal : ImprovementProposal) (activatedAt uuid : String) :
    Option LearningActivation :=
  if uuid ∈ s.drawn then none
  else
    let payload := ⟨proposal.id, .memoryClaim, uuid, activatedAt⟩
    let stage := match activatedIssues o.formats payload with
      | [] => .appending proposal payload (getLatestSequence s.stream + 1)
      | issues => failed (.zod issues)
    some { s.withStage c stage with drawn := uuid :: s.drawn }

def land (c : ℕ) (proposal : ImprovementProposal) (payload : ProposalActivated)
    (expectedSequence : ℕ) : LearningActivation :=
  match append s.stream [⟨s.nextEventId, .activated payload⟩] expectedSequence with
  | .error e => s.withStage c (failed (.sequenceConflict e.expectedSequence e.actualNextSequence))
  | .ok stream =>
    let stage := match adoptedClaim proposal payload expectedSequence with
      | none => failed .type
      | some claim => .ingesting proposal payload claim
    { s.withStage c stage with stream, nextEventId := s.nextEventId + 1 }

def ingest (c : ℕ) (proposal : ImprovementProposal) (payload : ProposalActivated)
    (claim : NewMemoryClaimInput) : LearningActivation :=
  { s.withStage c (.ingested proposal payload) with
    memory := s.memory.set payload.claimId (claim, .active) }

def applied (payload : ProposalActivated) : Stage :=
  .finished (.applied ⟨payload.proposalId, payload.claimId, .memoryClaim⟩)

def adopt (c : ℕ) (proposal : ImprovementProposal) (payload : ProposalActivated) :
    LearningActivation :=
  let stage := if registersSkill o proposal then .registering payload else applied payload
  { s.withStage c stage with claims := s.claims.set payload.proposalId payload.claimId }

/-- The claim is retracted; then the event is built. The memory knows nothing of a claim that was
never put in. -/
def retract (c : ℕ) (proposalId claimId : String) (reason : Option String) (now : String) :
    LearningActivation :=
  match s.memory.get claimId with
  | none => s.withStage c (failed .memory)
  | some (claim, _) =>
    let payload := ⟨proposalId, claimId, reason, now⟩
    let stage := match revertedIssues o.formats payload with
      | [] => .latestAfter payload
      | issues => failed (.zod issues)
    { s.withStage c stage with memory := s.memory.set claimId (claim, .retracted) }

def landReverted (c : ℕ) (payload : ActivationReverted) (expectedSequence : ℕ) :
    LearningActivation :=
  match append s.stream [⟨s.nextEventId, .activationReverted payload⟩] expectedSequence with
  | .error e => s.withStage c (failed (.sequenceConflict e.expectedSequence e.actualNextSequence))
  | .ok stream =>
    { s.withStage c (.reverted payload) with stream, nextEventId := s.nextEventId + 1 }

def release (c : ℕ) (payload : ActivationReverted) : LearningActivation :=
  { s.withStage c (.finished (.reverted payload.proposalId payload.claimId)) with
    claims := s.claims.delete payload.proposalId }

def resume (c : ℕ) (draw : Draw) : Stage → Option LearningActivation
  | .latest proposal activatedAt => prepare o s c proposal activatedAt draw.uuid
  | .appending proposal payload expectedSequence => some (land s c proposal payload expectedSequence)
  | .ingesting proposal payload claim => some (ingest s c proposal payload claim)
  | .ingested proposal payload => some (adopt o s c proposal payload)
  | .registering payload => some (s.withStage c (applied payload))
  | .retracting proposalId claimId reason => some (retract o s c proposalId claimId reason draw.now)
  | .latestAfter payload =>
    some (s.withStage c (.reverting payload (getLatestSequence s.stream + 1)))
  | .reverting payload expectedSequence => some (landReverted s c payload expectedSequence)
  | .reverted payload => some (release s c payload)
  | .finished _ | .gone => none

/-- The error of a call whose await fails. -/
def Stage.failure : Stage → Option ActivationError
  | .latest .. | .appending .. | .latestAfter _ | .reverting .. => some .chronicle
  | .ingesting .. | .retracting .. => some .memory
  | .registering _ => some .skills
  | .ingested .. | .reverted _ | .finished _ | .gone => none

def Stage.abandoned : Stage → Stage
  | .finished outcome => .finished outcome
  | _ => .gone

def step : Input → Option LearningActivation
  | .call op now => some { s with calls := s.calls ++ [start o s now op] }
  | .resume c draw => (s.calls[c]?).bind (resume o s c draw)
  | .fail c => (s.calls[c]?).bind fun stage =>
    stage.failure.map fun error => s.withStage c (failed error)
  | .observed => some (s.grow .other)
  | .restart => some { s with claims := rebuild s.payloads, calls := s.calls.map Stage.abandoned }

end Steps

def learningActivation (o : LearningActivationOptions) : Machine LearningActivation Input := ⟨step o⟩

end BeeAgent.Learning.Activation
