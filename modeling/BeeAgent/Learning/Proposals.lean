import BeeAgent.Chronicle.Stream
import BeeAgent.Data.OrderedMap
import BeeAgent.Data.Value
import BeeAgent.Kanban.Protocol

/-! The improvement proposals: what a creation and a transition compute, the events of the learning
stream, and the projection that a rebuild makes of them. -/
namespace BeeAgent.Learning
open Data
open Kanban (Formats)
open Kanban.Schema

inductive ProposalType where
  | memory | knowledge | skill | prompt | contextPolicy | planningPolicy | tool | runtimeStructure
  | worldSchema | evaluation | guardrail
  deriving DecidableEq, Repr

inductive ProposalStatus where
  | draft | testing | review | trial | promoted | rejected | rolledBack
  deriving DecidableEq, Repr

def PROPOSAL_TRANSITIONS : ProposalStatus → List ProposalStatus
  | .draft => [.testing, .review, .rejected]
  | .testing => [.review, .rejected]
  | .review => [.testing, .trial, .rejected]
  | .trial => [.promoted, .rolledBack]
  | .promoted => [.rolledBack]
  | .rejected => []
  | .rolledBack => []

def canTransitionProposal (src dst : ProposalStatus) : Bool := (PROPOSAL_TRANSITIONS src).contains dst

inductive ProposalOrigin where
  | loop | user
  deriving DecidableEq, Repr

structure TrajectoryRef where
  threadId : String
  turnId : String
  deriving DecidableEq, Repr

structure ImprovementProposal where
  id : String
  type : ProposalType
  targetKey : String
  targetVersion : Option String := none
  basedOnTrajectoryIds : List TrajectoryRef
  hypothesis : String
  proposedChange : Value
  expectedBenefits : List String
  risks : List String
  evaluationPlan : String
  rollbackPlan : String
  autonomyLevel : Fin 4
  status : ProposalStatus
  origin : ProposalOrigin
  version : ℤ
  createdAt : String
  updatedAt : String

inductive LearningError where
  | notFound (proposalId : String)
  | versionConflict (proposalId : String) (expectedVersion actualVersion : ℤ)
  | invalidTransition (proposalId : String) (src dst : ProposalStatus)
  | zod (issues : List String)
  | sequenceConflict (expectedSequence actualNextSequence : ℕ)
  | chronicle
  | unknownEventType (eventType : String)
  deriving DecidableEq, Repr

def ImprovementProposal.issues (f : Formats) (p : ImprovementProposal) : List String :=
  uuid f "id" p.id ++ nonempty "targetKey" p.targetKey ++
    optional p.targetVersion (nonempty "targetVersion") ++
    each "basedOnTrajectoryIds" p.basedOnTrajectoryIds (fun path ref =>
      uuid f (path ++ ".threadId") ref.threadId ++ uuid f (path ++ ".turnId") ref.turnId) ++
    nonempty "hypothesis" p.hypothesis ++ each "expectedBenefits" p.expectedBenefits nonempty ++
    each "risks" p.risks nonempty ++ nonempty "evaluationPlan" p.evaluationPlan ++
    nonempty "rollbackPlan" p.rollbackPlan ++ positive "version" p.version ++
    datetime f "createdAt" p.createdAt ++ datetime f "updatedAt" p.updatedAt

/-- `ImprovementProposalSchema.parse` -/
def parseProposal (f : Formats) (p : ImprovementProposal) :
    Except LearningError ImprovementProposal :=
  match p.issues f with
  | [] => .ok p
  | issues => .error (.zod issues)

theorem parseProposal_ok {f : Formats} {p p' : ImprovementProposal}
    (h : parseProposal f p = .ok p') : p' = p := by
  unfold parseProposal at h
  split at h
  · exact (Except.ok.inj h).symm
  · cases h

-- only `parseProposal_ok` tells what it does: no proof is to run the checks of the schema
attribute [irreducible] parseProposal

structure StatusChanged where
  proposalId : String
  src : ProposalStatus
  dst : ProposalStatus
  reason : Option String := none
  deriving DecidableEq, Repr

inductive ExperimentVerdict where
  | accept | reject | inconclusive
  deriving DecidableEq, Repr

inductive RollbackKind where
  | noOp | retractSkill | removeGuardrail | restorePlannerConfig
  deriving DecidableEq, Repr

structure RollbackPackage where
  kind : RollbackKind
  description : String
  deriving DecidableEq, Repr

structure ExperimentStarted where
  experimentId : String
  proposalId : String
  datasetDigest : String
  evaluatorId : String
  startedAt : String
  deriving DecidableEq, Repr

structure ExperimentCompleted where
  experimentId : String
  proposalId : String
  datasetDigest : String
  evaluatorId : String
  verdict : ExperimentVerdict
  metrics : List (String × Number)
  notes : Option String
  changesetDigest : Option String
  rollback : RollbackPackage
  startedAt : String
  completedAt : String
  deriving DecidableEq, Repr

structure ExperimentFailed where
  experimentId : String
  proposalId : String
  evaluatorId : String
  message : String
  failedAt : String
  deriving DecidableEq, Repr

/-- What the events of the learning stream carry. -/
inductive LearningPayload where
  | proposalCreated (proposal : ImprovementProposal)
  | statusChanged (payload : StatusChanged)
  | experimentStarted (payload : ExperimentStarted)
  | experimentCompleted (payload : ExperimentCompleted)
  | experimentFailed (payload : ExperimentFailed)
  | loopRun
  | proposalActivated
  | activationReverted
  | driftChecked
  /-- Anything that is not a learning event. -/
  | other (eventType : String)

structure LearningEvent where
  payload : LearningPayload
  ingestTime : String

abbrev Proposals := OrderedMap String ImprovementProposal

def foldEvent (proposals : Proposals) (event : LearningEvent) : Except LearningError Proposals :=
  match event.payload with
  | .proposalCreated proposal => .ok (proposals.set proposal.id proposal)
  | .statusChanged payload =>
    match proposals.get payload.proposalId with
    | none => .ok proposals
    | some proposal =>
      .ok (proposals.set proposal.id { proposal with
        status := payload.dst
        version := proposal.version + 1
        updatedAt := event.ingestTime })
  | .other eventType => .error (.unknownEventType eventType)
  | _ => .ok proposals

def rebuild (events : List LearningEvent) : Except LearningError Proposals :=
  events.foldlM foldEvent .empty

structure CreateProposalInput where
  type : ProposalType
  targetKey : String
  targetVersion : Option String := none
  basedOnTrajectoryIds : List TrajectoryRef
  hypothesis : String
  proposedChange : Value
  expectedBenefits : List String
  risks : List String
  evaluationPlan : String
  rollbackPlan : String
  autonomyLevel : Fin 4
  origin : Option ProposalOrigin := none
  id : Option String := none
  now : Option String := none

structure TransitionCommand where
  dst : ProposalStatus
  expectedVersion : ℤ
  reason : Option String := none
  at_ : Option String := none
  deriving DecidableEq, Repr

/-- What `#commit` appends and then puts into the projection. -/
structure Commit where
  event : LearningPayload
  next : ImprovementProposal

/-- The clock and the id drawn in a call. -/
structure Draw where
  now : String
  uuid : String

/-- A creation, up to its commit. -/
def create (f : Formats) (input : CreateProposalInput) (draw : Draw) :
    Except LearningError Commit := do
  let now := input.now.getD draw.now
  let proposal ← parseProposal f
    { id := input.id.getD draw.uuid
      type := input.type
      targetKey := input.targetKey
      targetVersion := input.targetVersion
      basedOnTrajectoryIds := input.basedOnTrajectoryIds
      hypothesis := input.hypothesis
      proposedChange := input.proposedChange
      expectedBenefits := input.expectedBenefits
      risks := input.risks
      evaluationPlan := input.evaluationPlan
      rollbackPlan := input.rollbackPlan
      autonomyLevel := input.autonomyLevel
      status := .draft
      origin := input.origin.getD .loop
      version := 1
      createdAt := now
      updatedAt := now }
  return ⟨.proposalCreated proposal, proposal⟩

/-- `learningProposalStatusChangedEvent` -/
def statusChangedEvent (payload : StatusChanged) : Except LearningError LearningPayload :=
  match optional payload.reason (nonempty "reason") with
  | [] => .ok (.statusChanged payload)
  | issues => .error (.zod issues)

/-- A transition, up to its commit. -/
def transition (f : Formats) (proposals : Proposals) (proposalId : String)
    (command : TransitionCommand) (draw : Draw) : Except LearningError Commit :=
  match proposals.get proposalId with
  | none => .error (.notFound proposalId)
  | some current => do
    if command.expectedVersion ≠ current.version then
      throw (.versionConflict proposalId command.expectedVersion current.version)
    if !canTransitionProposal current.status command.dst then
      throw (.invalidTransition proposalId current.status command.dst)
    let next ← parseProposal f { current with
      status := command.dst
      version := current.version + 1
      updatedAt := command.at_.getD draw.now }
    let event ← statusChangedEvent
      { proposalId, src := current.status, dst := command.dst, reason := command.reason }
    return ⟨event, next⟩

section Computed
variable {f : Formats} {proposals : Proposals} {proposalId : String} {command : TransitionCommand}
variable {input : CreateProposalInput} {draw : Draw} {commit : Commit}

theorem create_ok (h : create f input draw = .ok commit) :
    commit.event = .proposalCreated commit.next ∧ commit.next.id = input.id.getD draw.uuid ∧
      commit.next.status = .draft ∧ commit.next.version = 1 := by
  simp only [create, bind, Except.bind] at h
  split at h
  · cases h
  · next proposal hparse =>
    obtain rfl := parseProposal_ok hparse
    cases h
    exact ⟨rfl, rfl, rfl, rfl⟩

theorem statusChangedEvent_ok {payload : StatusChanged} {event : LearningPayload}
    (h : statusChangedEvent payload = .ok event) : event = .statusChanged payload := by
  unfold statusChangedEvent at h
  split at h
  · exact (Except.ok.inj h).symm
  · cases h

theorem transition_ok (h : transition f proposals proposalId command draw = .ok commit) :
    ∃ current, proposals.get proposalId = some current ∧
      current.version = command.expectedVersion ∧
      canTransitionProposal current.status command.dst ∧
      commit.event = .statusChanged
        { proposalId, src := current.status, dst := command.dst, reason := command.reason } ∧
      commit.next = { current with
        status := command.dst
        version := current.version + 1
        updatedAt := command.at_.getD draw.now } := by
  unfold transition at h
  cases hget : proposals.get proposalId with
  | none =>
    rw [hget] at h
    cases h
  | some current =>
    simp only [hget, bind, Except.bind, pure, Except.pure, throw, throwThe,
      MonadExceptOf.throw] at h
    by_cases hversion : command.expectedVersion ≠ current.version
    · simp only [if_pos hversion] at h
      cases h
    · simp only [if_neg hversion] at h
      split at h
      · cases h
      · next hedge =>
        split at h
        · cases h
        · next next hparse =>
          split at h
          · cases h
          · next event hevent =>
            cases h
            exact ⟨current, rfl, (not_not.mp hversion).symm, by simpa using hedge,
              statusChangedEvent_ok hevent, parseProposal_ok hparse⟩

end Computed

end BeeAgent.Learning
