import BeeAgent.Kanban.Protocol
import BeeAgent.Knowledge.WorldSchema

/-! The personal memory's data: claims and observations with their provenance, the schemas they
pass, and the events of the `memory` stream. -/
namespace BeeAgent.Memory
open Data
open Knowledge (ValidTime)
open Kanban (Formats)
open Kanban.Schema (check optional each nonempty nonnegative positive uuid datetime)

inductive MemorySubjectType where
  | user | project | topic | entity
  deriving DecidableEq, Repr

def MemorySubjectType.text : MemorySubjectType → String
  | .user => "user"
  | .project => "project"
  | .topic => "topic"
  | .entity => "entity"

/-- What a claim is about; `user` is the personal-preference subject. -/
structure MemorySubject where
  type : MemorySubjectType
  id : Option String := none
  deriving DecidableEq, Repr

inductive MemoryClaimKind where
  | preference | fact | correction | procedure
  deriving DecidableEq, Repr

def MemoryClaimKind.text : MemoryClaimKind → String
  | .preference => "preference"
  | .fact => "fact"
  | .correction => "correction"
  | .procedure => "procedure"

/-- Where a memory fact was learned: one Chronicle stream position. -/
structure MemoryProvenance where
  streamId : String
  sequence : ℤ
  threadId : Option String := none
  turnId : Option String := none
  itemId : Option String := none
  deriving DecidableEq, Repr

inductive MemoryClaimStatus where
  | active | superseded | retracted
  deriving DecidableEq, Repr

structure MemoryClaim where
  id : String
  kind : MemoryClaimKind
  statement : String
  subject : MemorySubject
  provenance : MemoryProvenance
  validTime : ValidTime
  confidence : Number
  status : MemoryClaimStatus
  /-- Claim ids this one replaces. -/
  supersedes : List String
  recordedAt : String
  deriving DecidableEq, Repr

/-- Raw evidence recorded before any derivation. -/
structure MemoryObservation where
  id : String
  content : String
  provenance : MemoryProvenance
  observedAt : String
  confidence : Number
  deriving DecidableEq, Repr

structure NewMemoryClaimInput where
  kind : MemoryClaimKind
  statement : String
  subject : MemorySubject
  provenance : MemoryProvenance
  validTime : Option ValidTime := none
  confidence : Option Number := none
  supersedes : Option (List String) := none
  id : Option String := none
  recordedAt : Option String := none
  deriving DecidableEq, Repr

structure NewMemoryObservationInput where
  content : String
  provenance : MemoryProvenance
  confidence : Option Number := none
  id : Option String := none
  observedAt : Option String := none
  deriving DecidableEq, Repr

structure MemoryIngestInput where
  claims : List NewMemoryClaimInput := []
  observations : List NewMemoryObservationInput := []
  deriving DecidableEq, Repr

structure MemoryIngestResult where
  claims : List MemoryClaim
  observations : List MemoryObservation
  deriving DecidableEq, Repr

structure MemoryQuery where
  text : String
  kinds : Option (List MemoryClaimKind) := none
  subjectType : Option MemorySubjectType := none
  limit : Option ℤ := none
  /-- Valid-time evaluation point; defaults to the provider's clock. -/
  now : Option String := none
  deriving DecidableEq, Repr

structure MemoryContext where
  content : String
  claimIds : List String
  tokens : ℕ
  /-- Claims that matched but did not fit the budget. -/
  omitted : ℕ
  deriving DecidableEq, Repr

structure MemoryMerge where
  kept : String
  superseded : List String
  deriving DecidableEq, Repr

structure MemoryConsolidationReport where
  considered : ℕ
  merged : List MemoryMerge
  at_ : String
  deriving DecidableEq, Repr

inductive MemoryHealthStatus where
  | healthy | degraded | unavailable
  deriving DecidableEq, Repr

inductive MemoryEvent where
  | claimRecorded (claim : MemoryClaim)
  | claimSuperseded (claimId supersededBy : String) (reason : Option String)
  | claimRetracted (claimId : String) (reason : Option String)
  | observationRecorded (observation : MemoryObservation)
  | consolidationCompleted (report : MemoryConsolidationReport)
  | healthChanged (src dst : MemoryHealthStatus) (detail : Option String)
  deriving DecidableEq, Repr

def MemoryEvent.eventType : MemoryEvent → String
  | .claimRecorded _ => "memory.claim.recorded"
  | .claimSuperseded .. => "memory.claim.superseded"
  | .claimRetracted .. => "memory.claim.retracted"
  | .observationRecorded _ => "memory.observation.recorded"
  | .consolidationCompleted _ => "memory.consolidation.completed"
  | .healthChanged .. => "memory.health.changed"

inductive MemoryError where
  | claimNotFound (claimId : String)
  | unknownEventType (eventType : String)
  /-- `ZodError`: the paths of the fields that fail their schema. -/
  | zod (issues : List String)
  deriving DecidableEq, Repr

def MemoryError.message : MemoryError → Option String
  | .claimNotFound claimId => some ("Memory claim '" ++ claimId ++ "' was not found")
  | .unknownEventType eventType =>
    some ("Event type '" ++ eventType ++ "' is not a memory event")
  | .zod _ => none

/-! ### Schemas -/

/-- `z.number().min(0).max(1)` -/
def inUnit (x : Number) : Bool :=
  x.digits = 0 ||
    (!x.negative &&
      decide (x.digits * Nat.pow 10 x.exponent.toNat ≤ Nat.pow 10 (-x.exponent).toNat))

section Schema
variable (f : Formats)

def provenanceIssues (p : MemoryProvenance) : List String :=
  nonempty "provenance.streamId" p.streamId ++ positive "provenance.sequence" p.sequence ++
    optional p.threadId (nonempty "provenance.threadId") ++
    optional p.turnId (nonempty "provenance.turnId") ++
    optional p.itemId (nonempty "provenance.itemId")

def MemoryClaim.issues (claim : MemoryClaim) : List String :=
  uuid f "id" claim.id ++ nonempty "statement" claim.statement ++
    optional claim.subject.id (nonempty "subject.id") ++ provenanceIssues claim.provenance ++
    datetime f "validTime.from" claim.validTime.from_ ++
    optional claim.validTime.to_ (datetime f "validTime.to") ++
    check "confidence" (inUnit claim.confidence) ++ each "supersedes" claim.supersedes (uuid f) ++
    datetime f "recordedAt" claim.recordedAt

def MemoryObservation.issues (observation : MemoryObservation) : List String :=
  uuid f "id" observation.id ++ nonempty "content" observation.content ++
    provenanceIssues observation.provenance ++
    datetime f "observedAt" observation.observedAt ++
    check "confidence" (inUnit observation.confidence)

def MemoryConsolidationReport.issues (report : MemoryConsolidationReport) : List String :=
  nonnegative "considered" report.considered ++
    each "merged" report.merged (fun path m => uuid f (path ++ ".kept") m.kept ++
      each (path ++ ".superseded") m.superseded (uuid f)) ++
    datetime f "at" report.at_

def parse {α : Type} (issues : α → List String) (a : α) : Except MemoryError α :=
  if issues a = [] then .ok a else .error (.zod (issues a))

end Schema

end BeeAgent.Memory
