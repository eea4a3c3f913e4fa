import BeeAgent.Chronicle.Stream
import BeeAgent.Memory.Embedded
import BeeAgent.Transition.Machine

/-! The embedded provider and the remote one over one `memory` stream, await by await. -/
namespace BeeAgent.Memory
open Data Chronicle Transition

/-! ### The circuit breaker of the remote provider -/

structure RemoteMemoryOptions where
  failureThreshold : ℕ := 3
  positive : 1 ≤ failureThreshold := by decide

structure Breaker where
  consecutiveFailures : ℕ := 0
  published : MemoryHealthStatus := .healthy

namespace Breaker
variable (r : RemoteMemoryOptions) (b : Breaker)

def status : MemoryHealthStatus :=
  if r.failureThreshold ≤ b.consecutiveFailures then .unavailable
  else if b.consecutiveFailures = 0 then .healthy
  else .degraded

/-- A transition event once per status change. -/
def publish (status : MemoryHealthStatus) (detail : Option String) : Breaker × List MemoryEvent :=
  if status = b.published then (b, [])
  else ({ b with published := status }, [.healthChanged b.published status detail])

def onSuccess : Breaker × List MemoryEvent :=
  if b.consecutiveFailures = 0 then (b, [])
  else { b with consecutiveFailures := 0 }.publish .healthy none

def onFailure (operation message : String) : Breaker × List MemoryEvent :=
  let b := { b with consecutiveFailures := b.consecutiveFailures + 1 }
  b.publish (b.status r) (some ("'" ++ operation ++ "' failed (" ++
    toString b.consecutiveFailures ++ "/" ++ toString r.failureThreshold ++ "): " ++ message))

end Breaker

/-! ### The append loop of either provider -/

/-- `expected` is what the loop has read of the store in this attempt. -/
structure Appending where
  events : List (ChronicleEvent MemoryEvent)
  attempt : ℕ := 0
  expected : Option ℕ := none

inductive Appended where
  | next (a : Appending)
  | written (stream : List (ChronicleEvent MemoryEvent))
  | failed

/-- One await of the loop; `fails` when the store does. -/
def Appending.step (a : Appending) (stream : List (ChronicleEvent MemoryEvent)) (fails : Bool) :
    Appended :=
  if fails then .failed
  else
    match a.expected with
    | none => .next { a with expected := some (getLatestSequence stream + 1) }
    | some expected =>
      match append stream a.events expected with
      | .ok stream' => .written stream'
      | .error _ =>
        if a.attempt < 2 then .next { a with attempt := a.attempt + 1, expected := none }
        else .failed

/-! ### The providers -/

inductive Operation where
  | ingest | consolidate
  | retract (claimId : String)
  deriving DecidableEq, Repr

/-- Where the operation stands that the embedded provider runs; it runs one at a time. -/
inductive Phase where
  | idle
  | appending (operation : Operation) (a : Appending)
  /-- The append has settled, the events are not yet folded. -/
  | appended (operation : Operation) (events : List MemoryEvent)
  | rebuilding

/-- The claims that a query or a context showed, and those that were forgotten before. -/
structure Look where
  forgotten : List String
  shown : List String

/-- `unread` is what the last rebuild has not read of the stream, `forgotten` the claims whose
retraction has succeeded, and `tail` the health events that the remote provider has yet to write. -/
structure World where
  stream : List (ChronicleEvent MemoryEvent)
  draws : ℕ
  projection : Projection := {}
  phase : Phase := .idle
  unread : List MemoryEvent := []
  breaker : Breaker := {}
  tail : List MemoryEvent := []
  publishing : Option Appending := none
  forgotten : List String := []
  looks : List Look := []

/-- `ids i` is the UUID that is drawn for the candidate `i`. A reading store may or may not come to
an event that is appended behind it: `seen`. -/
inductive Input where
  | ingest (input : MemoryIngestInput) (now : String) (ids : ℕ → String)
  | consolidate (now : String)
  | retract (claimId : String) (reason : Option String)
  | append (fails : Bool)
  | apply
  | rebuild
  | read (fails : Bool)
  | query (query : MemoryQuery) (clock : String)
  | buildContext (input : MemoryQuery) (budgetTokens : ℤ) (clock : String)
  | remoteSucceeded
  | remoteFailed (operation message : String)
  | publish (fails seen : Bool)

def MemoryEvent.claimIds : MemoryEvent → List String
  | .claimRecorded claim => [claim.id]
  | .claimSuperseded claimId supersededBy _ => [claimId, supersededBy]
  | .claimRetracted claimId _ => [claimId]
  | .observationRecorded _ | .consolidationCompleted _ | .healthChanged .. => []

def number (n : ℕ) (events : List MemoryEvent) : List (ChronicleEvent MemoryEvent) :=
  (events.zipIdx n).map fun e => ⟨e.2, e.1⟩

namespace World

def payloads (w : World) : List MemoryEvent := w.stream.map ChronicleEvent.payload

/-- A provider that has not read the stream. -/
def initial (stream : List MemoryEvent) : World where
  stream := number 0 stream
  draws := stream.length
  unread := stream

/-- A provider that has read the stream. -/
def rebuilt (o : EmbeddedMemoryOptions) (stream : List MemoryEvent) : World where
  stream := number 0 stream
  draws := stream.length
  projection := (rebuild o stream).1

/-- An append of nothing settles at once. -/
def start (w : World) (operation : Operation) (events : List MemoryEvent) : World :=
  if events = [] then w
  else
    { w with
      phase := .appending operation { events := number w.draws events }
      draws := w.draws + events.length }

def Fresh (w : World) (input : MemoryIngestInput) (ids : ℕ → String) : Prop :=
  ∀ i < input.claims.length, ∀ event ∈ w.payloads, ids i ∉ event.claimIds

instance (w : World) (input : MemoryIngestInput) (ids : ℕ → String) :
    Decidable (w.Fresh input ids) :=
  inferInstanceAs (Decidable (∀ i < _, ∀ event ∈ _, _))

def look (w : World) (shown : List String) : World :=
  { w with looks := ⟨w.forgotten, shown⟩ :: w.looks }

def health (w : World) (change : Breaker × List MemoryEvent) : World :=
  { w with breaker := change.1, tail := w.tail ++ change.2 }

def appendStep (w : World) (operation : Operation) (a : Appending) (fails : Bool) : World :=
  match a.step w.stream fails with
  | .next a => { w with phase := .appending operation a }
  | .written stream =>
    { w with stream, phase := .appended operation (a.events.map ChronicleEvent.payload) }
  | .failed => { w with phase := .idle }

def forget (w : World) : Operation → World
  | .retract claimId => { w with forgotten := claimId :: w.forgotten }
  | .ingest | .consolidate => w

def apply (o : EmbeddedMemoryOptions) (w : World) (operation : Operation)
    (events : List MemoryEvent) : World :=
  match w.projection.foldAll o events with
  | (projection, none) => { w with projection, phase := .idle }.forget operation
  | (projection, some _) => { w with projection, phase := .idle }

def readStep (o : EmbeddedMemoryOptions) (w : World) (fails : Bool) : World :=
  if fails then { w with phase := .idle }
  else
    match w.unread with
    | [] => { w with phase := .idle }
    | event :: unread =>
      match w.projection.fold o event with
      | .ok projection => { w with projection, unread }
      | .error _ => { w with phase := .idle }

def publishStep (w : World) (a : Appending) (fails seen : Bool) : World :=
  match a.step w.stream fails with
  | .next a => { w with publishing := some a }
  | .written stream =>
    { w with
      stream
      publishing := none
      unread := match w.phase with
        | .rebuilding => if seen then w.unread ++ a.events.map ChronicleEvent.payload else w.unread
        | _ => w.unread }
  | .failed => { w with publishing := none }

end World

section Machine
variable (o : EmbeddedMemoryOptions) (r : RemoteMemoryOptions)

/-- An operation that throws before its append leaves everything as it was. -/
def started (w : World) (operation : Operation) : Except MemoryError (List MemoryEvent) → World
  | .ok events => w.start operation events
  | .error _ => w

def step (w : World) : Input → Option World
  | .ingest input now ids =>
    match w.phase with
    | .idle =>
      if w.Fresh input ids then
        some (started w .ingest ((w.projection.ingestNow o input now ids).map Prod.fst))
      else none
    | _ => none
  | .consolidate now =>
    match w.phase with
    | .idle => some (started w .consolidate ((w.projection.consolidateNow o now).map Prod.fst))
    | _ => none
  | .retract claimId reason =>
    match w.phase with
    | .idle => some (started w (.retract claimId) (w.projection.retractNow claimId reason))
    | _ => none
  | .append fails =>
    match w.phase with
    | .appending operation a => some (w.appendStep operation a fails)
    | _ => none
  | .apply =>
    match w.phase with
    | .appended operation events => some (w.apply o operation events)
    | _ => none
  | .rebuild =>
    match w.phase with
    | .idle => some { w with projection := {}, unread := w.payloads, phase := .rebuilding }
    | _ => none
  | .read fails =>
    match w.phase with
    | .rebuilding => some (w.readStep o fails)
    | _ => none
  | .query query clock => some (w.look ((w.projection.query o query clock).map (·.id)))
  | .buildContext input budgetTokens clock =>
    some (w.look (w.projection.buildContext o input budgetTokens clock).claimIds)
  | .remoteSucceeded => some (w.health w.breaker.onSuccess)
  | .remoteFailed operation message => some (w.health (w.breaker.onFailure r operation message))
  | .publish fails seen =>
    match w.publishing, w.tail with
    | some a, _ => some (w.publishStep a fails seen)
    | none, event :: tail => some { w with
        tail
        publishing := some { events := number w.draws [event] }
        draws := w.draws + 1 }
    | none, [] => none

def providers : Machine World Input := ⟨step o r⟩

end Machine

end BeeAgent.Memory
