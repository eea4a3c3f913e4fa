import BeeAgent.Data.OrderedMap
import BeeAgent.Data.Replacement
import BeeAgent.Execution.World

/-! The keychain broker, and the execution world that materialises and redacts with it. -/
namespace BeeAgent.Execution
open BeeAgent.Data BeeAgent.Chronicle

/-- `#materialized` holds, for a request id, the set that one `execute` call fills; a call is named
by its number. -/
structure KeychainSecretBroker where
  materialized : OrderedMap String ℕ
  /-- What the references of a call have resolved to so far. -/
  resolved : ℕ → List String

namespace KeychainSecretBroker

def initial : KeychainSecretBroker := ⟨.empty, fun _ => []⟩

def marker : String := "[REDACTED]"

/-- The distinct values of every set that is not released, longest first. -/
def secrets (broker : KeychainSecretBroker) : List String :=
  (broker.materialized.values.flatMap broker.resolved).eraseDups.insertionSort fun left right =>
    (utf16 right).length ≤ (utf16 left).length

def redact (broker : KeychainSecretBroker) (value : String) : String :=
  String.ofList (broker.secrets.foldl
    (fun redacted secret => Replacement.replaceAll secret.toList marker.toList redacted)
    value.toList)

/-- What `materialize` does before its first await. -/
def materialize (broker : KeychainSecretBroker) (call : ℕ) (requestId : String) :
    KeychainSecretBroker :=
  { materialized := broker.materialized.set requestId call
    resolved := Function.update broker.resolved call [] }

/-- The next reference of `materialize` resolves. -/
def resolve (broker : KeychainSecretBroker) (call : ℕ) (value : String) : KeychainSecretBroker :=
  { broker with resolved := Function.update broker.resolved call (broker.resolved call ++ [value]) }

def release (broker : KeychainSecretBroker) (requestId : String) : KeychainSecretBroker :=
  { broker with materialized := broker.materialized.delete requestId }

end KeychainSecretBroker

/-- What `newChronicleEvent` draws. -/
structure EventDraw where
  eventId : String
  eventTime : String
  deriving DecidableEq

/-- What a settled sandbox makes of the call: the event it records and the outcome it returns. -/
structure Report where
  call : ℕ
  /-- The values that were materialised for the call. -/
  secrets : List String
  request : ActionRequest
  draw : EventDraw
  payload : ExecutionPayload
  outcome : ExecutionOutcome

structure SecuredWorld where
  world : World
  broker : KeychainSecretBroker
  /-- Every conclusion of a call so far, oldest first. -/
  reports : List Report

inductive SecuredInput where
  | world (input : WorldInput) (draw : EventDraw)
  | resolve (call : ℕ) (value : String)

def report? (call : ℕ) (secrets : List String) (request : ActionRequest) (draw : EventDraw) :
    ExecutePc → Option Report
  | .positioning [payload] (.conclude outcome)
  | .positioning [payload] (.concludeFailed outcome) =>
    some { call, secrets, request, draw, payload, outcome }
  | _ => none

namespace SecuredWorld

def initial : SecuredWorld := ⟨World.initial none, .initial, []⟩

def opened (s : SecuredWorld) : World := { s.world with secrets := some ⟨s.broker.redact⟩ }

def refs (request : ActionRequest) : List String :=
  (request.requirements.secretEnv.map Prod.snd).eraseDups

/-- `materialize` settles once every reference is resolved. -/
def ready (s : SecuredWorld) : WorldInput → Bool
  | .advance c .ok =>
    match s.world.calls c with
    | some ⟨request, _, .executing (.materializing _)⟩ =>
      (s.broker.resolved c).length == (refs request).length
    | _ => true
  | _ => true

/-- What the broker is told when a call arrives at an await. -/
def arrive (s : SecuredWorld) (world : World) (c : ℕ) (request : ActionRequest) (draw : EventDraw)
    (pc : ExecutePc) : SecuredWorld :=
  { world
    broker :=
      match pc with
      | .materializing _ => s.broker.materialize c request.id
      | .releasing _ => s.broker.release request.id
      | _ => s.broker
    reports := s.reports ++ (report? c (s.broker.resolved c) request draw pc).toList }

def follow (s : SecuredWorld) (draw : EventDraw) (world : World) : WorldInput → SecuredWorld
  | .advance c _ =>
    match world.calls c with
    | some ⟨request, _, .executing pc⟩ => s.arrive world c request draw pc
    | _ => { s with world }
  | .crash _ => { s with world, broker := { s.broker with materialized := .empty } }
  | _ => { s with world }

/-- The keychain refuses an empty value. -/
def step (sha256 : String → String) (s : SecuredWorld) : SecuredInput → Option SecuredWorld
  | .world input draw =>
    if s.ready input then
      (worldStep sha256 s.opened input).map fun world => s.follow draw world input
    else none
  | .resolve c value =>
    match s.world.calls c with
    | some ⟨request, _, .executing (.materializing _)⟩ =>
      if value ≠ "" ∧ (s.broker.resolved c).length < (refs request).length then
        some { s with broker := s.broker.resolve c value }
      else none
    | _ => none

def machine (sha256 : String → String) : Transition.Machine SecuredWorld SecuredInput :=
  ⟨step sha256⟩

end SecuredWorld

end BeeAgent.Execution
