import BeeAgent.Chronicle.Broadcasting
import BeeAgent.Transition.Machine

/-! The event stream of a thread: a client is sent what is stored after its last sequence, and then
what is appended. An event has on the wire what is stored, with its position in the stream. -/
namespace BeeAgent.Thread.EventStream
open Chronicle Transition

variable {π : Type}

/-- Where the route stands: `woken` says that what it sleeps on has been resolved. -/
inductive Stage (π : Type) where
  | absent
  | reading
  | replaying (page : List (StoredEvent π))
  | sleeping (woken : Bool)
  | closed

def Stage.subscribed : Stage π → Bool
  | .reading | .replaying _ | .sleeping _ => true
  | .absent | .closed => false

def Stage.wake : Stage π → Stage π
  | .sleeping _ => .sleeping true
  | stage => stage

/-- The store, and the route of one client with what it has sent so far. -/
structure Host (π : Type) where
  store : BroadcastingChronicleStore π
  stage : Stage π
  after : ℕ
  watermark : ℕ
  queue : List (StoredEvent π)
  sent : List (StoredEvent π)

inductive Input (π : Type) where
  | append (streamId : String) (events : List (ChronicleEvent π)) (expectedSequence : ℕ)
  /-- An append goes on past its await and emits its broadcast. -/
  | emit (n : ℕ)
  | connect (after : ℕ)
  /-- The replay's read is taken. -/
  | read
  /-- The route goes on with the page that was read. -/
  | replay
  | resume
  /-- The connection is closed, or the read fails. -/
  | close

namespace Host

def initial : Host π := ⟨.empty, .absent, 0, 0, [], []⟩

variable (s : Host π)

/-- What lies above the watermark is queued. -/
def onAppend (threadStreamId : String) (broadcast : ChronicleAppendBroadcast π) : Host π :=
  if s.stage.subscribed && broadcast.streamId = threadStreamId then
    let wire := broadcast.events.filter (s.watermark < ·.sequence)
    { s with
      queue := s.queue ++ wire
      stage := if wire.isEmpty then s.stage else s.stage.wake }
  else s

/-- Each event is sent if it lies above the watermark, which then rises to it. -/
def send (events : List (StoredEvent π)) : Host π :=
  let (sent, watermark) := Watermark.sift StoredEvent.sequence s.watermark events
  { s with sent := s.sent ++ sent, watermark }

/-- The queue is sent until it is empty; then the route sleeps. -/
def drain : Host π := { s.send s.queue with queue := [], stage := .sleeping false }

end Host

def hostStep (threadStreamId : String) (s : Host π) : Input π → Option (Host π)
  | .append streamId events expectedSequence =>
    some { s with store := s.store.append streamId events expectedSequence }
  | .emit n =>
    (s.store.emit n).map fun (broadcast, store) =>
      { s with store }.onAppend threadStreamId broadcast
  | .connect after =>
    match s.stage with
    | .absent => some { s with stage := .reading, after, watermark := after }
    | _ => none
  | .read =>
    match s.stage with
    | .reading => some { s with
        stage := .replaying ((s.store.readStream threadStreamId).filter
          (s.watermark < ·.sequence)) }
    | _ => none
  | .replay =>
    match s.stage with
    | .replaying page => some (s.send page).drain
    | _ => none
  | .resume =>
    match s.stage with
    | .sleeping true => some s.drain
    | _ => none
  | .close => if s.stage.subscribed then some { s with stage := .closed } else none

def host (threadStreamId : String) : Machine (Host π) (Input π) := ⟨hostStep threadStreamId⟩

end BeeAgent.Thread.EventStream
