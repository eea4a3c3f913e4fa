import BeeAgent.Chronicle.Stream
import BeeAgent.Data.OrderedMap
import BeeAgent.Kanban.Protocol
import Mathlib.Data.List.Induction
import Mathlib.Data.List.Sort

/-! The two Chronicle stores, one over a map of arrays and one over tables of SQL, and that they
answer alike. -/
namespace BeeAgent.Chronicle.Stores
open Data
open Kanban (Formats)
open Kanban.Schema

inductive ActorType where
  | user | agent | system | tool
  deriving DecidableEq, Repr

inductive EventClassification where
  | public_ | internal | confidential | secret
  deriving DecidableEq, Repr

/-- `extra` holds the keys that the schema does not name: it lets them pass and leaves them out of
what it returns. -/
structure ChronicleActor where
  type : ActorType
  id : String
  extra : List (String × Value) := []

structure ValidTime where
  from_ : String
  to_ : Option String := none
  extra : List (String × Value) := []

structure ChronicleScope where
  goalId : Option String := none
  planId : Option String := none
  taskId : Option String := none
  episodeId : Option String := none
  threadId : Option String := none
  turnId : Option String := none
  stepId : Option String := none

/-- The schema of the envelope is strict: it refuses an event with `extra` keys. -/
structure NewChronicleEvent where
  eventId : String
  eventType : String
  schemaVersion : ℤ
  eventTime : String
  validTime : Option ValidTime := none
  scope : ChronicleScope := {}
  actor : ChronicleActor
  causationId : Option String := none
  correlationId : String
  parentIds : Option (List String) := none
  worldVersion : Option String := none
  structureVersion : Option String := none
  policyVersion : Option String := none
  contextManifestId : Option String := none
  classification : EventClassification
  retentionClass : String
  payload : Value
  extra : List (String × Value) := []

structure StoredEvent where
  event : NewChronicleEvent
  streamId : String
  sequence : ℕ
  ingestTime : String

inductive StoreError where
  | validation (eventType : String) (issues : List String)
  | unknownEventType (eventType : String)
  | sequenceConflict (streamId : String) (expectedSequence : ℤ) (actualNextSequence : ℕ)
  | zod (issues : List String)
  | constraint
  deriving DecidableEq, Repr

/-- The payload check of each registered event type. -/
structure ChronicleSchemaRegistry where
  formats : Formats
  types : String → Option (Value → Bool)

section Validation
variable (f : Formats)

def ValidTime.issues (v : ValidTime) : List String :=
  datetime f "validTime.from" v.from_ ++ optional v.to_ (datetime f "validTime.to")

def ChronicleScope.issues (s : ChronicleScope) : List String :=
  optional s.goalId (nonempty "goalId") ++ optional s.planId (nonempty "planId") ++
    optional s.taskId (nonempty "taskId") ++ optional s.episodeId (nonempty "episodeId") ++
    optional s.threadId (nonempty "threadId") ++ optional s.turnId (nonempty "turnId") ++
    optional s.stepId (nonempty "stepId")

/-- `NewChronicleEventSchema` -/
def NewChronicleEvent.issues (e : NewChronicleEvent) : List String :=
  uuid f "eventId" e.eventId ++ nonempty "eventType" e.eventType ++
    positive "schemaVersion" e.schemaVersion ++ datetime f "eventTime" e.eventTime ++
    optional e.validTime (·.issues f) ++ e.scope.issues ++ nonempty "actor.id" e.actor.id ++
    optional e.causationId (uuid f "causationId") ++ uuid f "correlationId" e.correlationId ++
    optional e.parentIds (fun ids => each "parentIds" ids (uuid f)) ++
    optional e.worldVersion (nonempty "worldVersion") ++
    optional e.structureVersion (nonempty "structureVersion") ++
    optional e.policyVersion (nonempty "policyVersion") ++
    optional e.contextManifestId (nonempty "contextManifestId") ++
    nonempty "retentionClass" e.retentionClass ++ check "" e.extra.isEmpty

def validateNew (registry : ChronicleSchemaRegistry) (e : NewChronicleEvent) :
    Except StoreError Unit :=
  match e.issues registry.formats with
  | issue :: issues => .error (.validation e.eventType (issue :: issues))
  | [] =>
    match registry.types e.eventType with
    | none => .error (.unknownEventType e.eventType)
    | some accepts =>
      if accepts e.payload then .ok () else .error (.validation e.eventType ["payload"])

/-- What a schema returns of an event: the objects without the keys that it does not name. -/
def NewChronicleEvent.stripped (e : NewChronicleEvent) : NewChronicleEvent :=
  { e with
    validTime := e.validTime.map fun v => { v with extra := [] }
    actor := { e.actor with extra := [] } }

/-- `ChronicleEventSchema.parse` -/
def parseStored (e : StoredEvent) : Except StoreError StoredEvent :=
  match e.event.issues f ++ nonempty "streamId" e.streamId ++ positive "sequence" e.sequence ++
      datetime f "ingestTime" e.ingestTime with
  | [] => .ok { e with event := e.event.stripped }
  | issues => .error (.zod issues)

end Validation

/-- The events as they are stored from `sequence` on. -/
def stamp (streamId ingestTime : String) : ℕ → List NewChronicleEvent → List StoredEvent
  | _, [] => []
  | sequence, event :: events =>
    ⟨event, streamId, sequence, ingestTime⟩ :: stamp streamId ingestTime (sequence + 1) events

def sameIds (existing : List StoredEvent) (events : List NewChronicleEvent) : Bool :=
  existing.length = events.length &&
    (existing.map (·.event.eventId)) = events.map (·.eventId)

namespace Memory

abbrev Store := OrderedMap String (List StoredEvent)

variable (registry : ChronicleSchemaRegistry)

/-- The array's `slice` from a sequence that is at least 1. -/
def existing (stream : List StoredEvent) (expectedSequence : ℤ) (count : ℕ) : List StoredEvent :=
  (stream.drop (expectedSequence - 1).toNat).take count

def append (s : Store) (streamId : String) (events : List NewChronicleEvent) (expectedSequence : ℤ)
    (now : String) : Except StoreError (List StoredEvent × Store) := do
  if events.isEmpty then return ([], s)
  events.forM (validateNew registry)
  let stream := (s.get streamId).getD []
  let nextSequence := stream.length + 1
  if expectedSequence < 1 then throw (.sequenceConflict streamId expectedSequence nextSequence)
  if expectedSequence ≠ nextSequence then
    let found := existing stream expectedSequence events.length
    if sameIds found events then return (found, s)
    else throw (.sequenceConflict streamId expectedSequence nextSequence)
  let stored := stamp streamId now nextSequence events
  return (stored, s.set streamId (stream ++ stored))

def readStream (s : Store) (streamId : String) (afterSequence : ℤ) : List StoredEvent :=
  ((s.get streamId).getD []).filter fun e => afterSequence < e.sequence

def getLatestSequence (s : Store) (streamId : String) : ℕ := ((s.get streamId).getD []).length

def listStreams (s : Store) : List String := s.keys

end Memory

namespace Sqlite

structure StreamRow where
  stream_id : String
  sequence : ℕ
  deriving DecidableEq, Repr

/-- `event_json` is the text of an event, which parses to that event again. -/
structure EventRow where
  stream_id : String
  sequence : ℕ
  event_id : String
  event_json : StoredEvent

/-- The rows of the two tables by their `rowid`. -/
structure Database where
  chronicle_streams : List StreamRow
  chronicle_events : List EventRow

namespace Database

def empty : Database := ⟨[], []⟩

variable (d : Database)

/-- `INSERT OR IGNORE INTO chronicle_streams (stream_id, sequence) VALUES (?, 0)` -/
def insertStream (streamId : String) : Database :=
  if d.chronicle_streams.any (·.stream_id = streamId) then d
  else { d with chronicle_streams := d.chronicle_streams ++ [⟨streamId, 0⟩] }

/-- `SELECT sequence FROM chronicle_streams WHERE stream_id = ?` -/
def tail (streamId : String) : Option ℕ :=
  (d.chronicle_streams.find? (·.stream_id = streamId)).map (·.sequence)

/-- `UPDATE chronicle_streams SET sequence = ? WHERE stream_id = ?` -/
def writeTail (sequence : ℕ) (streamId : String) : Database :=
  { d with chronicle_streams := d.chronicle_streams.map fun row =>
      if row.stream_id = streamId then { row with sequence } else row }

/-- `SELECT event_json FROM chronicle_events WHERE stream_id = ? AND ... ORDER BY sequence ASC` -/
def select (streamId : String) (p : ℤ → Bool) : List StoredEvent :=
  ((d.chronicle_events.filter fun row => row.stream_id = streamId && p row.sequence).insertionSort
    fun a b => a.sequence ≤ b.sequence).map (·.event_json)

/-- The key of the table is the stream and the sequence. -/
def insertEvent (e : StoredEvent) : Except StoreError Database :=
  if d.chronicle_events.any fun row => row.stream_id = e.streamId && row.sequence = e.sequence then
    .error .constraint
  else
    .ok { d with chronicle_events :=
      d.chronicle_events ++ [⟨e.streamId, e.sequence, e.event.eventId, e⟩] }

end Database

variable (registry : ChronicleSchemaRegistry)

def appendLocked (d : Database) (streamId : String) (events : List NewChronicleEvent)
    (expectedSequence : ℤ) (now : String) : Except StoreError (List StoredEvent × Database) := do
  let d := d.insertStream streamId
  let actualNext := (d.tail streamId).getD 0 + 1
  if expectedSequence < 1 ∨ actualNext < expectedSequence then
    throw (.sequenceConflict streamId expectedSequence actualNext)
  if expectedSequence ≠ actualNext then
    let window := d.select streamId fun n =>
      expectedSequence ≤ n && n < expectedSequence + events.length
    if sameIds window events then return (← window.mapM (parseStored registry.formats), d)
    else throw (.sequenceConflict streamId expectedSequence actualNext)
  let stored := stamp streamId now actualNext events
  let d ← stored.foldlM Database.insertEvent d
  return (stored, d.writeTail ((stored.getLast?.map (·.sequence)).getD 0) streamId)

/-- A transaction that throws is rolled back. -/
def append (d : Database) (streamId : String) (events : List NewChronicleEvent)
    (expectedSequence : ℤ) (now : String) : Except StoreError (List StoredEvent × Database) := do
  if events.isEmpty then return ([], d)
  events.forM (validateNew registry)
  appendLocked registry d streamId events expectedSequence now

def readStream (d : Database) (streamId : String) (afterSequence : ℤ) :
    Except StoreError (List StoredEvent) :=
  (d.select streamId fun n => afterSequence < n).mapM (parseStored registry.formats)

def getLatestSequence (d : Database) (streamId : String) : ℕ := (d.tail streamId).getD 0

def listStreams (d : Database) : List String := d.chronicle_streams.map (·.stream_id)

end Sqlite

/-- A call of a store; `now` is what the clock reads in it. -/
inductive StoreCall where
  | append (streamId : String) (events : List NewChronicleEvent) (expectedSequence : ℤ)
      (now : String)
  | readStream (streamId : String) (afterSequence : ℤ)
  | getLatestSequence (streamId : String)
  | listStreams

inductive StoreResult where
  | events (events : List StoredEvent)
  | sequence (n : ℕ)
  | streams (ids : List String)

section Run
variable (registry : ChronicleSchemaRegistry)

def Memory.step (s : Memory.Store) : StoreCall → Except StoreError StoreResult × Memory.Store
  | .append streamId events expectedSequence now =>
    match append registry s streamId events expectedSequence now with
    | .ok (stored, s) => (.ok (.events stored), s)
    | .error e => (.error e, s)
  | .readStream streamId afterSequence => (.ok (.events (readStream s streamId afterSequence)), s)
  | .getLatestSequence streamId => (.ok (.sequence (getLatestSequence s streamId)), s)
  | .listStreams => (.ok (.streams (listStreams s)), s)

def Sqlite.step (d : Sqlite.Database) : StoreCall → Except StoreError StoreResult × Sqlite.Database
  | .append streamId events expectedSequence now =>
    match append registry d streamId events expectedSequence now with
    | .ok (stored, d) => (.ok (.events stored), d)
    | .error e => (.error e, d)
  | .readStream streamId afterSequence =>
    ((readStream registry d streamId afterSequence).map .events, d)
  | .getLatestSequence streamId => (.ok (.sequence (getLatestSequence d streamId)), d)
  | .listStreams => (.ok (.streams (listStreams d)), d)

/-- The results of some calls, one after another, and the store they leave. -/
def run {σ : Type} (step : σ → StoreCall → Except StoreError StoreResult × σ) :
    σ → List StoreCall → List (Except StoreError StoreResult) × σ
  | s, [] => ([], s)
  | s, call :: calls =>
    let (result, s) := step s call
    let (results, s) := run step s calls
    (result :: results, s)

end Run

end BeeAgent.Chronicle.Stores
