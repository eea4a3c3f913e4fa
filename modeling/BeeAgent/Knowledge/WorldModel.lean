import BeeAgent.Data.Folds
import BeeAgent.Data.Upsert
import BeeAgent.Knowledge.WorldSchema
import BeeAgent.Transition.Machine

/-! The world model store: facts are merged into a projection and appended to the world stream with
a digest of the projection; a rebuild folds the stream and checks the digests. -/
namespace BeeAgent.Knowledge
open Data

/-- The hash, the order of `localeCompare` and the formats that the schemas ask for. -/
structure Platform where
  sha256 : String → String
  localeCompare : String → String → Ordering
  isDatetime : String → Bool
  isUuid : String → Bool

/-! ### Schemas -/

def nonEmpty (s : String) : Bool := s != ""

/-- `WorldEntitySchema` -/
def WorldEntity.accepted (p : Platform) (e : WorldEntity) : Bool :=
  nonEmpty e.id && e.subtype.all nonEmpty && p.isDatetime e.firstSeenAt && p.isDatetime e.lastSeenAt

def WorldProvenance.accepted (o : WorldProvenance) : Bool :=
  nonEmpty o.streamId && 0 < o.sequence && o.threadId.all nonEmpty && o.turnId.all nonEmpty &&
    o.itemId.all nonEmpty

/-- `WorldRelationSchema` -/
def WorldRelation.accepted (p : Platform) (r : WorldRelation) : Bool :=
  p.isUuid r.id && nonEmpty r.fromEntityId && nonEmpty r.toEntityId && r.provenance.accepted &&
    p.isDatetime r.validTime.from_ && r.validTime.to_.all p.isDatetime && p.isDatetime r.recordedAt

/-! ### The digest -/

def WorldEntityKind.text : WorldEntityKind → String
  | .actor => "actor"
  | .resource => "resource"
  | .capability => "capability"
  | .location => "location"

def WorldRelationType.text : WorldRelationType → String
  | .owns => "owns"
  | .dependsOn => "depends_on"
  | .contains => "contains"
  | .connectedTo => "connected_to"
  | .authorizedFor => "authorized_for"
  | .producedBy => "produced_by"
  | .used => "used"

def WorldAttributeValue.toValue : WorldAttributeValue → Value
  | .string s => .string s
  | .number n => .number n
  | .boolean b => .boolean b
  | .null => .null

def optionalString (key : String) (s : Option String) : List (String × Value) :=
  optionalField key (s.map .string)

def WorldProvenance.toValue (o : WorldProvenance) : Value :=
  .object ([("streamId", .string o.streamId), ("sequence", .number (.ofNat o.sequence))] ++
    optionalString "threadId" o.threadId ++ optionalString "turnId" o.turnId ++
    optionalString "itemId" o.itemId)

def WorldRelation.toValue (r : WorldRelation) : Value :=
  .object [("id", .string r.id), ("type", .string r.type.text),
    ("fromEntityId", .string r.fromEntityId), ("toEntityId", .string r.toEntityId),
    ("provenance", r.provenance.toValue),
    ("validTime", .object (("from", .string r.validTime.from_) ::
      optionalString "to" r.validTime.to_)),
    ("recordedAt", .string r.recordedAt)]

/-- Entities and relations by id, in the order in which the ids came in. -/
structure Projection where
  entities : OrderedMap String WorldEntity
  relations : OrderedMap String WorldRelation

namespace Projection
variable (p : Platform)

def empty : Projection := ⟨.empty, .empty⟩

/-- `sort((a, b) => key(a).localeCompare(key(b)))` -/
def sortBy {α : Type} (key : α → String) (xs : List α) : List α :=
  xs.insertionSort fun a b => p.localeCompare (key a) (key b) ≠ .gt

def sortedEntities (w : Projection) : List WorldEntity := sortBy p WorldEntity.id w.entities.values

def sortedRelations (w : Projection) : List WorldRelation :=
  sortBy p WorldRelation.id w.relations.values

def entityValue (e : WorldEntity) : Value :=
  .object ([("id", .string e.id), ("kind", .string e.kind.text)] ++
    optionalString "subtype" e.subtype ++
    [("attributes", .object ((sortBy p Prod.fst e.attributes).map fun f => (f.1, f.2.toValue))),
      ("firstSeenAt", .string e.firstSeenAt), ("lastSeenAt", .string e.lastSeenAt)])

/-- `computeWorldDigest` -/
def digest (w : Projection) : String :=
  "sha256:" ++ p.sha256 (canonicalJson (.object
    [("entities", .array ((w.sortedEntities p).map (entityValue p))),
      ("relations", .array ((w.sortedRelations p).map WorldRelation.toValue))]))

end Projection

/-! ### Facts -/

/-- `{ ...attributes, ...more }` -/
def spread (attributes more : List (String × WorldAttributeValue)) :
    List (String × WorldAttributeValue) :=
  ((OrderedMap.empty.setAll attributes).setAll more).entries

def mergeEntity (existing : Option WorldEntity) (input : NewWorldEntityInput) (seenAt : String) :
    WorldEntity :=
  match existing with
  | none =>
    { id := input.id
      kind := input.kind
      subtype := input.subtype
      attributes := spread [] input.attributes
      firstSeenAt := seenAt
      lastSeenAt := seenAt }
  | some existing =>
    { existing with
      lastSeenAt := seenAt
      attributes := spread existing.attributes input.attributes }

inductive WorldEvent where
  | entity (entity : WorldEntity)
  | relation (relation : WorldRelation)
  | version (version : ℕ) (digest : String) (at_ : String)

def WorldEntity.asInput (e : WorldEntity) : NewWorldEntityInput :=
  ⟨e.id, e.kind, e.subtype, e.attributes, some e.lastSeenAt⟩

/-- `#fold` of a fact; version events are checked by the rebuild itself. Facts have passed their
schemas when they were appended, so that the one of the merged entity holds. -/
def Projection.fold (w : Projection) : WorldEvent → Projection
  | .entity e =>
    let merged := mergeEntity (w.entities.get e.id) e.asInput e.lastSeenAt
    { w with entities := w.entities.set e.id merged }
  | .relation r => { w with relations := w.relations.set r.id r }
  | .version _ _ _ => w

/-! ### The rebuild -/

inductive DriftPolicy where
  | fail | rebase
  deriving DecidableEq

structure WorldVersionDriftError where
  version : ℕ
  expectedDigest : String
  actualDigest : String

structure DriftNotice where
  detectedAtVersion : ℕ
  rebasedToVersion : ℕ

structure WorldModelStore extends Projection where
  version : ℕ
  digest : String
  driftNotice : Option DriftNotice

/-- The state of a rebuild between two events. -/
structure Replay extends Projection where
  version : ℕ := 0
  digest : String
  driftedAt : Option ℕ := none
  lastBumpDigest : Option String := none
  pendingBad : Option (ℕ × String) := none

section
variable (p : Platform)

def WorldModelStore.initial : WorldModelStore := ⟨.empty, 0, Projection.empty.digest p, none⟩

def Replay.start : Replay := { toProjection := .empty, digest := Projection.empty.digest p }

/-- One mismatched bump may be followed by a corrective one; a second consecutive mismatch is a
drift. -/
def Replay.bump (policy : DriftPolicy) (r : Replay) (version : ℕ) (digest : String) :
    Except WorldVersionDriftError Replay :=
  let actual := r.toProjection.digest p
  let r := { r with lastBumpDigest := some digest }
  if actual = digest then .ok { r with version, digest, pendingBad := none }
  else
    match r.pendingBad with
    | none => .ok { r with pendingBad := some (version, digest) }
    | some bad =>
      match policy with
      | .fail => .error ⟨bad.1, bad.2, actual⟩
      | .rebase => .ok { r with
          driftedAt := some bad.1
          version := max r.version version
          pendingBad := none }

def Replay.event (policy : DriftPolicy) (r : Replay) :
    WorldEvent → Except WorldVersionDriftError Replay
  | .version version digest _ => r.bump p policy version digest
  | event => .ok { r with toProjection := r.toProjection.fold event }

/-- The end of the stream: a mismatch that is still pending fails, or is corrected by a version
event that is appended, unless the stream ends on the replayed digest. -/
def Replay.finish (policy : DriftPolicy) (now : String) (notice : Option DriftNotice) (r : Replay) :
    Except WorldVersionDriftError (WorldModelStore × List WorldEvent) := do
  let actual := r.toProjection.digest p
  let driftedAt ← match r.pendingBad, policy with
    | none, _ => .ok r.driftedAt
    | some bad, .fail => .error ⟨bad.1, bad.2, actual⟩
    | some bad, .rebase => .ok (some bad.1)
  match driftedAt with
  | none => return (⟨r.toProjection, r.version, r.digest, notice⟩, [])
  | some driftedAt =>
    if r.lastBumpDigest = some actual then
      return (⟨r.toProjection, r.version, actual, some ⟨driftedAt, r.version⟩⟩, [])
    else
      let corrective :=
        max (max r.version (driftedAt + 1)) ((r.pendingBad.map Prod.fst).getD 0) + 1
      return (⟨r.toProjection, corrective, actual, some ⟨driftedAt, corrective⟩⟩,
        [.version corrective actual now])

/-- `rebuild`, with the events that it appends. -/
def rebuild (policy : DriftPolicy) (now : String) (notice : Option DriftNotice)
    (log : List WorldEvent) :
    Except WorldVersionDriftError (WorldModelStore × List WorldEvent) := do
  let r ← log.foldlM (Replay.event p policy) (.start p)
  r.finish p policy now notice

end

end BeeAgent.Knowledge
