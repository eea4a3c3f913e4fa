import BeeAgent.Chronicle.Stream
import BeeAgent.Skills.Events
import BeeAgent.Transition.Machine

/-! The skill registry with any number of calls in flight. A write appends its fact, at the second
attempt if another writer came in between, and rebuilds; a rebuild clears the shared map and reads
the stream into it, one event after another, from a snapshot taken at its start. -/
namespace BeeAgent.Skills
open Data Chronicle Transition
open Kanban (Formats)

structure SkillRegistration where
  skillId : String
  name : String
  summary : String
  instructions : String
  boundToolId : String
  typicalInput : List (String × Value)
  origin : SkillProposalOrigin
  registeredBy : Option String := none

inductive Operation where
  | register (skill : SkillRegistration)
  | revoke (skillId : String) (reason : Option String)
  | rebuild

inductive SkillStoreError where
  | zod (issues : List String)
  | sequenceConflict (expectedSequence actualNextSequence : ℕ)
  | chronicle
  /-- A property is read of `undefined` or `null`. -/
  | type
  deriving DecidableEq, Repr

/-- The event of a write, and what its schema finds wrong. -/
structure Draft where
  eventType : String
  payload : Value
  issues : List String

inductive Stage where
  | latest (draft : Draft) (attempt : ℕ)
  | appending (draft : Draft) (attempt : ℕ) (event : SkillEvent) (expectedSequence : ℕ)
  /-- The event is written; the rebuild has not begun. -/
  | appended
  /-- The events from `next` on up to the snapshot are still to be read. -/
  | rebuilding (next snapshot : ℕ)
  | finished (error : Option SkillStoreError)

/-- What a `get` found, and whether it should have. -/
structure Look where
  skillId : String
  found : Bool
  registered : Bool
  deriving DecidableEq, Repr

structure SkillStore where
  stream : List (ChronicleEvent SkillEvent)
  nextEventId : ℕ
  skills : OrderedMap String StoredSkill
  calls : List Stage
  /-- How far the stream had been read, since the map was cleared, when a fact on the skill was read
  last. -/
  shown : String → ℕ
  /-- How much of the stream the rebuilds that have ended have read. -/
  settled : ℕ
  looks : List Look

inductive Input where
  | call (op : Operation) (now : String)
  | resume (call : ℕ) (now : String)
  /-- What the call awaits fails. -/
  | fail (call : ℕ)
  | get (skillId : String)

/-- What a rebuild takes an event for. -/
def SkillEvent.fact (event : SkillEvent) : Option (SkillFact StoredSkill) :=
  (SkillPayload.read event.payload).bind (storedFact event)

def SkillEvent.registers (skillId : String) (event : SkillEvent) : Bool :=
  match event.fact with
  | some (.registered skillId' _) => skillId' = skillId
  | _ => false

def SkillEvent.revokes (skillId : String) (event : SkillEvent) : Bool :=
  match event.fact with
  | some (.revoked skillId') => skillId' = skillId
  | _ => false

namespace SkillStore

def initial (events : List SkillEvent) : SkillStore where
  stream := events.zipIdx.map fun e => ⟨e.2, e.1⟩
  nextEventId := events.length
  skills := .empty
  calls := []
  shown := fun _ => 0
  settled := 0
  looks := []

variable (s : SkillStore)

def events : List SkillEvent := s.stream.map ChronicleEvent.payload

def withStage (c : ℕ) (stage : Stage) : SkillStore := { s with calls := s.calls.set c stage }

/-- The skill was registered for good: a rebuild that has ended has read its registration, and no
revocation follows that. -/
def registered (skillId : String) : Bool :=
  (List.range s.settled).any fun n =>
    (s.events[n]?.elim false (·.registers skillId)) &&
      (s.events.drop (n + 1)).all fun event => !event.revokes skillId

end SkillStore

section Steps
variable (f : Formats) (s : SkillStore)

def registeredDraft (skill : SkillRegistration) (registeredAt : String) : Draft :=
  let payload : SkillRegistered :=
    { skillId := skill.skillId
      name := skill.name
      summary := skill.summary
      instructions := skill.instructions
      boundToolId := skill.boundToolId
      typicalInput := skill.typicalInput
      origin := skill.origin
      registeredBy := skill.registeredBy.getD "user"
      registeredAt }
  ⟨"skill.registered", payload.payload, payload.issues f⟩

def revokedDraft (skillId : String) (reason : Option String) (registeredAt : String) : Draft :=
  let payload : SkillRevoked := ⟨skillId, reason, "user", registeredAt⟩
  ⟨"skill.revoked", payload.payload, payload.issues f⟩

/-- The map is cleared, and the stream is to be read from its start. -/
def clear : SkillStore := { s with skills := .empty, shown := fun _ => 0 }

def startStage (stage : Stage) : SkillStore := { s with calls := s.calls ++ [stage] }

def start (now : String) : Operation → SkillStore
  | .register skill => startStage s (.latest (registeredDraft f skill now) 0)
  | .revoke skillId reason => startStage s (.latest (revokedDraft f skillId reason now) 0)
  | .rebuild => startStage (clear s) (.rebuilding 0 s.stream.length)

def failed (error : SkillStoreError) : Stage := .finished (some error)

/-- The event is built in the call of `append`; its schema may refuse it. -/
def send (c : ℕ) (draft : Draft) (attempt : ℕ) (now : String) : SkillStore :=
  match draft.issues with
  | [] => s.withStage c (.appending draft attempt ⟨draft.eventType, draft.payload, now⟩
      (getLatestSequence s.stream + 1))
  | issues => s.withStage c (failed (.zod issues))

def land (c : ℕ) (draft : Draft) (attempt : ℕ) (event : SkillEvent) (expectedSequence : ℕ) :
    SkillStore :=
  match append s.stream [⟨s.nextEventId, event⟩] expectedSequence with
  | .error e =>
    if attempt = 1 then
      s.withStage c (failed (.sequenceConflict e.expectedSequence e.actualNextSequence))
    else s.withStage c (.latest draft (attempt + 1))
  | .ok stream => { s.withStage c .appended with stream, nextEventId := s.nextEventId + 1 }

/-- One event of a rebuild's snapshot is read into the map. -/
def read (c next snapshot : ℕ) (event : SkillEvent) : SkillStore :=
  match SkillPayload.read event.payload with
  | none => s.withStage c (failed .type)
  | some p =>
    let fact := storedFact event p
    { s.withStage c (.rebuilding (next + 1) snapshot) with
      skills := keepFact s.skills fact
      shown := fun skillId =>
        if fact.map SkillFact.skillId = some skillId then next + 1 else s.shown skillId }

def resume (c : ℕ) (now : String) : Stage → Option SkillStore
  | .latest draft attempt => some (send s c draft attempt now)
  | .appending draft attempt event expectedSequence =>
    some (land s c draft attempt event expectedSequence)
  | .appended => some ((clear s).withStage c (.rebuilding 0 s.stream.length))
  | .rebuilding next snapshot =>
    if next < snapshot then (s.events[next]?).map (read s c next snapshot)
    else some { s.withStage c (.finished none) with settled := max s.settled snapshot }
  | .finished _ => none

def step : Input → Option SkillStore
  | .call op now => some (start f s now op)
  | .resume c now => (s.calls[c]?).bind (resume s c now)
  | .fail c => (s.calls[c]?).bind fun stage =>
    match stage with
    | .latest .. | .appending .. | .rebuilding .. => some (s.withStage c (failed .chronicle))
    | .appended | .finished _ => none
  | .get skillId =>
    some { s with
      looks := s.looks ++ [⟨skillId, (s.skills.get skillId).isSome, s.registered skillId⟩] }

end Steps

def skillStore (f : Formats) : Machine SkillStore Input := ⟨step f⟩

end BeeAgent.Skills
