import BeeAgent.Learning.Proposals
import BeeAgent.Transition.Machine

/-! The proposal store with any number of calls in flight. A call checks its proposal at once; then
it reads the latest sequence, appends, and puts the proposal into the projection, each after an
await. -/
namespace BeeAgent.Learning
open Data Transition
open Kanban (Formats)

inductive Operation where
  | create (input : CreateProposalInput)
  | transition (proposalId : String) (command : TransitionCommand)

/-- Where a call stands: each stage but the last two is an await. -/
inductive Stage where
  | latest (commit : Commit)
  | appending (commit : Commit) (expectedSequence : ℕ)
  /-- The event is written; the call has not gone on yet. -/
  | recorded (commit : Commit)
  | finished (result : Except LearningError ImprovementProposal)
  /-- The process went down before the call came to an end. -/
  | gone

structure Call where
  op : Operation
  stage : Stage

structure ProposalStore where
  stream : List (Chronicle.ChronicleEvent LearningEvent)
  nextEventId : ℕ
  proposals : Proposals
  calls : List Call

inductive Input where
  | call (op : Operation) (draw : Draw)
  | resume (call : ℕ) (now : String)
  /-- The Chronicle store fails what the call awaits. -/
  | fail (call : ℕ)
  /-- Another component writes to the learning stream. -/
  | observed (payload : LearningPayload) (now : String)
  /-- The process goes down and a new one rebuilds before anything is asked of it. -/
  | restart

def LearningPayload.isProposalEvent : LearningPayload → Bool
  | .proposalCreated _ | .statusChanged _ => true
  | _ => false

namespace ProposalStore

def initial : ProposalStore := ⟨[], 0, .empty, []⟩

variable (s : ProposalStore)

def events : List LearningEvent := s.stream.map (·.payload)

def withStage (c : ℕ) (stage : Stage) : ProposalStore :=
  { s with calls := s.calls.modify c fun call => { call with stage } }

def grow (payload : LearningPayload) (now : String) : ProposalStore :=
  { s with
    stream := s.stream ++ [⟨s.nextEventId, ⟨payload, now⟩⟩]
    nextEventId := s.nextEventId + 1 }

end ProposalStore

def commitOf (f : Formats) (proposals : Proposals) (draw : Draw) :
    Operation → Except LearningError Commit
  | .create input => create f input draw
  | .transition proposalId command => transition f proposals proposalId command draw

section Steps
variable (s : ProposalStore)

/-- What a call does at once. -/
def start (f : Formats) (draw : Draw) (op : Operation) : Stage :=
  match commitOf f s.proposals draw op with
  | .error e => .finished (.error e)
  | .ok commit => .latest commit

def land (c : ℕ) (commit : Commit) (expectedSequence : ℕ) (now : String) : ProposalStore :=
  match Chronicle.append s.stream [⟨s.nextEventId, ⟨commit.event, now⟩⟩] expectedSequence with
  | .error e =>
    s.withStage c (.finished (.error (.sequenceConflict e.expectedSequence e.actualNextSequence)))
  | .ok stream =>
    { s.withStage c (.recorded commit) with stream, nextEventId := s.nextEventId + 1 }

def conclude (c : ℕ) (commit : Commit) : ProposalStore :=
  { s.withStage c (.finished (.ok commit.next)) with
    proposals := s.proposals.set commit.next.id commit.next }

/-- A call in flight does not outlive its process. -/
def Call.abandoned (call : Call) : Call :=
  match call.stage with
  | .finished _ => call
  | _ => { call with stage := .gone }

end Steps

def proposalStep (f : Formats) (s : ProposalStore) : Input → Option ProposalStore
  | .call op draw => some { s with calls := s.calls ++ [⟨op, start s f draw op⟩] }
  | .resume c now =>
    (s.calls[c]?).bind fun call =>
      match call.stage with
      | .latest commit =>
        some (s.withStage c (.appending commit (Chronicle.getLatestSequence s.stream + 1)))
      | .appending commit expectedSequence => some (land s c commit expectedSequence now)
      | .recorded commit => some (conclude s c commit)
      | .finished _ | .gone => none
  | .fail c =>
    (s.calls[c]?).bind fun call =>
      match call.stage with
      | .latest _ | .appending _ _ => some (s.withStage c (.finished (.error .chronicle)))
      | _ => none
  | .observed payload now => if payload.isProposalEvent then none else some (s.grow payload now)
  | .restart =>
    match rebuild s.events with
    | .error _ => none
    | .ok proposals => some { s with proposals, calls := s.calls.map Call.abandoned }

def proposalStore (f : Formats) : Machine ProposalStore Input := ⟨proposalStep f⟩

section Log

def LearningPayload.changes (id : String) : LearningPayload → Bool
  | .statusChanged payload => payload.proposalId = id
  | _ => false

def changes (events : List LearningEvent) (id : String) : ℕ :=
  events.countP fun event => event.payload.changes id

def LearningPayload.statusAfter (id : String) (before : Option ProposalStatus) :
    LearningPayload → Option ProposalStatus
  | .proposalCreated proposal => if proposal.id = id then some proposal.status else before
  | .statusChanged payload => if payload.proposalId = id then some payload.dst else before
  | _ => before

def statusOf (events : List LearningEvent) (id : String) : Option ProposalStatus :=
  events.foldl (fun before event => event.payload.statusAfter id before) none

/-- The log holds no change of the proposal beyond the version that the commit was made from, and
nothing of a proposal that is to be created. -/
def Commit.current (events : List LearningEvent) (commit : Commit) : Bool :=
  match commit.event with
  | .proposalCreated proposal => statusOf events proposal.id = none
  | .statusChanged payload => (changes events payload.proposalId : ℤ) + 2 = commit.next.version
  | _ => true

def Stage.current (events : List LearningEvent) : Stage → Bool
  | .latest commit => commit.current events
  | _ => true

/-- A call that reads the latest sequence has seen all that the log holds of its proposal. -/
def Undisturbed (s : ProposalStore) : Input → Prop
  | .resume c _ => ∀ call ∈ s.calls[c]?, call.stage.current s.events
  | _ => True

instance (s : ProposalStore) : (i : Input) → Decidable (Undisturbed s i)
  | .resume c _ => inferInstanceAs (Decidable (∀ call ∈ s.calls[c]?, call.stage.current s.events))
  | .call _ _ | .fail _ | .observed _ _ | .restart => .isTrue trivial

end Log

/-- What a step does. -/
inductive Moves (f : Formats) (s : ProposalStore) : Input → ProposalStore → Prop where
  | call (op draw) : Moves f s (.call op draw) { s with calls := s.calls ++ [⟨op, start s f draw op⟩] }
  | latest {c now call commit} (hc : s.calls[c]? = some call) (hstage : call.stage = .latest commit) :
      Moves f s (.resume c now)
        (s.withStage c (.appending commit (Chronicle.getLatestSequence s.stream + 1)))
  | append {c now call commit n} (hc : s.calls[c]? = some call)
      (hstage : call.stage = .appending commit n) :
      Moves f s (.resume c now) (land s c commit n now)
  | conclude {c now call commit} (hc : s.calls[c]? = some call)
      (hstage : call.stage = .recorded commit) :
      Moves f s (.resume c now) (conclude s c commit)
  | fail {c call commit} (hc : s.calls[c]? = some call)
      (hstage : call.stage = .latest commit ∨ ∃ n, call.stage = .appending commit n) :
      Moves f s (.fail c) (s.withStage c (.finished (.error .chronicle)))
  | observed {payload now} (hforeign : payload.isProposalEvent = false) :
      Moves f s (.observed payload now) (s.grow payload now)
  | restart {proposals} (hrebuild : rebuild s.events = .ok proposals) :
      Moves f s .restart { s with proposals, calls := s.calls.map Call.abandoned }

variable {f : Formats} {s t : ProposalStore}

theorem proposalStep_moves {i : Input} (h : (proposalStore f).step s i = some t) :
    Moves f s i t := by
  cases i with
  | call op draw =>
    cases h
    exact .call op draw
  | resume c now =>
    obtain ⟨call, hc, h⟩ := Option.bind_eq_some_iff.mp h
    cases hstage : call.stage with
    | latest commit =>
      rw [hstage] at h
      cases h
      exact .latest hc hstage
    | appending commit n =>
      rw [hstage] at h
      cases h
      exact .append hc hstage
    | recorded commit =>
      rw [hstage] at h
      cases h
      exact .conclude hc hstage
    | finished | gone =>
      rw [hstage] at h
      cases h
  | fail c =>
    obtain ⟨call, hc, h⟩ := Option.bind_eq_some_iff.mp h
    cases hstage : call.stage with
    | latest commit =>
      rw [hstage] at h
      cases h
      exact .fail hc (.inl hstage)
    | appending commit n =>
      rw [hstage] at h
      cases h
      exact .fail hc (.inr ⟨n, hstage⟩)
    | recorded | finished | gone =>
      rw [hstage] at h
      cases h
  | observed payload now =>
    simp only [proposalStore, proposalStep] at h
    split at h
    · cases h
    · next hforeign =>
      cases h
      exact .observed (by simpa using hforeign)
  | restart =>
    simp only [proposalStore, proposalStep] at h
    split at h
    · cases h
    · next proposals hrebuild =>
      cases h
      exact .restart hrebuild

end BeeAgent.Learning
