import BeeAgent.Data.OrderedMap
import BeeAgent.Kanban.Protocol
import Mathlib.Data.List.Induction

/-! The triggers of the agent scheduler, the events of its stream, and the projection that a rebuild
makes of them. -/
namespace BeeAgent.Scheduler
open Data
open Kanban (Formats KanbanTaskStatus)
open Kanban.Schema

structure TaskStatusCondition where
  taskId : String
  status : KanbanTaskStatus
  deriving DecidableEq, Repr

structure EventCondition where
  streamPrefix : Option String := none
  eventType : String
  deriving DecidableEq, Repr

structure SchedulerWhen where
  taskStatus : Option TaskStatusCondition := none
  event : Option EventCondition := none
  deriving DecidableEq, Repr

structure SchedulerTrigger where
  id : String
  input : String
  threadId : String
  at_ : Option String := none
  intervalMs : Option ℤ := none
  when : Option SchedulerWhen := none
  enabled : Bool
  createdAt : String
  nextRunAt : Option String := none
  deriving DecidableEq, Repr

inductive SchedulerError where
  | intervalNotPositive
  | whenExclusive
  | noSchedule
  | zod (issues : List String)
  | notFound (triggerId : String)
  | sequenceConflict (expectedSequence actualNextSequence : ℕ)
  /-- `toISOString` of a time that is out of range. -/
  | invalidTime
  | chronicle
  | unknownEventType (eventType : String)
  deriving DecidableEq, Repr

namespace Schema
variable (f : Formats)

/-- Exactly one of the two conditions. -/
def when (w : SchedulerWhen) : List String :=
  optional w.taskStatus (fun c => uuid f "when.taskStatus.taskId" c.taskId) ++
    optional w.event (fun c => optional c.streamPrefix (nonempty "when.event.streamPrefix") ++
      nonempty "when.event.eventType" c.eventType) ++
    check "when" (w.taskStatus.isSome != w.event.isSome)

def trigger (t : SchedulerTrigger) : List String :=
  uuid f "id" t.id ++ nonempty "input" t.input ++ uuid f "threadId" t.threadId ++
    optional t.at_ (datetime f "at") ++ optional t.intervalMs (positive "intervalMs") ++
    optional t.when (when f) ++ datetime f "createdAt" t.createdAt ++
    optional t.nextRunAt (datetime f "nextRunAt")

end Schema

/-- `SchedulerTriggerSchema.parse` -/
def parseTrigger (f : Formats) (t : SchedulerTrigger) : Except SchedulerError SchedulerTrigger :=
  match Schema.trigger f t with
  | [] => .ok t
  | issues => .error (.zod issues)

theorem parseTrigger_ok {f : Formats} {t t' : SchedulerTrigger} (h : parseTrigger f t = .ok t') :
    t' = t := by
  unfold parseTrigger at h
  split at h
  · exact (Except.ok.inj h).symm
  · cases h

/-- A condition of a trigger that is let through waits for a task or for an event, not for both. -/
theorem parseTrigger_when {f : Formats} {t t' : SchedulerTrigger} (h : parseTrigger f t = .ok t')
    {w : SchedulerWhen} (hw : t.when = some w) : w.taskStatus.isSome ≠ w.event.isSome := by
  unfold parseTrigger at h
  split at h
  · next hissues =>
    simp only [Schema.trigger, hw, List.append_eq_nil_iff] at hissues
    have hwhen := hissues.1.1.2
    simp only [Kanban.Schema.optional, Option.elim_some, Schema.when, List.append_eq_nil_iff] at hwhen
    have hcheck := hwhen.2
    unfold check at hcheck
    split at hcheck
    · next hne => simpa using hne
    · cases hcheck
  · cases h

-- these two tell what it does: no proof is to run the checks of the schema
attribute [irreducible] parseTrigger

inductive SchedulerRunStatus where
  | completed | failed | cancelled | suspended | error
  deriving DecidableEq, Repr

structure SchedulerFiredRun where
  triggerId : String
  threadId : String
  turnId : Option String
  status : SchedulerRunStatus
  missedIntervals : ℕ
  deriving DecidableEq, Repr

structure TriggeredPayload where
  triggerId : String
  threadId : String
  turnId : Option String
  status : SchedulerRunStatus
  firedAt : String
  missedIntervals : ℕ
  nextRunAt : Option String
  deriving DecidableEq, Repr

inductive SchedulerEvent where
  | registered (trigger : SchedulerTrigger)
  | triggered (payload : TriggeredPayload)
  | removed (triggerId : String) (reason : Option String)
  /-- Anything that is not a scheduler event. -/
  | other (eventType : String)
  deriving DecidableEq, Repr

abbrev Triggers := LiveMap String SchedulerTrigger

def foldEvent (triggers : Triggers) : SchedulerEvent → Except SchedulerError Triggers
  | .registered trigger => .ok (triggers.set trigger.id trigger)
  | .triggered payload =>
    match triggers.get payload.triggerId with
    | none => .ok triggers
    | some trigger =>
      if trigger.when.isSome then .ok (triggers.delete trigger.id)
      else .ok (triggers.set trigger.id { trigger with nextRunAt := payload.nextRunAt })
  | .removed triggerId _ => .ok (triggers.delete triggerId)
  | .other eventType => .error (.unknownEventType eventType)

def rebuild (events : List SchedulerEvent) : Except SchedulerError Triggers :=
  events.foldlM foldEvent .empty

/-- What an event makes of the one trigger with the id. -/
def SchedulerEvent.effect (id : String) (before : Option SchedulerTrigger) :
    SchedulerEvent → Option SchedulerTrigger
  | .registered trigger => if id = trigger.id then some trigger else before
  | .triggered payload =>
    if id = payload.triggerId then
      before.bind fun trigger =>
        if trigger.when.isSome then none else some { trigger with nextRunAt := payload.nextRunAt }
    else before
  | .removed triggerId _ => if id = triggerId then none else before
  | .other _ => before

def recorded (events : List SchedulerEvent) (id : String) : Option SchedulerTrigger :=
  events.foldl (fun before event => event.effect id before) none

def Keyed (triggers : Triggers) : Prop := ∀ id t, triggers.get id = some t → t.id = id

def SchedulerEvent.isKnown : SchedulerEvent → Bool
  | .other _ => false
  | _ => true

variable {triggers : Triggers} {event : SchedulerEvent} {events : List SchedulerEvent} {id : String}

theorem recorded_append : recorded (events ++ [event]) id = event.effect id (recorded events id) := by
  rw [recorded, List.foldl_append]
  rfl

theorem Keyed.set (h : Keyed triggers) (t : SchedulerTrigger) : Keyed (triggers.set t.id t) := by
  intro id u hu
  rw [LiveMap.get_set] at hu
  split at hu
  · next heq =>
    cases hu
    exact heq.symm
  · exact h id u hu

theorem Keyed.delete (h : Keyed triggers) (id : String) : Keyed (triggers.delete id) := by
  intro id' u hu
  rw [LiveMap.get_delete] at hu
  split at hu
  · cases hu
  · exact h id' u hu

theorem foldEvent_ok (hkeyed : Keyed triggers) (hknown : event.isKnown) :
    ∃ triggers', foldEvent triggers event = .ok triggers' ∧ Keyed triggers' ∧
      ∀ id, triggers'.get id = event.effect id (triggers.get id) := by
  cases event with
  | registered trigger =>
    exact ⟨_, rfl, hkeyed.set trigger, fun id => LiveMap.get_set ..⟩
  | triggered payload =>
    simp only [foldEvent]
    cases hget : triggers.get payload.triggerId with
    | none =>
      refine ⟨triggers, rfl, hkeyed, fun id => ?_⟩
      simp only [SchedulerEvent.effect]
      split
      · next heq => rw [heq, hget]; rfl
      · rfl
    | some trigger =>
      obtain hid := hkeyed _ _ hget
      simp only
      split
      · next hwhen =>
        refine ⟨_, rfl, hkeyed.delete _, fun id => ?_⟩
        rw [LiveMap.get_delete, SchedulerEvent.effect, hid]
        split
        · next heq => simp [heq, hget, hwhen]
        · rfl
      · next hwhen =>
        refine ⟨_, rfl, hkeyed.set { trigger with nextRunAt := payload.nextRunAt }, fun id => ?_⟩
        rw [LiveMap.get_set, SchedulerEvent.effect, hid]
        split
        · next heq => simp [heq, hget, hwhen, hid]
        · rfl
  | removed triggerId reason =>
    exact ⟨_, rfl, hkeyed.delete triggerId, fun id => LiveMap.get_delete ..⟩
  | other eventType => cases hknown

theorem rebuild_ok (hknown : ∀ event ∈ events, event.isKnown) :
    ∃ triggers, rebuild events = .ok triggers ∧ Keyed triggers ∧
      ∀ id, triggers.get id = recorded events id := by
  induction events using List.reverseRecOn with
  | nil =>
    refine ⟨.empty, rfl, ?_, fun id => rfl⟩
    intro id t ht
    cases ht
  | append_singleton events event ih =>
    obtain ⟨triggers, hrebuild, hkeyed, hget⟩ := ih fun e he =>
      hknown e (List.mem_append_left _ he)
    obtain ⟨triggers', hfold, hkeyed', hget'⟩ := foldEvent_ok hkeyed (hknown event (by simp))
    refine ⟨triggers', ?_, hkeyed', fun id => by rw [hget', hget, recorded_append]⟩
    rw [rebuild, List.foldlM_append, ← rebuild, hrebuild]
    simp [hfold, bind, Except.bind, pure, Except.pure]

end BeeAgent.Scheduler
