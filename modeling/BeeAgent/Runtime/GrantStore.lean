import BeeAgent.Data.OrderedMap
import BeeAgent.Kanban.Protocol
import BeeAgent.Transition.Machine
import Mathlib.Data.Finset.Basic

/-! The durable user grants: the set that the policy consults beside the stream that a restart
rebuilds it from. -/
namespace BeeAgent.Grants
open Data Transition Machine
open Kanban (Formats)
open Kanban.Schema

structure GrantPayload where
  capability : String
  reason : Option String
  by_ : String
  at_ : String
  deriving DecidableEq, Repr

inductive GrantEvent where
  | recorded (payload : GrantPayload)
  | revoked (payload : GrantPayload)
  deriving DecidableEq, Repr

/-- `GrantBaseSchema` -/
def GrantPayload.issues (f : Formats) (p : GrantPayload) : List String :=
  nonempty "capability" p.capability ++ optional p.reason (nonempty "reason") ++
    nonempty "by" p.by_ ++ datetime f "at" p.at_

structure GrantedCapability where
  capability : String
  reason : Option String
  by_ : String
  at_ : String
  deriving DecidableEq, Repr

structure UserGrantStore where
  stream : List GrantEvent
  granted : Finset String
  details : OrderedMap String GrantedCapability

/-- How one attempt of `#append` goes: the store may fail to tell the latest sequence, and it may
refuse to append. -/
inductive Attempt where
  | written
  | refused
  | unread
  deriving DecidableEq, Repr

/-- Why a call rejects. -/
inductive GrantError where
  | zod (issues : List String)
  | chronicle
  deriving DecidableEq, Repr

/-- The times that the event and the details are stamped with. -/
structure Draw where
  eventAt : String
  at_ : String

inductive Call where
  | record (capability : String) (reason by_ : Option String) (draw : Draw) (attempts : ℕ → Attempt)
  | revoke (capability : String) (reason : Option String) (draw : Draw) (attempts : ℕ → Attempt)
  /-- The process goes down and a new one rebuilds. -/
  | restart

namespace UserGrantStore

def initial : UserGrantStore := ⟨[], ∅, .empty⟩

/-- The set after an event of the stream. -/
def fold (granted : Finset String) : GrantEvent → Finset String
  | .recorded payload => insert payload.capability granted
  | .revoked payload => granted.erase payload.capability

def foldDetails (details : OrderedMap String GrantedCapability) :
    GrantEvent → OrderedMap String GrantedCapability
  | .recorded p => details.set p.capability ⟨p.capability, p.reason, p.by_, p.at_⟩
  | .revoked p => details.delete p.capability

def rebuilt (stream : List GrantEvent) : Finset String := stream.foldl fold ∅

def rebuild (s : UserGrantStore) : UserGrantStore :=
  { s with granted := rebuilt s.stream, details := s.stream.foldl foldDetails .empty }

/-- `#append`, with so many attempts left: when each is refused it returns all the same. -/
def append (stream : List GrantEvent) (event : GrantEvent) (attempts : ℕ → Attempt) :
    ℕ → ℕ → Except GrantError (List GrantEvent)
  | 0, _ => .ok stream
  | left + 1, attempt =>
    match attempts attempt with
    | .unread => .error .chronicle
    | .written => .ok (stream ++ [event])
    | .refused => append stream event attempts left (attempt + 1)

variable (f : Formats)

def payloadOf (capability : String) (reason by_ : Option String) (draw : Draw) : GrantPayload :=
  ⟨capability, reason, by_.getD "user", draw.eventAt⟩

def record (s : UserGrantStore) (capability : String) (reason by_ : Option String) (draw : Draw)
    (attempts : ℕ → Attempt) : Except GrantError UserGrantStore :=
  let payload := payloadOf capability reason by_ draw
  match payload.issues f with
  | [] =>
    (append s.stream (.recorded payload) attempts 2 0).map fun stream =>
      { stream
        granted := insert capability s.granted
        details := s.details.set capability ⟨capability, reason, by_.getD "user", draw.at_⟩ }
  | issues => .error (.zod issues)

def revoke (s : UserGrantStore) (capability : String) (reason : Option String) (draw : Draw)
    (attempts : ℕ → Attempt) : Except GrantError UserGrantStore :=
  let payload := payloadOf capability reason none draw
  match payload.issues f with
  | [] =>
    (append s.stream (.revoked payload) attempts 2 0).map fun stream =>
      { stream, granted := s.granted.erase capability, details := s.details.delete capability }
  | issues => .error (.zod issues)

/-- A call that rejects leaves everything as it was. -/
def step (s : UserGrantStore) : Call → UserGrantStore
  | .record capability reason by_ draw attempts =>
    match s.record f capability reason by_ draw attempts with
    | .ok s => s
    | .error _ => s
  | .revoke capability reason draw attempts =>
    match s.revoke f capability reason draw attempts with
    | .ok s => s
    | .error _ => s
  | .restart => s.rebuild

def grants : Machine UserGrantStore Call := ⟨fun s call => some (s.step f call)⟩

/-- The set that the policy consults is the one that the stream gives. -/
def Agrees (s : UserGrantStore) : Prop := s.granted = rebuilt s.stream

def Refused (attempts : ℕ → Attempt) : Prop := attempts 0 = .refused ∧ attempts 1 = .refused

/-- A call whose two appends are both refused asks for what is in place already. -/
def Kept (s : UserGrantStore) : Call → Prop
  | .record capability reason by_ draw attempts =>
    (payloadOf capability reason by_ draw).issues f = [] → Refused attempts → capability ∈ s.granted
  | .revoke capability reason draw attempts =>
    (payloadOf capability reason none draw).issues f = [] → Refused attempts →
      capability ∉ s.granted
  | .restart => True

variable {f} {s : UserGrantStore}

theorem append_cases (stream : List GrantEvent) (event : GrantEvent) (attempts : ℕ → Attempt) :
    (Refused attempts ∧ append stream event attempts 2 0 = .ok stream) ∨
    ¬ Refused attempts ∧ (append stream event attempts 2 0 = .ok (stream ++ [event]) ∨
      append stream event attempts 2 0 = .error .chronicle) := by
  simp only [append, Refused]
  cases h0 : attempts 0 <;> simp
  cases h1 : attempts 1 <;> simp

theorem rebuilt_append (stream : List GrantEvent) (event : GrantEvent) :
    rebuilt (stream ++ [event]) = fold (rebuilt stream) event := by
  rw [rebuilt, List.foldl_append]
  rfl

/-- From a state in which the two agree they go on to agree just when the call is kept. -/
theorem step_agrees (h : s.Agrees) (call : Call) : (s.step f call).Agrees ↔ Kept f s call := by
  cases call with
  | record capability reason by_ draw attempts =>
    simp only [step, record, Kept]
    cases hissues : (payloadOf capability reason by_ draw).issues f with
    | cons issue issues => simpa using h
    | nil =>
      rcases append_cases s.stream (.recorded (payloadOf capability reason by_ draw)) attempts with
        ⟨hrefused, happend⟩ | ⟨hnot, happend | happend⟩
      · simp only [happend, Except.map, Agrees, hrefused, forall_const]
        rw [← h, Finset.insert_eq_self]
      · simp only [happend, Except.map, Agrees, hnot, false_imp_iff, implies_true, iff_true]
        rw [rebuilt_append, ← h]
        rfl
      · simpa only [happend, Except.map, hnot, false_imp_iff, implies_true, iff_true] using h
  | revoke capability reason draw attempts =>
    simp only [step, revoke, Kept]
    cases hissues : (payloadOf capability reason none draw).issues f with
    | cons issue issues => simpa using h
    | nil =>
      rcases append_cases s.stream (.revoked (payloadOf capability reason none draw)) attempts with
        ⟨hrefused, happend⟩ | ⟨hnot, happend | happend⟩
      · simp only [happend, Except.map, Agrees, hrefused, forall_const]
        rw [← h, Finset.erase_eq_self]
      · simp only [happend, Except.map, Agrees, hnot, false_imp_iff, implies_true, iff_true]
        rw [rebuilt_append, ← h]
        rfl
      · simpa only [happend, Except.map, hnot, false_imp_iff, implies_true, iff_true] using h
  | restart => exact iff_of_true rfl trivial

theorem agrees_iff_guarded (h : s.Agrees) (calls : List Call) :
    (∀ n t, (grants f).exec s (calls.take n) = some t → t.Agrees) ↔
      (grants f).Guarded (Kept f) s calls := by
  induction calls generalizing s with
  | nil =>
    refine iff_of_true (fun n t ht => ?_) trivial
    rw [List.take_nil] at ht
    cases ht
    exact h
  | cons call calls ih =>
    have hguarded : (grants f).Guarded (Kept f) s (call :: calls) ↔
        Kept f s call ∧ (grants f).Guarded (Kept f) (s.step f call) calls := Iff.rfl
    rw [hguarded, ← step_agrees h]
    constructor
    · intro hall
      have hnext : (s.step f call).Agrees := hall 1 _ rfl
      exact ⟨hnext, (ih hnext).mp fun n t ht => hall (n + 1) t ht⟩
    · rintro ⟨hnext, hrest⟩ n t ht
      cases n with
      | zero =>
        cases ht
        exact h
      | succ n => exact (ih hnext).mpr hrest n t ht

/-- After each call of a sequence the set is the one that a restart would rebuild, if and only if
every call of which both appends are refused asks for what is in place already. -/
theorem grants_durable (calls : List Call) :
    (∀ n t, (grants f).exec .initial (calls.take n) = some t → t.Agrees) ↔
      (grants f).Guarded (Kept f) .initial calls :=
  agrees_iff_guarded (s := .initial) rfl calls

def sampleFormats : Formats := ⟨fun s => s.length = 36, fun s => s.length = 24⟩

/-- A grant that is revoked while the store refuses to append, before the process restarts. -/
def unwrittenRevocation : List Call :=
  let draw : Draw := ⟨"2026-01-05T09:00:00.000Z", "2026-01-05T09:00:00.000Z"⟩
  [.record "network" none none draw fun _ => .written,
    .revoke "network" none draw fun _ => .refused, .restart]

theorem revoked_returns :
    ((grants sampleFormats).exec .initial (unwrittenRevocation.take 2)).map (·.granted) = some ∅ ∧
    ((grants sampleFormats).exec .initial unwrittenRevocation).map (·.granted) =
      some {"network"} := by
  decide +kernel

end UserGrantStore
end BeeAgent.Grants
