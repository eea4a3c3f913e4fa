import BeeAgent.Memory.Rebuild
import Mathlib.Data.List.DropRight

/-! The remote provider's calls and health checks, begun and settled in any order, and the health
events that its circuit breaker publishes. -/
namespace BeeAgent.Memory
open Chronicle Transition Machine

structure MemoryHealth where
  status : MemoryHealthStatus
  detail : Option String := none
  deriving DecidableEq, Repr

/-- The transport operation that a method of the provider waits for: one of a call, that of a
health check on an open circuit, and that of a health check on a circuit without failures. -/
inductive Flight where
  | call (operation : String)
  | probe
  | check
  deriving DecidableEq, Repr

/-- A transport may itself reject with the error of an open circuit. The health is read of the
health operation only. -/
inductive Answer where
  | resolved (health : MemoryHealth)
  | unavailable (message : String)
  | failed (message : String)
  deriving DecidableEq, Repr

def Answer.isResolved : Answer → Bool
  | .resolved _ => true
  | .unavailable _ | .failed _ => false

/-- What a method of the provider settles with. -/
inductive Reply where
  | result
  | health (health : MemoryHealth)
  | memoryProviderUnavailable (message : String)
  deriving DecidableEq, Repr

def memoryProviderUnavailableError (detail : String) : Reply :=
  .memoryProviderUnavailable ("The memory provider is unavailable (circuit open): " ++ detail)

/-! ### What the breaker makes of the transport -/

namespace Breaker
variable (r : RemoteMemoryOptions) (b : Breaker)

/-- The start of a call: on an open circuit it settles at once. -/
def call (operation : String) : Flight ⊕ Reply :=
  if b.status r = .unavailable then
    .inr (memoryProviderUnavailableError ("circuit open after " ++ toString b.consecutiveFailures ++
      " consecutive '" ++ operation ++ "' failures"))
  else .inl (.call operation)

def health : Flight ⊕ Reply :=
  match b.status r with
  | .unavailable => .inl .probe
  | .degraded => .inr (.health
      ⟨.degraded, some (toString b.consecutiveFailures ++ " recent transport failure(s)")⟩)
  | .healthy => .inl .check

def answered : Flight → Answer → (Breaker × List MemoryEvent) × Reply
  | .call _, .resolved _ => (b.onSuccess, .result)
  | .call _, .unavailable message => ((b, []), .memoryProviderUnavailable message)
  | .call operation, .failed message =>
    (b.onFailure r operation message, memoryProviderUnavailableError ("'" ++ operation ++
      "' failed (" ++ toString (b.consecutiveFailures + 1) ++ "/" ++ toString r.failureThreshold ++
      "): " ++ message))
  | .probe, .resolved health => (b.onSuccess, .health health)
  | .probe, .unavailable message | .probe, .failed message =>
    ((b, []), .health ⟨.unavailable, some ("circuit open; probe failed: " ++ message)⟩)
  | .check, .resolved health => ((b, []), .health health)
  | .check, .unavailable message | .check, .failed message =>
    ((b, []), .health ⟨.degraded, some ("health probe failed: " ++ message)⟩)

end Breaker

/-! ### The provider -/

inductive Moment where
  | begun (flight : Flight)
  | settled (reply : Reply)
  | answered (flight : Flight) (answer : Answer)
  deriving DecidableEq, Repr

/-- Transport operations are under way in `flights`; `published` are the health events that were
queued, written or not. -/
structure Remote where
  world : World
  flights : List Flight := []
  published : List MemoryEvent := []
  history : List Moment := []

/-- Everything but the calls happens as it does around any provider. -/
inductive RemoteInput where
  | call (operation : String)
  | health
  | answer (i : ℕ) (answer : Answer)
  | other (input : Input)

/-- The answers that the transport gives to the provider are none of these. -/
def Input.isOther : Input → Bool
  | .remoteSucceeded | .remoteFailed .. => false
  | _ => true

namespace Remote

def new (w : World) : Remote where
  world := { w with breaker := {}, tail := [], publishing := none }

def enter (s : Remote) : Flight ⊕ Reply → Remote
  | .inl flight => { s with
      flights := s.flights ++ [flight]
      history := s.history ++ [.begun flight] }
  | .inr reply => { s with history := s.history ++ [.settled reply] }

/-- Without a store the transitions are made and no event is queued. -/
def settle (r : RemoteMemoryOptions) (stored : Bool) (s : Remote) (i : ℕ) (flight : Flight)
    (answer : Answer) : Remote :=
  let outcome := s.world.breaker.answered r flight answer
  let events := if stored then outcome.1.2 else []
  { world := s.world.health (outcome.1.1, events)
    flights := s.flights.eraseIdx i
    published := s.published ++ events
    history := s.history ++ [.answered flight answer, .settled outcome.2] }

end Remote

section Machine
variable (o : EmbeddedMemoryOptions) (r : RemoteMemoryOptions) (stored : Bool)

def Remote.step (s : Remote) : RemoteInput → Option Remote
  | .call operation => some (s.enter (s.world.breaker.call r operation))
  | .health => some (s.enter (s.world.breaker.health r))
  | .answer i answer => s.flights[i]?.map fun flight => s.settle r stored i flight answer
  | .other input =>
    if input.isOther then
      (Memory.step o r s.world input).map fun world => { s with world }
    else none

def remoteProvider : Machine Remote RemoteInput := ⟨Remote.step o r stored⟩

end Machine

/-! ### What is counted -/

def failuresSince (success failure : Moment → Bool) (history : List Moment) : ℕ :=
  (history.rtakeWhile fun m => !success m).countP failure

/-- Any transport operation that has succeeded. -/
def Moment.isSuccess : Moment → Bool
  | .answered _ answer => answer.isResolved
  | _ => false

def Moment.isFailure : Moment → Bool
  | .answered _ answer => !answer.isResolved
  | _ => false

/-- A call that has succeeded, or the probe of an open circuit. -/
def Moment.resets : Moment → Bool
  | .answered (.call _) (.resolved _) | .answered .probe (.resolved _) => true
  | _ => false

/-- A call that has failed with an error of the transport's own. -/
def Moment.counts : Moment → Bool
  | .answered (.call _) (.failed _) => true
  | _ => false

theorem failuresSince_concat (success failure : Moment → Bool) (history : List Moment)
    (m : Moment) :
    failuresSince success failure (history ++ [m]) =
      if success m then 0
      else failuresSince success failure history + if failure m then 1 else 0 := by
  unfold failuresSince
  rw [List.rtakeWhile_concat]
  cases success m with
  | true => rfl
  | false => simp [List.countP_append, List.countP_cons]

theorem failuresSince_idle {success failure : Moment → Bool} (history : List Moment) {m : Moment}
    (hsuccess : success m = false) (hfailure : failure m = false) :
    failuresSince success failure (history ++ [m]) = failuresSince success failure history := by
  simp [failuresSince_concat, hsuccess, hfailure]


/-! ### One change of the breaker -/

/-- Health events that lead from one status to another, each to a different one. -/
inductive Chained : MemoryHealthStatus → List MemoryEvent → MemoryHealthStatus → Prop where
  | nil (status) : Chained status [] status
  | cons {old new status detail events} : old ≠ new → Chained new events status →
      Chained old (.healthChanged old new detail :: events) status

theorem Chained.append {a b c : MemoryHealthStatus} {events events' : List MemoryEvent}
    (h : Chained a events b) (h' : Chained b events' c) : Chained a (events ++ events') c := by
  induction h with
  | nil => exact h'
  | cons hne _ ih => exact .cons hne (ih h')

namespace Breaker
variable {r : RemoteMemoryOptions} {b : Breaker}

/-- What a change of the breaker comes to: it counts `n` failures, has published its status, and
the events lead there. -/
structure Moves (r : RemoteMemoryOptions) (b : Breaker) (change : Breaker × List MemoryEvent)
    (n : ℕ) : Prop where
  failures : change.1.consecutiveFailures = n
  published : change.1.published = change.1.status r
  chained : Chained b.published change.2 change.1.published

theorem status_healthy_iff : b.status r = .healthy ↔ b.consecutiveFailures = 0 := by
  have hpositive := r.positive
  unfold status
  split_ifs with hopen hzero
  · simpa using fun hzero : b.consecutiveFailures = 0 => by omega
  · simp [hzero]
  · simp [hzero]

theorem status_unavailable_iff :
    b.status r = .unavailable ↔ r.failureThreshold ≤ b.consecutiveFailures := by
  unfold status
  split_ifs with hopen
  · simp [hopen]
  · simp [hopen]
  · simp [hopen]

theorem Moves.refl (h : b.published = b.status r) : Moves r b (b, []) b.consecutiveFailures :=
  ⟨rfl, h, .nil _⟩

theorem publish_moves (n : ℕ) (detail : Option String) :
    let b' : Breaker := { b with consecutiveFailures := n }
    Moves r b (b'.publish (b'.status r) detail) n := by
  intro b'
  unfold publish
  split
  · next hsame => exact ⟨rfl, hsame.symm, .nil _⟩
  · next hne => exact ⟨rfl, rfl, .cons (Ne.symm hne) (.nil _)⟩

theorem onSuccess_moves (h : b.published = b.status r) : Moves r b b.onSuccess 0 := by
  unfold onSuccess
  split
  · next hzero =>
    have hmoves := Moves.refl h
    rwa [hzero] at hmoves
  · have hhealthy : ({ b with consecutiveFailures := 0 } : Breaker).status r = .healthy :=
      status_healthy_iff.mpr rfl
    exact hhealthy ▸ publish_moves 0 none

theorem onFailure_moves (operation message : String) :
    Moves r b (b.onFailure r operation message) (b.consecutiveFailures + 1) :=
  publish_moves (b.consecutiveFailures + 1) _

theorem answered_moves (h : b.published = b.status r) (flight : Flight) (answer : Answer) :
    Moves r b (b.answered r flight answer).1
      (if (Moment.answered flight answer).resets then 0
      else b.consecutiveFailures + if (Moment.answered flight answer).counts then 1 else 0) := by
  cases flight with
  | call operation =>
    cases answer with
    | resolved => exact onSuccess_moves h
    | unavailable => exact .refl h
    | failed message => exact onFailure_moves operation message
  | probe =>
    cases answer with
    | resolved => exact onSuccess_moves h
    | unavailable | failed => exact .refl h
  | check => cases answer <;> exact .refl h

end Breaker

/-! ### What a step does -/

section Steps
variable {o : EmbeddedMemoryOptions} {r : RemoteMemoryOptions} {stored : Bool} {s t : Remote}
  {w w' : World} {input : Input}

def World.Quiet (w w' : World) : Prop :=
  w'.breaker = w.breaker ∧ w'.tail <:+ w.tail

theorem World.Quiet.refl : w.Quiet w := ⟨rfl, List.suffix_rfl⟩

theorem World.start_quiet (operation : Operation) (events : List MemoryEvent) :
    w.Quiet (w.start operation events) := by
  unfold World.start
  split <;> exact .refl

theorem started_quiet (operation : Operation) (result : Except MemoryError (List MemoryEvent)) :
    w.Quiet (started w operation result) := by
  cases result with
  | ok events => exact World.start_quiet ..
  | error _ => exact .refl

theorem World.appendStep_quiet (operation : Operation) (a : Appending) (fails : Bool) :
    w.Quiet (w.appendStep operation a fails) := by
  unfold World.appendStep
  split <;> exact .refl

theorem World.apply_quiet (operation : Operation) (events : List MemoryEvent) :
    w.Quiet (w.apply o operation events) := by
  unfold World.apply
  split
  · cases operation <;> exact .refl
  · exact .refl

theorem World.readStep_quiet (fails : Bool) : w.Quiet (w.readStep o fails) := by
  unfold World.readStep
  repeat' split
  all_goals exact .refl

theorem World.publishStep_quiet (a : Appending) (fails seen : Bool) :
    w.Quiet (w.publishStep a fails seen) := by
  unfold World.publishStep
  split <;> exact .refl

theorem step_other (hinput : input.isOther) (h : step o r w input = some w') :
    w.Quiet w' := by
  cases input with
  | remoteSucceeded | remoteFailed => cases hinput
  | query | buildContext =>
    cases h
    exact .refl
  | ingest =>
    simp only [Memory.step] at h
    split at h <;> [skip; cases h]
    split at h <;> cases h
    exact started_quiet ..
  | consolidate | retract =>
    simp only [Memory.step] at h
    split at h <;> cases h
    exact started_quiet ..
  | append fails =>
    simp only [Memory.step] at h
    split at h <;> cases h
    exact World.appendStep_quiet ..
  | apply =>
    simp only [Memory.step] at h
    split at h <;> cases h
    exact World.apply_quiet ..
  | rebuild =>
    simp only [Memory.step] at h
    split at h <;> cases h
    exact .refl
  | read fails =>
    simp only [Memory.step] at h
    split at h <;> cases h
    exact World.readStep_quiet ..
  | publish fails seen =>
    simp only [Memory.step] at h
    split at h <;> cases h
    · exact World.publishStep_quiet ..
    · next htail => exact ⟨rfl, htail ▸ List.suffix_cons ..⟩

/-- The provider's own counters agree with its history. -/
structure Remote.Tracked (r : RemoteMemoryOptions) (stored : Bool) (s : Remote) : Prop where
  failures : s.world.breaker.consecutiveFailures =
    failuresSince Moment.resets Moment.counts s.history
  published : s.world.breaker.published = s.world.breaker.status r
  chained : if stored then Chained .healthy s.published s.world.breaker.published
    else s.published = []
  queued : s.world.tail <:+ s.published

namespace Remote.Tracked

theorem new (w : World) : (Remote.new w).Tracked r stored where
  failures := rfl
  published := (Breaker.status_healthy_iff.mpr rfl).symm
  chained := by cases stored <;> first | rfl | exact .nil _
  queued := List.suffix_rfl

theorem enter (h : s.Tracked r stored) (entry : Flight ⊕ Reply) :
    (s.enter entry).Tracked r stored := by
  cases entry with
  | inl flight =>
    refine ⟨?_, h.published, h.chained, h.queued⟩
    exact h.failures.trans (failuresSince_idle _ rfl rfl).symm
  | inr reply =>
    refine ⟨?_, h.published, h.chained, h.queued⟩
    exact h.failures.trans (failuresSince_idle _ rfl rfl).symm

theorem settle (h : s.Tracked r stored) (i : ℕ) (flight : Flight) (answer : Answer) :
    (s.settle r stored i flight answer).Tracked r stored := by
  have hmoves := Breaker.answered_moves h.published flight answer
  refine ⟨?_, hmoves.published, ?_, ?_⟩
  · refine hmoves.failures.trans ?_
    rw [h.failures, ← failuresSince_concat, ← failuresSince_idle (m := .settled _) _ rfl rfl]
    exact congrArg _ (List.append_assoc ..)
  · have hchained := h.chained
    cases stored with
    | true => exact hchained.append hmoves.chained
    | false => exact (List.append_nil _).trans hchained
  · obtain ⟨written, hqueued⟩ := h.queued
    exact ⟨written, (List.append_assoc ..).symm.trans (congrArg (· ++ _) hqueued)⟩

theorem other (h : s.Tracked r stored) (hinput : input.isOther)
    (hstep : Memory.step o r s.world input = some w') : Tracked r stored { s with world := w' } := by
  obtain ⟨hbreaker, htail⟩ := step_other hinput hstep
  refine ⟨?_, ?_, ?_, htail.trans h.queued⟩
  · exact hbreaker ▸ h.failures
  · exact hbreaker ▸ h.published
  · exact hbreaker ▸ h.chained

theorem step (h : s.Tracked r stored) {input : RemoteInput}
    (hstep : s.step o r stored input = some t) : t.Tracked r stored := by
  cases input with
  | call operation =>
    cases hstep
    exact h.enter _
  | health =>
    cases hstep
    exact h.enter _
  | answer i answer =>
    obtain ⟨flight, -, rfl⟩ := Option.map_eq_some_iff.mp hstep
    exact h.settle i flight answer
  | other input =>
    simp only [Remote.step] at hstep
    split at hstep
    · next hinput =>
      obtain ⟨w', hw, rfl⟩ := Option.map_eq_some_iff.mp hstep
      exact h.other hinput hw
    · cases hstep

end Remote.Tracked

theorem Remote.tracked (h : (remoteProvider o r stored).Reaches anyStep (.new w) s) :
    s.Tracked r stored :=
  h.invariant (.new w) fun _ _ _ ht _ hstep => ht.step hstep

theorem World.Quiet.status (h : w.Quiet w') : w'.breaker.status r = w.breaker.status r :=
  h.1 ▸ rfl

theorem Breaker.answered_unavailable {b : Breaker} (h : b.published = b.status r) {flight : Flight}
    {answer : Answer} (hopen : b.status r = .unavailable)
    (hresets : ¬ (Moment.answered flight answer).resets) :
    (b.answered r flight answer).1.1.status r = .unavailable := by
  rw [Breaker.status_unavailable_iff] at hopen ⊢
  have hmoves := (Breaker.answered_moves h flight answer).failures
  rw [if_neg hresets] at hmoves
  omega

/-- The circuit closes with a successful answer only. -/
theorem Remote.Tracked.closes (h : s.Tracked r stored) {input : RemoteInput}
    (hstep : s.step o r stored input = some t) (hopen : s.world.breaker.status r = .unavailable)
    (hclosed : t.world.breaker.status r ≠ .unavailable) :
    ∃ i flight answer, input = .answer i answer ∧ s.flights[i]? = some flight ∧
      (Moment.answered flight answer).resets := by
  cases input with
  | call operation =>
    cases hstep
    refine absurd ?_ hclosed
    cases s.world.breaker.call r operation <;> exact hopen
  | health =>
    cases hstep
    refine absurd ?_ hclosed
    cases s.world.breaker.health r <;> exact hopen
  | answer i answer =>
    obtain ⟨flight, hflight, rfl⟩ := Option.map_eq_some_iff.mp hstep
    refine ⟨i, flight, answer, rfl, hflight, ?_⟩
    by_contra hresets
    exact hclosed (Breaker.answered_unavailable h.published hopen hresets)
  | other input =>
    simp only [Remote.step] at hstep
    split at hstep
    · next hinput =>
      obtain ⟨w', hw, rfl⟩ := Option.map_eq_some_iff.mp hstep
      exact absurd ((step_other hinput hw).status.trans hopen) hclosed
    · cases hstep

/-- A call begins a transport operation on a circuit that is not open. -/
theorem Remote.call_begins_iff (operation : String) :
    (s.enter (s.world.breaker.call r operation)).flights = s.flights ++ [.call operation] ↔
      s.world.breaker.consecutiveFailures < r.failureThreshold := by
  unfold Breaker.call
  split
  · next hopen =>
    have hfailures := Breaker.status_unavailable_iff.mp hopen
    simp [Remote.enter, hfailures]
  · next hclosed =>
    have hfailures := mt Breaker.status_unavailable_iff.mpr hclosed
    simpa [Remote.enter] using hfailures

/-- In every run, a call begins a transport operation exactly when fewer failures than the threshold
have completed since the last success, an open circuit closes with a success only, and the health
events lead from healthy to the current status. -/
theorem circuit_breaker (h : (remoteProvider o r stored).Reaches anyStep (.new w) s) :
    (∀ operation t, (remoteProvider o r stored).step s (.call operation) = some t →
      (t.flights = s.flights ++ [.call operation] ↔
        failuresSince Moment.resets Moment.counts s.history < r.failureThreshold)) ∧
    (∀ input t, (remoteProvider o r stored).step s input = some t →
      s.world.breaker.status r = .unavailable → t.world.breaker.status r ≠ .unavailable →
      ∃ i flight answer, input = .answer i answer ∧ s.flights[i]? = some flight ∧
        (Moment.answered flight answer).resets) ∧
    s.world.breaker.published = s.world.breaker.status r ∧
    (if stored then Chained .healthy s.published (s.world.breaker.status r)
      else s.published = []) ∧
    s.world.tail <:+ s.published := by
  have htracked := Remote.tracked h
  refine ⟨fun operation t hstep => ?_, fun input t hstep => htracked.closes hstep,
    htracked.published, ?_, htracked.queued⟩
  · obtain rfl := Option.some.inj hstep
    rw [← htracked.failures]
    exact Remote.call_begins_iff operation
  · exact htracked.published ▸ htracked.chained

end Steps

/-! ### A health check that succeeds after the circuit has opened -/

def sampleRemote : Machine Remote RemoteInput :=
  remoteProvider sampleOptions ⟨1, le_rfl⟩ true

def overlappingCheck : List RemoteInput :=
  [.health, .call "query", .answer 1 (.failed "down"), .answer 0 (.resolved ⟨.healthy, none⟩)]

theorem overlappingCheck_runs :
    (sampleRemote.exec (.new (.initial [])) overlappingCheck).isSome := by decide +kernel

def overlapped : Remote :=
  sampleRemote.execGet (.new (.initial [])) overlappingCheck overlappingCheck_runs

/-- The success of a check that was begun before the circuit opened is not counted. -/
theorem check_not_counted : sampleRemote.Reaches anyStep (.new (.initial [])) overlapped ∧
    failuresSince Moment.isSuccess Moment.isFailure overlapped.history = 0 ∧
    (sampleRemote.step overlapped (.call "query")).map Remote.flights = some [] :=
  ⟨execGet_reaches _ overlappingCheck_runs (guarded_anyStep _), by decide +kernel,
    by decide +kernel⟩

theorem circuit_breaker_overlapped : Chained .healthy overlapped.published .unavailable ∧
    ¬ failuresSince Moment.resets Moment.counts overlapped.history < 1 := by
  obtain ⟨hcall, -, -, hchained, -⟩ :=
    circuit_breaker (execGet_reaches _ overlappingCheck_runs (guarded_anyStep _))
  refine ⟨hchained, fun hfew => ?_⟩
  have hbegun := (hcall "query" _ rfl).mpr hfew
  have hnone :
      (overlapped.enter (overlapped.world.breaker.call ⟨1, le_rfl⟩ "query")).flights = [] := by
    decide +kernel
  exact absurd (hnone.symm.trans hbegun) (by simp)

end BeeAgent.Memory
