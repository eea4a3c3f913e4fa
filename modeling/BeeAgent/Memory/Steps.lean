import BeeAgent.Data.Folds
import BeeAgent.Memory.Providers

/-! What a step of the providers can do, and what the events of a call are. -/
namespace BeeAgent.Memory
open Data Chronicle Transition

/-! ### Events -/

namespace MemoryEvent

def records (claimId : String) : MemoryEvent → Bool
  | .claimRecorded claim => claim.id = claimId
  | _ => false

def retracts (claimId : String) : MemoryEvent → Bool
  | .claimRetracted id _ => id = claimId
  | _ => false

def isHealth : MemoryEvent → Bool
  | .healthChanged .. => true
  | _ => false

end MemoryEvent

namespace Projection
variable (o : EmbeddedMemoryOptions)

/-- `fold`, where a health event is passed over. -/
def replay (p : Projection) (event : MemoryEvent) : Projection :=
  match p.fold o event with
  | .ok p' => p'
  | .error _ => p

variable {o} {p : Projection} {event : MemoryEvent} {events : List MemoryEvent}

theorem fold_eq (h : event.isHealth = false) : p.fold o event = .ok (p.replay o event) := by
  unfold replay
  cases hfold : p.fold o event with
  | ok p' => rfl
  | error e =>
    cases event with
    | healthChanged => cases h
    | claimRecorded | observationRecorded | consolidationCompleted => cases hfold
    | claimSuperseded claimId supersededBy reason =>
      simp only [fold] at hfold
      split at hfold
      · split at hfold <;> cases hfold
      · cases hfold
    | claimRetracted claimId reason =>
      simp only [fold] at hfold
      split at hfold <;> cases hfold

theorem fold_health (h : event.isHealth = true) :
    p.fold o event = .error (.unknownEventType "memory.health.changed") := by
  cases event with
  | healthChanged => rfl
  | claimRecorded | claimSuperseded | claimRetracted | observationRecorded
  | consolidationCompleted => cases h

theorem replay_health (h : event.isHealth = true) : p.replay o event = p := by
  rw [replay, fold_health h]

theorem foldAll_eq (h : ∀ event ∈ events, event.isHealth = false) :
    p.foldAll o events = (events.foldl (replay o) p, none) := by
  induction events generalizing p with
  | nil => rfl
  | cons event events ih =>
    rw [foldAll, fold_eq (h event (List.mem_cons_self ..))]
    exact ih fun e he => h e (List.mem_cons_of_mem _ he)

theorem foldAll_error_iff : (p.foldAll o events).2 = none ↔
    ∀ event ∈ events, event.isHealth = false := by
  induction events generalizing p with
  | nil => simp [foldAll]
  | cons event events ih =>
    cases hevent : event.isHealth with
    | true => simp [foldAll, fold_health hevent, hevent]
    | false => simp [foldAll, fold_eq hevent, hevent, ih]

end Projection

/-! ### Calls -/

theorem parse_eq_ok {α : Type} {issues : α → List String} {a b : α} (h : parse issues a = .ok b) :
    a = b := by
  unfold parse at h
  split at h
  · exact Except.ok.inj h
  · cases h

/-- The events of a call are facts; the claims it records are active and new to the projection, and
their ids are those of the candidates or drawn. -/
structure CallEvent (p : Projection) (candidates : List NewMemoryClaimInput) (ids : ℕ → String)
    (event : MemoryEvent) : Prop where
  fact : event.isHealth = false
  recorded : ∀ id, event.records id → p.claims.get id = none ∧
    (∃ candidate ∈ candidates, candidate.id = some id) ∨ ∃ i < candidates.length, ids i = id

variable {o : EmbeddedMemoryOptions} {p : Projection}

theorem CallEvent.superseded {candidates : List NewMemoryClaimInput} {ids : ℕ → String}
    {claimId supersededBy : String} {reason : Option String} :
    CallEvent p candidates ids (.claimSuperseded claimId supersededBy reason) :=
  ⟨rfl, fun _ h => by cases h⟩

theorem ingestClaim_events {now : String} {candidates : List NewMemoryClaimInput}
    {ids : ℕ → String} {candidate : NewMemoryClaimInput} {i : ℕ} {events : List MemoryEvent}
    {claim : MemoryClaim} (hcandidate : candidate ∈ candidates) (hi : i < candidates.length)
    (h : p.ingestClaim o now candidate (ids i) = .ok (events, claim)) :
    ∀ event ∈ events, CallEvent p candidates ids event := by
  unfold Projection.ingestClaim at h
  cases hexisting : candidate.id.bind p.claims.get with
  | some existing =>
    simp only [hexisting] at h
    cases h
    simp
  | none =>
    simp only [hexisting, bind, Except.bind] at h
    split at h
    · cases h
    next claim' hparse =>
    split at h
    · cases h
    next superseded hsuperseded =>
    obtain ⟨rfl, rfl⟩ := Prod.mk.inj (Except.ok.inj h)
    intro event hevent
    rcases List.mem_append.mp hevent with hevent | hevent
    · obtain ⟨batch, hbatch, hmem⟩ := List.mem_flatten.mp hevent
      obtain ⟨supersededId, -, htarget⟩ := exists_of_mapM hsuperseded batch hbatch
      split at htarget
      · cases htarget
      · obtain rfl := Except.ok.inj htarget
        split at hmem
        · cases hmem
        · rw [List.mem_singleton.mp hmem]
          exact .superseded
    · rw [List.mem_singleton.mp hevent]
      refine ⟨rfl, fun id hid => ?_⟩
      obtain rfl : claim'.id = id := of_decide_eq_true hid
      have hid' := congrArg MemoryClaim.id (parse_eq_ok hparse)
      cases hgiven : candidate.id with
      | none =>
        right
        exact ⟨i, hi, by simpa [hgiven] using hid'⟩
      | some given =>
        left
        obtain rfl : given = claim'.id := by simpa [hgiven] using hid'
        exact ⟨by simpa [hgiven] using hexisting, candidate, hcandidate, hgiven⟩

theorem ingestNow_events {input : MemoryIngestInput} {now : String} {ids : ℕ → String}
    {events : List MemoryEvent} {result : MemoryIngestResult}
    (h : p.ingestNow o input now ids = .ok (events, result)) :
    ∀ event ∈ events, CallEvent p input.claims ids event := by
  simp only [Projection.ingestNow, bind, Except.bind] at h
  split at h
  · cases h
  next claims hclaims =>
  split at h
  · cases h
  next observations hobservations =>
  obtain ⟨rfl, -⟩ := Prod.mk.inj (Except.ok.inj h)
  intro event hevent
  rcases List.mem_append.mp hevent with hevent | hevent
  · obtain ⟨batch, hbatch, hmem⟩ := List.mem_flatten.mp hevent
    obtain ⟨⟨_, claim⟩, hpair, rfl⟩ := List.mem_map.mp hbatch
    obtain ⟨⟨candidate, i⟩, hcandidate, hf⟩ := exists_of_mapM hclaims _ hpair
    exact ingestClaim_events (List.fst_mem_of_mem_zipIdx hcandidate)
      (List.snd_lt_of_mem_zipIdx hcandidate) hf event hmem
  · obtain ⟨batch, hbatch, hmem⟩ := List.mem_flatten.mp hevent
    obtain ⟨⟨_, observation⟩, hpair, rfl⟩ := List.mem_map.mp hbatch
    obtain ⟨⟨candidate, i⟩, -, hf⟩ := exists_of_mapM hobservations _ hpair
    simp only [Projection.ingestObservation] at hf
    split at hf
    · cases hf
      cases hmem
    · simp only [bind, Except.bind] at hf
      split at hf
      · cases hf
      · cases hf
        rw [List.mem_singleton.mp hmem]
        exact ⟨rfl, fun _ h => by cases h⟩

theorem consolidateNow_events {now : String} {events : List MemoryEvent}
    {report : MemoryConsolidationReport} (h : p.consolidateNow o now = .ok (events, report)) :
    ∀ event ∈ events, CallEvent p [] (fun _ => "") event := by
  have hmerge : ∀ event ∈ (((p.groups o).values.filterMap
      (Projection.mergeGroup o)).map Prod.snd).flatten, CallEvent p [] (fun _ => "") event := by
    intro event hevent
    obtain ⟨batch, hbatch, hmem⟩ := List.mem_flatten.mp hevent
    obtain ⟨⟨merge, _⟩, hpair, rfl⟩ := List.mem_map.mp hbatch
    obtain ⟨group, -, hgroup⟩ := List.mem_filterMap.mp hpair
    unfold Projection.mergeGroup at hgroup
    split at hgroup
    · cases hgroup
    · split at hgroup
      · cases hgroup
      · obtain ⟨-, rfl⟩ := Prod.mk.inj (Option.some.inj hgroup)
        obtain ⟨duplicate, -, rfl⟩ := List.mem_map.mp hmem
        exact .superseded
  simp only [Projection.consolidateNow, bind, Except.bind] at h
  split at h
  · cases h
    simp
  · split at h
    · cases h
    · obtain ⟨rfl, -⟩ := Prod.mk.inj (Except.ok.inj h)
      intro event hevent
      rcases List.mem_append.mp hevent with hevent | hevent
      · exact hmerge event hevent
      · rw [List.mem_singleton.mp hevent]
        exact ⟨rfl, fun _ h => by cases h⟩

/-! ### Steps -/

/-- The call that starts an operation with the events that it writes. -/
inductive Starts (o : EmbeddedMemoryOptions) (w : World) :
    Input → Operation → List MemoryEvent → Prop where
  | ingest {input : MemoryIngestInput} {now : String} {ids : ℕ → String}
    {events : List MemoryEvent} {result : MemoryIngestResult} (hfresh : w.Fresh input ids)
    (h : w.projection.ingestNow o input now ids = .ok (events, result)) :
    Starts o w (.ingest input now ids) .ingest events
  | consolidate {now : String} {events : List MemoryEvent} {report : MemoryConsolidationReport}
    (h : w.projection.consolidateNow o now = .ok (events, report)) :
    Starts o w (.consolidate now) .consolidate events
  | retract {claimId : String} {reason : Option String} {claim : MemoryClaim}
    (h : w.projection.claims.get claimId = some claim) :
    Starts o w (.retract claimId reason) (.retract claimId) [.claimRetracted claimId reason]

inductive Move (o : EmbeddedMemoryOptions) (w : World) : Input → World → Prop where
  | stay {i : Input} : Move o w i w
  | start {i : Input} {operation : Operation} {events : List MemoryEvent} (hidle : w.phase = .idle)
    (hne : events ≠ []) (h : Starts o w i operation events) :
    Move o w i { w with
      phase := .appending operation { events := number w.draws events }
      draws := w.draws + events.length }
  | await {fails : Bool} {operation : Operation} {a a' : Appending}
    (hphase : w.phase = .appending operation a) (hevents : a'.events = a.events) :
    Move o w (.append fails) { w with phase := .appending operation a' }
  | fail {fails : Bool} {operation : Operation} {a : Appending}
    (hphase : w.phase = .appending operation a) :
    Move o w (.append fails) { w with phase := .idle }
  | write {fails : Bool} {operation : Operation} {a : Appending} {expected : ℕ}
    {stream : List (ChronicleEvent MemoryEvent)} (hphase : w.phase = .appending operation a)
    (h : append w.stream a.events expected = .ok stream) :
    Move o w (.append fails) { w with
      stream, phase := .appended operation (a.events.map ChronicleEvent.payload) }
  | apply {operation : Operation} {events : List MemoryEvent}
    (hphase : w.phase = .appended operation events) :
    Move o w .apply (w.apply o operation events)
  | rebuild (hidle : w.phase = .idle) :
    Move o w .rebuild { w with projection := {}, unread := w.payloads, phase := .rebuilding }
  | stop {fails : Bool} (hphase : w.phase = .rebuilding)
    (h : fails = true ∨ ∃ event unread, w.unread = event :: unread ∧ event.isHealth = true) :
    Move o w (.read fails) { w with phase := .idle }
  | finish {fails : Bool} (hphase : w.phase = .rebuilding) (h : w.unread = []) :
    Move o w (.read fails) { w with phase := .idle }
  | read {fails : Bool} {event : MemoryEvent} {unread : List MemoryEvent}
    (hphase : w.phase = .rebuilding) (h : w.unread = event :: unread)
    (hfact : event.isHealth = false) :
    Move o w (.read fails) { w with projection := w.projection.replay o event, unread }
  | query {query : MemoryQuery} {clock : String} :
    Move o w (.query query clock) (w.look ((w.projection.query o query clock).map (·.id)))
  | buildContext {input : MemoryQuery} {budgetTokens : ℤ} {clock : String} :
    Move o w (.buildContext input budgetTokens clock)
      (w.look (w.projection.buildContext o input budgetTokens clock).claimIds)
  | health {i : Input} {breaker : Breaker} {events : List MemoryEvent}
    (h : ∀ event ∈ events, event.isHealth = true) :
    Move o w i { w with breaker, tail := w.tail ++ events }
  | publish {fails seen : Bool} {event : MemoryEvent} {tail : List MemoryEvent}
    (hnone : w.publishing = none) (h : w.tail = event :: tail) :
    Move o w (.publish fails seen) { w with
      tail
      publishing := some { events := number w.draws [event] }
      draws := w.draws + 1 }
  | publishAwait {fails seen : Bool} {a a' : Appending} (h : w.publishing = some a)
    (hevents : a'.events = a.events) :
    Move o w (.publish fails seen) { w with publishing := some a' }
  | publishFail {fails seen : Bool} {a : Appending} (h : w.publishing = some a) :
    Move o w (.publish fails seen) { w with publishing := none }
  | publishWrite {fails seen : Bool} {a : Appending} {expected : ℕ}
    {stream : List (ChronicleEvent MemoryEvent)} {unread : List MemoryEvent}
    (h : w.publishing = some a) (happend : append w.stream a.events expected = .ok stream)
    (hunread : unread = w.unread ∨
      w.phase = .rebuilding ∧ unread = w.unread ++ a.events.map ChronicleEvent.payload) :
    Move o w (.publish fails seen) { w with stream, publishing := none, unread }

variable {r : RemoteMemoryOptions} {w w' : World}

theorem Appending.step_cases (a : Appending) (stream : List (ChronicleEvent MemoryEvent))
    (fails : Bool) :
    (∃ a' : Appending, a'.events = a.events ∧ a.step stream fails = .next a') ∨
    (∃ expected stream', append stream a.events expected = .ok stream' ∧
      a.step stream fails = .written stream') ∨ a.step stream fails = .failed := by
  unfold step
  split
  · exact .inr (.inr rfl)
  · split
    · exact .inl ⟨{ a with expected := some _ }, rfl, rfl⟩
    · split
      · next happend => exact .inr (.inl ⟨_, _, happend, rfl⟩)
      · split
        · exact .inl ⟨{ a with attempt := _, expected := none }, rfl, rfl⟩
        · exact .inr (.inr rfl)

theorem move_started {i : Input} {operation : Operation}
    {result : Except MemoryError (List MemoryEvent)} (hidle : w.phase = .idle)
    (h : ∀ events, result = .ok events → Starts o w i operation events) :
    Move o w i (started w operation result) := by
  unfold started
  split
  · next events =>
    unfold World.start
    split
    · exact .stay
    · next hne => exact .start hidle hne (h events rfl)
  · exact .stay

theorem Breaker.publish_health (b : Breaker) (status : MemoryHealthStatus)
    (detail : Option String) : ∀ event ∈ (b.publish status detail).2, event.isHealth = true := by
  unfold publish
  split <;> simp [MemoryEvent.isHealth]

theorem Breaker.onSuccess_health (b : Breaker) : ∀ event ∈ b.onSuccess.2, event.isHealth = true := by
  unfold onSuccess
  split
  · simp
  · exact publish_health _ _ _

theorem move_of_step {i : Input} (h : (providers o r).step w i = some w') : Move o w i w' := by
  change Memory.step o r w i = some w' at h
  cases i with
  | ingest input now ids =>
    simp only [Memory.step] at h
    split at h
    · next hidle =>
      split at h
      · next hfresh =>
        obtain rfl := Option.some.inj h
        refine move_started hidle fun events hevents => ?_
        obtain ⟨⟨_, result⟩, hresult, rfl⟩ := exists_of_map_ok hevents
        exact .ingest hfresh hresult
      · cases h
    · cases h
  | consolidate now =>
    simp only [Memory.step] at h
    split at h
    · next hidle =>
      obtain rfl := Option.some.inj h
      refine move_started hidle fun events hevents => ?_
      obtain ⟨⟨_, report⟩, hresult, rfl⟩ := exists_of_map_ok hevents
      exact .consolidate hresult
    · cases h
  | retract claimId reason =>
    simp only [Memory.step] at h
    split at h
    · next hidle =>
      obtain rfl := Option.some.inj h
      refine move_started hidle fun events hevents => ?_
      unfold Projection.retractNow at hevents
      split at hevents
      · cases hevents
      · next hclaim =>
        obtain rfl := Except.ok.inj hevents
        exact .retract hclaim
    · cases h
  | append fails =>
    simp only [Memory.step] at h
    split at h
    · next operation a hphase =>
      obtain rfl := Option.some.inj h
      unfold World.appendStep
      rcases a.step_cases w.stream fails with ⟨a', hevents, hstep⟩ | ⟨n, stream, happend, hstep⟩ | hstep
      · rw [hstep]
        exact .await hphase hevents
      · rw [hstep]
        exact .write hphase happend
      · rw [hstep]
        exact .fail hphase
    · cases h
  | apply =>
    simp only [Memory.step] at h
    split at h
    · next hphase =>
      obtain rfl := Option.some.inj h
      exact .apply hphase
    · cases h
  | rebuild =>
    simp only [Memory.step] at h
    split at h
    · next hidle =>
      obtain rfl := Option.some.inj h
      exact .rebuild hidle
    · cases h
  | read fails =>
    simp only [Memory.step] at h
    split at h
    · next hphase =>
      obtain rfl := Option.some.inj h
      unfold World.readStep
      split
      · next hfails => exact .stop hphase (.inl hfails)
      · split
        · next hunread => exact .finish hphase hunread
        · next event unread hunread =>
          cases hevent : event.isHealth with
          | true =>
            rw [Projection.fold_health hevent]
            exact .stop hphase (.inr ⟨event, unread, hunread, hevent⟩)
          | false =>
            rw [Projection.fold_eq hevent]
            exact .read hphase hunread hevent
    · cases h
  | query query clock =>
    obtain rfl := Option.some.inj h
    exact .query
  | buildContext input budgetTokens clock =>
    obtain rfl := Option.some.inj h
    exact .buildContext
  | remoteSucceeded =>
    obtain rfl := Option.some.inj h
    exact .health (Breaker.onSuccess_health _)
  | remoteFailed operation message =>
    obtain rfl := Option.some.inj h
    exact .health (Breaker.publish_health _ _ _)
  | publish fails seen =>
    simp only [Memory.step] at h
    split at h
    · next a hpublishing =>
      obtain rfl := Option.some.inj h
      unfold World.publishStep
      rcases a.step_cases w.stream fails with ⟨a', hevents, hstep⟩ | ⟨n, stream, happend, hstep⟩ | hstep
      · rw [hstep]
        exact .publishAwait hpublishing hevents
      · rw [hstep]
        refine .publishWrite hpublishing happend ?_
        split
        · next hphase =>
          split
          · exact .inr ⟨hphase, rfl⟩
          · exact .inl rfl
        · exact .inl rfl
      · rw [hstep]
        exact .publishFail hpublishing
    · next hnone htail =>
      obtain rfl := Option.some.inj h
      exact .publish hnone htail
    · cases h

end BeeAgent.Memory
