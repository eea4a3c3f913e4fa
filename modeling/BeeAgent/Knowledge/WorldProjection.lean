import BeeAgent.Chronicle.Broadcasting
import BeeAgent.Knowledge.WorldSchema
import BeeAgent.Transition.Machine

/-! The service that keeps the world in step with the Chronicle: it reads every stream that its
projectors want, records what they derive, and then projects what is broadcast. -/
namespace BeeAgent.Knowledge.WorldProjection
open Chronicle Transition

variable {π : Type}

structure WorldProjector (π : Type) where
  wants : String → Bool
  project : StoredEvent π → Option WorldProjectionInput

inductive Stage where
  | idle
  | listing
  /-- The streams that are still to be read, and what those before them have given. -/
  | reading (rest : List String) (inputs : List WorldProjectionInput)
  /-- The catch-up waits for what it has queued. -/
  | settling
  | live
  /-- The listing or a read failed. -/
  | failed
  deriving DecidableEq

/-- `tail` is what is queued for the world, and `recorded` what the world has taken. -/
structure WorldProjectionService (π : Type) where
  store : BroadcastingChronicleStore π
  stage : Stage
  tail : List WorldProjectionInput
  recorded : List WorldProjectionInput
  lastError : Option String

inductive Input (π : Type) where
  | append (streamId : String) (events : List (ChronicleEvent π)) (expectedSequence : ℕ)
  /-- An append goes on past its await and emits its broadcast. -/
  | emit (n : ℕ)
  | start
  /-- The next await of the start settles. -/
  | resume
  | fail
  /-- The world takes what is first in the queue, or rejects it. -/
  | record
  | recordFails (message : String)

section Service
variable (projectors : List (WorldProjector π))

def wanted (streamId : String) : Bool := projectors.any (·.wants streamId)

/-- What all projectors that want its stream derive from an event. -/
def projectOne (event : StoredEvent π) : Option WorldProjectionInput :=
  projectors.foldl (fun merged projector =>
    if projector.wants event.streamId then
      match projector.project event, merged with
      | none, merged => merged
      | some projection, none => some projection
      | some projection, some merged => some (mergeInputs [merged, projection])
    else merged) none

namespace WorldProjectionService

def initial : WorldProjectionService π := ⟨.empty, .idle, [], [], none⟩

variable (s : WorldProjectionService π)

def enqueue (inputs : List WorldProjectionInput) : WorldProjectionService π :=
  if inputs.isEmpty then s else { s with tail := s.tail ++ [mergeInputs inputs] }

/-- The handler, once the service has subscribed. -/
def onAppend (broadcast : ChronicleAppendBroadcast π) : WorldProjectionService π :=
  match s.stage with
  | .live =>
    if wanted projectors broadcast.streamId then
      s.enqueue (broadcast.events.filterMap (projectOne projectors))
    else s
  | _ => s

/-- `start`, from one await to the next. -/
def resume : Option (WorldProjectionService π) :=
  match s.stage with
  | .listing => some { s with
      stage := .reading (s.store.listStreams.filter (wanted projectors)) [] }
  | .reading (streamId :: rest) inputs => some { s with
      stage := .reading rest
        (inputs ++ (s.store.readStream streamId).filterMap (projectOne projectors)) }
  | .reading [] inputs => some { s.enqueue inputs with stage := .settling }
  | .settling => if s.tail.isEmpty then some { s with stage := .live } else none
  | .idle | .live | .failed => none

end WorldProjectionService

def serviceStep (s : WorldProjectionService π) : Input π → Option (WorldProjectionService π)
  | .append streamId events expectedSequence =>
    some { s with store := s.store.append streamId events expectedSequence }
  | .emit n => (s.store.emit n).map fun (broadcast, store) =>
    { s with store }.onAppend projectors broadcast
  | .start =>
    match s.stage with
    | .idle => some { s with stage := .listing }
    | _ => some s
  | .resume => s.resume projectors
  | .fail =>
    match s.stage with
    | .listing | .reading _ _ => some { s with stage := .failed }
    | _ => none
  | .record =>
    match s.tail with
    | [] => none
    | merged :: tail =>
      some { s with tail, recorded := s.recorded ++ [merged], lastError := none }
  | .recordFails message =>
    match s.tail with
    | [] => none
    | _ :: tail => some { s with tail, lastError := some message }

def service : Machine (WorldProjectionService π) (Input π) := ⟨serviceStep projectors⟩

end Service

section Coverage
variable (projectors : List (WorldProjector π)) (s : WorldProjectionService π)

def Taken (calls : List WorldProjectionInput) (facts : WorldProjectionInput) : Prop :=
  ∃ whole ∈ calls, facts.Within whole

/-- The facts are recorded, or queued, or read by the catch-up. -/
def Handled (facts : WorldProjectionInput) : Prop :=
  Taken s.recorded facts ∨ Taken s.tail facts ∨
    match s.stage with
    | .reading _ inputs => facts ∈ inputs
    | _ => False

/-- The catch-up has the stream still before it. -/
def ToRead (streamId : String) : Prop :=
  match s.stage with
  | .idle | .listing => True
  | .reading rest _ => streamId ∈ rest
  | _ => False

def Covered (event : StoredEvent π) : Prop :=
  ToRead s event.streamId ∨ ∀ facts, projectOne projectors event = some facts → Handled s facts

/-- Before the service has subscribed, a broadcast of a wanted stream carries only what the catch-up
has read or is still to read, or what is to be broadcast again. No record is rejected, and no read
of the catch-up fails. -/
def Undropped (s : WorldProjectionService π) : Input π → Prop
  | .emit n => ∀ broadcast store, s.store.emit n = some (broadcast, store) → s.stage ≠ .live →
      wanted projectors broadcast.streamId → ∀ event ∈ broadcast.events,
        Covered projectors s event ∨ event ∈ store.eventsAhead broadcast.streamId
  | .recordFails _ | .fail => False
  | _ => True

end Coverage

variable {projectors : List (WorldProjector π)} {s t : WorldProjectionService π}
variable {inputs calls : List WorldProjectionInput} {facts : WorldProjectionInput}
variable {event : StoredEvent π} {id : String}

structure Sound (projectors : List (WorldProjector π)) (s : WorldProjectionService π) : Prop where
  broadcast : ∀ id, ∃ b, Broadcast s.store id b
  covered : ∀ id, wanted projectors id → ∀ event ∈ s.store.readStream id,
    Covered projectors s event ∨ event ∈ s.store.eventsAhead id

theorem taken_mergeInputs (h : facts ∈ inputs) : Taken (calls ++ [mergeInputs inputs]) facts :=
  ⟨_, List.mem_append_right _ List.mem_cons_self, within_mergeInputs h⟩

theorem Taken.append (h : Taken calls facts) : Taken (calls ++ inputs) facts := by
  obtain ⟨whole, hwhole, hwithin⟩ := h
  exact ⟨whole, List.mem_append_left _ hwhole, hwithin⟩

theorem Handled.enqueue (h : Handled s facts) : Handled (s.enqueue inputs) facts := by
  unfold WorldProjectionService.enqueue
  split
  · exact h
  · obtain h | h | h := h
    · exact .inl h
    · exact .inr (.inl h.append)
    · exact .inr (.inr h)

theorem handled_enqueue (h : facts ∈ inputs) : Handled (s.enqueue inputs) facts := by
  unfold WorldProjectionService.enqueue
  split
  · next hnil =>
    rw [List.isEmpty_iff.mp hnil] at h
    cases h
  · exact .inr (.inl (taken_mergeInputs h))

theorem enqueue_same : (s.enqueue inputs).stage = s.stage ∧ (s.enqueue inputs).store = s.store := by
  unfold WorldProjectionService.enqueue
  split <;> exact ⟨rfl, rfl⟩

theorem Covered.mono (h : Covered projectors s event)
    (hread : ToRead s event.streamId → ToRead t event.streamId)
    (hhandled : ∀ facts, Handled s facts → Handled t facts) : Covered projectors t event := by
  obtain h | h := h
  · exact .inl (hread h)
  · exact .inr fun facts hfacts => hhandled facts (h facts hfacts)

theorem Sound.initial : Sound projectors (.initial : WorldProjectionService π) where
  broadcast _ := ⟨0, .empty⟩
  covered _ _ _ _ := .inl (.inl trivial)

theorem Sound.of_covered (h : Sound projectors s) (hstore : t.store = s.store)
    (hcovered : ∀ id, wanted projectors id → ∀ event ∈ s.store.readStream id,
      Covered projectors s event → Covered projectors t event) : Sound projectors t := by
  refine ⟨hstore ▸ h.broadcast, fun id hid event he => ?_⟩
  rw [hstore] at he ⊢
  obtain hold | hahead := h.covered id hid event he
  · exact .inl (hcovered id hid event he hold)
  · exact .inr hahead

theorem Sound.append (h : Sound projectors s) (streamId : String) (events : List (ChronicleEvent π))
    (expectedSequence : ℕ) :
    Sound projectors { s with store := s.store.append streamId events expectedSequence } := by
  refine ⟨fun id => ?_, fun id hid event he => ?_⟩
  · obtain ⟨b, hb⟩ := h.broadcast id
    exact ⟨b, hb.append streamId events expectedSequence⟩
  · obtain ⟨b, hb⟩ := h.broadcast id
    obtain ⟨new, returned, hread, hahead, -⟩ :=
      append_cases s.store id streamId events expectedSequence
    have hnumbered : Watermark.Numbered StoredEvent.sequence
        ((s.store.append streamId events expectedSequence).readStream id) := stored_numbered
    by_cases hnew : event ∈ new
    · rw [hread] at hnumbered
      have hlt := hnumbered.lt_of_mem_right hnew
      have hle := hb.le
      exact .inr ((hb.append streamId events expectedSequence).mem_ahead he (by omega))
    · have hold : event ∈ s.store.readStream id := by
        simp only [hread, List.mem_append] at he
        exact he.resolve_right hnew
      obtain hcovered | hstill := h.covered id hid event hold
      · exact .inl hcovered
      · rw [hahead]
        exact .inr (List.mem_append_left _ hstill)

theorem onAppend_store (broadcast : ChronicleAppendBroadcast π) :
    (s.onAppend projectors broadcast).store = s.store := by
  unfold WorldProjectionService.onAppend
  split
  · split
    · exact enqueue_same.2
    · rfl
  · rfl

theorem Covered.onAppend (h : Covered projectors s event) (broadcast : ChronicleAppendBroadcast π) :
    Covered projectors (s.onAppend projectors broadcast) event := by
  unfold WorldProjectionService.onAppend
  split
  · split
    · refine h.mono (fun hread => ?_) fun facts hfacts => hfacts.enqueue
      rw [ToRead, enqueue_same.1]
      exact hread
    · exact h
  · exact h

theorem covered_live {broadcast : ChronicleAppendBroadcast π} (hlive : s.stage = .live)
    (hwanted : wanted projectors broadcast.streamId) (he : event ∈ broadcast.events) :
    Covered projectors (s.onAppend projectors broadcast) event := by
  rw [WorldProjectionService.onAppend, hlive]
  simp only [hwanted, if_true]
  exact .inr fun facts hfacts => handled_enqueue (List.mem_filterMap.mpr ⟨event, he, hfacts⟩)

theorem Sound.emit {n : ℕ} (h : Sound projectors s) (hguard : Undropped projectors s (.emit n))
    {broadcast : ChronicleAppendBroadcast π} {store : BroadcastingChronicleStore π}
    (hemit : s.store.emit n = some (broadcast, store)) :
    Sound projectors ({ s with store }.onAppend projectors broadcast) := by
  have hstore : ({ s with store }.onAppend projectors broadcast).store = store :=
    onAppend_store broadcast
  refine ⟨fun id => ?_, fun id hid event he => ?_⟩
  · obtain ⟨b, hb⟩ := h.broadcast id
    rw [hstore]
    by_cases heq : broadcast.streamId = id
    · subst heq
      exact ⟨_, (hb.emit hemit).2.2⟩
    · exact ⟨b, hb.emit_other hemit heq⟩
  · obtain ⟨hinner, hahead⟩ := emit_ahead id hemit
    rw [hstore] at he ⊢
    have hold : event ∈ s.store.readStream id := by
      rw [BroadcastingChronicleStore.readStream, BroadcastingChronicleStore.stream, hinner] at he
      exact he
    obtain hcovered | hevent := h.covered id hid event hold
    · exact .inl (Covered.onAppend (s := { s with store }) hcovered broadcast)
    · rw [BroadcastingChronicleStore.eventsAhead, hahead, List.flatMap_append,
        List.mem_append] at hevent
      obtain hnow | hlater := hevent
      · split at hnow
        · next heq =>
          subst heq
          rw [List.flatMap_singleton] at hnow
          by_cases hlive : s.stage = .live
          · exact .inl (covered_live (s := { s with store }) hlive hid hnow)
          · obtain hcovered | hagain := hguard broadcast store hemit hlive hid event hnow
            · exact .inl (Covered.onAppend (s := { s with store }) hcovered broadcast)
            · exact .inr hagain
        · cases hnow
      · exact .inr hlater

theorem mem_listStreams (he : event ∈ s.store.readStream id) : id ∈ s.store.listStreams := by
  rw [BroadcastingChronicleStore.listStreams, Data.OrderedMap.mem_keys_iff]
  cases hget : s.store.inner.get id with
  | none =>
    rw [BroadcastingChronicleStore.readStream, BroadcastingChronicleStore.stream, hget] at he
    cases he
  | some stream => exact ⟨stream, rfl⟩

theorem Handled.settling (h : Handled s facts) (hstage : s.stage = .reading [] inputs) :
    Handled { s.enqueue inputs with stage := .settling } facts := by
  unfold Handled at h
  rw [hstage] at h
  unfold WorldProjectionService.enqueue
  split
  · next hnil =>
    obtain h | h | h := h
    · exact .inl h
    · exact .inr (.inl h)
    · rw [List.isEmpty_iff.mp hnil] at h
      cases h
  · obtain h | h | h := h
    · exact .inl h
    · exact .inr (.inl h.append)
    · exact .inr (.inl (taken_mergeInputs h))

theorem Sound.resume (h : Sound projectors s) (hresume : s.resume projectors = some t) :
    Sound projectors t := by
  unfold WorldProjectionService.resume at hresume
  cases hstage : s.stage with
  | listing =>
    simp only [hstage] at hresume
    cases hresume
    refine h.of_covered rfl fun id hid event he hcovered => .inl ?_
    obtain rfl := streamId_of_mem he
    exact List.mem_filter.mpr ⟨mem_listStreams he, hid⟩
  | reading rest inputs =>
    cases rest with
    | cons streamId rest =>
      simp only [hstage] at hresume
      cases hresume
      refine h.of_covered rfl fun id hid event he hcovered => ?_
      obtain rfl := streamId_of_mem he
      obtain hread | hhandled := hcovered
      · simp only [ToRead, hstage] at hread
        rcases List.mem_cons.mp hread with heq | hrest
        · refine .inr fun facts hfacts => .inr (.inr (List.mem_append_right _ ?_))
          exact List.mem_filterMap.mpr ⟨event, heq ▸ he, hfacts⟩
        · exact .inl hrest
      · refine .inr fun facts hfacts => ?_
        obtain hdone | hdone | hdone := hhandled facts hfacts
        · exact .inl hdone
        · exact .inr (.inl hdone)
        · simp only [hstage] at hdone
          exact .inr (.inr (List.mem_append_left _ hdone))
    | nil =>
      simp only [hstage] at hresume
      cases hresume
      refine h.of_covered enqueue_same.2 fun id hid event he hcovered => ?_
      obtain hread | hhandled := hcovered
      · simp only [ToRead, hstage] at hread
        cases hread
      · refine .inr fun facts hfacts => ?_
        exact (hhandled facts hfacts).settling hstage
  | settling =>
    simp only [hstage] at hresume
    split at hresume
    · cases hresume
      refine h.of_covered rfl fun id hid event he hcovered => ?_
      obtain hread | hhandled := hcovered
      · simp only [ToRead, hstage] at hread
      · refine .inr fun facts hfacts => ?_
        obtain hdone | hdone | hdone := hhandled facts hfacts
        · exact .inl hdone
        · exact .inr (.inl hdone)
        · simp only [hstage] at hdone
    · cases hresume
  | idle | live | failed =>
    rw [hstage] at hresume
    cases hresume

theorem Handled.record {merged : WorldProjectionInput} {tail : List WorldProjectionInput}
    (h : Handled s facts) (htail : s.tail = merged :: tail) :
    Handled { s with tail, recorded := s.recorded ++ [merged], lastError := none } facts := by
  obtain h | h | h := h
  · exact .inl h.append
  · obtain ⟨whole, hwhole, hwithin⟩ := h
    rw [htail] at hwhole
    rcases List.mem_cons.mp hwhole with rfl | hrest
    · exact .inl ⟨whole, List.mem_append_right _ List.mem_cons_self, hwithin⟩
    · exact .inr (.inl ⟨whole, hrest, hwithin⟩)
  · exact .inr (.inr h)

theorem Sound.step {i : Input π} (h : Sound projectors s) (hguard : Undropped projectors s i)
    (hstep : (service projectors).step s i = some t) : Sound projectors t := by
  cases i with
  | append streamId events expectedSequence =>
    cases hstep
    exact h.append streamId events expectedSequence
  | emit n =>
    obtain ⟨⟨broadcast, store⟩, hemit, rfl⟩ := Option.map_eq_some_iff.mp hstep
    exact h.emit hguard hemit
  | start =>
    simp only [service, serviceStep] at hstep
    split at hstep
    · cases hstep
      exact h.of_covered rfl fun id hid event he hcovered => .inl trivial
    · cases hstep
      exact h
  | resume => exact h.resume hstep
  | record =>
    simp only [service, serviceStep] at hstep
    split at hstep
    · cases hstep
    · next merged tail htail =>
      cases hstep
      exact h.of_covered rfl fun id hid event he hcovered =>
        hcovered.mono (fun hread => hread) fun facts hfacts => hfacts.record htail
  | fail | recordFails => exact hguard.elim

/-- Once the service is live and its queue settled, and no broadcast of a wanted stream is to come,
what the projectors derive from the events of the wanted streams is recorded. -/
theorem misses_nothing (projectors : List (WorldProjector π)) (s : WorldProjectionService π)
    (h : (service projectors).Reaches (Undropped projectors) .initial s) (hlive : s.stage = .live)
    (hsettled : s.tail = []) (hnone : ∀ id, wanted projectors id → s.store.ahead id = []) :
    ∀ id, wanted projectors id → ∀ event ∈ s.store.readStream id, ∀ facts,
      projectOne projectors event = some facts → Taken s.recorded facts := by
  have hsound : Sound projectors s := h.invariant .initial
    fun _ _ _ hs hguard hstep => hs.step hguard hstep
  intro id hid event he facts hfacts
  obtain (hread | hhandled) | hahead := hsound.covered id hid event he
  · simp only [ToRead, hlive] at hread
  · obtain hdone | ⟨whole, hwhole, -⟩ | hdone := hhandled facts hfacts
    · exact hdone
    · rw [hsettled] at hwhole
      cases hwhole
    · simp only [hlive] at hdone
  · rw [BroadcastingChronicleStore.eventsAhead, hnone id hid] at hahead
    cases hahead

section Sample

/-- A projector of every event of the threads. -/
def sampleProjector : WorldProjector String where
  wants streamId := "thread:".toList.isPrefixOf streamId.toList
  project event := some { entities := [{ id := event.payload, kind := .capability }] }

/-- The start with an event in the log, up to the end of the catch-up's reads. -/
def startSample : List (Input String) :=
  [.append "thread:1" [⟨0, "lookup"⟩] 1, .emit 0, .start, .resume, .resume]

def endSample : List (Input String) := [.resume, .record, .resume]

/-- Whether all has come to rest, and what the log and the world hold. -/
def summary (s : WorldProjectionService String) : Bool × List String × List (List String) :=
  (s.stage = .live && s.tail.isEmpty && s.store.pending.isEmpty,
    (s.store.readStream "thread:1").map (·.payload),
    s.recorded.map fun facts => facts.entities.map (·.id))

theorem misses_nothing_sample : ∃ s,
    (service [sampleProjector]).Reaches (Undropped [sampleProjector]) .initial s ∧
      Taken s.recorded { entities := [{ id := "lookup", kind := .capability }] } := by
  have hguard : (service [sampleProjector]).Guarded (Undropped [sampleProjector]) .initial
      (startSample ++ endSample) :=
    ⟨trivial, fun _ _ _ _ _ _ _ => .inl (.inl trivial), trivial, trivial, trivial, trivial, trivial,
      trivial, trivial⟩
  obtain ⟨s, hreach, hend⟩ := hguard.exists_reaches (f := summary)
    (a := (true, ["lookup"], [["lookup"]])) (by decide +kernel)
  simp only [summary, Prod.mk.injEq, Bool.and_eq_true, decide_eq_true_eq, List.isEmpty_iff] at hend
  obtain ⟨⟨⟨hlive, hsettled⟩, hpending⟩, hread, -⟩ := hend
  obtain ⟨event, hevent, hpayload⟩ : ∃ event ∈ s.store.readStream "thread:1",
      event.payload = "lookup" := List.mem_map.mp (hread ▸ List.mem_singleton_self _)
  have hwanted : wanted [sampleProjector] "thread:1" := by decide
  have hprojected : projectOne [sampleProjector] event =
      some { entities := [{ id := "lookup", kind := .capability }] } := by
    obtain ⟨streamId, sequence, payload⟩ := event
    obtain rfl := streamId_of_mem hevent
    obtain rfl := hpayload
    have hwants : sampleProjector.wants "thread:1" = true := by decide
    simp only [projectOne, List.foldl_cons, List.foldl_nil, hwants, if_true]
    rfl
  refine ⟨s, hreach, misses_nothing [sampleProjector] s hreach hlive hsettled (fun id _ => ?_)
    "thread:1" hwanted event hevent _ hprojected⟩
  rw [BroadcastingChronicleStore.ahead, hpending]
  rfl

/-- An event that is appended after its stream is read and broadcast before the service has
subscribed. -/
theorem event_missed : ∃ s, (service [sampleProjector]).Reaches Machine.anyStep .initial s ∧
    summary s = (true, ["lookup", "search"], [["lookup"]]) :=
  Machine.exists_reaches_of_exec_map
    (startSample ++ [.append "thread:1" [⟨1, "search"⟩] 2, .emit 0] ++ endSample)
    (by decide +kernel)

end Sample

end BeeAgent.Knowledge.WorldProjection
