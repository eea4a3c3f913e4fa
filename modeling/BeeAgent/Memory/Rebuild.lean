import BeeAgent.Memory.Steps

/-! The live projection is what a rebuild of the stream yields, as long as the stream holds no
health event. -/
namespace BeeAgent.Memory
open Data Chronicle Transition

/-! ### The numbers of events -/

theorem number_eventId (n : ℕ) (events : List MemoryEvent) :
    (number n events).map ChronicleEvent.eventId = List.range' n events.length := by
  rw [number, List.map_map]
  exact List.zipIdx_map_snd ..

theorem number_payload (n : ℕ) (events : List MemoryEvent) :
    (number n events).map ChronicleEvent.payload = events := by
  rw [number, List.map_map]
  exact List.zipIdx_map_fst ..

theorem number_ne_nil {n : ℕ} {events : List MemoryEvent} (h : events ≠ []) :
    number n events ≠ [] := fun hnil => h (by rw [← number_payload n events, hnil]; rfl)

def Phase.events : Phase → List (ChronicleEvent MemoryEvent)
  | .appending _ a => a.events
  | .idle | .appended .. | .rebuilding => []

namespace World

def pending (w : World) : List (ChronicleEvent MemoryEvent) :=
  w.phase.events ++ (w.publishing.map Appending.events).getD []

def numbers (w : World) : List ℕ := (w.stream ++ w.pending).map ChronicleEvent.eventId

/-- No two events that are stored or about to be have one id. -/
structure Numbered (w : World) : Prop where
  nodup : w.numbers.Nodup
  drawn : ∀ n ∈ w.numbers, n < w.draws
  operation : ∀ operation a, w.phase = .appending operation a → a.events ≠ []
  publishing : ∀ a, w.publishing = some a → a.events ≠ []

variable {o : EmbeddedMemoryOptions} {w w' : World}

theorem Numbered.draw (h : w.Numbered) (w' : World) (events : List MemoryEvent)
    (hpending : w'.pending.Perm (w.pending ++ number w.draws events))
    (hstream : w'.stream = w.stream) (hdraws : w'.draws = w.draws + events.length) :
    w'.numbers.Nodup ∧ ∀ n ∈ w'.numbers, n < w'.draws := by
  have hids : w'.numbers.Perm (w.numbers ++ List.range' w.draws events.length) := by
    rw [numbers, numbers, ← number_eventId, ← List.map_append, List.append_assoc, hstream]
    exact (hpending.append_left w.stream).map _
  refine ⟨hids.nodup_iff.mpr (List.nodup_append.mpr ⟨h.nodup, List.nodup_range' 1, ?_⟩),
    fun n hn => ?_⟩
  · intro a ha b hb heq
    have hlt := h.drawn a ha
    have hle := (List.mem_range'_1.mp hb).1
    omega
  · rw [hdraws]
    rcases List.mem_append.mp (hids.subset hn) with hn | hn
    · exact (h.drawn n hn).trans_le (Nat.le_add_right ..)
    · exact (List.mem_range'_1.mp hn).2

theorem Numbered.of_subperm (h : w.Numbered) (w' : World)
    (hsub : (w'.stream ++ w'.pending).Subperm (w.stream ++ w.pending)) (hdraws : w.draws ≤ w'.draws) :
    w'.numbers.Nodup ∧ ∀ n ∈ w'.numbers, n < w'.draws := by
  obtain ⟨kept, hperm, hkept⟩ := hsub
  have hids : (kept.map ChronicleEvent.eventId).Perm w'.numbers := hperm.map _
  have hdrawn := fun n hn => h.drawn n ((hkept.map ChronicleEvent.eventId).subset hn)
  exact ⟨hids.nodup_iff.mp (h.nodup.sublist (hkept.map _)),
    fun n hn => (hdrawn n (hids.symm.subset hn)).trans_le hdraws⟩

theorem Numbered.append {events stream : List (ChronicleEvent MemoryEvent)} {expected : ℕ}
    (h : w.Numbered) (hne : events ≠ []) (hpending : events ⊆ w.pending)
    (happend : append w.stream events expected = .ok stream) : stream = w.stream ++ events := by
  refine (append_fresh_all hne (fun e he e' he' heq => ?_) happend).2
  have hnodup := h.nodup
  rw [numbers, List.map_append, List.nodup_append] at hnodup
  exact hnodup.2.2 e.eventId (List.mem_map_of_mem he) e'.eventId
    (List.mem_map_of_mem (hpending he')) heq

theorem Numbered.write {operation : Operation} {a : Appending} {expected : ℕ}
    {stream : List (ChronicleEvent MemoryEvent)} (h : w.Numbered)
    (hphase : w.phase = .appending operation a)
    (happend : Chronicle.append w.stream a.events expected = .ok stream) :
    stream = w.stream ++ a.events :=
  h.append (h.operation _ _ hphase)
    (fun e he => List.mem_append_left _ (by rwa [hphase])) happend

theorem Numbered.publishWrite {a : Appending} {expected : ℕ}
    {stream : List (ChronicleEvent MemoryEvent)} (h : w.Numbered)
    (hpublishing : w.publishing = some a)
    (happend : Chronicle.append w.stream a.events expected = .ok stream) :
    stream = w.stream ++ a.events :=
  h.append (h.publishing _ hpublishing)
    (fun e he => List.mem_append_right _ (by rwa [hpublishing])) happend

theorem Numbered.settle (h : w.Numbered) (hphase : ∀ operation a, w'.phase ≠ .appending operation a)
    (hstream : w'.stream = w.stream) (hpublishing : w'.publishing = w.publishing)
    (hdraws : w'.draws = w.draws) : w'.Numbered := by
  have hevents : w'.phase.events = [] := by
    cases hw : w'.phase with
    | appending operation a => exact absurd hw (hphase operation a)
    | idle | appended | rebuilding => rfl
  have hsub : (w'.stream ++ w'.pending).Subperm (w.stream ++ w.pending) := by
    rw [hstream, pending, pending, hpublishing, hevents, List.nil_append]
    exact ((List.sublist_append_right ..).append_left _).subperm
  obtain ⟨hnodup, hdrawn⟩ := h.of_subperm w' hsub hdraws.ge
  exact ⟨hnodup, hdrawn, fun operation a heq => absurd heq (hphase operation a),
    hpublishing ▸ h.publishing⟩

theorem Numbered.move {i : Input} (h : w.Numbered) (hmove : Move o w i w') : w'.Numbered := by
  cases hmove with
  | stay => exact h
  | query | buildContext => exact ⟨h.nodup, h.drawn, h.operation, h.publishing⟩
  | health => exact ⟨h.nodup, h.drawn, h.operation, h.publishing⟩
  | read => exact ⟨h.nodup, h.drawn, h.operation, h.publishing⟩
  | @start _ operation events hidle hne hstarts =>
    have hpending : w.pending = (w.publishing.map Appending.events).getD [] := by
      rw [pending, hidle]
      rfl
    obtain ⟨hnodup, hdrawn⟩ := h.draw { w with
        phase := .appending operation { events := number w.draws events }
        draws := w.draws + events.length } events (by rw [hpending]; exact List.perm_append_comm) rfl rfl
    refine ⟨hnodup, hdrawn, fun operation' a heq => ?_, h.publishing⟩
    cases heq
    exact number_ne_nil hne
  | await hphase hevents =>
    rename_i operation a a'
    have hpending : (World.pending { w with phase := .appending operation a' }) = w.pending := by
      rw [pending, pending, hphase]
      simp only [Phase.events, hevents]
    obtain ⟨hnodup, hdrawn⟩ := h.of_subperm { w with phase := .appending operation a' }
      (by rw [hpending]) le_rfl
    refine ⟨hnodup, hdrawn, fun operation' b heq => ?_, h.publishing⟩
    cases heq
    exact hevents ▸ h.operation _ _ hphase
  | fail | stop | finish | rebuild => exact h.settle (by simp) rfl rfl rfl
  | apply hphase =>
    rename_i operation events
    have hworld : (w.apply o operation events).phase = .idle ∧
        (w.apply o operation events).stream = w.stream ∧
        (w.apply o operation events).publishing = w.publishing ∧
        (w.apply o operation events).draws = w.draws := by
      unfold World.apply
      split
      · cases operation <;> exact ⟨rfl, rfl, rfl, rfl⟩
      · exact ⟨rfl, rfl, rfl, rfl⟩
    exact h.settle (by simp [hworld.1]) hworld.2.1 hworld.2.2.1 hworld.2.2.2
  | write hphase happend =>
    rename_i operation a expected stream
    obtain rfl := h.write hphase happend
    obtain ⟨hnodup, hdrawn⟩ := h.of_subperm { w with
        stream := w.stream ++ a.events
        phase := .appended operation (a.events.map ChronicleEvent.payload) } (by
      rw [pending, pending, hphase, List.append_assoc]
      exact List.Subperm.refl _) le_rfl
    exact ⟨hnodup, hdrawn, by simp, h.publishing⟩
  | publish hnone htail =>
    rename_i event tail
    obtain ⟨hnodup, hdrawn⟩ := h.draw { w with
        tail
        publishing := some { events := number w.draws [event] }
        draws := w.draws + 1 } [event] (by
      rw [pending, pending, hnone]
      simp) rfl rfl
    refine ⟨hnodup, hdrawn, h.operation, fun a ha => ?_⟩
    obtain rfl := Option.some.inj ha
    exact number_ne_nil (List.cons_ne_nil _ _)
  | publishAwait hpublishing hevents =>
    rename_i a a'
    obtain ⟨hnodup, hdrawn⟩ := h.of_subperm { w with publishing := some a' } (by
      rw [pending, pending, hpublishing]
      simp only [Option.map_some, Option.getD_some, hevents]
      exact List.Subperm.refl _) le_rfl
    refine ⟨hnodup, hdrawn, h.operation, fun b hb => ?_⟩
    obtain rfl := Option.some.inj hb
    exact hevents ▸ h.publishing _ hpublishing
  | publishFail hpublishing =>
    obtain ⟨hnodup, hdrawn⟩ := h.of_subperm { w with publishing := none } (by
      rw [pending, pending, Option.map_none, Option.getD_none, List.append_nil]
      exact ((List.sublist_append_left ..).append_left _).subperm) le_rfl
    exact ⟨hnodup, hdrawn, h.operation, by simp⟩
  | publishWrite hpublishing happend hunread =>
    rename_i a expected stream unread
    obtain rfl := h.publishWrite hpublishing happend
    obtain ⟨hnodup, hdrawn⟩ := h.of_subperm { w with
        stream := w.stream ++ a.events, publishing := none, unread } (by
      rw [pending, pending, hpublishing]
      simp only [Option.map_none, Option.getD_none, Option.map_some, Option.getD_some,
        List.append_nil, List.append_assoc]
      exact (List.perm_append_comm.append_left _).subperm) le_rfl
    exact ⟨hnodup, hdrawn, h.operation, by simp⟩

end World

/-! ### Replaying -/

variable {o : EmbeddedMemoryOptions} {r : RemoteMemoryOptions} {w w' : World}

theorem Starts.facts {i : Input} {operation : Operation} {events : List MemoryEvent}
    (h : Starts o w i operation events) : ∀ event ∈ events, event.isHealth = false := by
  intro event hevent
  cases h with
  | ingest _ h => exact (ingestNow_events h event hevent).fact
  | consolidate h => exact (consolidateNow_events h event hevent).fact
  | retract =>
    rw [List.mem_singleton.mp hevent]
    rfl

/-- What the remote provider writes is its health. -/
structure World.Separate (w : World) : Prop where
  tail : ∀ event ∈ w.tail, event.isHealth = true
  publishing : ∀ a, w.publishing = some a → ∀ e ∈ a.events, e.payload.isHealth = true
  operation : ∀ operation a, w.phase = .appending operation a →
    ∀ e ∈ a.events, e.payload.isHealth = false
  appended : ∀ operation events, w.phase = .appended operation events →
    ∀ event ∈ events, event.isHealth = false

theorem mem_number {n : ℕ} {events : List MemoryEvent} {e : ChronicleEvent MemoryEvent}
    (h : e ∈ number n events) : e.payload ∈ events := by
  rw [← number_payload n events]
  exact List.mem_map_of_mem h

theorem World.apply_eq {operation : Operation} {events : List MemoryEvent}
    (h : ∀ event ∈ events, event.isHealth = false) : w.apply o operation events =
      { w with
        projection := events.foldl (Projection.replay o) w.projection
        phase := .idle }.forget operation := by
  rw [World.apply, Projection.foldAll_eq h]

theorem World.forget_eq (operation : Operation) : ∃ forgotten,
    w.forget operation = { w with forgotten } ∧
      (forgotten = w.forgotten ∨ ∃ id, operation = .retract id ∧ forgotten = id :: w.forgotten) := by
  cases operation with
  | ingest | consolidate => exact ⟨_, rfl, .inl rfl⟩
  | retract id => exact ⟨_, rfl, .inr ⟨id, rfl, rfl⟩⟩

theorem World.Separate.move {i : Input} (h : w.Separate) (hmove : Move o w i w') : w'.Separate := by
  cases hmove with
  | stay => exact h
  | query | buildContext | read => exact ⟨h.tail, h.publishing, h.operation, h.appended⟩
  | health hevents =>
    refine ⟨fun event he => ?_, h.publishing, h.operation, h.appended⟩
    rcases List.mem_append.mp he with he | he
    · exact h.tail event he
    · exact hevents event he
  | start hidle hne hstarts =>
    refine ⟨h.tail, h.publishing, fun operation a heq e he => ?_, by simp⟩
    cases heq
    exact hstarts.facts _ (mem_number he)
  | await hphase hevents =>
    refine ⟨h.tail, h.publishing, fun operation a heq => ?_, by simp⟩
    cases heq
    exact hevents ▸ h.operation _ _ hphase
  | fail | stop | finish | rebuild => exact ⟨h.tail, h.publishing, by simp, by simp⟩
  | apply hphase =>
    rename_i operation events
    rw [World.apply_eq (h.appended _ _ hphase)]
    obtain ⟨forgotten, heq, -⟩ := World.forget_eq (w := { w with
      projection := events.foldl (Projection.replay o) w.projection, phase := .idle }) operation
    rw [heq]
    exact ⟨h.tail, h.publishing, by simp, by simp⟩
  | write hphase happend =>
    refine ⟨h.tail, h.publishing, by simp, fun operation events heq event he => ?_⟩
    cases heq
    obtain ⟨e, hmem, rfl⟩ := List.mem_map.mp he
    exact h.operation _ _ hphase e hmem
  | publish hnone htail =>
    have hhealth := htail ▸ h.tail
    refine ⟨fun event he => hhealth event (List.mem_cons_of_mem _ he), fun a ha e he => ?_,
      h.operation, h.appended⟩
    obtain rfl := Option.some.inj ha
    rw [List.mem_singleton.mp (mem_number he)]
    exact hhealth _ (List.mem_cons_self ..)
  | publishAwait hpublishing hevents =>
    refine ⟨h.tail, fun a ha => ?_, h.operation, h.appended⟩
    obtain rfl := Option.some.inj ha
    exact hevents ▸ h.publishing _ hpublishing
  | publishFail | publishWrite => exact ⟨h.tail, by simp, h.operation, h.appended⟩

theorem foldl_replay_health {p : Projection} {events : List MemoryEvent}
    (h : ∀ event ∈ events, event.isHealth = true) : events.foldl (Projection.replay o) p = p := by
  induction events with
  | nil => rfl
  | cons event events ih =>
    rw [List.foldl_cons, Projection.replay_health (h event (List.mem_cons_self ..))]
    exact ih fun e he => h e (List.mem_cons_of_mem _ he)

def replayAll (o : EmbeddedMemoryOptions) (stream : List MemoryEvent) : Projection :=
  stream.foldl (Projection.replay o) {}

theorem replayAll_append (stream events : List MemoryEvent) :
    replayAll o (stream ++ events) = events.foldl (Projection.replay o) (replayAll o stream) :=
  List.foldl_append ..

theorem rebuild_eq {stream : List MemoryEvent} (h : ∀ event ∈ stream, event.isHealth = false) :
    rebuild o stream = (replayAll o stream, none) :=
  Projection.foldAll_eq h

/-- The projection is what the stream replays to, once the events that are written are folded. -/
structure World.Live (o : EmbeddedMemoryOptions) (w : World) : Prop where
  numbered : w.Numbered
  separate : w.Separate
  running : w.phase ≠ .rebuilding
  current : (∀ operation events, w.phase ≠ .appended operation events) →
    w.projection = replayAll o w.payloads
  lagging : ∀ operation events, w.phase = .appended operation events →
    events.foldl (Projection.replay o) w.projection = replayAll o w.payloads

theorem World.Live.move {i : Input} (h : w.Live o) (hi : i ≠ .rebuild) (hmove : Move o w i w') :
    w'.Live o := by
  have hnumbered := h.numbered.move hmove
  have hseparate := h.separate.move hmove
  cases hmove with
  | stay => exact h
  | query | buildContext | health | publish | publishAwait | publishFail =>
    exact ⟨hnumbered, hseparate, h.running, h.current, h.lagging⟩
  | read hphase | stop hphase | finish hphase => exact absurd hphase h.running
  | rebuild => exact absurd rfl hi
  | start hidle =>
    exact ⟨hnumbered, hseparate, by simp, fun _ => h.current (by simp [hidle]), by simp⟩
  | await hphase | fail hphase =>
    exact ⟨hnumbered, hseparate, by simp, fun _ => h.current (by simp [hphase]), by simp⟩
  | write hphase happend =>
    obtain rfl := h.numbered.write hphase happend
    refine ⟨hnumbered, hseparate, by simp, fun hne => absurd rfl (hne _ _), fun _ _ heq => ?_⟩
    cases heq
    rw [h.current (by simp [hphase]), World.payloads, World.payloads, List.map_append,
      replayAll_append]
  | apply hphase =>
    rename_i operation events
    rw [World.apply_eq (h.separate.appended _ _ hphase)] at hnumbered hseparate ⊢
    obtain ⟨forgotten, heq, -⟩ := World.forget_eq (w := { w with
      projection := events.foldl (Projection.replay o) w.projection, phase := .idle }) operation
    rw [heq] at hnumbered hseparate ⊢
    exact ⟨hnumbered, hseparate, by simp, fun _ => h.lagging _ _ hphase, by simp⟩
  | publishWrite hpublishing happend hunread =>
    rename_i a expected stream unread
    obtain rfl := h.numbered.publishWrite hpublishing happend
    have hreplay : replayAll o ((w.stream ++ a.events).map ChronicleEvent.payload) =
        replayAll o w.payloads := by
      rw [List.map_append, replayAll_append]
      refine foldl_replay_health fun event he => ?_
      obtain ⟨e, hmem, rfl⟩ := List.mem_map.mp he
      exact h.separate.publishing a hpublishing e hmem
    exact ⟨hnumbered, hseparate, h.running, fun hne => (h.current hne).trans hreplay.symm,
      fun operation events heq => (h.lagging operation events heq).trans hreplay.symm⟩

theorem World.payloads_rebuilt (stream : List MemoryEvent) :
    (World.rebuilt o stream).payloads = stream := number_payload 0 stream

theorem World.numbered_of_stream {w : World} {stream : List MemoryEvent}
    (hstream : w.stream = number 0 stream) (hdraws : w.draws = stream.length)
    (hphase : w.phase = .idle) (hpublishing : w.publishing = none) : w.Numbered := by
  have hnumbers : w.numbers = List.range' 0 stream.length := by
    rw [World.numbers, World.pending, hphase, hpublishing, hstream, ← number_eventId]
    simp [Phase.events]
  refine ⟨hnumbers ▸ List.nodup_range' 1, fun n hn => ?_, by simp [hphase], by simp [hpublishing]⟩
  rw [hnumbers] at hn
  have hlt := (List.mem_range'_1.mp hn).2
  omega

theorem World.live_rebuilt {stream : List MemoryEvent} (h : (rebuild o stream).2 = none) :
    (World.rebuilt o stream).Live o where
  numbered := numbered_of_stream rfl rfl rfl rfl
  separate := ⟨by simp [rebuilt], by simp [rebuilt], by simp [rebuilt], by simp [rebuilt]⟩
  running := by simp [rebuilt]
  current := fun _ => by
    rw [payloads_rebuilt]
    exact congrArg Prod.fst (rebuild_eq (Projection.foldAll_error_iff.mp h))
  lagging := by simp [rebuilt]

/-- A rebuild succeeds on exactly the streams without a health event; and in every state that calls
of ingest, consolidate and retract lead to, whatever fails and whatever the remote provider writes
between their awaits, it yields the live projection exactly if there is none in the stream. -/
theorem rebuild_iff_no_health (o : EmbeddedMemoryOptions) (r : RemoteMemoryOptions) :
    (∀ stream, (rebuild o stream).2 = none ↔ ∀ event ∈ stream, event.isHealth = false) ∧
    ∀ stream w, (rebuild o stream).2 = none →
      (providers o r).Reaches (fun _ i => i ≠ .rebuild) (World.rebuilt o stream) w →
      w.phase = .idle → (rebuild o w.payloads = (w.projection, none) ↔
        ∀ event ∈ w.payloads, event.isHealth = false) := by
  refine ⟨fun stream => Projection.foldAll_error_iff, fun stream w hstream hreaches hidle => ?_⟩
  have hlive : w.Live o := hreaches.invariant (World.live_rebuilt hstream)
    fun _ _ _ h hi hs => h.move hi (move_of_step hs)
  constructor
  · intro h
    exact Projection.foldAll_error_iff.mp (congrArg Prod.snd h)
  · intro h
    rw [rebuild_eq h, hlive.current (by simp [hidle])]

def sampleOptions : EmbeddedMemoryOptions where
  unicode :=
    { lower := String.toLower, word := Char.isAlphanum, han := fun _ => false
      localeCompare := compare }
  formats := { uuid := fun s => s.length = 36, datetime := fun s => s.length = 20 }

def sampleClaim : MemoryClaim where
  id := "8c2d1e5a-0000-4000-8000-000000000001"
  kind := .preference
  statement := "Prefer espresso over filter coffee"
  subject := ⟨.user, none⟩
  provenance := { streamId := "thread:t1", sequence := 1 }
  validTime := { from_ := "2026-01-01T00:00:00Z" }
  confidence := .ofNat 1
  status := .active
  supersedes := []
  recordedAt := "2026-01-01T00:00:00Z"

def Phase.isIdle : Phase → Bool
  | .idle => true
  | _ => false

def Input.isRebuild : Input → Bool
  | .rebuild => true
  | _ => false

theorem rebuild_iff_no_health_sample : ∃ w,
    (providers sampleOptions {}).Reaches (fun _ i => i ≠ .rebuild)
      (World.rebuilt sampleOptions [.claimRecorded sampleClaim]) w ∧
    rebuild sampleOptions w.payloads = (w.projection, none) := by
  have hrun : ((providers sampleOptions {}).exec
      (World.rebuilt sampleOptions [.claimRecorded sampleClaim])
      [.retract sampleClaim.id none, .append false, .append false, .apply]).map
      (fun w => (w.phase.isIdle, w.payloads.all fun event => !event.isHealth)) =
      some (true, true) := by decide +kernel
  have hguard : (providers sampleOptions {}).Guarded (fun _ i => i ≠ .rebuild)
      (World.rebuilt sampleOptions [.claimRecorded sampleClaim])
      [.retract sampleClaim.id none, .append false, .append false, .apply] :=
    Machine.guarded_of_allSteps (fun _ i (hi : (!i.isRebuild) = true) => by rintro rfl; cases hi) _
      (by decide +kernel)
  obtain ⟨w, hreaches, hend⟩ := hguard.exists_reaches hrun
  obtain ⟨hphase, hfacts⟩ := Prod.mk.inj hend
  have hidle : w.phase = .idle := by
    cases hw : w.phase <;> simp_all [Phase.isIdle]
  exact ⟨w, hreaches, ((rebuild_iff_no_health sampleOptions {}).2 _ w rfl hreaches hidle).mpr
    (by simpa using hfacts)⟩

/-- The remote provider's event is a memory event of the schemas. -/
theorem health_stops_rebuild :
    (rebuild sampleOptions [.claimRecorded sampleClaim, .healthChanged .healthy .degraded none]).2 =
      some (.unknownEventType "memory.health.changed") := by decide +kernel

end BeeAgent.Memory
