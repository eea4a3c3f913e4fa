import BeeAgent.Thread.EventStream

/-! A client is sent every event after the sequence that it asked for, once and in order. -/
namespace BeeAgent.Thread.EventStream
open Chronicle Transition Watermark

variable {π : Type} {id : String} {b m r w n : ℕ} {log new q : List (StoredEvent π)}

/-- A queue that goes on from `m` without a gap, and holds all up to `b`. -/
structure Fed (log : List (StoredEvent π)) (b m : ℕ) (q : List (StoredEvent π)) : Prop where
  known : ∀ e ∈ q, e ∈ log
  gapless : Gapless StoredEvent.sequence m q
  reach : reach StoredEvent.sequence m q = max m b

theorem fed_nil (h : b ≤ w) : Fed log b w [] :=
  ⟨fun _ he => absurd he List.not_mem_nil, trivial, (Nat.max_eq_left h).symm⟩

theorem Fed.grow (h : Fed log b m q) : Fed (log ++ new) b m q :=
  ⟨fun e he => List.mem_append_left _ (h.known e he), h.gapless, h.reach⟩

theorem Fed.mono (h : Fed log b m q) (hm : m ≤ w) : Fed log b w q := by
  refine ⟨h.known, h.gapless.mono hm, ?_⟩
  rw [reach_eq_max hm, h.reach]
  omega

theorem Fed.queue (h : Fed log b m q) (hw : w ≤ m) (hknown : ∀ e ∈ new, e ∈ log)
    (hnew : Gapless StoredEvent.sequence b new) :
    Fed log (Watermark.reach StoredEvent.sequence b new) m (q ++ new.filter (w < ·.sequence)) := by
  obtain ⟨hgapless, hreach⟩ := filter_spec (v := w)
    (hnew.mono (Nat.le_max_right m b)) (hw.trans (Nat.le_max_left m b))
  refine ⟨fun e he => ?_, ?_, ?_⟩
  · rcases List.mem_append.mp he with hold | hlast
    · exact h.known e hold
    · exact hknown e (List.mem_of_mem_filter hlast)
  · rw [gapless_append, h.reach]
    exact ⟨h.gapless, hgapless⟩
  · have hle : b ≤ Watermark.reach StoredEvent.sequence b new := le_reach
    rw [reach_append, h.reach, hreach, reach_eq_max (Nat.le_max_right m b)]
    omega

/-- The page of a replay holds all up to `r`. -/
theorem fed_page (hlog : Numbered StoredEvent.sequence log) (hr : r ≤ log.length) :
    Fed log r w ((log.take r).filter (w < ·.sequence)) := by
  have hnumbered : (log.take r).map StoredEvent.sequence = List.range' 1 (log.take r).length := by
    have := hlog.window le_rfl r
    simpa using this
  obtain ⟨hgapless, hreach⟩ := run_spec (w := w) hnumbered (by omega)
  obtain ⟨hgapless', hreach'⟩ := filter_spec (v := w) hgapless le_rfl
  refine ⟨fun e he => List.mem_of_mem_take (List.mem_of_mem_filter he), hgapless', ?_⟩
  rw [List.length_take] at hreach
  omega

/-- What has been sent: the events between the sequence asked for and the watermark. -/
structure Sent (log : List (StoredEvent π)) (s : Host π) : Prop where
  sent : s.sent = (log.drop s.after).take (s.watermark - s.after)
  after_le : s.after ≤ s.watermark
  le : s.watermark ≤ max s.after log.length

variable {s t : Host π}

theorem Sent.grow (h : Sent log s) : Sent (log ++ new) s := by
  have hle := h.le
  refine ⟨?_, h.after_le, hle.trans (by rw [List.length_append]; omega)⟩
  rw [h.sent]
  rcases le_total log.length s.after with hlog | hlog
  · have hnone : s.watermark - s.after = 0 := by omega
    rw [hnone, List.take_zero, List.take_zero]
  · rw [List.drop_append_of_le_length hlog, List.take_append_of_le_length]
    rw [List.length_drop]
    omega

theorem Sent.congr (h : Sent log s) (hsent : t.sent = s.sent) (hafter : t.after = s.after)
    (hwatermark : t.watermark = s.watermark) : Sent log t :=
  ⟨by rw [hsent, hafter, hwatermark]; exact h.sent, by rw [hafter, hwatermark]; exact h.after_le,
    by rw [hafter, hwatermark]; exact h.le⟩

theorem Sent.send (h : Sent log s) (hlog : Numbered StoredEvent.sequence log)
    (hq : Fed log b s.watermark q) (hb : b ≤ log.length) :
    Sent log (s.send q) ∧ (s.send q).watermark = max s.watermark b := by
  have hsift := hlog.sift_eq hq.known hq.gapless
  have hwatermark : (s.send q).watermark = max s.watermark b := by
    rw [Host.send, hsift]
    exact hq.reach
  refine ⟨⟨?_, ?_, ?_⟩, hwatermark⟩
  · have hsent : (s.send q).sent = s.sent ++
        (log.drop s.watermark).take ((s.send q).watermark - s.watermark) := by
      rw [Host.send, hsift]
    rw [hsent, h.sent, hwatermark]
    exact take_drop_append h.after_le (by omega)
  · rw [hwatermark]
    exact h.after_le.trans (by omega)
  · have := h.le
    rw [hwatermark]
    change _ ≤ max s.after log.length
    omega

theorem Sent.drain (h : Sent log s) (hlog : Numbered StoredEvent.sequence log)
    (hq : Fed log b s.watermark s.queue) (hb : b ≤ log.length) :
    Sent log s.drain ∧ s.drain.watermark = max s.watermark b := by
  obtain ⟨hsent, hwatermark⟩ := h.send hlog hq hb
  exact ⟨⟨hsent.sent, hsent.after_le, hsent.le⟩, hwatermark⟩

/-- Where the route stands, when all up to `b` has been broadcast. -/
def Route (log : List (StoredEvent π)) (b : ℕ) (s : Host π) : Prop :=
  match s.stage with
  | .absent => s.queue = [] ∧ s.sent = []
  | .reading => s.watermark = s.after ∧ ∃ c ≤ log.length, Fed log b (max s.after c) s.queue
  | .replaying page => s.watermark = s.after ∧ ∃ c r, c ≤ r ∧ r ≤ log.length ∧
      page = (log.take r).filter (s.watermark < ·.sequence) ∧ Fed log b (max s.after c) s.queue
  | .sleeping woken => Fed log b s.watermark s.queue ∧ (woken = false → s.queue = [])
  | .closed => True

theorem Route.grow (h : Route log b s) : Route (log ++ new) b s := by
  unfold Route at h ⊢
  cases hstage : s.stage with
  | absent => simpa only [hstage] using h
  | reading =>
    simp only [hstage] at h ⊢
    obtain ⟨hw, c, hc, hfed⟩ := h
    exact ⟨hw, c, hc.trans (by simp), hfed.grow⟩
  | replaying page =>
    simp only [hstage] at h ⊢
    obtain ⟨hw, c, r, hcr, hr, hpage, hfed⟩ := h
    refine ⟨hw, c, r, hcr, hr.trans (by simp), ?_, hfed.grow⟩
    rw [hpage, List.take_append_of_le_length hr]
  | sleeping woken =>
    simp only [hstage] at h ⊢
    exact ⟨h.1.grow, h.2⟩
  | closed => trivial

theorem Route.onAppend {es : List (StoredEvent π)} (h : Route log b s) (hknown : ∀ e ∈ es, e ∈ log)
    (hes : Gapless StoredEvent.sequence b es) :
    Route log (reach StoredEvent.sequence b es) (s.onAppend id ⟨id, es⟩) := by
  unfold Host.onAppend
  cases hstage : s.stage with
  | absent => simpa [Route, Stage.subscribed, hstage] using h
  | reading =>
    simp only [Route, hstage] at h
    obtain ⟨hw, c, hc, hfed⟩ := h
    have hqueue := hfed.queue (w := s.watermark) (by omega) hknown hes
    simpa [Route, Stage.subscribed, Stage.wake, hstage] using ⟨hw, c, hc, hqueue⟩
  | replaying page =>
    simp only [Route, hstage] at h
    obtain ⟨hw, c, r, hcr, hr, hpage, hfed⟩ := h
    have hqueue := hfed.queue (w := s.watermark) (by omega) hknown hes
    simpa [Route, Stage.subscribed, Stage.wake, hstage] using ⟨hw, c, r, hcr, hr, hpage, hqueue⟩
  | sleeping woken =>
    simp only [Route, hstage] at h
    have hqueue := h.1.queue (w := s.watermark) le_rfl hknown hes
    simp only [Stage.subscribed, decide_true, Bool.and_self, if_true, Stage.wake]
    split
    · next hnone =>
      rw [List.isEmpty_iff] at hnone
      simp only [Route, hnone, List.append_nil] at hqueue ⊢
      exact ⟨hqueue, h.2⟩
    · exact ⟨hqueue, fun hwoken => by cases hwoken⟩
  | closed => simp [Route, Stage.subscribed, hstage]

theorem Host.onAppend_same (id : String) (s : Host π) (broadcast : ChronicleAppendBroadcast π) :
    (s.onAppend id broadcast).store = s.store ∧ (s.onAppend id broadcast).sent = s.sent ∧
      (s.onAppend id broadcast).after = s.after ∧
      (s.onAppend id broadcast).watermark = s.watermark ∧
      (s.onAppend id broadcast).stage.subscribed = s.stage.subscribed := by
  unfold onAppend
  split
  · refine ⟨rfl, rfl, rfl, rfl, ?_⟩
    simp only
    split
    · rfl
    · cases s.stage <;> rfl
  · exact ⟨rfl, rfl, rfl, rfl, rfl⟩

structure Sound (id : String) (b : ℕ) (s : Host π) : Prop where
  broadcast : Broadcast s.store id b
  sent : Sent (s.store.readStream id) s
  route : Route (s.store.readStream id) b s

theorem Sound.initial : Sound id 0 (.initial : Host π) :=
  ⟨.empty, ⟨rfl, le_rfl, Nat.zero_le _⟩, rfl, rfl⟩

theorem Sound.append (h : Sound id b s) (streamId : String) (events : List (ChronicleEvent π))
    (expectedSequence : ℕ) :
    Sound id b { s with store := s.store.append streamId events expectedSequence } := by
  obtain ⟨new, -, hread, -⟩ := append_cases s.store id streamId events expectedSequence
  refine ⟨h.broadcast.append streamId events expectedSequence, ?_, ?_⟩
  · rw [hread]
    exact h.sent.grow.congr rfl rfl rfl
  · rw [hread]
    exact h.route.grow

theorem Sound.emit {broadcast : ChronicleAppendBroadcast π} {store : BroadcastingChronicleStore π}
    (h : Sound id b s) (hemit : s.store.emit n = some (broadcast, store)) :
    ∃ b', Sound id b' ({ s with store }.onAppend id broadcast) := by
  obtain ⟨hstore, hsent, hafter, hwatermark, -⟩ := Host.onAppend_same id { s with store }
    broadcast
  have hread : store.readStream id = s.store.readStream id := by
    obtain ⟨hinner, -⟩ := emit_ahead id hemit
    rw [BroadcastingChronicleStore.readStream, BroadcastingChronicleStore.stream, hinner]
    rfl
  have hkept : Sent (store.readStream id) ({ s with store }.onAppend id broadcast) := by
    rw [hread]
    exact h.sent.congr hsent hafter hwatermark
  by_cases heq : broadcast.streamId = id
  · obtain ⟨streamId, es⟩ := broadcast
    obtain rfl : streamId = id := heq
    obtain ⟨hknown, hgapless, hrest⟩ := h.broadcast.emit hemit
    refine ⟨Watermark.reach StoredEvent.sequence b es, hstore ▸ hrest, hstore ▸ hkept, ?_⟩
    rw [hstore, hread]
    exact Route.onAppend (s := { s with store }) h.route hknown hgapless
  · refine ⟨b, hstore ▸ h.broadcast.emit_other hemit heq, hstore ▸ hkept, ?_⟩
    have hsame : { s with store }.onAppend id broadcast = { s with store } := by
      simp [Host.onAppend, heq]
    rw [hsame, hread]
    exact h.route

theorem Sound.step {i : Input π} (h : Sound id b s) (hstep : (host id).step s i = some t) :
    ∃ b', Sound id b' t := by
  have hb := h.broadcast.le
  cases i with
  | append streamId events expectedSequence =>
    cases hstep
    exact ⟨b, h.append streamId events expectedSequence⟩
  | emit n =>
    obtain ⟨⟨broadcast, store⟩, hemit, rfl⟩ := Option.map_eq_some_iff.mp hstep
    exact h.emit hemit
  | connect after =>
    obtain ⟨hbroadcast, hsent, hroute⟩ := h
    simp only [host, hostStep] at hstep
    split at hstep
    · next hstage =>
      cases hstep
      simp only [Route, hstage] at hroute
      refine ⟨b, hbroadcast, ⟨?_, le_rfl, Nat.le_max_left ..⟩, rfl, b, hb, ?_⟩
      · simp only [hroute.2, Nat.sub_self, List.take_zero]
      · simp only [hroute.1]
        exact fed_nil (Nat.le_max_right ..)
    · cases hstep
  | read =>
    obtain ⟨hbroadcast, hsent, hroute⟩ := h
    simp only [host, hostStep] at hstep
    split at hstep
    · next hstage =>
      cases hstep
      simp only [Route, hstage] at hroute
      obtain ⟨hw, c, hc, hfed⟩ := hroute
      exact ⟨b, hbroadcast, hsent.congr rfl rfl rfl, hw, c, _, hc, le_rfl,
        congrArg (List.filter _) List.take_length.symm, hfed⟩
    · cases hstep
  | replay =>
    obtain ⟨hbroadcast, hsent, hroute⟩ := h
    simp only [host, hostStep] at hstep
    split at hstep
    · next page hstage =>
      cases hstep
      simp only [Route, hstage] at hroute
      obtain ⟨hw, c, r, hcr, hr, rfl, hfed⟩ := hroute
      obtain ⟨hpage, hwatermark⟩ := hsent.send stored_numbered (fed_page stored_numbered hr) hr
      have hqueue := hfed.mono (w := max s.watermark r) (by omega)
      rw [← hwatermark] at hqueue
      obtain ⟨hdrained, hlast⟩ := hpage.drain stored_numbered hqueue hb
      exact ⟨b, hbroadcast, hdrained, fed_nil (by rw [hlast]; omega), fun _ => rfl⟩
    · cases hstep
  | resume =>
    obtain ⟨hbroadcast, hsent, hroute⟩ := h
    simp only [host, hostStep] at hstep
    split at hstep
    · next hstage =>
      cases hstep
      simp only [Route, hstage] at hroute
      obtain ⟨hdrained, hlast⟩ := hsent.drain stored_numbered hroute.1 hb
      exact ⟨b, hbroadcast, hdrained, fed_nil (by rw [hlast]; omega), fun _ => rfl⟩
    · cases hstep
  | close =>
    simp only [host, hostStep] at hstep
    split at hstep
    · cases hstep
      exact ⟨b, h.broadcast, h.sent.congr rfl rfl rfl, trivial⟩
    · cases hstep

theorem Sound.of_reaches (h : (host id).Reaches Machine.anyStep .initial s) : ∃ b, Sound id b s :=
  h.invariant (P := fun s => ∃ b, Sound id b s) ⟨0, .initial⟩
    fun _ _ _ ⟨_, hs⟩ _ hstep => hs.step hstep

section Progress

/-- The steps of the host itself: nothing is appended, and the connection stays as it is. -/
def internal : Host π → Input π → Prop
  | _, .emit _ | _, .read | _, .replay | _, .resume => True
  | _, _ => False

def AtRest (id : String) (s : Host π) : Prop :=
  s.stage = .sleeping false ∧ s.store.ahead id = []

theorem exists_emitted (id : String) (h : s.stage.subscribed) : ∃ t, (host id).Reaches internal s t ∧
    t.store.ahead id = [] ∧ t.store.inner = s.store.inner ∧ t.after = s.after ∧
      t.stage.subscribed := by
  generalize hrest : s.store.ahead id = rest
  induction rest generalizing s with
  | nil => exact ⟨s, .refl, hrest, rfl, rfl, h⟩
  | cons broadcast rest ih =>
    obtain ⟨n, store, hemit, hahead, hinner⟩ := exists_emit hrest
    obtain ⟨hstore, -, hafter, -, hsubscribed⟩ := Host.onAppend_same id { s with store }
      broadcast
    obtain ⟨u, hreach, hnone, hinner', hafter', hopen⟩ :=
      ih (s := { s with store }.onAppend id broadcast) (hsubscribed.trans h) (hstore ▸ hahead)
    have hstep : (host id).step s (.emit n) = some ({ s with store }.onAppend id broadcast) := by
      simp only [host, hostStep, hemit, Option.map_some]
    refine ⟨u, .head (i := Input.emit n) trivial hstep hreach, hnone, ?_, hafter'.trans hafter, hopen⟩
    rw [hinner', hstore, hinner]

/-- Left to itself, a host with an open connection comes to rest. -/
theorem exists_atRest (id : String) (h : s.stage.subscribed) : ∃ t, (host id).Reaches internal s t ∧
    AtRest id t ∧ t.store.inner = s.store.inner ∧ t.after = s.after := by
  obtain ⟨t, hreach, hnone, hinner, hafter, hopen⟩ := exists_emitted id h
  cases hstage : t.stage with
  | absent | closed =>
    rw [hstage] at hopen
    cases hopen
  | reading =>
    have hread : (host id).step t .read = some { t with
        stage := .replaying ((t.store.readStream id).filter (t.watermark < ·.sequence)) } := by
      simp only [host, hostStep, hstage]
    have hreached := hreach.tail (i := Input.read) trivial hread
    refine ⟨_, hreached.tail (i := Input.replay) trivial rfl, ?_, ?_, ?_⟩
    · exact ⟨rfl, hnone⟩
    · exact hinner
    · exact hafter
  | replaying page =>
    have hreplay : (host id).step t .replay = some (t.send page).drain := by
      simp only [host, hostStep, hstage]
    exact ⟨_, hreach.tail (i := Input.replay) trivial hreplay, ⟨rfl, hnone⟩, hinner, hafter⟩
  | sleeping woken =>
    cases woken with
    | false => exact ⟨t, hreach, ⟨hstage, hnone⟩, hinner, hafter⟩
    | true =>
      have hresume : (host id).step t .resume = some t.drain := by
        simp only [host, hostStep, hstage]
      exact ⟨_, hreach.tail (i := Input.resume) trivial hresume, ⟨rfl, hnone⟩, hinner, hafter⟩

end Progress

theorem Sound.sent_all (h : Sound id b s) (hrest : AtRest id s) :
    s.sent = (s.store.readStream id).filter (s.after < ·.sequence) := by
  obtain ⟨hstage, hnone⟩ := hrest
  have hb : b = (s.store.readStream id).length := by
    have hreach := h.broadcast.reach
    rw [BroadcastingChronicleStore.eventsAhead, hnone] at hreach
    rw [BroadcastingChronicleStore.readStream, stored_length]
    exact hreach
  have hroute := h.route
  simp only [Route, hstage] at hroute
  have hw := hroute.1.reach
  rw [hroute.2 trivial, reach_nil] at hw
  rw [h.sent.sent, BroadcastingChronicleStore.readStream, stored_numbered.filter_eq]
  refine List.take_of_length_le ?_
  rw [List.length_drop]
  rw [BroadcastingChronicleStore.readStream] at hb
  omega

/-- The client is sent events of the thread with a sequence above the one it asked for, each once
and in order, from the first one on; while the connection is open the host comes to rest, and then
all of them have been sent. -/
theorem sent_once_in_order (id : String) (s : Host π)
    (h : (host id).Reaches Machine.anyStep .initial s) :
    (s.sent.map StoredEvent.sequence).Pairwise (· < ·) ∧
      (∃ n, s.sent = ((s.store.readStream id).filter (s.after < ·.sequence)).take n) ∧
      (AtRest id s → s.sent = (s.store.readStream id).filter (s.after < ·.sequence)) ∧
      (s.stage.subscribed → ∃ t, (host id).Reaches internal s t ∧ AtRest id t ∧
        t.store.inner = s.store.inner ∧ t.after = s.after) := by
  obtain ⟨b, hsound⟩ := Sound.of_reaches h
  have hnumbered : Numbered StoredEvent.sequence (s.store.readStream id) := stored_numbered
  refine ⟨?_, ⟨s.watermark - s.after, ?_⟩, hsound.sent_all, exists_atRest id⟩
  · have hsub : s.sent.Sublist (s.store.readStream id) := by
      rw [hsound.sent.sent]
      exact (List.take_sublist ..).trans (List.drop_sublist ..)
    have hall : ((s.store.readStream id).map StoredEvent.sequence).Pairwise (· < ·) := by
      rw [hnumbered]
      exact List.pairwise_lt_range'
    exact hall.sublist (hsub.map _)
  · rw [hnumbered.filter_eq]
    exact hsound.sent.sent

/-- An append is written before the replay's read and broadcast before the page is sent. -/
def sampleInputs : List (Input String) :=
  [.append "thread:1" [⟨0, "turn.started"⟩, ⟨1, "item.started"⟩] 1, .connect 1, .emit 0,
    .append "thread:1" [⟨2, "item.completed"⟩] 3, .read, .emit 0, .replay,
    .append "thread:1" [⟨3, "turn.completed"⟩] 4, .emit 0, .resume]

theorem sent_once_in_order_sample : ∃ s, (host "thread:1").Reaches Machine.anyStep .initial s ∧
    s.sent.map (·.payload) = ["item.started", "item.completed", "turn.completed"] ∧
    (s.sent.map StoredEvent.sequence).Pairwise (· < ·) := by
  obtain ⟨s, hreach, hsent⟩ := Machine.exists_reaches_of_exec_map (M := host "thread:1")
    (s := .initial) (f := fun s => s.sent.map (·.payload))
    (a := ["item.started", "item.completed", "turn.completed"]) sampleInputs (by decide +kernel)
  exact ⟨s, hreach, hsent, (sent_once_in_order "thread:1" s hreach).1⟩

end BeeAgent.Thread.EventStream
