import BeeAgent.Chronicle.Stream
import BeeAgent.Data.OrderedMap
import BeeAgent.Data.Watermark

/-! The broadcasting store: an append is written first and broadcast after an await. The broadcasts
of one stream go out in the order of its appends, and each hands on what the store returned. -/
namespace BeeAgent.Chronicle
open Data Watermark

variable {π : Type}

/-- An event as the store reads and returns it. -/
structure StoredEvent (π : Type) where
  streamId : String
  sequence : ℕ
  payload : π
  deriving DecidableEq, Repr

def stored (streamId : String) (stream : List (ChronicleEvent π)) : List (StoredEvent π) :=
  stream.zipIdx.map fun (event, i) => ⟨streamId, i + 1, event.payload⟩

structure ChronicleAppendBroadcast (π : Type) where
  streamId : String
  events : List (StoredEvent π)

/-- `pending` holds the broadcasts of the appends that are written and have not gone on yet. -/
structure BroadcastingChronicleStore (π : Type) where
  inner : OrderedMap String (List (ChronicleEvent π))
  pending : List (ChronicleAppendBroadcast π)

namespace BroadcastingChronicleStore

def empty : BroadcastingChronicleStore π := ⟨.empty, []⟩

variable (s : BroadcastingChronicleStore π)

def stream (streamId : String) : List (ChronicleEvent π) := (s.inner.get streamId).getD []

def readStream (streamId : String) : List (StoredEvent π) := stored streamId (s.stream streamId)

def listStreams : List String := s.inner.keys

/-- An append up to its await: what the store returns is to be broadcast, also when it was stored
before. -/
def append (streamId : String) (events : List (ChronicleEvent π)) (expectedSequence : ℕ) :
    BroadcastingChronicleStore π :=
  match Chronicle.append (s.stream streamId) events expectedSequence with
  | .error _ => s
  | .ok stream =>
    let returned := ((stored streamId stream).drop (expectedSequence - 1)).take events.length
    { inner := if events.isEmpty then s.inner else s.inner.set streamId stream
      pending := if returned.isEmpty then s.pending else s.pending ++ [⟨streamId, returned⟩] }

/-- A broadcast goes out when it is the first one of its stream. -/
def emit (n : ℕ) : Option (ChronicleAppendBroadcast π × BroadcastingChronicleStore π) :=
  (s.pending[n]?).bind fun broadcast =>
    if (s.pending.take n).all (·.streamId ≠ broadcast.streamId) then
      some (broadcast, { s with pending := s.pending.eraseIdx n })
    else none

/-- The broadcasts of a stream that are still to go out. -/
def ahead (streamId : String) : List (ChronicleAppendBroadcast π) :=
  s.pending.filter (·.streamId = streamId)

def eventsAhead (streamId : String) : List (StoredEvent π) := (s.ahead streamId).flatMap (·.events)

end BroadcastingChronicleStore

variable {stream stream' events : List (ChronicleEvent π)} {id streamId : String} {n b : ℕ}

@[simp] theorem stored_length : (stored id stream).length = stream.length := by simp [stored]

theorem stored_numbered : Numbered StoredEvent.sequence (stored id stream) := by
  rw [Numbered, stored_length]
  refine List.ext_getElem? fun i => ?_
  simp only [stored, List.map_map, List.getElem?_map, List.getElem?_zipIdx, Option.map_map]
  by_cases hi : i < stream.length
  · simp [hi]
    omega
  · simp [hi]

theorem stored_append : ∃ new, stored id (stream ++ events) = stored id stream ++ new := by
  rw [stored, List.zipIdx_append, List.map_append]
  exact ⟨_, rfl⟩

/-- What an append returns goes on from the stream that it found, without a gap, up to the stream
that it leaves. -/
theorem append_returned (id : String) {expectedSequence : ℕ}
    (h : Chronicle.append stream events expectedSequence = .ok stream') :
    let returned := ((stored id stream').drop (expectedSequence - 1)).take events.length
    (∃ new, stored id stream' = stored id stream ++ new) ∧
      (∀ e ∈ returned, e ∈ stored id stream') ∧
      Gapless StoredEvent.sequence stream.length returned ∧
      reach StoredEvent.sequence stream.length returned = stream'.length := by
  intro returned
  have hmem : ∀ e ∈ returned, e ∈ stored id stream' := fun e he =>
    List.mem_of_mem_drop (List.mem_of_mem_take he)
  have hlength : returned.length = min events.length (stream'.length - (expectedSequence - 1)) := by
    simp [returned]
  unfold Chronicle.append at h
  by_cases hnil : events = []
  · rw [if_pos hnil] at h
    cases h
    have hreturned : returned = [] := by
      rw [← List.length_eq_zero_iff, hlength, hnil]
      simp
    rw [hreturned]
    exact ⟨⟨[], (List.append_nil _).symm⟩, fun e he => absurd he List.not_mem_nil, trivial, rfl⟩
  rw [if_neg hnil] at h
  split at h
  · cases h
  · next hone =>
    have hrun : expectedSequence ≤ stream.length + 1 →
        Gapless StoredEvent.sequence stream.length returned ∧
          reach StoredEvent.sequence stream.length returned + 1 =
            max (stream.length + 1) (expectedSequence + returned.length) :=
      run_spec (stored_numbered.window (by omega) events.length)
    split at h
    · next hnext =>
      cases h
      obtain ⟨hgapless, hreach⟩ := hrun hnext.le
      refine ⟨stored_append, hmem, hgapless, ?_⟩
      rw [List.length_append] at hlength ⊢
      omega
    · next hne =>
      simp only at h
      split at h
      · next hsame =>
        cases h
        have hcount := congrArg List.length hsame
        simp only [List.length_map, List.length_take, List.length_drop] at hcount
        have hpos := List.length_pos_of_ne_nil hnil
        obtain ⟨hgapless, hreach⟩ := hrun (by omega)
        exact ⟨⟨[], (List.append_nil _).symm⟩, hmem, hgapless, by omega⟩
      · cases h

/-- All of a stream up to `b` has been broadcast, and the rest will be. -/
structure Broadcast (s : BroadcastingChronicleStore π) (id : String) (b : ℕ) : Prop where
  known : ∀ e ∈ s.eventsAhead id, e ∈ s.readStream id
  gapless : Gapless StoredEvent.sequence b (s.eventsAhead id)
  reach : Watermark.reach StoredEvent.sequence b (s.eventsAhead id) = (s.stream id).length

variable {s t : BroadcastingChronicleStore π} {broadcast : ChronicleAppendBroadcast π}

theorem Broadcast.le (h : Broadcast s id b) : b ≤ (s.readStream id).length := by
  rw [BroadcastingChronicleStore.readStream, stored_length, ← h.reach]
  exact le_reach

theorem streamId_of_mem {e : StoredEvent π} (he : e ∈ s.readStream id) : e.streamId = id := by
  obtain ⟨_, -, rfl⟩ := List.mem_map.mp he
  rfl

theorem Broadcast.mem_ahead (h : Broadcast s id b) {e : StoredEvent π} (he : e ∈ s.readStream id)
    (hb : b < e.sequence) : e ∈ s.eventsAhead id := by
  have hnumbered : Numbered StoredEvent.sequence (s.readStream id) := stored_numbered
  refine hnumbered.mem_queue h.known h.gapless ?_ he hb
  rw [h.reach, BroadcastingChronicleStore.readStream, stored_length]

theorem Broadcast.empty : Broadcast (.empty : BroadcastingChronicleStore π) id 0 :=
  ⟨fun _ he => absurd he List.not_mem_nil, trivial, rfl⟩

theorem append_cases (s : BroadcastingChronicleStore π) (id streamId : String)
    (events : List (ChronicleEvent π)) (expectedSequence : ℕ) :
    ∃ new returned, (s.append streamId events expectedSequence).readStream id =
        s.readStream id ++ new ∧
      (s.append streamId events expectedSequence).eventsAhead id = s.eventsAhead id ++ returned ∧
      (∀ e ∈ returned, e ∈ s.readStream id ++ new) ∧
      Gapless StoredEvent.sequence (s.stream id).length returned ∧
      reach StoredEvent.sequence (s.stream id).length returned =
        ((s.append streamId events expectedSequence).stream id).length := by
  unfold BroadcastingChronicleStore.append
  split
  · exact ⟨[], [], (List.append_nil _).symm, (List.append_nil _).symm,
      fun _ he => absurd he List.not_mem_nil, trivial, rfl⟩
  · next stream happend =>
    generalize ht : BroadcastingChronicleStore.mk _ _ = t
    have hstream : t.stream id = if id = streamId then stream else s.stream id := by
      rw [← ht]
      simp only [BroadcastingChronicleStore.stream]
      by_cases hnil : events = []
      · have hsame : stream = s.stream streamId := by
          rw [Chronicle.append, if_pos hnil] at happend
          exact (Except.ok.inj happend).symm
        rw [if_pos (by simp [hnil]), hsame]
        split
        · next heq => rw [heq]; rfl
        · rfl
      · rw [if_neg (by simpa using hnil), OrderedMap.get_set]
        split <;> rfl
    have hahead : t.eventsAhead id = s.eventsAhead id ++ if streamId = id then
        ((stored streamId stream).drop (expectedSequence - 1)).take events.length else [] := by
      rw [← ht]
      simp only [BroadcastingChronicleStore.eventsAhead, BroadcastingChronicleStore.ahead]
      split
      · next hnone => rw [List.isEmpty_iff.mp hnone, ite_self, List.append_nil]
      · rw [List.filter_append, List.flatMap_append]
        by_cases heq : streamId = id <;> simp [heq]
    by_cases heq : streamId = id
    · subst heq
      obtain ⟨⟨new, hnew⟩, hknown, hgapless, hreach⟩ := append_returned streamId happend
      rw [if_pos rfl] at hstream hahead
      refine ⟨new, _, ?_, hahead, ?_, hgapless, hstream ▸ hreach⟩
      · rw [BroadcastingChronicleStore.readStream, hstream, hnew]
        rfl
      · exact fun e he => hnew ▸ hknown e he
    · rw [if_neg (Ne.symm heq)] at hstream
      rw [if_neg heq] at hahead
      refine ⟨[], [], ?_, hahead, fun _ he => absurd he List.not_mem_nil, trivial, ?_⟩
      · rw [BroadcastingChronicleStore.readStream, hstream, List.append_nil]
        rfl
      · rw [reach_nil, hstream]

theorem Broadcast.append (h : Broadcast s id b) (streamId : String)
    (events : List (ChronicleEvent π)) (expectedSequence : ℕ) :
    Broadcast (s.append streamId events expectedSequence) id b := by
  obtain ⟨new, returned, hread, hahead, hknown, hgapless, hreach⟩ :=
    append_cases s id streamId events expectedSequence
  constructor
  · intro e he
    rw [hahead] at he
    rw [hread]
    rcases List.mem_append.mp he with hold | hlast
    · exact List.mem_append_left _ (h.known e hold)
    · exact hknown e hlast
  · rw [hahead, gapless_append, h.reach]
    exact ⟨h.gapless, hgapless⟩
  · rw [hahead, reach_append, h.reach, hreach]

theorem emit_ahead (id : String) (h : s.emit n = some (broadcast, t)) : t.inner = s.inner ∧
    s.ahead id = (if broadcast.streamId = id then [broadcast] else []) ++ t.ahead id := by
  unfold BroadcastingChronicleStore.emit at h
  obtain ⟨broadcast', hn, h⟩ := Option.bind_eq_some_iff.mp h
  split at h
  · next hfirst =>
    cases h
    obtain ⟨hlt, hget⟩ := List.getElem?_eq_some_iff.mp hn
    have hsplit : s.pending = s.pending.take n ++ broadcast :: s.pending.drop (n + 1) := by
      rw [← hget, ← List.drop_eq_getElem_cons hlt, List.take_append_drop]
    refine ⟨rfl, ?_⟩
    rw [BroadcastingChronicleStore.ahead, BroadcastingChronicleStore.ahead,
      List.eraseIdx_eq_take_drop_succ]
    conv_lhs => rw [hsplit]
    rw [List.filter_append, List.filter_append, List.filter_cons]
    split
    · next heq =>
      obtain rfl : broadcast.streamId = id := by simpa using heq
      have hnone : (s.pending.take n).filter (·.streamId = broadcast.streamId) = [] := by
        rw [List.filter_eq_nil_iff]
        intro other hother hid
        simpa [of_decide_eq_true hid] using List.all_eq_true.mp hfirst other hother
      rw [hnone, List.nil_append, List.nil_append, if_pos rfl, List.singleton_append]
    · next hne => rw [if_neg (by simpa using hne), List.nil_append]
  · cases h

theorem Broadcast.emit (h : Broadcast s broadcast.streamId b)
    (hemit : s.emit n = some (broadcast, t)) :
    (∀ e ∈ broadcast.events, e ∈ s.readStream broadcast.streamId) ∧
      Gapless StoredEvent.sequence b broadcast.events ∧
      Broadcast t broadcast.streamId
        (Watermark.reach StoredEvent.sequence b broadcast.events) := by
  obtain ⟨hinner, hahead⟩ := emit_ahead broadcast.streamId hemit
  rw [if_pos rfl] at hahead
  have hevents : s.eventsAhead broadcast.streamId =
      broadcast.events ++ t.eventsAhead broadcast.streamId := by
    rw [BroadcastingChronicleStore.eventsAhead, hahead, List.flatMap_append]
    simp [BroadcastingChronicleStore.eventsAhead]
  have hstream : t.stream broadcast.streamId = s.stream broadcast.streamId := by
    rw [BroadcastingChronicleStore.stream, hinner]
    rfl
  obtain ⟨hknown, hgapless, hreach⟩ := h
  rw [hevents] at hknown hgapless hreach
  rw [gapless_append] at hgapless
  rw [reach_append] at hreach
  refine ⟨fun e he => hknown e (List.mem_append_left _ he), hgapless.1, ?_, hgapless.2, ?_⟩
  · rw [BroadcastingChronicleStore.readStream, hstream]
    exact fun e he => hknown e (List.mem_append_right _ he)
  · rw [hstream, hreach]

theorem Broadcast.emit_other (h : Broadcast s id b) (hemit : s.emit n = some (broadcast, t))
    (hne : broadcast.streamId ≠ id) : Broadcast t id b := by
  obtain ⟨hinner, hahead⟩ := emit_ahead id hemit
  rw [if_neg hne, List.nil_append] at hahead
  have hstream : t.stream id = s.stream id := by
    rw [BroadcastingChronicleStore.stream, hinner]
    rfl
  have hevents : t.eventsAhead id = s.eventsAhead id := by
    rw [BroadcastingChronicleStore.eventsAhead, ← hahead]
    rfl
  refine ⟨?_, hevents ▸ h.gapless, ?_⟩
  · rw [hevents, BroadcastingChronicleStore.readStream, hstream]
    exact h.known
  · rw [hevents, hstream]
    exact h.reach

theorem exists_emit {rest : List (ChronicleAppendBroadcast π)} (h : s.ahead id = broadcast :: rest) :
    ∃ n t, s.emit n = some (broadcast, t) ∧ t.ahead id = rest ∧ t.inner = s.inner := by
  obtain ⟨front, back, hsplit, hfront, hid, hback⟩ := List.filter_eq_cons_iff.mp h
  have hget : s.pending[front.length]? = some broadcast := by simp [hsplit]
  have hfirst : (s.pending.take front.length).all (·.streamId ≠ broadcast.streamId) := by
    rw [hsplit, List.take_left, List.all_eq_true]
    intro other hother
    have hother := hfront other hother
    rw [of_decide_eq_true hid]
    simpa using hother
  have hemit : s.emit front.length =
      some (broadcast, { s with pending := s.pending.eraseIdx front.length }) := by
    rw [BroadcastingChronicleStore.emit, hget, Option.bind_some, if_pos hfirst]
  obtain ⟨hinner, hahead⟩ := emit_ahead id hemit
  rw [if_pos (of_decide_eq_true hid), h] at hahead
  exact ⟨_, _, hemit, (List.cons.inj hahead).2.symm, hinner⟩

end BeeAgent.Chronicle
