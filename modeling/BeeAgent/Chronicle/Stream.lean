import Mathlib.Data.List.Basic

/-! One stream of the Chronicle store: sequences are contiguous from 1, and an append carries the
sequence its first event must take. -/
namespace BeeAgent.Chronicle

/-- A stored event; its sequence is its position in the stream. `eventId` numbers the draws of
`randomUUID`. -/
structure ChronicleEvent (π : Type) where
  eventId : ℕ
  payload : π
  deriving DecidableEq, Repr

structure ChronicleSequenceConflictError where
  expectedSequence : ℕ
  actualNextSequence : ℕ
  deriving DecidableEq, Repr

variable {π : Type}

def getLatestSequence (stream : List (ChronicleEvent π)) : ℕ := stream.length

/-- The stream after an append. A retry of a stored batch (same event ids at the expected
sequence) succeeds and writes nothing; anything else at a taken position is a conflict. -/
def append (stream events : List (ChronicleEvent π)) (expectedSequence : ℕ) :
    Except ChronicleSequenceConflictError (List (ChronicleEvent π)) :=
  if events = [] then .ok stream
  else if expectedSequence < 1 then .error ⟨expectedSequence, stream.length + 1⟩
  else if expectedSequence = stream.length + 1 then .ok (stream ++ events)
  else
    let existing := (stream.drop (expectedSequence - 1)).take events.length
    if existing.map ChronicleEvent.eventId = events.map ChronicleEvent.eventId then .ok stream
    else .error ⟨expectedSequence, stream.length + 1⟩

theorem append_next (stream events : List (ChronicleEvent π)) :
    append stream events (getLatestSequence stream + 1) = .ok (stream ++ events) := by
  by_cases h : events = []
  · simp [append, h]
  · simp [append, getLatestSequence, h]

theorem append_ok {stream events stream' : List (ChronicleEvent π)} {expectedSequence : ℕ}
    (h : append stream events expectedSequence = .ok stream') :
    stream' = stream ∨ stream' = stream ++ events := by
  unfold append at h
  split at h
  · exact .inl (Except.ok.inj h).symm
  split at h
  · cases h
  split at h
  · exact .inr (Except.ok.inj h).symm
  simp only at h
  split at h
  · exact .inl (Except.ok.inj h).symm
  · cases h

/-- A batch that is new to the stream is written at the next sequence or not at all. -/
theorem append_fresh_all {stream stream' events : List (ChronicleEvent π)} {expectedSequence : ℕ}
    (hne : events ≠ []) (hfresh : ∀ e ∈ stream, ∀ e' ∈ events, e.eventId ≠ e'.eventId)
    (h : append stream events expectedSequence = .ok stream') :
    expectedSequence = stream.length + 1 ∧ stream' = stream ++ events := by
  unfold append at h
  split at h
  · next hnil => exact absurd hnil hne
  split at h
  · cases h
  split at h
  · next hnext => exact ⟨hnext, (Except.ok.inj h).symm⟩
  simp only at h
  split at h
  · next hsame =>
    obtain ⟨first, rest, rfl⟩ := List.exists_cons_of_ne_nil hne
    obtain ⟨e, he, hid⟩ := List.mem_map.mp (hsame ▸ List.mem_map_of_mem List.mem_cons_self)
    exact absurd hid (hfresh e (List.mem_of_mem_drop (List.mem_of_mem_take he)) first
      (List.mem_cons_self ..))
  · cases h

theorem append_fresh {stream stream' : List (ChronicleEvent π)} {event : ChronicleEvent π}
    {expectedSequence : ℕ} (hfresh : ∀ e ∈ stream, e.eventId ≠ event.eventId)
    (h : append stream [event] expectedSequence = .ok stream') :
    expectedSequence = stream.length + 1 ∧ stream' = stream ++ [event] :=
  append_fresh_all (List.cons_ne_nil _ _) (by simpa using hfresh) h

end BeeAgent.Chronicle
