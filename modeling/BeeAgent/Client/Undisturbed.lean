import BeeAgent.Client.Transcript
import BeeAgent.Runtime.Turns

/-! When the entries that are derived from every beginning of a stream are its transcript: which
events disturb the one accumulator that all assistant items share. -/
namespace BeeAgent.Client
open Data Thread

def listenStep (listening : Bool) : ThreadEvent → Bool
  | .itemStarted item => isMessageOf .assistant item || listening
  | .itemCompleted item =>
    listening && !isMessageOf .user item && !isMessageOf .assistant item
  | _ => listening

def listening (events : List ThreadEvent) : Bool := events.foldl listenStep false

def heard (events : List ThreadEvent) : Bool := (streaming events).any (·.2 ≠ "")

def streams (events : List ThreadEvent) (id : ItemId) : Bool := (streaming events).any (·.1 = id)

/-- Where the entries go wrong. While an item streams that has received text: another assistant item
starts, a user message or another assistant item completes, the item itself fails. At any time: text
comes for another item than the one that streams while the reduction listens, or for that one while
it does not. -/
def disturbs (before : List ThreadEvent) : ThreadEvent → Bool
  | .itemStarted item => heard before && isMessageOf .assistant item
  | .itemCompleted item => heard before &&
      (isMessageOf .user item || isMessageOf .assistant item != streams before item.id)
  | .itemFailed _ id _ => heard before && streams before id
  | .itemDelta _ id delta => delta ≠ "" && listening before != streams before id
  | _ => false

def Undisturbed (events : List ThreadEvent) : Prop :=
  ∀ before event after, events = before ++ event :: after → disturbs before event = false

section Reduction
variable {createdAt : ItemId → Option String} {events : List ThreadEvent} {event : ThreadEvent}
  {r : Reduction}

theorem undisturbed_append : Undisturbed (events ++ [event]) ↔
    Undisturbed events ∧ disturbs events event = false := by
  constructor
  · intro h
    refine ⟨fun before e after heq => h before e (after ++ [event]) ?_, h events event [] rfl⟩
    rw [heq, List.append_assoc, List.cons_append]
  · rintro ⟨hevents, hevent⟩ before e after heq
    rcases List.eq_nil_or_concat after with rfl | ⟨after, last, rfl⟩
    · obtain ⟨rfl, hlast⟩ := List.append_inj' heq rfl
      obtain rfl := (List.cons.inj hlast).1
      exact hevent
    · rw [List.concat_eq_append, ← List.cons_append, ← List.append_assoc] at heq
      exact hevents before e after (List.append_inj' heq rfl).1

/-- The reduction of undisturbed events: it has accumulated what streams while it is open, and what
streams has no text while it is not. -/
structure Follows (createdAt : ItemId → Option String) (events : List ThreadEvent)
    (r : Reduction) : Prop where
  entries : r.entries =
    (events.filterMap ThreadEvent.completedItem?).flatMap (completedEntries createdAt)
  openness : r.assistantOpen = listening events
  listened : listening events → r.assistant = ((streaming events).map Prod.snd).getD ""
  silent : listening events = false → heard events = false

theorem Follows.initial : Follows createdAt [] {} := ⟨rfl, rfl, nofun, fun _ => rfl⟩

theorem Follows.streamingEntries (h : Follows createdAt events r) :
    streamingEntries (streaming events) =
      if r.assistantOpen && r.assistant ≠ "" then [.assistant r.assistant none true] else [] := by
  rw [h.openness]
  cases hlistening : listening events with
  | true =>
    rw [h.listened hlistening]
    cases streaming events with
    | none => simp [Client.streamingEntries]
    | some open_ => simp [Client.streamingEntries]
  | false =>
    have hsilent := h.silent hlistening
    rw [heard] at hsilent
    cases hstreaming : streaming events with
    | none => rfl
    | some open_ => simp_all [Client.streamingEntries]

theorem Follows.shown (h : Follows createdAt events r) : r.shown = transcript createdAt events := by
  rw [transcript, h.streamingEntries, ← h.entries, Reduction.shown]
  split <;> simp

@[simp] theorem streaming_append (events : List ThreadEvent) (event : ThreadEvent) :
    streaming (events ++ [event]) = streamStep (streaming events) event := by
  simp [streaming]

@[simp] theorem listening_append (events : List ThreadEvent) (event : ThreadEvent) :
    listening (events ++ [event]) = listenStep (listening events) event := by
  simp [listening]

/-- What is open as an assistant item starts or a user message completes is pushed only with text
that streams. -/
theorem Follows.flush (h : Follows createdAt events r) (hheard : heard events = false) :
    r.flushAssistant.entries = r.entries := by
  have hnone : Client.streamingEntries (streaming events) = [] := by
    rw [heard] at hheard
    cases hstreaming : streaming events with
    | none => rfl
    | some open_ => simp_all [Client.streamingEntries]
  rw [h.streamingEntries] at hnone
  unfold Reduction.flushAssistant
  split at hnone
  · cases hnone
  · next hquiet => simp only [if_neg hquiet]

theorem Follows.started {item : Item} (h : Follows createdAt events r)
    (hquiet : disturbs events (.itemStarted item) = false) :
    Follows createdAt (events ++ [.itemStarted item]) (r.step createdAt (.itemStarted item)) := by
  have hnone : ThreadEvent.completedItem? (.itemStarted item) = none := rfl
  by_cases hassistant : isMessageOf .assistant item
  · have hheard : heard events = false := by simpa [disturbs, hassistant] using hquiet
    rw [Reduction.step, if_pos hassistant]
    refine ⟨?_, ?_, fun _ => ?_, ?_⟩
    · simp [h.flush hheard, h.entries, hnone]
    · simp [listenStep, hassistant]
    · simp [streamStep, hassistant, Reduction.flushAssistant]
    · simp [listenStep, hassistant]
  · rw [Reduction.step, if_neg hassistant]
    refine ⟨?_, ?_, ?_, ?_⟩
    · simp [h.entries, hnone]
    · simp [listenStep, hassistant, h.openness]
    · simpa [listenStep, streamStep, hassistant] using h.listened
    · simpa [listenStep, streamStep, hassistant, heard] using h.silent

theorem Follows.delta {turnId : TurnId} {id : ItemId} {delta : String}
    (h : Follows createdAt events r)
    (hquiet : disturbs events (.itemDelta turnId id delta) = false) :
    Follows createdAt (events ++ [.itemDelta turnId id delta])
      (r.step createdAt (.itemDelta turnId id delta)) := by
  have hnone : ThreadEvent.completedItem? (.itemDelta turnId id delta) = none := rfl
  have hdelta : delta = "" ∨ listening events = streams events id := by
    simpa [disturbs, or_iff_not_imp_left] using hquiet
  refine ⟨by simp [Reduction.step, h.entries, hnone],
    by simp [listenStep, Reduction.step, h.openness], fun hlistening => ?_, fun hlistening => ?_⟩
  · replace hlistening : listening events = true := by simpa [listenStep] using hlistening
    have hlistened := h.listened hlistening
    rw [streaming_append, Reduction.step, hlistened]
    cases hstreaming : streaming events with
    | none =>
      rcases hdelta with rfl | hdelta
      · rfl
      · simp [streams, hstreaming, hlistening] at hdelta
    | some open_ =>
      rcases hdelta with rfl | hdelta
      · simp [streamStep]
      · have hid : open_.1 = id := by simpa [streams, hstreaming, hlistening] using hdelta
        simp [streamStep, hid]
  · replace hlistening : listening events = false := by simpa [listenStep] using hlistening
    have hsilent := h.silent hlistening
    rw [heard, streaming_append]
    rw [heard] at hsilent
    cases hstreaming : streaming events with
    | none => rfl
    | some open_ =>
      rcases hdelta with rfl | hdelta
      · simpa [streamStep, hstreaming] using hsilent
      · have hid : open_.1 ≠ id := by simpa [streams, hstreaming, hlistening] using hdelta
        simpa [streamStep, hid, hstreaming] using hsilent

theorem heard_filter {open_ : Option (ItemId × String)} {id : ItemId}
    (h : open_.any (·.2 ≠ "") = false) : (open_.filter (·.1 ≠ id)).any (·.2 ≠ "") = false := by
  cases open_ with
  | none => rfl
  | some open_ => by_cases hid : open_.1 = id <;> simp_all [Option.filter]

theorem text_filter {open_ : Option (ItemId × String)} {id : ItemId}
    (h : (open_.any (·.2 ≠ "") && open_.any (·.1 = id)) = false) :
    ((open_.filter (·.1 ≠ id)).map Prod.snd).getD "" = (open_.map Prod.snd).getD "" := by
  cases open_ with
  | none => rfl
  | some open_ => by_cases hid : open_.1 = id <;> simp_all [Option.filter]

theorem Follows.failed {turnId : TurnId} {id : ItemId} {error : String}
    (h : Follows createdAt events r)
    (hquiet : disturbs events (.itemFailed turnId id error) = false) :
    Follows createdAt (events ++ [.itemFailed turnId id error])
      (r.step createdAt (.itemFailed turnId id error)) := by
  have hnone : ThreadEvent.completedItem? (.itemFailed turnId id error) = none := rfl
  refine ⟨by simp [Reduction.step, h.entries, hnone],
    by simp [listenStep, Reduction.step, h.openness], fun hlistening => ?_, fun hlistening => ?_⟩
  · rw [streaming_append, streamStep, text_filter hquiet]
    exact h.listened (by simpa [listenStep] using hlistening)
  · replace hlistening : listening events = false := by simpa [listenStep] using hlistening
    rw [heard, streaming_append, streamStep]
    exact heard_filter (h.silent hlistening)

theorem Follows.completed {item : Item} (h : Follows createdAt events r)
    (hquiet : disturbs events (.itemCompleted item) = false) :
    Follows createdAt (events ++ [.itemCompleted item])
      (r.step createdAt (.itemCompleted item)) := by
  have hentries : ∀ entries : List ChatEntry, entries = r.entries →
      entries ++ completedEntries createdAt item =
        ((events ++ [ThreadEvent.itemCompleted item]).filterMap ThreadEvent.completedItem?).flatMap
          (completedEntries createdAt) := by
    rintro _ rfl
    simp [h.entries, ThreadEvent.completedItem?]
  by_cases huser : isMessageOf .user item
  · have hheard : heard events = false := by simpa [disturbs, huser] using hquiet
    rw [Reduction.step, if_pos huser]
    refine ⟨hentries _ (h.flush hheard), ?_, fun hlistening => ?_, fun _ => ?_⟩
    · simp [listenStep, huser, Reduction.push, Reduction.flushAssistant]
    · simp [listenStep, huser] at hlistening
    · rw [heard, streaming_append, streamStep]
      exact heard_filter hheard
  rw [Reduction.step, if_neg huser]
  by_cases hassistant : isMessageOf .assistant item
  · rw [if_pos hassistant]
    refine ⟨hentries _ rfl, ?_, fun hlistening => ?_, fun _ => ?_⟩
    · simp [listenStep, hassistant, Reduction.push]
    · simp [listenStep, hassistant] at hlistening
    · rw [heard, streaming_append, streamStep]
      cases hheard : heard events with
      | false => exact heard_filter hheard
      | true =>
        have hstreams : streams events item.id = true := by
          simpa [disturbs, huser, hassistant, hheard] using hquiet
        rw [streams] at hstreams
        cases hstreaming : streaming events with
        | none => rfl
        | some open_ => simp_all [Option.filter]
  · rw [if_neg hassistant]
    refine ⟨hentries _ rfl, ?_, fun hlistening => ?_, fun hlistening => ?_⟩
    · simp [listenStep, huser, hassistant, Reduction.push, h.openness]
    · have hother : (heard events && streams events item.id) = false := by
        simpa [disturbs, huser, hassistant] using hquiet
      rw [streaming_append, streamStep, text_filter hother]
      exact h.listened (by simpa [listenStep, huser, hassistant] using hlistening)
    · rw [heard, streaming_append, streamStep]
      exact heard_filter (h.silent (by simpa [listenStep, huser, hassistant] using hlistening))

theorem Follows.step (h : Follows createdAt events r) (hquiet : disturbs events event = false) :
    Follows createdAt (events ++ [event]) (r.step createdAt event) := by
  cases event with
  | itemStarted item => exact h.started hquiet
  | itemDelta => exact h.delta hquiet
  | itemCompleted item => exact h.completed hquiet
  | itemFailed => exact h.failed hquiet
  | _ =>
    exact ⟨by
        simpa [Reduction.step, ThreadEvent.completedItem?, List.filterMap_cons] using h.entries,
      by simpa [Reduction.step, listenStep] using h.openness,
      by simpa [Reduction.step, listenStep, streamStep] using h.listened,
      by simpa [heard, listenStep, streamStep] using h.silent⟩

theorem Follows.foldl (hquiet : Undisturbed events) :
    Follows createdAt events (events.foldl (Reduction.step createdAt) {}) := by
  induction events using List.reverseRecOn with
  | nil => exact .initial
  | append_singleton events event ih =>
    obtain ⟨hevents, hevent⟩ := undisturbed_append.mp hquiet
    rw [List.foldl_append]
    exact (ih hevents).step hevent

theorem Follows.heard (h : Follows createdAt events r) (hheard : heard events) :
    ∃ id, streaming events = some (id, r.assistant) ∧ r.assistant ≠ "" ∧ r.assistantOpen := by
  have hlistening : listening events = true := by
    by_contra hnot
    rw [h.silent (Bool.eq_false_iff.mpr hnot)] at hheard
    cases hheard
  have hlistened := h.listened hlistening
  rw [Client.heard] at hheard
  cases hstreaming : streaming events with
  | none =>
    rw [hstreaming] at hheard
    cases hheard
  | some open_ =>
    rw [hstreaming] at hlistened hheard
    exact ⟨open_.1, by rw [hlistened]; rfl, by rw [hlistened]; simpa using hheard,
      h.openness.trans hlistening⟩

theorem Follows.transcript_append (h : Follows createdAt events r) (event : ThreadEvent) :
    transcript createdAt (events ++ [event]) =
      r.entries ++ (event.completedItem?.elim [] (completedEntries createdAt) ++
        Client.streamingEntries (streamStep (streaming events) event)) := by
  rw [transcript, streaming_append, List.filterMap_append, List.flatMap_append, ← h.entries,
    List.append_assoc]
  cases event <;> simp [ThreadEvent.completedItem?, List.filterMap_cons]

theorem Follows.ne_started {item : Item} (h : Follows createdAt events r)
    (hevent : disturbs events (.itemStarted item)) :
    (r.step createdAt (.itemStarted item)).shown ≠
      transcript createdAt (events ++ [.itemStarted item]) := by
  rw [disturbs, Bool.and_eq_true] at hevent
  obtain ⟨id, -, htext, hopen⟩ := h.heard hevent.1
  rw [h.transcript_append, Reduction.step, if_pos hevent.2]
  intro heq
  have hlength := congrArg List.length heq
  simp [Reduction.shown, Reduction.flushAssistant, hopen, htext, ThreadEvent.completedItem?,
    streamStep, hevent.2, Client.streamingEntries] at hlength

theorem Follows.ne_failed {turnId : TurnId} {id : ItemId} {error : String}
    (h : Follows createdAt events r) (hevent : disturbs events (.itemFailed turnId id error)) :
    (r.step createdAt (.itemFailed turnId id error)).shown ≠
      transcript createdAt (events ++ [.itemFailed turnId id error]) := by
  rw [disturbs, Bool.and_eq_true] at hevent
  obtain ⟨open_, hstreaming, htext, hopen⟩ := h.heard hevent.1
  obtain rfl : open_ = id := by simpa [streams, hstreaming] using hevent.2
  rw [h.transcript_append, Reduction.step]
  · intro heq
    have hlength := congrArg List.length heq
    simp [Reduction.shown, hopen, htext, ThreadEvent.completedItem?, streamStep, hstreaming,
      Client.streamingEntries, Option.filter] at hlength
  all_goals nofun

theorem Follows.ne_delta {turnId : TurnId} {id : ItemId} {delta : String}
    (h : Follows createdAt events r) (hevent : disturbs events (.itemDelta turnId id delta)) :
    (r.step createdAt (.itemDelta turnId id delta)).shown ≠
      transcript createdAt (events ++ [.itemDelta turnId id delta]) := by
  obtain ⟨hdelta, hlistening⟩ : delta ≠ "" ∧ listening events ≠ streams events id := by
    simpa [disturbs] using hevent
  rw [h.transcript_append, Reduction.step]
  intro heq
  cases hopen : listening events with
  | true =>
    -- the text is taken for that of the item that streams
    have hother : streams events id = false := by simpa [hopen] using hlistening
    have hshown : (r.assistant ++ delta) ≠ "" := by simp [hdelta]
    simp only [Reduction.shown, h.openness, hopen, hshown, ne_eq, not_false_eq_true, decide_true,
      Bool.and_true, if_true, ThreadEvent.completedItem?, Option.elim_none, List.nil_append,
      List.append_cancel_left_eq, streamStep] at heq
    have hlistened := h.listened hopen
    cases hstreaming : streaming events with
    | none =>
      rw [hstreaming] at heq
      cases heq
    | some open_ =>
      have hid : open_.1 ≠ id := by simpa [streams, hstreaming] using hother
      rw [hstreaming, Option.map_some, if_neg hid, Client.streamingEntries] at heq
      rw [hstreaming] at hlistened
      split at heq
      · have htext : r.assistant ++ delta = open_.2 := by simpa using heq
        rw [hlistened] at htext
        exact hdelta (String.append_eq_left_iff.mp htext)
      · cases heq
  | false =>
    -- the text of the item that streams is not shown
    have hstreams : streams events id = true := by simpa [hopen] using hlistening
    obtain ⟨open_, hstreaming, hid⟩ := (Option.any_eq_true _ _).mp hstreams
    have hid : open_.1 = id := by simpa using hid
    have hlength := congrArg List.length heq
    simp [Reduction.shown, h.openness, hopen, ThreadEvent.completedItem?, streamStep, hstreaming,
      hid, hdelta, Client.streamingEntries] at hlength

theorem Follows.ne_completed {item : Item} (h : Follows createdAt events r)
    (hevent : disturbs events (.itemCompleted item)) :
    (r.step createdAt (.itemCompleted item)).shown ≠
      transcript createdAt (events ++ [.itemCompleted item]) := by
  rw [disturbs, Bool.and_eq_true] at hevent
  obtain ⟨hheard, hevent⟩ := hevent
  obtain ⟨id, hstreaming, htext, hopen⟩ := h.heard hheard
  rw [h.transcript_append, Reduction.step]
  simp only [ThreadEvent.completedItem?, Option.elim_some, streamStep, hstreaming]
  by_cases huser : isMessageOf .user item
  · -- what streamed is pushed before the user's message
    rw [if_pos huser]
    intro heq
    have hentries : ∃ content at_, completedEntries createdAt item = [.user content at_] := by
      unfold isMessageOf at huser
      unfold completedEntries
      split at huser
      · next payload hpayload =>
        have hrole : payload.role = .user := by simpa using huser
        simp [hpayload, hrole]
      · cases huser
    obtain ⟨content, at_, hentries⟩ := hentries
    simp [Reduction.shown, Reduction.push, Reduction.flushAssistant, hopen, htext, hentries] at heq
  rw [if_neg huser]
  intro heq
  have hlength := congrArg List.length heq
  by_cases hassistant : isMessageOf .assistant item
  · have hid : id ≠ item.id := by simpa [huser, hassistant, streams, hstreaming] using hevent
    simp [hassistant, Reduction.shown, Reduction.push, Option.filter, hid,
      Client.streamingEntries, htext] at hlength
  · have hid : id = item.id := by simpa [huser, hassistant, streams, hstreaming] using hevent
    simp [hassistant, Reduction.shown, Reduction.push, Option.filter, hid,
      Client.streamingEntries, htext, hopen] at hlength

theorem Follows.ne_transcript (h : Follows createdAt events r) (hevent : disturbs events event) :
    (r.step createdAt event).shown ≠ transcript createdAt (events ++ [event]) := by
  cases event with
  | itemStarted => exact h.ne_started hevent
  | itemDelta => exact h.ne_delta hevent
  | itemCompleted => exact h.ne_completed hevent
  | itemFailed => exact h.ne_failed hevent
  | _ => cases hevent

/-- The entries derived from what has arrived of a stream are its transcript, at every time,
exactly when nothing in it disturbs. -/
theorem deriveEntries_iff (createdAt : ItemId → Option String) (events : List ThreadEvent) :
    (∀ arrived, arrived <+: events →
      deriveEntries createdAt arrived = transcript createdAt arrived) ↔ Undisturbed events := by
  induction events using List.reverseRecOn with
  | nil =>
    refine ⟨fun _ before event after heq => ?_, fun _ arrived harrived => ?_⟩
    · cases before <;> cases heq
    · rw [List.prefix_nil.mp harrived]
      rfl
  | append_singleton events event ih =>
    rw [undisturbed_append, ← ih]
    constructor
    · intro hall
      have hbefore : ∀ arrived, arrived <+: events →
          deriveEntries createdAt arrived = transcript createdAt arrived :=
        fun arrived harrived => hall arrived (harrived.trans (List.prefix_append events [event]))
      refine ⟨hbefore, Bool.eq_false_iff.mpr fun hevent => ?_⟩
      have hfollows : Follows createdAt events _ := Follows.foldl (ih.mp hbefore)
      have hlast := hall _ (List.prefix_refl _)
      rw [deriveEntries, List.foldl_append] at hlast
      exact hfollows.ne_transcript hevent hlast
    · rintro ⟨hbefore, hevent⟩ arrived harrived
      rcases List.prefix_concat_iff.mp harrived with rfl | harrived
      · exact (Follows.foldl (undisturbed_append.mpr ⟨ih.mp hbefore, hevent⟩)).shown
      · exact hbefore arrived harrived

end Reduction

section Sample
open BeeAgent.Runtime Transition Transition.Machine

/-- A reply that breaks off behind its first words, and the start of the next attempt. -/
def retriedRun : List LoopInput :=
  startInputs 0 ++ advances 0 [.proceed, .assembled [] [] none, .proceed,
    .streamEvent (.messageDelta "Hel"), .streamEnd,
    .resultThrown { message := "connection reset", retryability := some .retryable }, .proceed]

/-- The text of the attempt that failed stands as a message of its own. -/
theorem retried_text_shown : ¬∀ (createdAt : ItemId → Option String) (o : AgentLoopOptions)
    (s : Loop), (loop o).Reaches anyStep Loop.initial s → ∀ arrived, arrived <+: s.log →
      deriveEntries createdAt arrived = transcript createdAt arrived := by
  intro h
  obtain ⟨s, hreaches, hentries⟩ : ∃ s, (loop sampleOptions).Reaches anyStep Loop.initial s ∧
      (deriveEntries (fun _ => none) s.log, transcript (fun _ => none) s.log) =
        ([.user "hello" none, .assistant "Hel" none false], [.user "hello" none]) :=
    exists_reaches_of_exec_map retriedRun (by decide +kernel)
  obtain ⟨hderived, htranscript⟩ := Prod.mk.inj hentries
  have hsame := h (fun _ => none) sampleOptions s hreaches s.log (List.prefix_refl _)
  rw [hderived, htranscript] at hsame
  cases hsame

end Sample

end BeeAgent.Client
