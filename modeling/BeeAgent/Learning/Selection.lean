import BeeAgent.Chronicle.StoresAgree
import BeeAgent.Data.Access
import BeeAgent.Data.Recent
import BeeAgent.Learning.Proposals

/-! The turns that the learning loop selects, and what it derives of them. -/
namespace BeeAgent.Learning
open Data Recent Chronicle.Stores

/-! ### What is read of an event -/

structure ToolCall where
  toolId : String
  isError : Bool
  deriving DecidableEq, Repr

structure DerivedTurn where
  threadId : String
  turnId : String
  status : String
  checkpoints : ℕ
  toolCalls : List ToolCall
  deriving DecidableEq, Repr

def DerivedTurn.ref (turn : DerivedTurn) : TrajectoryRef := ⟨turn.threadId, turn.turnId⟩

/-- What `parseTurnStarted` returns. -/
structure TurnStart where
  threadId : String
  turnId : String
  status : String
  deriving DecidableEq, Repr

/-- The property of an object; nothing else has one. -/
def field (key : String) (value : Value) : Value := (value.property? key).getD .undefined

def parseTurnStarted (payload : Value) : Option TurnStart :=
  let turn := field "turn" payload
  match field "id" turn, field "threadId" turn, field "status" turn with
  | .string id, .string threadId, .string status => some ⟨threadId, id, status⟩
  | .string id, .string threadId, _ => some ⟨threadId, id, "active"⟩
  | _, _, _ => none

def parseItemId (payload : Value) : Option String :=
  let item := field "item" payload
  match field "id" item, field "type" item, field "toolId" (field "payload" item) with
  | .string id, .string type, .string _ => if type = "tool_call" then some id else none
  | _, _, _ => none

def toolCall (payload : Value) : ToolCall :=
  let item := field "payload" (field "item" payload)
  { toolId := (field "toolId" item).interpolated
    isError := match field "isError" item with
      | .boolean b => b
      | _ => false }

/-- What either loop makes of an event; the turn is the one of its envelope. -/
inductive Reading where
  | started (turn : TurnStart)
  | checkpoint (turnId : String)
  | toolCall (turnId : String) (call : ToolCall)
  | nothing
  deriving DecidableEq, Repr

def reading (event : StoredEvent) : Reading :=
  let payload := event.event.payload
  let turnId := event.event.scope.turnId.getD ""
  if event.event.eventType = "turn.started" then
    match parseTurnStarted payload with
    | some turn => .started turn
    | none => .nothing
  else if event.event.eventType = "agent.checkpoint" then .checkpoint turnId
  else if event.event.eventType = "item.completed" then
    match parseItemId payload with
    | some _ => .toolCall turnId (toolCall payload)
    | none => .nothing
  else .nothing

/-! ### Selection -/

structure LearningLoopBudget where
  maxTrajectories : ℤ := 20

/-- What the loops keep of a turn. -/
structure Tally where
  threadId : String
  status : String
  checkpoints : ℕ := 0
  toolCalls : List ToolCall := []

def Tally.checkpoint (turn : Tally) : Tally := { turn with checkpoints := turn.checkpoints + 1 }

def Tally.push (call : ToolCall) (turn : Tally) : Tally :=
  { turn with toolCalls := turn.toolCalls ++ [call] }

def Tally.derived (turnId : String) (turn : Tally) : DerivedTurn :=
  ⟨turn.threadId, turnId, turn.status, turn.checkpoints, turn.toolCalls⟩

/-- A turn that is in the map is changed in its place. -/
def adjust (turns : OrderedMap String Tally) (turnId : String) (f : Tally → Tally) :
    OrderedMap String Tally :=
  match turns.get turnId with
  | some turn => turns.set turnId (f turn)
  | none => turns

def Accepted (since : Option String) (event : StoredEvent) : Prop :=
  ∀ time ∈ since, ¬ keyLe event.ingestTime time

instance (since : Option String) (event : StoredEvent) : Decidable (Accepted since event) :=
  inferInstanceAs (Decidable (∀ time ∈ since, _))

def scanEvent (since : Option String) (turns : OrderedMap String Tally) (event : StoredEvent) :
    OrderedMap String Tally :=
  match reading event with
  | .started turn =>
    if turns.get turn.turnId = none ∧ Accepted since event then
      turns.set turn.turnId { threadId := turn.threadId, status := turn.status }
    else turns
  | .checkpoint turnId => adjust turns turnId Tally.checkpoint
  | .toolCall turnId call => adjust turns turnId (Tally.push call)
  | .nothing => turns

def readTurns (since : Option String) (events : List StoredEvent) : OrderedMap String Tally :=
  events.foldl (scanEvent since) .empty

def toolUsing (turns : OrderedMap String Tally) : List DerivedTurn :=
  (turns.entries.filter fun entry => entry.2.toolCalls ≠ []).map fun entry =>
    entry.2.derived entry.1

section Store
variable (store : Memory.Store)

def readThread (streamId : String) : List StoredEvent := Memory.readStream store streamId 0

def isThread (streamId : String) : Bool := "thread:".toList.isPrefixOf streamId.toList

def threadStreams : List String :=
  ((Memory.listStreams store).filter isThread).insertionSort keyLe

def scanStreams (budget : LearningLoopBudget) (since : Option String) :
    List DerivedTurn → List String → List DerivedTurn
  | derived, [] => derived
  | derived, streamId :: streams =>
    if budget.maxTrajectories ≤ derived.length then derived
    else scanStreams budget since
      (derived ++ toolUsing (readTurns since (readThread store streamId))) streams

/-- `slice(start)` -/
def sliceFrom {α : Type} (items : List α) (start : ℤ) : List α :=
  items.drop (if start < 0 then items.length + start else start).toNat

def selectAndDerive (budget : LearningLoopBudget) (since : Option String) : List DerivedTurn :=
  sliceFrom (scanStreams store budget since [] (threadStreams store)) (-budget.maxTrajectories)

/-! ### Derivation by reference -/

def rederiveEvent (turnId : String) (turn : Option Tally) (event : StoredEvent) : Option Tally :=
  match reading event with
  | .started started =>
    if started.turnId = turnId then
      some { threadId := started.threadId, status := started.status }
    else turn
  | .checkpoint id => turn.map fun tally => if id = turnId then tally.checkpoint else tally
  | .toolCall id call => turn.map fun tally => if id = turnId then tally.push call else tally
  | .nothing => turn

def rederive (turnId : String) (turn : Option Tally) (events : List StoredEvent) : Option Tally :=
  events.foldl (rederiveEvent turnId) turn

def deriveTurnsById (refs : List TrajectoryRef) : List DerivedTurn :=
  refs.filterMap fun ref =>
    (rederive ref.turnId none (readThread store ("thread:" ++ ref.threadId))).map
      (Tally.derived ref.turnId)

end Store

/-! ### What the log holds of a turn -/

/-- A turn of a stream, with the stream's events after the turn's start. -/
structure Turn where
  start : TurnStart
  startedAt : String
  rest : List StoredEvent

/-- The turns of a stream that are started after `since`, each at its first start. -/
def begun (since : Option String) : List String → List StoredEvent → List Turn
  | _, [] => []
  | seen, event :: events =>
    match reading event with
    | .started turn =>
      if turn.turnId ∉ seen ∧ Accepted since event then
        ⟨turn, event.ingestTime, events⟩ :: begun since (seen ++ [turn.turnId]) events
      else begun since seen events
    | _ => begun since seen events

/-- The turn that an event ends, with the status that it ends in. -/
def ending (event : StoredEvent) : Option TurnStart :=
  if event.event.eventType ∈ ["turn.completed", "turn.failed", "turn.cancelled"] then
    parseTurnStarted event.event.payload
  else none

namespace Turn
variable (turn : Turn)

def turnId : String := turn.start.turnId

def ref : TrajectoryRef := ⟨turn.start.threadId, turn.start.turnId⟩

/-- The statuses that the turn ends in. -/
def endings : List String :=
  ((turn.rest.filterMap ending).filter fun ended => ended.turnId = turn.turnId).map
    TurnStart.status

def checkpoints : ℕ := turn.rest.countP fun event => reading event = .checkpoint turn.turnId

def callOf (turnId : String) (event : StoredEvent) : Option ToolCall :=
  match reading event with
  | .toolCall id call => if id = turnId then some call else none
  | _ => none

def toolCalls : List ToolCall := turn.rest.filterMap (callOf turn.turnId)

/-- The turn as the log has it: with the last status that it has come to. -/
def recorded : DerivedTurn :=
  ⟨turn.start.threadId, turn.turnId, turn.endings.getLast?.getD turn.start.status,
    turn.checkpoints, turn.toolCalls⟩

def started : DerivedTurn :=
  ⟨turn.start.threadId, turn.turnId, turn.start.status, turn.checkpoints, turn.toolCalls⟩

end Turn

/-! ### Both loops count what follows a turn's start -/

def TurnStart.tally (start : TurnStart) : Tally :=
  { threadId := start.threadId, status := start.status }

namespace Tally
variable (turnId : String) (tally : Tally)

def count (event : StoredEvent) : Tally :=
  match reading event with
  | .checkpoint id => if id = turnId then tally.checkpoint else tally
  | .toolCall id call => if id = turnId then tally.push call else tally
  | _ => tally

def counted (events : List StoredEvent) : Tally := events.foldl (count turnId) tally

theorem counted_eq (events : List StoredEvent) : tally.counted turnId events =
    { tally with
      checkpoints := tally.checkpoints +
        events.countP fun event => reading event = .checkpoint turnId
      toolCalls := tally.toolCalls ++ events.filterMap (Turn.callOf turnId) } := by
  induction events generalizing tally with
  | nil => simp [counted]
  | cons event events ih =>
    rw [counted, List.foldl_cons, ← counted, ih]
    unfold count
    cases hreading : reading event with
    | started | nothing => simp [hreading, Turn.callOf]
    | checkpoint id =>
      by_cases hid : id = turnId
      · simp [hreading, hid, Turn.callOf, checkpoint]
        omega
      · simp [hreading, hid, Turn.callOf]
    | toolCall id call =>
      by_cases hid : id = turnId
      · simp [hreading, hid, Turn.callOf, push]
      · simp [hreading, hid, Turn.callOf]

end Tally

theorem Turn.started_eq (turn : Turn) :
    turn.started = (turn.start.tally.counted turn.turnId turn.rest).derived turn.turnId := by
  rw [Tally.counted_eq]
  simp [started, Tally.derived, TurnStart.tally, checkpoints, toolCalls]

/-! ### The loop over a stream -/

section Scan
variable {since : Option String} {turns : OrderedMap String Tally} {event : StoredEvent}

theorem adjust_entries (turnId : String) (f : Tally → Tally) :
    (adjust turns turnId f).entries =
      turns.entries.map fun entry => if entry.1 = turnId then (entry.1, f entry.2) else entry := by
  unfold adjust
  cases hget : turns.get turnId with
  | none =>
    have hkey := OrderedMap.get_eq_none_iff.mp hget
    refine (List.map_id _).symm.trans (List.map_congr_left fun entry hentry => (if_neg ?_).symm)
    exact fun hid => hkey (hid ▸ List.mem_map_of_mem hentry)
  | some turn =>
    have hkey : turnId ∈ turns.keys := OrderedMap.mem_keys_iff.mpr ⟨turn, hget⟩
    simp only [OrderedMap.set, dif_pos hkey]
    refine List.map_congr_left fun entry hentry => ?_
    by_cases hid : entry.1 = turnId
    · obtain ⟨key, tally⟩ := entry
      obtain rfl : key = turnId := hid
      obtain rfl := Option.some.inj ((OrderedMap.mem_entries_iff.mp hentry).symm.trans hget)
      simp
    · simp [hid]

theorem scanEvent_entries (h : ∀ turn, reading event = .started turn →
      ¬ (turn.turnId ∉ turns.keys ∧ Accepted since event)) :
    (scanEvent since turns event).entries =
      turns.entries.map fun entry => (entry.1, entry.2.count entry.1 event) := by
  unfold scanEvent Tally.count
  cases hreading : reading event with
  | started turn => simp [OrderedMap.get_eq_none_iff, h turn hreading]
  | nothing => simp
  | checkpoint id =>
    rw [adjust_entries]
    refine List.map_congr_left fun entry _ => ?_
    by_cases hid : entry.1 = id
    · simp [hid]
    · simp [hid, Ne.symm hid]
  | toolCall id call =>
    rw [adjust_entries]
    refine List.map_congr_left fun entry _ => ?_
    by_cases hid : entry.1 = id
    · simp [hid]
    · simp [hid, Ne.symm hid]

theorem begun_cons_of_not {seen : List String} {events : List StoredEvent}
    (h : ∀ turn, reading event = .started turn →
      ¬ (turn.turnId ∉ seen ∧ Accepted since event)) :
    begun since seen (event :: events) = begun since seen events := by
  rw [begun]
  split
  · next turn hreading => rw [if_neg (h turn hreading)]
  · rfl

/-- The map ends with the turns that it began with and those begun in the stream, each with what
follows its start. -/
theorem foldl_scanEvent_entries (events : List StoredEvent) :
    (events.foldl (scanEvent since) turns).entries =
      turns.entries.map (fun entry => (entry.1, entry.2.counted entry.1 events)) ++
        (begun since turns.keys events).map fun turn =>
          (turn.turnId, turn.start.tally.counted turn.turnId turn.rest) := by
  induction events generalizing turns with
  | nil => simp [begun, Tally.counted]
  | cons event events ih =>
    rw [List.foldl_cons, ih]
    by_cases hnew : ∃ turn, reading event = .started turn ∧
        turn.turnId ∉ turns.keys ∧ Accepted since event
    · obtain ⟨turn, hreading, hnew⟩ := hnew
      have hentries : (scanEvent since turns event).entries =
          turns.entries ++ [(turn.turnId, turn.tally)] := by
        simp [scanEvent, hreading, OrderedMap.get_eq_none_iff, hnew, OrderedMap.set, TurnStart.tally]
      have hcount : ∀ id (tally : Tally), tally.count id event = tally := by
        simp [Tally.count, hreading]
      rw [begun, hreading]
      simp only [OrderedMap.keys, hentries] at hnew ⊢
      simp [hnew, Tally.counted, hcount, Turn.turnId]
    · simp only [not_exists, not_and] at hnew
      have hentries := scanEvent_entries fun turn hreading h => hnew turn hreading h.1 h.2
      rw [begun_cons_of_not fun turn hreading h => hnew turn hreading h.1 h.2]
      simp only [OrderedMap.keys, hentries]
      simp [Tally.counted, Function.comp_def]

theorem readTurns_entries (events : List StoredEvent) :
    (readTurns since events).entries = (begun since [] events).map fun turn =>
      (turn.turnId, turn.start.tally.counted turn.turnId turn.rest) :=
  foldl_scanEvent_entries events

theorem begun_nodup (events : List StoredEvent) :
    ((begun since [] events).map Turn.turnId).Nodup := by
  have hnodup := (readTurns since events).nodup
  rwa [readTurns_entries, List.map_map] at hnodup

def toolTurns (since : Option String) (events : List StoredEvent) : List Turn :=
  (begun since [] events).filter fun turn => turn.toolCalls ≠ []

theorem toolUsing_readTurns (events : List StoredEvent) :
    toolUsing (readTurns since events) = (toolTurns since events).map Turn.started := by
  unfold toolUsing toolTurns
  rw [readTurns_entries, List.filter_map, List.map_map]
  have hcalls : ∀ turn : Turn,
      (turn.start.tally.counted turn.turnId turn.rest).toolCalls = turn.toolCalls := by
    intro turn
    rw [Tally.counted_eq]
    simp [TurnStart.tally, Turn.toolCalls]
  simp only [Function.comp_def, hcalls, ← Turn.started_eq]

end Scan

/-! ### What is selected -/

section Selection
variable (store : Memory.Store) (budget : LearningLoopBudget) (since : Option String)

def toolTurnsOf : List (List Turn) :=
  (threadStreams store).map fun streamId => toolTurns since (readThread store streamId)

theorem scanStreams_eq (derived : List DerivedTurn) (streams : List String) :
    scanStreams store budget since derived streams =
      fill budget.maxTrajectories.toNat derived ((streams.map fun streamId =>
        toolTurns since (readThread store streamId)).map (List.map Turn.started)) := by
  induction streams generalizing derived with
  | nil => rfl
  | cons streamId streams ih =>
    have hfull : budget.maxTrajectories ≤ (derived.length : ℤ) ↔
        budget.maxTrajectories.toNat ≤ derived.length := by omega
    simp only [scanStreams, List.map_cons, fill, hfull, toolUsing_readTurns, ih]

/-- Selection returns the last turns of the threads that fill the budget. -/
theorem selectAndDerive_eq : selectAndDerive store budget since =
    (window budget.maxTrajectories.toNat (toolTurnsOf store since)).map Turn.started := by
  have hscan := scanStreams_eq store budget since [] (threadStreams store)
  rw [← List.map_nil (f := Turn.started), fill_map, List.map_nil] at hscan
  unfold selectAndDerive sliceFrom window toolTurnsOf
  rw [hscan, List.map_drop, List.length_map]
  by_cases hbudget : budget.maxTrajectories.toNat = 0
  · -- nothing is read, and `slice(-0)` keeps all of it
    rw [hbudget, fill_zero, List.map_nil, List.drop_nil, List.drop_nil]
  · rw [if_pos (by omega)]
    congr 1
    omega

end Selection

/-! ### Derivation by reference reads from the last start on -/

section Rederive
variable {turnId : String} {tally : Tally}

def StartsTurn (turnId : String) (event : StoredEvent) : Prop :=
  ∃ turn, reading event = .started turn ∧ turn.turnId = turnId

theorem rederiveEvent_of_not {event : StoredEvent} (h : ¬ StartsTurn turnId event) :
    rederiveEvent turnId (some tally) event = some (tally.count turnId event) := by
  unfold rederiveEvent Tally.count
  cases hreading : reading event with
  | started turn =>
    have hid : turn.turnId ≠ turnId := fun hid => h ⟨turn, hreading, hid⟩
    simp [hid]
  | nothing => rfl
  | checkpoint | toolCall => rfl

theorem rederive_of_not {events : List StoredEvent}
    (h : ∀ event ∈ events, ¬ StartsTurn turnId event) :
    rederive turnId (some tally) events = some (tally.counted turnId events) := by
  induction events generalizing tally with
  | nil => rfl
  | cons event events ih =>
    rw [rederive, List.foldl_cons, rederiveEvent_of_not (h event (List.mem_cons_self ..))]
    exact ih fun event hevent => h event (List.mem_cons_of_mem _ hevent)

theorem rederive_from {turn : Option Tally} {before after : List StoredEvent}
    {event : StoredEvent} {start : TurnStart} (hreading : reading event = .started start)
    (hid : start.turnId = turnId) :
    rederive turnId turn (before ++ event :: after) =
      rederive turnId (some start.tally) after := by
  unfold rederive
  rw [List.foldl_append, List.foldl_cons]
  congr 1
  simp [rederiveEvent, hreading, hid, TurnStart.tally]

end Rederive

namespace Turn
variable (turn : Turn)

/-- Nothing of the turn stands among the events. -/
def Untouched (events : List StoredEvent) : Prop :=
  ∀ event ∈ events, reading event ≠ .checkpoint turn.turnId ∧
    ∀ call, reading event ≠ .toolCall turn.turnId call

def Unended : Prop := ∀ status, turn.endings.getLast? = some status → status = turn.start.status

/-- Where the turn is started again, the last time is as the first and before all that happens in
it. -/
def StartedOnce : Prop :=
  ∀ before event after again, turn.rest = before ++ event :: after →
    reading event = .started again → again.turnId = turn.turnId →
    (∀ later ∈ after, ¬ StartsTurn turn.turnId later) →
    again.threadId = turn.start.threadId ∧ again.status = turn.start.status ∧
      turn.Untouched before

theorem recorded_eq_started_iff : turn.recorded = turn.started ↔ turn.Unended := by
  unfold recorded started Unended
  cases hlast : turn.endings.getLast? with
  | none => simp
  | some status => simp

theorem untouched_iff (events : List StoredEvent) : turn.Untouched events ↔
    (events.countP fun event => reading event = .checkpoint turn.turnId) = 0 ∧
      events.filterMap (callOf turn.turnId) = [] := by
  rw [List.countP_eq_zero, List.filterMap_eq_nil_iff, ← forall₂_and]
  refine forall₂_congr fun event _ => ?_
  refine and_congr (by simp) ?_
  unfold callOf
  cases hreading : reading event with
  | toolCall id call =>
    by_cases hid : id = turn.turnId
    · simp [hid]
    · simp [hid]
  | started | checkpoint | nothing => simp

/-- Where the turn is started again for the last time, that start is what decides. -/
theorem rederived_again_iff {before after : List StoredEvent} {event : StoredEvent}
    {again : TurnStart} (hrest : turn.rest = before ++ event :: after)
    (hreading : reading event = .started again) (hid : again.turnId = turn.turnId)
    (hafter : ∀ later ∈ after, ¬ StartsTurn turn.turnId later) :
    (rederive turn.turnId (some turn.start.tally) turn.rest).map (Tally.derived turn.turnId) =
        some turn.started ↔
      again.threadId = turn.start.threadId ∧ again.status = turn.start.status ∧
        turn.Untouched before := by
  rw [untouched_iff, hrest, rederive_from hreading hid, rederive_of_not hafter, Tally.counted_eq,
    started, checkpoints, toolCalls, hrest]
  simp [Tally.derived, TurnStart.tally, hreading, callOf]

theorem rederived_iff :
    (rederive turn.turnId (some turn.start.tally) turn.rest).map (Tally.derived turn.turnId) =
      some turn.started ↔ turn.StartedOnce := by
  constructor
  · intro heq before event after again hrest hreading hid hafter
    exact (turn.rederived_again_iff hrest hreading hid hafter).mp heq
  · intro honce
    obtain hnone | ⟨before, event, after, hrest, ⟨again, hreading, hid⟩, hafter⟩ :=
      exists_last (StartsTurn turn.turnId) turn.rest
    · rw [rederive_of_not hnone, started_eq]
      rfl
    · exact (turn.rederived_again_iff hrest hreading hid hafter).mpr
        (honce before event after again hrest hreading hid hafter)

end Turn

/-! ### When the selection is right -/

/-- The turns that a thread's stream starts are the thread's own. -/
structure ThreadLog where
  store : Memory.Store
  named : ∀ streamId, isThread streamId → ∀ event ∈ readThread store streamId,
    ∀ turn, reading event = .started turn → streamId = "thread:" ++ turn.threadId

def StartedNoLater (a b : Turn) : Prop := keyLe a.startedAt b.startedAt

instance : DecidableRel StartedNoLater := fun a b =>
  inferInstanceAs (Decidable (keyLe a.startedAt b.startedAt))

namespace ThreadLog
variable (log : ThreadLog) (budget : LearningLoopBudget) (since : Option String)

def toolTurns : List (List Turn) := toolTurnsOf log.store since

def scanned : List Turn := window budget.maxTrajectories.toNat (log.toolTurns since)

def unscanned : List Turn := passed budget.maxTrajectories.toNat (log.toolTurns since)

/-- The turns that are selected are the most recent ones, derived as the log has them, and their
references lead to the same again. -/
structure Selects : Prop where
  recent : ∃ kept, MostRecent StartedNoLater budget.maxTrajectories.toNat kept
      (log.toolTurns since).flatten ∧
    selectAndDerive log.store budget since = kept.map Turn.recorded
  rederived : deriveTurnsById log.store
      ((selectAndDerive log.store budget since).map DerivedTurn.ref) =
    selectAndDerive log.store budget since

variable {log budget since}

theorem mem_begun {turn : Turn} {seen : List String} {events : List StoredEvent}
    (h : turn ∈ begun since seen events) :
    ∃ before event, events = before ++ event :: turn.rest ∧
      reading event = .started turn.start := by
  induction events generalizing seen with
  | nil => cases h
  | cons event events ih =>
    have hlater : ∀ seen, turn ∈ begun since seen events →
        ∃ before e, event :: events = before ++ e :: turn.rest ∧
          reading e = .started turn.start := by
      intro seen hturn
      obtain ⟨before, e, rfl, hreading⟩ := ih hturn
      exact ⟨event :: before, e, rfl, hreading⟩
    unfold begun at h
    split at h
    · next start hreading =>
      split at h
      · obtain rfl | hturn := List.mem_cons.mp h
        · exact ⟨[], event, rfl, hreading⟩
        · exact hlater _ hturn
      · exact hlater _ h
    · exact hlater _ h

theorem stream_eq {turn : Turn} {streamId : String} (hstream : streamId ∈ threadStreams log.store)
    (hturn : turn ∈ Learning.toolTurns since (readThread log.store streamId)) :
    streamId = "thread:" ++ turn.start.threadId := by
  have hthread := (List.mem_filter.mp ((List.mem_insertionSort _).mp hstream)).2
  obtain ⟨before, event, hevents, hreading⟩ := mem_begun (List.mem_filter.mp hturn).1
  exact log.named streamId hthread event (by simp [hevents]) turn.start hreading

theorem mem_toolTurns {turn : Turn} (h : turn ∈ (log.toolTurns since).flatten) :
    ∃ before event, reading event = .started turn.start ∧
      readThread log.store ("thread:" ++ turn.start.threadId) = before ++ event :: turn.rest := by
  obtain ⟨turns, hturns, hturn⟩ := List.mem_flatten.mp h
  obtain ⟨streamId, hstream, rfl⟩ := List.mem_map.mp hturns
  obtain ⟨before, event, hevents, hreading⟩ := mem_begun (List.mem_filter.mp hturn).1
  exact ⟨before, event, hreading, stream_eq hstream hturn ▸ hevents⟩

/-- A reference leads to the turn as it was selected exactly when the turn is started once. -/
theorem deriveTurnsById_iff {turns : List Turn} (h : turns ⊆ (log.toolTurns since).flatten) :
    deriveTurnsById log.store ((turns.map Turn.started).map DerivedTurn.ref) =
        turns.map Turn.started ↔ ∀ turn ∈ turns, turn.StartedOnce := by
  unfold deriveTurnsById
  rw [List.map_map, List.filterMap_map, List.filterMap_eq_map_iff_forall_eq_some]
  refine forall₂_congr fun turn hturn => ?_
  obtain ⟨before, event, hreading, hevents⟩ := mem_toolTurns (h hturn)
  have hfrom : rederive turn.turnId none (before ++ event :: turn.rest) =
      rederive turn.turnId (some turn.start.tally) turn.rest := rederive_from hreading rfl
  rw [← turn.rederived_iff, ← hfrom, ← hevents]
  rfl

theorem refs_nodup : ((log.toolTurns since).flatten.map Turn.ref).Nodup := by
  rw [toolTurns, toolTurnsOf, List.map_flatten, List.map_map, List.nodup_flatten]
  constructor
  · intro refs hrefs
    obtain ⟨streamId, -, rfl⟩ := List.mem_map.mp hrefs
    refine List.Nodup.of_map TrajectoryRef.turnId ?_
    rw [Function.comp_apply, List.map_map]
    exact (begun_nodup _).sublist (List.filter_sublist.map _)
  · have hnodup : (threadStreams log.store).Nodup :=
      (List.perm_insertionSort ..).nodup_iff.mpr (log.store.nodup.filter _)
    rw [List.pairwise_map]
    refine hnodup.pairwise_of_forall_ne fun a ha b hb hne ref hrefa hrefb => hne ?_
    obtain ⟨turn, hturn, rfl⟩ := List.mem_map.mp hrefa
    obtain ⟨turn', hturn', href⟩ := List.mem_map.mp hrefb
    have hthread : turn'.start.threadId = turn.start.threadId :=
      congrArg TrajectoryRef.threadId href
    rw [stream_eq ha hturn, stream_eq hb hturn', hthread]

theorem selectAndDerive_scanned : selectAndDerive log.store budget since =
    (log.scanned budget since).map Turn.started := selectAndDerive_eq ..

theorem scanned_subset : log.scanned budget since ⊆ (log.toolTurns since).flatten :=
  fun _ hturn => (window_perm ..).subset (List.mem_append_left _ hturn)

theorem Selects.scanned (h : log.Selects budget since) :
    MostRecent StartedNoLater budget.maxTrajectories.toNat (log.scanned budget since)
      (log.toolTurns since).flatten ∧
    (log.scanned budget since).map Turn.started =
      (log.scanned budget since).map Turn.recorded := by
  obtain ⟨kept, hrecent, hkept⟩ := h.recent
  rw [selectAndDerive_scanned] at hkept
  have hsame : log.scanned budget since = kept := by
    obtain ⟨left, hperm, -⟩ := hrecent
    refine @eq_of_map_eq _ _ Turn.ref _ _ (fun a ha b hb => ?_) ?_
    · exact List.inj_on_of_nodup_map refs_nodup (scanned_subset ha)
        (hperm.subset (List.mem_append_left _ hb))
    · have hrefs := congrArg (List.map DerivedTurn.ref) hkept
      rwa [List.map_map, List.map_map] at hrefs
  rw [hsame]
  exact ⟨hrecent, hsame ▸ hkept⟩

/-- The selection is right exactly when no tool-using turn that is passed over is later than one
that is scanned last, and none of these has ended or is started again with something in between. -/
theorem selection_right_iff (log : ThreadLog) (budget : LearningLoopBudget)
    (since : Option String) : log.Selects budget since ↔
    (∀ kept ∈ log.scanned budget since, ∀ left ∈ log.unscanned budget since,
      StartedNoLater left kept) ∧
    ∀ turn ∈ log.scanned budget since, turn.Unended ∧ turn.StartedOnce := by
  constructor
  · intro h
    obtain ⟨hrecent, hrecorded⟩ := h.scanned
    have hrederived := h.rederived
    rw [selectAndDerive_scanned, deriveTurnsById_iff scanned_subset] at hrederived
    refine ⟨(mostRecent_window_iff _).mp hrecent, fun turn hturn => ⟨?_, hrederived turn hturn⟩⟩
    exact turn.recorded_eq_started_iff.mp (List.map_inj_left.mp hrecorded turn hturn).symm
  · rintro ⟨hlater, hturns⟩
    refine ⟨⟨log.scanned budget since, (mostRecent_window_iff _).mpr hlater, ?_⟩, ?_⟩
    · rw [selectAndDerive_scanned]
      exact List.map_congr_left fun turn hturn =>
        (turn.recorded_eq_started_iff.mpr (hturns turn hturn).1).symm
    · rw [selectAndDerive_scanned]
      exact (deriveTurnsById_iff scanned_subset).mpr fun turn hturn => (hturns turn hturn).2

/-- A store whose every stream is checked. -/
def ofStore (store : Memory.Store) (h : store.entries.all fun entry => entry.2.all fun event =>
    match reading event with
    | .started turn => entry.1 = "thread:" ++ turn.threadId
    | _ => true) : ThreadLog where
  store
  named := by
    intro streamId _ event hevent turn hreading
    have hstream : event ∈ (store.get streamId).getD [] := (List.mem_filter.mp hevent).1
    cases hget : store.get streamId with
    | none => simp [hget] at hstream
    | some events =>
      rw [hget] at hstream
      have hentry := List.all_eq_true.mp h _ (OrderedMap.mem_entries_iff.mpr hget)
      have hnamed := List.all_eq_true.mp hentry event hstream
      simpa [hreading] using hnamed

end ThreadLog

/-! ### An older thread with the smaller id -/

def sampleStored (eventType time : String) (sequence : ℕ) (payload : Value) : StoredEvent where
  event :=
    { eventId := "00000000-0000-4000-8000-000000000000", eventType, schemaVersion := 1
      eventTime := time, scope := { turnId := some "turn" }
      actor := { type := .agent, id := "bee" }
      correlationId := "00000000-0000-4000-8000-000000000000"
      classification := .internal, retentionClass := "standard", payload }
  streamId := ""
  sequence
  ingestTime := time

/-- A thread with a turn that calls a tool and is completed. -/
def sampleThread (threadId time : String) : List StoredEvent :=
  let turn (status : String) : Value := .object [("turn", .object [("id", .string "turn"),
    ("threadId", .string threadId), ("status", .string status)])]
  [sampleStored "turn.started" time 1 (turn "active"),
    sampleStored "item.completed" time 2 (.object [("item", .object [("id", .string "item"),
      ("type", .string "tool_call"), ("payload", .object [("toolId", .string "lookup")])])]),
    sampleStored "turn.completed" time 3 (turn "completed")]

def sampleLog : ThreadLog :=
  .ofStore ((OrderedMap.empty.set "thread:a" (sampleThread "a" "2026-01-01T00:00:00Z")).set
    "thread:b" (sampleThread "b" "2026-01-02T00:00:00Z")) (by decide +kernel)

/-- The turn of the older thread is selected, as an active one. -/
theorem older_thread_selected :
    selectAndDerive sampleLog.store ⟨1⟩ none = [⟨"a", "turn", "active", 0, [⟨"lookup", false⟩]⟩] ∧
      ¬ sampleLog.Selects ⟨1⟩ none := by
  refine ⟨by decide +kernel, fun h => ?_⟩
  have hlater := (mostRecent_window_iff _).mp h.scanned.1
  revert hlater
  decide +kernel

end BeeAgent.Learning
