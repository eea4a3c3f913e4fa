import BeeAgent.Execution.World
import Mathlib.Computability.RegularExpressions

/-! At-most-once execution: the stage that each stream has reached, what a running `#execute`
may hold at each stage, and the invariant over every interleaving, failure and crash. -/
namespace BeeAgent.Execution
open BeeAgent.Data BeeAgent.Chronicle Transition Transition.Machine

open RegularExpression in
/-- The words a stream may spell: `requested snapshot approval? (denied | authorized started
(completed | failed))`. -/
def grammar : RegularExpression EventType :=
  char .requested * char .permissionSnapshot * (1 + char .approvalRequired) *
    (char .denied +
      char .authorized * char .started * (char .completed + char .failed))

/-- How far a stream has come. The flag says whether an approval was requested. -/
inductive Stage where
  | fresh
  | requested
  | opened (asked : Bool)
  | denied (asked : Bool)
  | started (asked : Bool)
  | completed (asked : Bool)
  | failed (asked : Bool)
  deriving DecidableEq

namespace Stage

def opening (asked : Bool) : List EventType :=
  [.requested, .permissionSnapshot] ++ if asked then [.approvalRequired] else []

def word : Stage → List EventType
  | fresh => []
  | requested => [.requested]
  | opened asked => opening asked
  | denied asked => opening asked ++ [.denied]
  | started asked => opening asked ++ [.authorized, .started]
  | completed asked => opening asked ++ [.authorized, .started, .completed]
  | failed asked => opening asked ++ [.authorized, .started, .failed]

/-- The calls of the sandbox that a stream of this stage can account for. -/
def allowance : Stage → ℕ
  | started _ | completed _ | failed _ => 1
  | _ => 0

theorem allowance_le_one (stage : Stage) : stage.allowance ≤ 1 := by
  cases stage <;> simp [allowance]

/-- A full word that the word of the stage begins. -/
def ending : Stage → List EventType
  | fresh | requested => opening false ++ [.denied]
  | opened asked | denied asked => opening asked ++ [.denied]
  | started asked | completed asked => opening asked ++ [.authorized, .started, .completed]
  | failed asked => opening asked ++ [.authorized, .started, .failed]

theorem ending_mem_grammar (stage : Stage) : stage.ending ∈ grammar.matches' := by
  rw [← RegularExpression.rmatch_iff_matches']
  cases stage with
  | fresh | requested => decide
  | opened asked | denied asked | started asked | completed asked | failed asked =>
    cases asked <;> decide

theorem word_prefix_ending (stage : Stage) : stage.word <+: stage.ending := by
  cases stage with
  | fresh | requested => decide
  | opened asked | denied asked | started asked | completed asked | failed asked =>
    cases asked <;> decide

end Stage

theorem recorded_iff {type : EventType} {stream : List ExecutionEvent} :
    recorded type stream = true ↔ type ∈ eventTypes stream := by
  simp only [recorded, List.any_eq_true, beq_iff_eq, eventTypes, List.mem_map]

/-- A reader that answers on the events of one type finds one exactly when the type is recorded. -/
private theorem findSome?_eq_none_iff {β : Type} {read : ExecutionEvent → Option β}
    {type : EventType} (hread : ∀ e, read e = none ↔ e.eventType ≠ type)
    (stream : List ExecutionEvent) : stream.findSome? read = none ↔ type ∉ eventTypes stream := by
  rw [List.findSome?_eq_none_iff]
  simp only [eventTypes, List.mem_map, not_exists, not_and]
  exact forall₂_congr fun e _ => hread e

theorem findSome?_requestedDigest? (stream : List ExecutionEvent) :
    stream.findSome? requestedDigest? = none ↔ .requested ∉ eventTypes stream :=
  findSome?_eq_none_iff (fun ⟨_, payload⟩ => by
    cases payload <;> simp [requestedDigest?, ExecutionEvent.eventType,
      ExecutionPayload.eventType]) stream

theorem findSome?_completedResult? (stream : List ExecutionEvent) :
    stream.findSome? completedResult? = none ↔ .completed ∉ eventTypes stream :=
  findSome?_eq_none_iff (fun ⟨_, payload⟩ => by
    cases payload <;> simp [completedResult?, ExecutionEvent.eventType,
      ExecutionPayload.eventType]) stream

theorem findSome?_deniedReason? (stream : List ExecutionEvent) :
    stream.findSome? deniedReason? = none ↔ .denied ∉ eventTypes stream :=
  findSome?_eq_none_iff (fun ⟨_, payload⟩ => by
    cases payload <;> simp [deniedReason?, ExecutionEvent.eventType,
      ExecutionPayload.eventType]) stream

theorem stamp_payload (nextEventId : ℕ) (events : List ExecutionPayload) :
    (stamp nextEventId events).map ChronicleEvent.payload = events :=
  List.ext_getElem (by simp [stamp]) (by simp [stamp])

theorem eventTypes_append_stamp (stream : List ExecutionEvent) (nextEventId : ℕ)
    (events : List ExecutionPayload) :
    eventTypes (stream ++ stamp nextEventId events) =
      eventTypes stream ++ events.map ExecutionPayload.eventType := by
  have h := congrArg (List.map ExecutionPayload.eventType) (stamp_payload nextEventId events)
  rw [List.map_map] at h
  rw [eventTypes, List.map_append, ← h]
  rfl

def Permitted (decision : Decision) (approval : Option ApprovalAnswer) : Prop :=
  decision = .allow ∨ decision = .ask ∧ approval = some .approved

/-- The append that may be pending over a stream of a stage, when the sandbox ran `n` times. -/
inductive AppendFits (approval : Option ApprovalAnswer) :
    Stage → ℕ → List ExecutionPayload → After → Prop where
  | decide {request digest existing} (h : eventTypes existing = []) :
    AppendFits approval .fresh 0 [.requested request digest] (.decide existing)
  | enforce {requestId snapshot existing decision capabilities}
    (h : .approvalRequired ∉ eventTypes existing) :
    AppendFits approval .requested 0 [.permissionSnapshot requestId snapshot]
      (.enforce existing decision capabilities)
  | deny {asked requestId reason outcome} :
    AppendFits approval (.opened asked) 0 [.denied requestId reason] (.respond outcome)
  | ask {requestId approvalId title detail outcome} :
    AppendFits approval (.opened false) 0 [.approvalRequired requestId approvalId title detail]
      (.respond outcome)
  | run {asked requestId reason requestId' decision} (h : Permitted decision.decision approval) :
    AppendFits approval (.opened asked) 0 [.authorized requestId reason, .started requestId']
      (.run decision)
  | conclude {asked requestId result outcome} :
    AppendFits approval (.started asked) 1 [.completed requestId result] (.conclude outcome)
  | concludeFailed {asked n requestId message outcome} (h : n ≤ 1) :
    AppendFits approval (.started asked) n [.failed requestId message] (.concludeFailed outcome)

/-- The prefix that the call read, when the decision is still to be made. -/
inductive Deciding : Stage → List ExecutionEvent → Prop where
  | requested {existing} (hs : .permissionSnapshot ∉ eventTypes existing)
    (ha : .approvalRequired ∉ eventTypes existing) : Deciding .requested existing
  | opened {asked : Bool} {existing} (hs : .permissionSnapshot ∈ eventTypes existing)
    (ha : .approvalRequired ∈ eventTypes existing ↔ asked = true) : Deciding (.opened asked) existing

/-- What a running `#execute` may hold over a stream of a stage, when the sandbox ran `n` times. -/
inductive Fits (approval : Option ApprovalAnswer) (stream : List ExecutionEvent) :
    Stage → ℕ → ExecutePc → Prop where
  | reading {stage n} (h : n ≤ stage.allowance) : Fits approval stream stage n .reading
  | positioning {stage n events after} (h : AppendFits approval stage n events after) :
    Fits approval stream stage n (.positioning events after)
  | appending {stage n events after} (h : AppendFits approval stage n events after) :
    Fits approval stream stage n (.appending (getLatestSequence stream + 1) events after)
  | deciding {stage existing} (h : Deciding stage existing) :
    Fits approval stream stage 0 (.deciding existing)
  | materializing {asked decision} (h : Permitted decision.decision approval) :
    Fits approval stream (.started asked) 0 (.materializing decision)
  | snapshotting {asked decision} (h : Permitted decision.decision approval) :
    Fits approval stream (.started asked) 0 (.snapshotting decision)
  | invoking {asked decision} : Fits approval stream (.started asked) 1 (.invoking decision)
  | observing {asked result} : Fits approval stream (.started asked) 1 (.observing result)
  | releasing {stage n settlement} (h : n ≤ stage.allowance) :
    Fits approval stream stage n (.releasing settlement)

theorem AppendFits.le_allowance {approval : Option ApprovalAnswer} {stage : Stage} {n : ℕ}
    {events : List ExecutionPayload} {after : After} (h : AppendFits approval stage n events after) :
    n ≤ stage.allowance := by
  cases h with
  | decide | enforce | deny | ask | run => exact Nat.zero_le _
  | conclude => exact le_refl 1
  | concludeFailed h => exact h

theorem Fits.le_allowance {approval : Option ApprovalAnswer} {stream : List ExecutionEvent}
    {stage : Stage} {n : ℕ} {pc : ExecutePc} (h : Fits approval stream stage n pc) :
    n ≤ stage.allowance := by
  cases h with
  | reading h | releasing h => exact h
  | positioning h | appending h => exact h.le_allowance
  | deciding | materializing | snapshotting => exact Nat.zero_le _
  | invoking | observing => exact le_refl 1

def NextFits (approval : Option ApprovalAnswer) (stream : List ExecutionEvent) (stage : Stage)
    (n : ℕ) : Next → Prop
  | .goto pc => Fits approval stream stage n pc
  | .settle _ => n ≤ stage.allowance

section Body
variable {host : Host} {request : ActionRequest} {approval : Option ApprovalAnswer}
  {stream : List ExecutionEvent} {stage : Stage} {n : ℕ}

theorem replay_fits (hw : eventTypes stream = stage.word) (hn : n ≤ stage.allowance) :
    NextFits approval stream stage n (replay host request stream) := by
  rw [replay]
  cases hr : stream.findSome? requestedDigest? with
  | none =>
    rw [findSome?_requestedDigest?, hw] at hr
    cases stage with
    | fresh =>
      obtain rfl : n = 0 := by simpa [Stage.allowance] using hn
      exact .positioning (.decide hw)
    | _ => simp [Stage.word, Stage.opening] at hr
  | some digest =>
    have hmem : EventType.requested ∈ stage.word := by
      by_contra h
      rw [← hw, ← findSome?_requestedDigest?, hr] at h
      cases h
    simp only
    split
    · exact hn
    cases hc : stream.findSome? completedResult? with
    | some result => exact hn
    | none =>
      simp only
      split
      · exact hn
      next hstarted =>
      rw [recorded_iff, hw] at hstarted
      cases hd : stream.findSome? deniedReason? with
      | some reason => exact hn
      | none =>
        rw [findSome?_deniedReason?, hw] at hd
        cases stage with
        | fresh => simp [Stage.word] at hmem
        | requested =>
          obtain rfl : n = 0 := by simpa [Stage.allowance] using hn
          exact .deciding (.requested (by simp [hw, Stage.word]) (by simp [hw, Stage.word]))
        | opened asked =>
          obtain rfl : n = 0 := by simpa [Stage.allowance] using hn
          refine .deciding (.opened (by simp [hw, Stage.word, Stage.opening]) ?_)
          cases asked <;> simp [hw, Stage.word, Stage.opening]
        | denied asked => simp [Stage.word] at hd
        | started asked | completed asked | failed asked => simp [Stage.word] at hstarted

theorem enforce_fits {asked : Bool} {existing : List ExecutionEvent}
    {decision : AuthorizationDecision} {capabilities : SandboxCapabilityReport}
    (ha : .approvalRequired ∈ eventTypes existing ↔ asked) :
    NextFits approval stream (.opened asked) 0
      (enforce host request approval existing decision capabilities) := by
  rw [enforce]
  split
  · exact .positioning .deny
  next hdeny =>
  split
  · simp only
    split
    · exact Nat.zero_le _
    next hrecorded =>
    obtain rfl : asked = false := by simpa [recorded_iff, ha] using hrecorded
    exact .positioning .ask
  next hask =>
  split
  · exact .positioning .deny
  split
  · exact .positioning .deny
  refine .positioning (.run ?_)
  cases hd : decision.decision with
  | allow => exact .inl rfl
  | ask => exact .inr ⟨rfl, by simpa [hd] using hask⟩
  | deny => exact absurd (.inl hd) hdeny

theorem authorize_fits {existing : List ExecutionEvent} {policy : PolicyAnswer}
    {capabilities : SandboxCapabilityReport} (h : Deciding stage existing) :
    NextFits approval stream stage 0
      (authorize host request approval existing policy capabilities) := by
  rw [authorize]
  cases h with
  | requested hs ha =>
    rw [if_neg (by simpa [recorded_iff] using hs)]
    exact .positioning (.enforce ha)
  | opened hs ha =>
    rw [if_pos (recorded_iff.mpr hs)]
    exact enforce_fits ha

theorem caught_fits {asked : Bool} {message : String} (hn : n ≤ 1) :
    NextFits approval stream (.started asked) n (caught host request message) :=
  .positioning (.concludeFailed hn)

theorem appended_fits {stream' : List ExecutionEvent} {events : List ExecutionPayload}
    {after : After} (h : AppendFits approval stage n events after) :
    ∃ stage' : Stage, stage.word ++ events.map ExecutionPayload.eventType = stage'.word ∧
      NextFits approval stream' stage' n (appended host request approval after) := by
  cases h with
  | decide h =>
    exact ⟨.requested, rfl, .deciding (.requested (by simp [h]) (by simp [h]))⟩
  | enforce h => exact ⟨.opened false, rfl, enforce_fits (by simpa using h)⟩
  | deny => exact ⟨.denied _, rfl, Nat.zero_le _⟩
  | ask => exact ⟨.opened true, rfl, Nat.zero_le _⟩
  | run h => exact ⟨.started _, rfl, .materializing h⟩
  | @conclude asked => exact ⟨.completed asked, by cases asked <;> rfl, .releasing (le_refl 1)⟩
  | @concludeFailed asked n _ _ _ h =>
    exact ⟨.failed asked, by cases asked <;> rfl, .releasing h⟩

theorem appendFailed_fits {events : List ExecutionPayload} {after : After}
    {error : ExecutionError} (h : AppendFits approval stage n events after) :
    NextFits approval stream stage n (appendFailed host request error after) := by
  cases h with
  | decide | enforce | deny | ask | run => exact Nat.zero_le _
  | conclude => exact caught_fits (le_refl 1)
  | concludeFailed h => exact .releasing h

theorem NextFits.le_allowance {next : Next} (h : NextFits approval stream stage n next) :
    n ≤ stage.allowance := by
  cases next with
  | goto pc => exact Fits.le_allowance h
  | settle settlement => exact h

/-- What one step of `#execute` does to its stream and to the sandbox. -/
structure BodyFits (approval : Option ApprovalAnswer) (idempotencyKey : String) (stage : Stage)
    (n : ℕ) (b : BodyStep) : Prop where
  stream : eventTypes b.stream = stage.word
  next : NextFits approval b.stream stage (n + b.invoked.toList.length) b.next
  invoked : ∀ i ∈ b.invoked, i.idempotencyKey = idempotencyKey ∧ Permitted i.decision i.approval ∧
    ∃ asked, stage = .started asked

theorem bodyStep_fits {nextEventId : ℕ} {pc : ExecutePc} {await : Await} {b : BodyStep}
    (hw : eventTypes stream = stage.word) (h : Fits approval stream stage n pc)
    (hb : bodyStep host request approval stream nextEventId pc await = some b) :
    ∃ stage' : Stage, (stage' = stage ∨ b.invoked = none) ∧
      BodyFits approval request.idempotencyKey stage' n b := by
  cases h with
  | reading hn =>
    cases await with
    | ok =>
      cases hb
      exact ⟨stage, .inl rfl, hw, replay_fits hw hn, by simp⟩
    | thrown =>
      cases hb
      exact ⟨stage, .inl rfl, hw, hn, by simp⟩
    | _ => cases hb
  | positioning h =>
    cases await with
    | ok =>
      cases hb
      exact ⟨stage, .inl rfl, hw, .appending h, by simp⟩
    | thrown =>
      cases hb
      exact ⟨stage, .inl rfl, hw, appendFailed_fits h, by simp⟩
    | _ => cases hb
  | @appending stage n events after h =>
    cases await with
    | ok =>
      simp only [bodyStep, append_next] at hb
      cases hb
      obtain ⟨stage', hstage, hnext⟩ : ∃ stage' : Stage,
          stage.word ++ events.map ExecutionPayload.eventType = stage'.word ∧
            NextFits approval (stream ++ stamp nextEventId events) stage' n
              (appended host request approval after) := appended_fits h
      exact ⟨stage', .inr rfl, by rw [eventTypes_append_stamp, hw, hstage], hnext, by simp⟩
    | thrown =>
      cases hb
      exact ⟨stage, .inl rfl, hw, appendFailed_fits h, by simp⟩
    | _ => cases hb
  | deciding h =>
    cases await with
    | capabilities =>
      cases hb
      exact ⟨stage, .inl rfl, hw, authorize_fits h, by simp⟩
    | thrown =>
      cases hb
      exact ⟨stage, .inl rfl, hw, Nat.zero_le _, by simp⟩
    | _ => cases hb
  | materializing h =>
    cases await with
    | ok =>
      cases hb
      exact ⟨_, .inl rfl, hw, .snapshotting h, by simp⟩
    | thrown =>
      cases hb
      exact ⟨_, .inl rfl, hw, caught_fits (Nat.zero_le 1), by simp⟩
    | _ => cases hb
  | snapshotting h =>
    cases await with
    | ok =>
      cases hb
      refine ⟨_, .inl rfl, hw, .invoking, ?_⟩
      rintro i ⟨⟩
      exact ⟨rfl, h, _, rfl⟩
    | thrown =>
      cases hb
      exact ⟨_, .inl rfl, hw, caught_fits (Nat.zero_le 1), by simp⟩
    | _ => cases hb
  | invoking =>
    cases await with
    | result =>
      cases hb
      exact ⟨_, .inl rfl, hw, .observing, by simp⟩
    | thrown =>
      cases hb
      exact ⟨_, .inl rfl, hw, caught_fits (le_refl 1), by simp⟩
    | _ => cases hb
  | observing =>
    cases await with
    | diff =>
      cases hb
      exact ⟨_, .inl rfl, hw, .positioning .conclude, by simp⟩
    | thrown =>
      cases hb
      exact ⟨_, .inl rfl, hw, caught_fits (le_refl 1), by simp⟩
    | _ => cases hb
  | releasing hn =>
    cases await with
    | ok =>
      cases hb
      exact ⟨stage, .inl rfl, hw, hn, by simp⟩
    | thrown =>
      cases hb
      exact ⟨stage, .inl rfl, hw, hn, by simp⟩
    | _ => cases hb

end Body

def World.invoked (w : World) (idempotencyKey : String) : ℕ :=
  (w.invocations.filter fun i => i.idempotencyKey == idempotencyKey).length

section Worlds
variable {sha256 : String → String}

/-- The stream of a key is at a stage that accounts for its sandbox calls, and every `#execute`
that runs for the key is the one in flight and fits the stage. -/
structure KeySafe (sha256 : String → String) (w : World) (idempotencyKey : String)
    (stage : Stage) : Prop where
  stream : eventTypes (w.stream sha256 idempotencyKey) = stage.word
  invoked : w.invoked idempotencyKey ≤ stage.allowance
  running : ∀ c call pc, w.calls c = some call → call.pc = .executing pc →
    call.request.idempotencyKey = idempotencyKey → w.inflight idempotencyKey = some c ∧
      Fits call.approval (w.stream sha256 idempotencyKey) stage (w.invoked idempotencyKey) pc

structure WorldSafe (sha256 : String → String) (w : World) : Prop where
  keys : ∀ key, ∃ stage, KeySafe sha256 w key stage
  others : ∀ id, (∀ key, id ≠ executionStreamId sha256 key) → w.streams id = []
  permitted : ∀ i ∈ w.invocations, Permitted i.decision i.approval

theorem initial_safe (secrets : Option SecretBroker) :
    WorldSafe sha256 (World.initial secrets) where
  keys key := ⟨.fresh, rfl, Nat.zero_le _, fun _ _ _ h => by cases h⟩
  others _ _ := rfl
  permitted i h := by cases h

/-- A step that leaves the streams and the sandbox alone and starts no `#execute` but one whose
key is free. -/
theorem KeySafe.frame {w w' : World} {key : String} {stage : Stage} (h : KeySafe sha256 w key stage)
    (hstreams : w'.streams = w.streams) (hinvocations : w'.invocations = w.invocations)
    (hrunning : ∀ c call pc, w'.calls c = some call → call.pc = .executing pc →
      call.request.idempotencyKey = key →
      (w.calls c = some call ∧ w'.inflight key = w.inflight key) ∨
        w'.inflight key = some c ∧ pc = .reading) : KeySafe sha256 w' key stage := by
  have hs : w'.stream sha256 key = w.stream sha256 key := by rw [World.stream, hstreams, World.stream]
  have hi : w'.invoked key = w.invoked key := by rw [World.invoked, hinvocations, World.invoked]
  refine ⟨by rw [hs, h.stream], by rw [hi]; exact h.invoked, ?_⟩
  intro c call pc hc hpc hkey
  rw [hs, hi]
  obtain ⟨hold, hin⟩ | ⟨hin, rfl⟩ := hrunning c call pc hc hpc hkey
  · rw [hin]
    exact h.running c call pc hold hpc hkey
  · exact ⟨hin, .reading h.invoked⟩

theorem WorldSafe.frame {w w' : World} (h : WorldSafe sha256 w) (hstreams : w'.streams = w.streams)
    (hinvocations : w'.invocations = w.invocations)
    (hrunning : ∀ c call pc, w'.calls c = some call → call.pc = .executing pc →
      (w.calls c = some call ∧
          w'.inflight call.request.idempotencyKey = w.inflight call.request.idempotencyKey) ∨
        w'.inflight call.request.idempotencyKey = some c ∧ pc = .reading) :
    WorldSafe sha256 w' where
  keys key := by
    obtain ⟨stage, hkey⟩ := h.keys key
    refine ⟨stage, hkey.frame hstreams hinvocations ?_⟩
    rintro c call pc hc hpc rfl
    exact hrunning c call pc hc hpc
  others id hid := by rw [hstreams, h.others id hid]
  permitted i hi := h.permitted i (hinvocations ▸ hi)

theorem WorldSafe.setCall {w : World} (h : WorldSafe sha256 w) (c : ℕ) (call : Call)
    (hcall : ∀ pc, call.pc ≠ .executing pc) : WorldSafe sha256 (w.setCall c call) := by
  refine h.frame rfl rfl fun c' call' pc hc hpc => .inl ⟨?_, rfl⟩
  obtain ⟨-, rfl⟩ | ⟨-, hc⟩ := setCall_calls_cases hc
  · exact absurd hpc (hcall pc)
  · exact hc

theorem enter_safe {w : World} (h : WorldSafe sha256 w) (c : ℕ) (call : Call)
    (request : ActionRequest) : WorldSafe sha256 (enter w c call request) := by
  rw [enter]
  cases hin : w.inflight request.idempotencyKey with
  | some owner => exact h.setCall c _ fun pc => by simp
  | none =>
    refine h.frame rfl rfl fun c' call' pc hc hpc => ?_
    obtain ⟨rfl, rfl⟩ | ⟨-, hc⟩ := setCall_calls_cases hc
    · cases hpc
      exact .inr ⟨Function.update_self .., rfl⟩
    · -- a call already running for the key would be the one in flight
      obtain ⟨stage, hkey⟩ := h.keys call'.request.idempotencyKey
      have hne : call'.request.idempotencyKey ≠ request.idempotencyKey := fun hk => by
        have := (hkey.running c' call' pc hc hpc rfl).1
        rw [hk, hin] at this
        cases this
      exact .inl ⟨hc, Function.update_of_ne hne ..⟩

theorem finish_safe {w : World} (h : WorldSafe sha256 w) {c : ℕ} {call : Call}
    {settlement : Settlement} :
    WorldSafe sha256 { w.setCall c { call with pc := .returned settlement } with
      inflight := if w.inflight call.request.idempotencyKey = some c then
        Function.update w.inflight call.request.idempotencyKey none else w.inflight } := by
  refine h.frame rfl rfl fun c' call' pc hc' hpc' => .inl ?_
  obtain ⟨-, rfl⟩ | ⟨hcc, hc'⟩ := setCall_calls_cases hc'
  · cases hpc'
  · refine ⟨hc', ?_⟩
    split
    · next hin =>
      obtain ⟨stage, hkey⟩ := h.keys call'.request.idempotencyKey
      refine Function.update_of_ne (fun hk => hcc ?_) ..
      have := (hkey.running c' call' pc hc' hpc' rfl).1
      rw [hk, hin] at this
      exact (Option.some.inj this).symm
    · rfl

theorem runBody_safe (hsha : Function.Injective sha256) {w : World} (h : WorldSafe sha256 w) {c : ℕ}
    {call : Call} {pc : ExecutePc} {await : Await} {b : BodyStep} (hc : w.calls c = some call)
    (hpc : call.pc = .executing pc)
    (hb : bodyStep ⟨sha256, w.secrets⟩ call.request call.approval
      (w.stream sha256 call.request.idempotencyKey) w.nextEventId pc await = some b) :
    WorldSafe sha256 (runBody sha256 w c call b) := by
  obtain ⟨stage, hkey⟩ := h.keys call.request.idempotencyKey
  obtain ⟨hin, hfits⟩ := hkey.running c call pc hc hpc rfl
  obtain ⟨stage', -, hbody⟩ := bodyStep_fits hkey.stream hfits hb
  have hinvoked : ∀ key, (runBody sha256 w c call b).invoked key =
      w.invoked key + if key = call.request.idempotencyKey then b.invoked.toList.length else 0 := by
    intro key
    simp only [World.invoked, runBody, List.filter_append, List.length_append]
    cases hi : b.invoked with
    | none => simp
    | some i =>
      have := (hbody.invoked i hi).1
      by_cases hk : key = call.request.idempotencyKey
      · simp [hk, this]
      · simp [hk, this, Ne.symm hk]
  refine ⟨fun key => ?_, fun id hid => ?_, fun i hi => ?_⟩
  · by_cases hk : key = call.request.idempotencyKey
    · subst hk
      have hs : (runBody sha256 w c call b).stream sha256 call.request.idempotencyKey = b.stream :=
        runBody_stream_self w c call b
      have hn := hinvoked call.request.idempotencyKey
      rw [if_pos rfl] at hn
      refine ⟨stage', by rw [hs, hbody.stream], by rw [hn]; exact hbody.next.le_allowance, ?_⟩
      intro c' call' pc' hc' hpc' hkey'
      obtain ⟨rfl, rfl⟩ | ⟨hcc, hc'⟩ := setCall_calls_cases hc'
      · rw [hs, hn]
        refine ⟨hin, ?_⟩
        have := hbody.next
        cases hnext : b.next with
        | goto pc'' =>
          simp only [hnext, Next.toCallPc, CallPc.executing.injEq] at hpc'
          rwa [hnext, NextFits, hpc'] at this
        | settle settlement =>
          simp only [hnext, Next.toCallPc] at hpc'
          cases hpc'
      · have := (hkey.running c' call' pc' hc' hpc' hkey').1
        rw [hin] at this
        exact absurd (Option.some.inj this).symm hcc
    · obtain ⟨stage₁, hkey₁⟩ := h.keys key
      have hs := runBody_stream_of_ne hsha w c call b hk
      have hn := hinvoked key
      rw [if_neg hk, Nat.add_zero] at hn
      refine ⟨stage₁, by rw [hs, hkey₁.stream], by rw [hn]; exact hkey₁.invoked, ?_⟩
      intro c' call' pc' hc' hpc' hkey'
      rw [hs, hn]
      obtain ⟨rfl, rfl⟩ | ⟨-, hc'⟩ := setCall_calls_cases hc'
      · exact absurd hkey'.symm hk
      · exact hkey₁.running c' call' pc' hc' hpc' hkey'
  · have hs : (runBody sha256 w c call b).streams id = w.streams id :=
      Function.update_of_ne (hid _) ..
    rw [hs, h.others id hid]
  · simp only [runBody, List.mem_append, Option.mem_toList] at hi
    obtain hi | hi := hi
    · exact h.permitted i hi
    · exact (hbody.invoked i hi).2.1

theorem worldStep_safe (hsha : Function.Injective sha256) {w w' : World} {input : WorldInput}
    (h : WorldSafe sha256 w) (hstep : worldStep sha256 w input = some w') :
    WorldSafe sha256 w' := by
  cases worldStep_move hstep with
  | execute =>
    exact (h.setCall w.nextCall ⟨_, _, .canonicalizing⟩ fun _ => by simp).frame rfl rfl
      fun _ _ _ hc _ => .inl ⟨hc, rfl⟩
  | enter => exact enter_safe h ..
  | refuse | rejoin | reject => exact h.setCall _ _ fun _ => by simp
  | body hc hpc hb => exact runBody_safe hsha h hc hpc hb
  | finish => exact finish_safe h
  | crash => exact h.frame rfl rfl fun _ _ _ hc => by cases hc

theorem reaches_safe (hsha : Function.Injective sha256) {secrets : Option SecretBroker} {w : World}
    (h : (machine sha256).Reaches anyStep (World.initial secrets) w) : WorldSafe sha256 w :=
  h.invariant (initial_safe secrets) fun _ _ _ hs _ => worldStep_safe hsha hs

/-- In every run: one sandbox call a key, each after its start is durable and permitted, and every
stream within the grammar. -/
theorem execute_atMostOnce (hsha : Function.Injective sha256) {secrets : Option SecretBroker}
    {w : World} (h : (machine sha256).Reaches anyStep (World.initial secrets) w) :
    (∀ key, w.invoked key ≤ 1) ∧
      (∀ id, ∃ word ∈ grammar.matches', eventTypes (w.streams id) <+: word) ∧
      ∀ input w', (machine sha256).step w input = some w' →
        w'.invocations = w.invocations ∨
          ∃ i, w'.invocations = w.invocations ++ [i] ∧ Permitted i.decision i.approval ∧
            ∀ type ∈ [.requested, .authorized, .started],
              type ∈ eventTypes (w.stream sha256 i.idempotencyKey) := by
  have hsafe := reaches_safe hsha h
  refine ⟨fun key => ?_, fun id => ?_, fun input w' hstep => ?_⟩
  · obtain ⟨stage, hkey⟩ := hsafe.keys key
    exact hkey.invoked.trans stage.allowance_le_one
  · by_cases hid : ∃ key, id = executionStreamId sha256 key
    · obtain ⟨key, rfl⟩ := hid
      obtain ⟨stage, hkey⟩ := hsafe.keys key
      exact ⟨stage.ending, stage.ending_mem_grammar, hkey.stream ▸ stage.word_prefix_ending⟩
    · rw [hsafe.others id fun key hk => hid ⟨key, hk⟩]
      exact ⟨Stage.fresh.ending, Stage.fresh.ending_mem_grammar, List.nil_prefix⟩
  · cases worldStep_move hstep with
    | execute | refuse | rejoin | reject | finish | crash => exact .inl rfl
    | @enter _ c call _ request =>
      left
      rw [enter]
      split <;> rfl
    | @body _ c call pc _ b hc hpc hb =>
      obtain ⟨stage, hkey⟩ := hsafe.keys call.request.idempotencyKey
      obtain ⟨stage', hstage, hbody⟩ :=
        bodyStep_fits hkey.stream (hkey.running c call pc hc hpc rfl).2 hb
      cases hi : b.invoked with
      | none => exact .inl (by simp [runBody, hi])
      | some i =>
        obtain ⟨hk, hpermitted, asked, hstarted⟩ := hbody.invoked i hi
        obtain rfl : stage' = stage := hstage.resolve_right (by simp [hi])
        refine .inr ⟨i, by simp [runBody, hi], hpermitted, ?_⟩
        rw [hk, hkey.stream, hstarted]
        cases asked <;> decide

end Worlds

def sampleRequest : ActionRequest :=
  { id := "request", idempotencyKey := "key", capability := "files.read",
    subject := ⟨.agent, "bee"⟩, input := .null, requirements := {}, expectedEffects := [],
    verification := [], scope := ⟨"thread", "turn", none⟩, structureVersion := none }

def sampleCapabilities : SandboxCapabilityReport := ⟨"local", false, false, false⟩

/-- One call up to its start in the sandbox, for a policy that asks and an approved answer. -/
def startedRun : List WorldInput :=
  [.execute sampleRequest (some .approved), .canonicalized 0 .ok] ++
    [.ok, .ok, .ok, .capabilities (.inr ⟨.ask, "policy"⟩) sampleCapabilities,
      .ok, .ok, .ok, .ok, .ok, .ok].map (.advance 0)

theorem execute_atMostOnce_sample : ∃ w : World,
    (machine id).Reaches anyStep (World.initial none) w ∧
      w.invocations = [⟨"key", .ask, some .approved⟩] ∧ ∀ key, w.invoked key ≤ 1 :=
  have h := exec_reaches startedRun (guarded_anyStep _) rfl
  ⟨_, h, rfl, (execute_atMostOnce Function.injective_id h).1⟩

end BeeAgent.Execution
