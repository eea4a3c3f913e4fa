import BeeAgent.Execution.AtMostOnce

/-! Durable outcomes: once a terminal event is stored, no step of any later run appends for its key
or runs the sandbox, and every later call of the same request is answered from the stream. -/
namespace BeeAgent.Execution
open BeeAgent.Data BeeAgent.Chronicle Transition Transition.Machine

/-- What a stream with a terminal event answers to a call of its own request. -/
def durableOutcome? (stream : List ExecutionEvent) : Option ExecutionOutcome :=
  match stream.findSome? completedResult? with
  | some result => some (.result result true)
  | none =>
    if recorded .failed stream then some (.reconciliationRequired reconciliationReason)
    else (stream.findSome? deniedReason?).map .denied

def Stage.terminal : Stage → Bool
  | .denied _ | .completed _ | .failed _ => true
  | _ => false

theorem durableOutcome?_isSome {stream : List ExecutionEvent} :
    (durableOutcome? stream).isSome ↔ .completed ∈ eventTypes stream ∨
      .failed ∈ eventTypes stream ∨ .denied ∈ eventTypes stream := by
  have hc := findSome?_completedResult? stream
  have hd := findSome?_deniedReason? stream
  rw [durableOutcome?]
  cases h : stream.findSome? completedResult? with
  | some result =>
    have : .completed ∈ eventTypes stream := by
      by_contra hn
      rw [hc.mpr hn] at h
      cases h
    simp [this]
  | none =>
    simp only [hc.mp h, false_or]
    split
    · next hf => simp [recorded_iff.mp hf]
    · next hf =>
      rw [recorded_iff] at hf
      simp only [hf, false_or, Option.isSome_map]
      rw [← not_iff_not, ← hd]
      simp

theorem terminal_of_durable {stream : List ExecutionEvent} {stage : Stage}
    (hw : eventTypes stream = stage.word) (h : (durableOutcome? stream).isSome) :
    stage.terminal := by
  rw [durableOutcome?_isSome, hw] at h
  cases stage with
  | denied | completed | failed => rfl
  | fresh | requested => simp [Stage.word] at h
  | opened asked | started asked => cases asked <;> simp [Stage.word, Stage.opening] at h

section Body
variable {host : Host} {request : ActionRequest} {approval : Option ApprovalAnswer}
  {stream : List ExecutionEvent} {stage : Stage} {n : ℕ}

/-- The replay scan over a stream with a terminal event settles the call, for its own request
with the durable outcome. -/
theorem replay_terminal (hw : eventTypes stream = stage.word)
    (h : (durableOutcome? stream).isSome) :
    ∃ settlement, replay host request stream = .settle settlement ∧
      (stream.findSome? requestedDigest? = some (requestDigest host.sha256 request) →
        durableOutcome? stream = settlement.toOption) := by
  have hterminal := terminal_of_durable hw h
  rw [replay]
  cases hr : stream.findSome? requestedDigest? with
  | none =>
    rw [findSome?_requestedDigest?, hw] at hr
    cases stage <;> simp [Stage.word, Stage.opening, Stage.terminal] at hr hterminal
  | some digest =>
    simp only
    split
    · next hne => exact ⟨_, rfl, fun he => absurd (Option.some.inj he) hne⟩
    rw [durableOutcome?]
    cases hc : stream.findSome? completedResult? with
    | some result => exact ⟨_, rfl, fun _ => rfl⟩
    | none =>
      rw [findSome?_completedResult?, hw] at hc
      have hstarted : recorded .started stream = recorded .failed stream := by
        rw [Bool.eq_iff_iff, recorded_iff, recorded_iff, hw]
        cases stage with
        | fresh | requested | opened | started => cases hterminal
        | completed => simp [Stage.word] at hc
        | denied asked | failed asked => cases asked <;> simp [Stage.word, Stage.opening]
      simp only [hstarted]
      split
      · exact ⟨_, rfl, fun _ => rfl⟩
      next hfailed =>
      cases hd : stream.findSome? deniedReason? with
      | some reason => exact ⟨_, rfl, fun _ => rfl⟩
      | none =>
        rw [recorded_iff, hw] at hfailed
        rw [findSome?_deniedReason?, hw] at hd
        cases stage <;> simp [Stage.word, Stage.terminal] at hc hd hfailed hterminal

theorem Fits.of_terminal {pc : ExecutePc} (h : Fits approval stream stage n pc)
    (hterminal : stage.terminal) : pc = .reading ∨ ∃ settlement, pc = .releasing settlement := by
  cases h with
  | reading => exact .inl rfl
  | releasing => exact .inr ⟨_, rfl⟩
  | positioning h | appending h => cases h <;> cases hterminal
  | deciding h => cases h <;> cases hterminal
  | materializing | snapshotting | invoking | observing => cases hterminal

end Body

section Worlds
variable {sha256 : String → String}

theorem bodyStep_terminal {host : Host} {request : ActionRequest}
    {approval : Option ApprovalAnswer} {stream : List ExecutionEvent} {stage : Stage} {n : ℕ}
    {nextEventId : ℕ} {pc : ExecutePc} {await : Await} {b : BodyStep}
    (hw : eventTypes stream = stage.word) (hterminal : (durableOutcome? stream).isSome)
    (hfits : Fits approval stream stage n pc)
    (hb : bodyStep host request approval stream nextEventId pc await = some b) :
    b.stream = stream ∧ b.invoked = none ∧ ∃ settlement, b.next = .settle settlement ∧
      (pc = .reading → stream.findSome? requestedDigest? = some (requestDigest host.sha256 request) →
        durableOutcome? stream = settlement.toOption ∨
          ∃ message, settlement = .error (.thrown message)) := by
  obtain rfl | ⟨settlement, rfl⟩ := hfits.of_terminal (terminal_of_durable hw hterminal)
  · cases await with
    | ok =>
      cases hb
      obtain ⟨settlement, hs, hout⟩ : ∃ settlement,
          replay host request stream = .settle settlement ∧ _ := replay_terminal hw hterminal
      exact ⟨rfl, rfl, settlement, hs, fun _ hd => .inl (hout hd)⟩
    | thrown message =>
      cases hb
      exact ⟨rfl, rfl, _, rfl, fun _ _ => .inr ⟨message, rfl⟩⟩
    | _ => cases hb
  · cases await with
    | ok | thrown =>
      cases hb
      exact ⟨rfl, rfl, _, rfl, fun h => by cases h⟩
    | _ => cases hb

/-- Where a later call of the recorded request may stand: at its read, or settled as the stream
says; a failed read rejects it, and so may the call in flight that it joined. -/
def Answers (stored : List ExecutionEvent) : CallPc → Prop
  | .executing pc => pc = .reading
  | .settled settlement => durableOutcome? stored = settlement.toOption ∨
      ∃ message, settlement = .error (.thrown message)
  | .returned (.ok outcome) => durableOutcome? stored = some outcome
  | _ => True

/-- What holds of a key from the moment its stream `stored` has a terminal event: the stream and
the count of sandbox calls stand still, and the calls from `first` on of the recorded request
answer by the stream. -/
structure Replayed (sha256 : String → String) (request : ActionRequest)
    (stored : List ExecutionEvent) (invoked first : ℕ) (w : World) : Prop where
  stream : w.stream sha256 request.idempotencyKey = stored
  invoked : w.invoked request.idempotencyKey = invoked
  later : ∀ c call, w.calls c = some call → first ≤ c → call.request = request →
    Answers stored call.pc

variable {request : ActionRequest} {stored : List ExecutionEvent} {invoked first : ℕ}

theorem Replayed.setCall {w : World} (h : Replayed sha256 request stored invoked first w) (c : ℕ)
    (call : Call) (hcall : first ≤ c → call.request = request → Answers stored call.pc) :
    Replayed sha256 request stored invoked first (w.setCall c call) := by
  refine ⟨h.stream, h.invoked, fun c' call' hc hfirst hreq => ?_⟩
  obtain ⟨rfl, rfl⟩ | ⟨-, hc⟩ := setCall_calls_cases hc
  · exact hcall hfirst hreq
  · exact h.later c' call' hc hfirst hreq

theorem Replayed.enter {w : World} (h : Replayed sha256 request stored invoked first w) (c : ℕ)
    (call : Call) (request' : ActionRequest) :
    Replayed sha256 request stored invoked first (enter w c call request') := by
  rw [Execution.enter]
  split
  · exact h.setCall c _ fun _ _ => trivial
  · have := h.setCall c { call with request := request', pc := .executing .reading } fun _ _ => rfl
    exact ⟨this.stream, this.invoked, this.later⟩

theorem Replayed.finish {w : World} (h : Replayed sha256 request stored invoked first w) {c : ℕ}
    {call : Call} {settlement : Settlement} (hc : w.calls c = some call)
    (hpc : call.pc = .settled settlement) (inflight : String → Option ℕ) :
    Replayed sha256 request stored invoked first
      { w.setCall c { call with pc := .returned settlement } with inflight } := by
  have := h.setCall c { call with pc := .returned settlement } fun hfirst hreq => by
    have hsettled := h.later c call hc hfirst hreq
    rw [hpc] at hsettled
    cases settlement with
    | error => trivial
    | ok outcome =>
      obtain ho | ⟨_, ho⟩ := hsettled
      · exact ho
      · cases ho
  exact ⟨this.stream, this.invoked, this.later⟩

theorem Replayed.runBody (hsha : Function.Injective sha256) {w : World} (hsafe : WorldSafe sha256 w)
    (h : Replayed sha256 request stored invoked first w)
    (hterminal : (durableOutcome? stored).isSome)
    (hdigest : stored.findSome? requestedDigest? = some (requestDigest sha256 request))
    {c : ℕ} {call : Call} {pc : ExecutePc} {await : Await} {b : BodyStep}
    (hc : w.calls c = some call) (hpc : call.pc = .executing pc)
    (hb : bodyStep ⟨sha256, w.secrets⟩ call.request call.approval
      (w.stream sha256 call.request.idempotencyKey) w.nextEventId pc await = some b) :
    Replayed sha256 request stored invoked first (runBody sha256 w c call b) := by
  by_cases hk : call.request.idempotencyKey = request.idempotencyKey
  · rw [hk, h.stream] at hb
    obtain ⟨stage, hkey⟩ := hsafe.keys request.idempotencyKey
    have hfits := (hkey.running c call pc hc hpc hk).2
    have hword := hkey.stream
    rw [h.stream] at hfits hword
    obtain ⟨hstream, hinvoked, settlement, hnext, hout⟩ :=
      bodyStep_terminal hword hterminal hfits hb
    have := h.setCall c { call with pc := .settled settlement } fun hfirst hreq => by
      have hreading := h.later c call hc hfirst hreq
      rw [hpc] at hreading
      exact hout hreading (hreq ▸ hdigest)
    refine ⟨?_, ?_, ?_⟩
    · rw [← hk, runBody_stream_self, hstream]
    · simpa [World.invoked, Execution.runBody, hinvoked] using h.invoked
    · rw [Execution.runBody, hnext]
      exact this.later
  · refine ⟨?_, ?_, ?_⟩
    · rw [runBody_stream_of_ne hsha w c call b (Ne.symm hk), h.stream]
    · obtain ⟨stage, hkey⟩ := hsafe.keys call.request.idempotencyKey
      obtain ⟨_, -, hbody⟩ := bodyStep_fits hkey.stream (hkey.running c call pc hc hpc rfl).2 hb
      have hi : ∀ i ∈ b.invoked, i.idempotencyKey ≠ request.idempotencyKey := fun i hi => by
        rw [(hbody.invoked i hi).1]
        exact hk
      rw [← h.invoked, World.invoked, Execution.runBody, World.invoked, List.filter_append,
        List.length_append]
      cases hinv : b.invoked with
      | none => simp
      | some i => simp [hi i hinv]
    · have := h.setCall c { call with pc := b.next.toCallPc } fun _ hreq => by
        exact absurd (congrArg ActionRequest.idempotencyKey hreq) hk
      exact this.later

theorem worldStep_replayed (hsha : Function.Injective sha256)
    (hterminal : (durableOutcome? stored).isSome)
    (hdigest : stored.findSome? requestedDigest? = some (requestDigest sha256 request))
    {w w' : World} {input : WorldInput} (hsafe : WorldSafe sha256 w)
    (h : Replayed sha256 request stored invoked first w)
    (hstep : worldStep sha256 w input = some w') :
    Replayed sha256 request stored invoked first w' := by
  cases worldStep_move hstep with
  | @execute candidate approval =>
    have := h.setCall w.nextCall ⟨candidate, approval, .canonicalizing⟩ fun _ _ => trivial
    exact ⟨this.stream, this.invoked, this.later⟩
  | enter => exact h.enter ..
  | refuse | rejoin | reject => exact h.setCall _ _ fun _ _ => trivial
  | body hc hpc hb => exact h.runBody hsha hsafe hterminal hdigest hc hpc hb
  | finish hc hpc => exact h.finish hc hpc _
  | crash => exact ⟨h.stream, h.invoked, fun _ _ hc => by cases hc⟩

theorem reaches_calls_lt {secrets : Option SecretBroker} {w : World}
    (h : (machine sha256).Reaches anyStep (World.initial secrets) w) :
    ∀ c call, w.calls c = some call → c < w.nextCall := by
  refine h.invariant (P := fun w => ∀ c call, w.calls c = some call → c < w.nextCall)
    (fun _ _ hc => by cases hc) fun w input w' hbound _ hstep => ?_
  have hset : ∀ c call call', w.calls c = some call → ∀ c' call'',
      (w.setCall c call').calls c' = some call'' → c' < w.nextCall := by
    intro c call call' hc c' call'' hc'
    obtain ⟨rfl, -⟩ | ⟨-, hc'⟩ := setCall_calls_cases hc'
    · exact hbound c' call hc
    · exact hbound c' call'' hc'
  cases worldStep_move hstep with
  | execute =>
    intro c call hc
    obtain ⟨rfl, -⟩ | ⟨-, hc⟩ := setCall_calls_cases hc
    · exact Nat.lt_succ_self _
    · exact Nat.lt_succ_of_lt (hbound c call hc)
  | enter hc =>
    rw [enter]
    split <;> exact hset _ _ _ hc
  | refuse hc | rejoin hc | reject hc | body hc | finish hc => exact hset _ _ _ hc
  | crash => exact fun _ _ hc => by cases hc

theorem exec_replays {w : World} {outcome : ExecutionOutcome} {stage : Stage}
    (hword : eventTypes (w.stream sha256 request.idempotencyKey) = stage.word)
    (hout : durableOutcome? (w.stream sha256 request.idempotencyKey) = some outcome)
    (hdigest : (w.stream sha256 request.idempotencyKey).findSome? requestedDigest? =
      some (requestDigest sha256 request))
    (hfree : w.inflight request.idempotencyKey = none) {candidate : ActionRequest}
    (approval : Option ApprovalAnswer) {canonicalPath : String → Except String String}
    (hcanonical : canonicalizeActionRequest canonicalPath candidate = .ok request) :
    ∃ w', (machine sha256).exec w [.execute candidate approval,
        .canonicalized w.nextCall canonicalPath, .advance w.nextCall .ok, .finish w.nextCall] =
          some w' ∧
      w'.calls w.nextCall = some ⟨request, approval, .returned (.ok outcome)⟩ := by
  obtain ⟨settlement, hreplay, hsettled⟩ : ∃ settlement, replay ⟨sha256, w.secrets⟩ request
      (w.stream sha256 request.idempotencyKey) = .settle settlement ∧ _ :=
    replay_terminal hword (by rw [hout]; rfl)
  have hok := hsettled hdigest
  rw [hout] at hok
  obtain rfl : settlement = .ok outcome := by
    cases settlement with
    | error => cases hok
    | ok o =>
      cases hok
      rfl
  rw [World.stream] at hreplay
  simp [exec, machine, worldStep, World.setCall, hcanonical, enter, hfree, bodyStep, World.stream,
    hreplay, runBody, Next.toCallPc]

/-- Once a terminal event is durable, in every run that follows, through crashes and restarts: the
stream of the key never grows and its sandbox never runs again; every later call of the recorded
request answers by the stream; and one that finds its key free returns what the stream says. -/
theorem execute_replays (hsha : Function.Injective sha256) {secrets : Option SecretBroker}
    {w w' : World} (h : (machine sha256).Reaches anyStep (World.initial secrets) w)
    (h' : (machine sha256).Reaches anyStep w w') {outcome : ExecutionOutcome}
    (hout : durableOutcome? (w.stream sha256 request.idempotencyKey) = some outcome)
    (hdigest : (w.stream sha256 request.idempotencyKey).findSome? requestedDigest? =
      some (requestDigest sha256 request)) :
    w'.stream sha256 request.idempotencyKey = w.stream sha256 request.idempotencyKey ∧
      w'.invoked request.idempotencyKey = w.invoked request.idempotencyKey ∧
      (∀ c call, w'.calls c = some call → w.nextCall ≤ c → call.request = request →
        Answers (w.stream sha256 request.idempotencyKey) call.pc) ∧
      ∀ candidate approval canonicalPath,
        canonicalizeActionRequest canonicalPath candidate = .ok request →
        w'.inflight request.idempotencyKey = none →
        ∃ w'', (machine sha256).exec w' [.execute candidate approval,
            .canonicalized w'.nextCall canonicalPath, .advance w'.nextCall .ok,
            .finish w'.nextCall] = some w'' ∧
          w''.calls w'.nextCall = some ⟨request, approval, .returned (.ok outcome)⟩ := by
  have hsafe : ∀ v, (machine sha256).Reaches anyStep w v → WorldSafe sha256 v :=
    fun v hv => reaches_safe hsha (h.trans hv)
  have hstart : Replayed sha256 request (w.stream sha256 request.idempotencyKey)
      (w.invoked request.idempotencyKey) w.nextCall w :=
    ⟨rfl, rfl, fun c call hc hfirst _ =>
      absurd (reaches_calls_lt h c call hc) (Nat.not_lt.mpr hfirst)⟩
  have hreplayed := h'.invariant₂ hsafe hstart fun _ _ _ hs hr _ =>
    worldStep_replayed hsha (by rw [hout]; rfl) hdigest hs hr
  refine ⟨hreplayed.stream, hreplayed.invoked, hreplayed.later, ?_⟩
  intro candidate approval canonicalPath hcanonical hfree
  obtain ⟨stage, hkey⟩ := (hsafe w' h').keys request.idempotencyKey
  rw [← hreplayed.stream] at hout hdigest
  exact exec_replays hkey.stream hout hdigest hfree approval hcanonical

end Worlds

/-- The sample call, whose sandbox throws; the failure is stored, and the call returns an error
result. -/
def failedRun : List WorldInput :=
  startedRun ++ [.thrown "boom", .ok, .ok, .ok].map (.advance 0) ++ [.finish 0]

def laterRun : List WorldInput :=
  [.execute sampleRequest (some .approved), .canonicalized 1 .ok, .advance 1 .ok, .finish 1]

def failedWorld : World := (machine id).execGet (World.initial none) failedRun rfl

set_option maxRecDepth 8000 in
theorem execute_replays_sample :
    .failed ∈ eventTypes (failedWorld.stream id "key") ∧
      ((machine id).execGet failedWorld laterRun rfl).stream id "key" =
        failedWorld.stream id "key" :=
  ⟨by decide, (execute_replays Function.injective_id
    (execGet_reaches failedRun rfl (guarded_anyStep _))
    (execGet_reaches laterRun rfl (guarded_anyStep _))
    (show durableOutcome? (failedWorld.stream id sampleRequest.idempotencyKey) =
      some (.reconciliationRequired reconciliationReason) from rfl) rfl).1⟩

set_option maxRecDepth 8000 in
/-- After a durable failure a later call does not get the recorded error result back. -/
theorem failed_not_replayed :
    .failed ∈ eventTypes (failedWorld.stream id "key") ∧
      (∃ result, (failedWorld.calls 0).map Call.pc = some (.returned (.ok (.result result false))) ∧
        result.isError = some true ∧ result.content = "boom") ∧
      (((machine id).execGet failedWorld laterRun rfl).calls 1).map Call.pc =
        some (.returned (.ok (.reconciliationRequired reconciliationReason))) :=
  ⟨by decide, ⟨_, rfl, rfl, rfl⟩, rfl⟩

end BeeAgent.Execution
