import BeeAgent.Data.Canonical
import BeeAgent.Execution.World

/-! The binding of a key: streams only grow, so the request recorded first under a key stays the
one it is bound to, and a call of any other request is turned away at its read. -/
namespace BeeAgent.Execution
open BeeAgent.Data BeeAgent.Chronicle Transition Transition.Machine

/-- The events that an append under way is to write. -/
def ExecutePc.pending : ExecutePc → List ExecutionPayload
  | .positioning events _ | .appending _ events _ => events
  | _ => []

def Next.pending : Next → List ExecutionPayload
  | .goto pc => pc.pending
  | .settle _ => []

section Body
variable {host : Host} {request : ActionRequest} {approval : Option ApprovalAnswer}

theorem replay_pending {existing : List ExecutionEvent} {payload : ExecutionPayload}
    (h : payload ∈ (replay host request existing).pending) :
    payload = .requested request (requestDigest host.sha256 request) := by
  unfold replay at h
  simp only at h
  split at h
  · simpa [appendThen, Next.pending, ExecutePc.pending] using h
  split at h
  · cases h
  split at h
  · cases h
  split at h
  · cases h
  split at h <;> cases h

theorem enforce_pending {existing : List ExecutionEvent} {decision : AuthorizationDecision}
    {capabilities : SandboxCapabilityReport} {payload : ExecutionPayload}
    (h : payload ∈ (enforce host request approval existing decision capabilities).pending) :
    payload.eventType ≠ .requested := by
  have hdeny : ∀ reason, payload ∈ (denyWith request reason).pending →
      payload.eventType ≠ .requested := by
    intro reason hmem
    rw [List.mem_singleton.mp hmem]
    exact nofun
  unfold enforce at h
  split at h
  · exact hdeny _ h
  split at h
  · simp only at h
    split at h
    · cases h
    · rw [List.mem_singleton.mp h]
      exact nofun
  split at h
  · exact hdeny _ h
  split at h
  · exact hdeny _ h
  simp only [appendThen, Next.pending, ExecutePc.pending, List.mem_cons, List.not_mem_nil,
    or_false] at h
  obtain rfl | rfl := h <;> exact nofun

theorem authorize_pending {existing : List ExecutionEvent} {policy : PolicyAnswer}
    {capabilities : SandboxCapabilityReport} {payload : ExecutionPayload}
    (h : payload ∈ (authorize host request approval existing policy capabilities).pending) :
    payload.eventType ≠ .requested := by
  unfold authorize at h
  split at h
  · exact enforce_pending h
  · rw [List.mem_singleton.mp h]
    exact nofun

theorem caught_pending {message : String} {payload : ExecutionPayload}
    (h : payload ∈ (caught host request message).pending) : payload.eventType ≠ .requested := by
  rw [List.mem_singleton.mp h]
  exact nofun

theorem appended_pending {after : After} {payload : ExecutionPayload}
    (h : payload ∈ (appended host request approval after).pending) :
    payload.eventType ≠ .requested := by
  cases after with
  | enforce => exact enforce_pending h
  | _ => cases h

theorem appendFailed_pending {after : After} {error : ExecutionError} {payload : ExecutionPayload}
    (h : payload ∈ (appendFailed host request error after).pending) :
    payload.eventType ≠ .requested := by
  cases after with
  | conclude => exact caught_pending h
  | _ => cases h

end Body

/-- An event that records a request records its digest too, and the request's id meets `P`. -/
def Binds (sha256 : String → String) (P : String → Prop) (payload : ExecutionPayload) : Prop :=
  ∀ request digest, payload = .requested request digest →
    P request.id ∧ digest = requestDigest sha256 request

section Binds
variable {sha256 : String → String} {P Q : String → Prop} {payload : ExecutionPayload}

theorem Binds.mono (hPQ : ∀ id, P id → Q id) (h : Binds sha256 P payload) :
    Binds sha256 Q payload :=
  fun request digest he => ⟨hPQ _ (h request digest he).1, (h request digest he).2⟩

theorem binds_of_ne (h : payload.eventType ≠ .requested) : Binds sha256 P payload := by
  rintro request digest rfl
  exact absurd rfl h

theorem binds_requested {request : ActionRequest} (h : P request.id) :
    Binds sha256 P (.requested request (requestDigest sha256 request)) := by
  rintro _ _ ⟨⟩
  exact ⟨h, rfl⟩

theorem bodyStep_binds {secrets : Option SecretBroker} {request : ActionRequest}
    {approval : Option ApprovalAnswer} {stream : List ExecutionEvent} {nextEventId : ℕ}
    {pc : ExecutePc} {await : Await} {b : BodyStep}
    (hb : bodyStep ⟨sha256, secrets⟩ request approval stream nextEventId pc await = some b)
    (hid : P request.id) (hpc : ∀ payload ∈ pc.pending, Binds sha256 P payload) :
    (∀ payload ∈ b.next.pending, Binds sha256 P payload) ∧
      ∃ es : List ExecutionEvent, b.stream = stream ++ es ∧
        ∀ e ∈ es, Binds sha256 P e.payload := by
  have hquiet : ∀ {next : Next}, (∀ payload ∈ next.pending, payload.eventType ≠ .requested) →
      (∀ payload ∈ next.pending, Binds sha256 P payload) ∧
        ∃ es : List ExecutionEvent, stream = stream ++ es ∧ ∀ e ∈ es, Binds sha256 P e.payload :=
    fun hnext => ⟨fun payload hmem => binds_of_ne (hnext payload hmem), [],
      (List.append_nil _).symm, fun _ he => by cases he⟩
  unfold bodyStep at hb
  split at hb <;> try (cases hb; done)
  · cases hb
    refine ⟨fun payload hmem => ?_, [], (List.append_nil _).symm, fun _ he => by cases he⟩
    rw [replay_pending hmem]
    exact binds_requested hid
  · cases hb
    exact hquiet fun _ hmem => by cases hmem
  · cases hb
    exact ⟨hpc, [], (List.append_nil _).symm, fun _ he => by cases he⟩
  · cases hb
    exact hquiet fun _ => appendFailed_pending
  · next expectedSequence events after =>
    split at hb
    · next stream' happend =>
      cases hb
      refine ⟨fun payload hmem => binds_of_ne (appended_pending hmem), ?_⟩
      obtain rfl | rfl := append_ok happend
      · exact ⟨[], (List.append_nil _).symm, fun _ he => by cases he⟩
      · refine ⟨_, rfl, fun e he => ?_⟩
        obtain ⟨i, hi, rfl⟩ := List.mem_mapIdx.mp he
        exact hpc _ (List.getElem_mem hi)
    · cases hb
      exact hquiet fun _ => appendFailed_pending
  · cases hb
    exact hquiet fun _ => appendFailed_pending
  · cases hb
    exact hquiet fun _ => authorize_pending
  · cases hb
    exact hquiet fun _ hmem => by cases hmem
  · cases hb
    exact hquiet fun _ hmem => by cases hmem
  · cases hb
    exact hquiet fun _ hmem => by cases hmem
  · cases hb
    exact hquiet fun _ hmem => by cases hmem
  · cases hb
    refine hquiet fun _ hmem => ?_
    rw [List.mem_singleton.mp hmem]
    exact nofun
  all_goals
    cases hb
    first
      | exact hquiet fun _ => caught_pending
      | exact hquiet fun _ hmem => by cases hmem

end Binds

section Worlds
variable {sha256 : String → String}

theorem canonicalizeActionRequest_key {canonicalPath : String → Except String String}
    {candidate request : ActionRequest}
    (h : canonicalizeActionRequest canonicalPath candidate = .ok request) :
    request.id = candidate.id ∧ request.idempotencyKey = candidate.idempotencyKey := by
  simp only [canonicalizeActionRequest, bind, Except.bind, pure, Except.pure] at h
  repeat' split at h
  all_goals cases h
  all_goals exact ⟨rfl, rfl⟩

theorem runBody_streams_self (w : World) (c : ℕ) (call : Call) (b : BodyStep) :
    (runBody sha256 w c call b).streams (executionStreamId sha256 call.request.idempotencyKey) =
      b.stream :=
  Function.update_self ..

theorem runBody_streams_of_ne (w : World) (c : ℕ) (call : Call) (b : BodyStep) {id : String}
    (hne : id ≠ executionStreamId sha256 call.request.idempotencyKey) :
    (runBody sha256 w c call b).streams id = w.streams id :=
  Function.update_of_ne hne ..

/-- Every call and every recorded request has an id that meets `P`. -/
structure Bound (sha256 : String → String) (P : String → Prop) (w : World) : Prop where
  requests : ∀ c call, w.calls c = some call → P call.request.id
  pending : ∀ c call pc, w.calls c = some call → call.pc = .executing pc →
    ∀ payload ∈ pc.pending, Binds sha256 P payload
  stored : ∀ id, ∀ e ∈ w.streams id, Binds sha256 P e.payload

variable {P Q : String → Prop}

theorem initial_bound (secrets : Option SecretBroker) :
    Bound sha256 P (World.initial secrets) where
  requests _ _ h := by cases h
  pending _ _ _ h := by cases h
  stored _ _ h := by cases h

theorem Bound.mono {w : World} (hPQ : ∀ id, P id → Q id) (h : Bound sha256 P w) :
    Bound sha256 Q w where
  requests c call hc := hPQ _ (h.requests c call hc)
  pending c call pc hc hpc payload hmem := (h.pending c call pc hc hpc payload hmem).mono hPQ
  stored id e he := (h.stored id e he).mono hPQ

theorem Bound.setCall {w : World} (h : Bound sha256 P w) (c : ℕ) (call : Call)
    (hid : P call.request.id)
    (hpc : ∀ pc, call.pc = .executing pc → ∀ payload ∈ pc.pending, Binds sha256 P payload) :
    Bound sha256 P (w.setCall c call) where
  requests c' call' hc := by
    obtain ⟨-, rfl⟩ | ⟨-, hc⟩ := setCall_calls_cases hc
    · exact hid
    · exact h.requests c' call' hc
  pending c' call' pc hc hpc' := by
    obtain ⟨-, rfl⟩ | ⟨-, hc⟩ := setCall_calls_cases hc
    · exact hpc pc hpc'
    · exact h.pending c' call' pc hc hpc'
  stored := h.stored

theorem worldMove_bound {w w' : World} {input : WorldInput} (h : Bound sha256 P w)
    (hmove : WorldMove sha256 w input w')
    (hexecute : ∀ candidate approval, input = .execute candidate approval → P candidate.id) :
    Bound sha256 P w' ∧ ∀ id, w.streams id <+: w'.streams id := by
  cases hmove with
  | @execute candidate approval =>
    have := h.setCall w.nextCall ⟨candidate, approval, .canonicalizing⟩
      (hexecute _ _ rfl) (fun _ hpc => by cases hpc)
    exact ⟨⟨this.requests, this.pending, this.stored⟩, fun _ => List.prefix_rfl⟩
  | @enter _ c call _ request hc hpc hreq =>
    have hid : P request.id := by
      rw [(canonicalizeActionRequest_key hreq).1]
      exact h.requests c call hc
    rw [enter]
    split
    · exact ⟨h.setCall c _ hid (fun _ hpc => by cases hpc), fun _ => List.prefix_rfl⟩
    · have := h.setCall c { call with request, pc := .executing .reading } hid (by
        rintro _ ⟨⟩ _ hmem
        cases hmem)
      exact ⟨⟨this.requests, this.pending, this.stored⟩, fun _ => List.prefix_rfl⟩
  | refuse hc | rejoin hc | reject hc =>
    have hid := h.requests _ _ hc
    exact ⟨h.setCall _ _ hid (fun _ hpc => by cases hpc), fun _ => List.prefix_rfl⟩
  | @body _ c call pc await b hc hpc hb =>
    have hid := h.requests c call hc
    obtain ⟨hnext, es, hes, hbinds⟩ := bodyStep_binds hb hid (h.pending c call pc hc hpc)
    have hset := h.setCall c { call with pc := b.next.toCallPc } hid (by
      intro pc' hpc'
      cases hgoto : b.next with
      | goto pc'' =>
        rw [hgoto] at hpc' hnext
        cases hpc'
        exact hnext
      | settle => rw [hgoto] at hpc'; cases hpc')
    have hstream : ∀ id, ∃ new, (runBody sha256 w c call b).streams id = w.streams id ++ new ∧
        ∀ e ∈ new, Binds sha256 P e.payload := by
      intro id
      by_cases hk : id = executionStreamId sha256 call.request.idempotencyKey
      · subst hk
        exact ⟨es, by rw [runBody_streams_self, hes, World.stream], hbinds⟩
      · exact ⟨[], by rw [runBody_streams_of_ne w c call b hk, List.append_nil],
          fun _ he => by cases he⟩
    refine ⟨⟨hset.requests, hset.pending, fun id e he => ?_⟩, fun id => ?_⟩
    · obtain ⟨new, hnew, hbinds⟩ := hstream id
      rw [hnew] at he
      exact (List.mem_append.mp he).elim (h.stored id e) (hbinds e)
    · obtain ⟨new, hnew, -⟩ := hstream id
      exact ⟨new, hnew.symm⟩
  | @finish _ c call settlement hc hpc =>
    have := h.setCall c { call with pc := .returned settlement } (h.requests c call hc)
      (fun _ hpc => by cases hpc)
    exact ⟨⟨this.requests, this.pending, this.stored⟩, fun _ => List.prefix_rfl⟩
  | crash =>
    refine ⟨⟨?_, ?_, h.stored⟩, fun _ => List.prefix_rfl⟩
    · intro _ _ hc
      cases hc
    · intro _ _ _ hc
      cases hc

/-- The stream of a key is bound to a request with another id than `id`. -/
def BoundElsewhere (sha256 : String → String) (stream : List ExecutionEvent) (id : String) : Prop :=
  ∃ digest, stream.findSome? requestedDigest? = some digest ∧
    ∀ request, request.id = id → requestDigest sha256 request ≠ digest

/-- Where a call may stand whose key is bound to another request: it never decides, appends or
runs, and never settles with an outcome. -/
def Turned : CallPc → Prop
  | .canonicalizing | .joined _ | .executing .reading => True
  | .settled settlement | .returned settlement => settlement.toOption.isNone
  | _ => False

structure TurnedAway (sha256 : String → String) (id idempotencyKey : String) (w : World) :
    Prop where
  bound : BoundElsewhere sha256 (w.stream sha256 idempotencyKey) id
  calls : ∀ c call, w.calls c = some call → call.request.id = id →
    call.request.idempotencyKey = idempotencyKey → Turned call.pc

theorem requestDigest_ne (hsha : Function.Injective sha256) {request request' : ActionRequest}
    (hne : request.id ≠ request'.id) :
    requestDigest sha256 request ≠ requestDigest sha256 request' := by
  intro hdigest
  have htext := hsha ((String.append_right_inj _).mp hdigest)
  obtain ⟨v, hv, hid⟩ := exists_field_of_canonicalJson htext (k := "id") (List.mem_cons_self ..)
  have hv : v = .string request'.id := by simpa using hv
  rw [hv] at hid
  exact hne (string_of_canonicalJson hid).symm

theorem BoundElsewhere.append {stream es : List ExecutionEvent} {id : String}
    (h : BoundElsewhere sha256 stream id) : BoundElsewhere sha256 (stream ++ es) id := by
  obtain ⟨digest, hfind, hne⟩ := h
  exact ⟨digest, by rw [List.findSome?_append, hfind, Option.some_or], hne⟩

theorem Bound.boundElsewhere (hsha : Function.Injective sha256) {w : World} (h : Bound sha256 P w)
    {key id : String} (hrequested : recorded .requested (w.stream sha256 key)) (hid : ¬ P id) :
    BoundElsewhere sha256 (w.stream sha256 key) id := by
  obtain ⟨e, he, htype⟩ := List.any_eq_true.mp hrequested
  have hsome : ((w.stream sha256 key).findSome? requestedDigest?).isSome := by
    refine List.findSome?_isSome_iff.mpr ⟨e, he, ?_⟩
    obtain ⟨_, payload⟩ := e
    cases payload <;> first | rfl | cases htype
  obtain ⟨digest, hdigest⟩ := Option.isSome_iff_exists.mp hsome
  refine ⟨digest, hdigest, fun request hreq heq => ?_⟩
  obtain ⟨e', he', hread⟩ := List.exists_of_findSome?_eq_some hdigest
  unfold requestedDigest? at hread
  split at hread
  · next recordedRequest _ hpayload =>
    cases hread
    obtain ⟨hP, rfl⟩ := h.stored _ e' he' _ _ hpayload
    refine requestDigest_ne hsha (fun hids => hid ?_) heq
    rwa [← hreq, hids]
  · cases hread

theorem replay_boundElsewhere (secrets : Option SecretBroker) {request : ActionRequest}
    {stream : List ExecutionEvent} (h : BoundElsewhere sha256 stream request.id) :
    replay ⟨sha256, secrets⟩ request stream =
      .settle (.error (.idempotencyKeyCollision request.idempotencyKey)) := by
  obtain ⟨digest, hfind, hne⟩ := h
  unfold replay
  simp only [hfind]
  exact if_pos (hne request rfl).symm

theorem TurnedAway.setCall {w : World} {id key : String} (h : TurnedAway sha256 id key w) (c : ℕ)
    (call : Call) (hcall : call.request.id = id → call.request.idempotencyKey = key →
      Turned call.pc) : TurnedAway sha256 id key (w.setCall c call) := by
  refine ⟨h.bound, fun c' call' hc hid hkey => ?_⟩
  obtain ⟨-, rfl⟩ | ⟨-, hc⟩ := setCall_calls_cases hc
  · exact hcall hid hkey
  · exact h.calls c' call' hc hid hkey

/-- A key that is bound elsewhere turns the calls of the request away, whatever runs beside. -/
theorem worldMove_turnedAway {w w' : World} {input : WorldInput} {id key : String}
    (hbound : Bound sha256 P w) (h : TurnedAway sha256 id key w)
    (hmove : WorldMove sha256 w input w') : TurnedAway sha256 id key w' := by
  cases hmove with
  | @execute candidate approval =>
    have := h.setCall w.nextCall ⟨candidate, approval, .canonicalizing⟩
      fun _ _ => trivial
    exact ⟨this.bound, this.calls⟩
  | @enter _ c call _ request hc hpc hreq =>
    rw [enter]
    split
    · exact h.setCall c _ fun _ _ => trivial
    · have := h.setCall c { call with request, pc := .executing .reading }
        fun _ _ => trivial
      exact ⟨this.bound, this.calls⟩
  | refuse | reject => exact h.setCall _ _ fun _ _ => rfl
  | rejoin => exact h.setCall _ _ fun _ _ => trivial
  | @body _ c call pc await b hc hpc hb =>
    obtain ⟨-, es, hes, -⟩ :=
      bodyStep_binds hb (hbound.requests c call hc) (hbound.pending c call pc hc hpc)
    have hset := h.setCall c { call with pc := b.next.toCallPc } (by
      intro hid hkey
      have hturned := h.calls c call hc hid hkey
      rw [hpc] at hturned
      -- the only await such a call can stand at is its read
      cases pc with
      | reading =>
        cases await with
        | ok =>
          cases hb
          have hkb := h.bound
          rw [← hkey, ← hid] at hkb
          rw [replay_boundElsewhere w.secrets hkb]
          rfl
        | thrown =>
          cases hb
          rfl
        | _ => cases hb
      | _ => cases hturned)
    refine ⟨?_, hset.calls⟩
    by_cases hk : executionStreamId sha256 key = executionStreamId sha256 call.request.idempotencyKey
    · rw [World.stream, hk, runBody_streams_self, hes, World.stream, ← hk]
      exact h.bound.append
    · rw [World.stream, runBody_streams_of_ne w c call b hk]
      exact h.bound
  | @finish _ c call settlement hc hpc =>
    have := h.setCall c { call with pc := .returned settlement } (by
      intro hid hkey
      have hturned := h.calls c call hc hid hkey
      rwa [hpc] at hturned)
    exact ⟨this.bound, this.calls⟩
  | crash => exact ⟨h.bound, fun _ _ hc => by cases hc⟩

theorem TurnedAway.exec {w : World} {id key : String} (h : TurnedAway sha256 id key w) {c : ℕ}
    {call : Call} (hc : w.calls c = some call) (hpc : call.pc = .canonicalizing)
    (hid : call.request.id = id) (hkey : call.request.idempotencyKey = key)
    (hfree : w.inflight key = none) {canonicalPath : String → Except String String}
    {request : ActionRequest}
    (hcanonical : canonicalizeActionRequest canonicalPath call.request = .ok request) :
    ∃ w', (machine sha256).exec w
        [.canonicalized c canonicalPath, .advance c .ok, .finish c] = some w' ∧
      (w'.calls c).map Call.pc = some (.returned (.error (.idempotencyKeyCollision key))) := by
  obtain ⟨hid', hkey'⟩ := canonicalizeActionRequest_key hcanonical
  have hbound := h.bound
  subst hid hkey
  rw [← hkey'] at hfree hbound ⊢
  rw [← hid'] at hbound
  have hreplay := replay_boundElsewhere w.secrets hbound
  rw [World.stream] at hreplay
  simp [Machine.exec, machine, worldStep, World.setCall, hc, hpc, hcanonical, enter, hfree,
    bodyStep, World.stream, hreplay, runBody, Next.toCallPc]

end Worlds

end BeeAgent.Execution
