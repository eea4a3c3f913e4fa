import BeeAgent.Execution.Redaction
import BeeAgent.Transition.Machine

/-! No secret leaves an execution, over the runs of executions that share one keychain broker. -/
namespace BeeAgent.Execution
open BeeAgent.Data BeeAgent.Chronicle Transition

/-- What the steps of the world outside `#execute` do to a call. -/
inductive Outside (calls : ℕ → Option Call) (d : ℕ) : Call → Prop where
  | same {call} (h : calls d = some call) : Outside calls d call
  | begun {request approval} : Outside calls d ⟨request, approval, .canonicalizing⟩
  | joined {request approval owner} : Outside calls d ⟨request, approval, .joined owner⟩
  | entered {request approval} : Outside calls d ⟨request, approval, .executing .reading⟩
  | refused {request approval error} : Outside calls d ⟨request, approval, .returned (.error error)⟩
  | finished {request approval settlement}
    (h : calls d = some ⟨request, approval, .settled settlement⟩) :
    Outside calls d ⟨request, approval, .returned settlement⟩

theorem outside_setCall {w : World} {c d : ℕ} {call call' : Call} (hcall : Outside w.calls c call)
    (h : (w.setCall c call).calls d = some call') : Outside w.calls d call' := by
  rcases setCall_calls_cases h with ⟨rfl, rfl⟩ | ⟨-, h⟩
  · exact hcall
  · exact .same h

theorem worldStep_outside {sha256 : String → String} {w w' : World} {input : WorldInput}
    (h : worldStep sha256 w input = some w') (hinput : ∀ c await, input ≠ .advance c await) :
    w'.streams = w.streams ∧ ∀ d call, w'.calls d = some call → Outside w.calls d call := by
  cases input with
  | advance c await => exact absurd rfl (hinput c await)
  | execute candidate approval =>
    cases h
    exact ⟨rfl, fun d call hd => outside_setCall .begun hd⟩
  | canonicalized c canonicalPath =>
    simp only [worldStep] at h
    split at h <;> [skip; cases h]
    split at h <;> [skip; cases h]
    split at h <;> cases h
    · unfold enter
      split
      · exact ⟨rfl, fun d call hd => outside_setCall .joined hd⟩
      · exact ⟨rfl, fun d call hd => outside_setCall .entered hd⟩
    · exact ⟨rfl, fun d call hd => outside_setCall .refused hd⟩
  | rejoin c =>
    simp only [worldStep] at h
    split at h <;> [skip; cases h]
    split at h <;> [skip; cases h]
    split at h <;> cases h
    · exact ⟨rfl, fun d call hd => outside_setCall .begun hd⟩
    · exact ⟨rfl, fun d call hd => outside_setCall .begun hd⟩
    · exact ⟨rfl, fun d call hd => outside_setCall .refused hd⟩
    · exact ⟨rfl, fun d call hd => outside_setCall .refused hd⟩
  | finish c =>
    simp only [worldStep] at h
    split at h <;> [skip; cases h]
    next call hc =>
    obtain ⟨request, approval, callPc⟩ := call
    cases callPc with
    | settled settlement =>
      cases h
      exact ⟨rfl, fun d call hd => outside_setCall (.finished hc) hd⟩
    | canonicalizing | joined | executing | returned => cases h
  | crash secrets =>
    cases h
    exact ⟨rfl, fun d call hd => by cases hd⟩

namespace SecuredWorld
variable {sha256 : String → String} {s t : SecuredWorld} {world : World} {c d : ℕ}
  {request : ActionRequest} {approval : Option ApprovalAnswer} {draw : EventDraw}
  {pc : ExecutePc} {await : Await} {input : WorldInput} {next : Next} {b : BodyStep}

/-- Where the step of a call takes the world. -/
def land (s : SecuredWorld) (world : World) (c : ℕ) (request : ActionRequest) (draw : EventDraw) :
    Next → SecuredWorld
  | .goto pc => s.arrive world c request draw pc
  | .settle _ => { s with world }

theorem step_advance (h : step sha256 s (.world (.advance c await) draw) = some t) :
    ∃ request approval pc b, s.world.calls c = some ⟨request, approval, .executing pc⟩ ∧
      bodyStep ⟨sha256, some ⟨s.broker.redact⟩⟩ request approval
        (s.world.stream sha256 request.idempotencyKey) s.world.nextEventId pc await = some b ∧
      t = s.land (runBody sha256 s.opened c ⟨request, approval, .executing pc⟩ b) c request draw
        b.next := by
  simp only [step] at h
  split at h <;> [skip; cases h]
  obtain ⟨world, hworld, rfl⟩ := Option.map_eq_some_iff.mp h
  simp only [worldStep] at hworld
  split at hworld <;> [skip; cases hworld]
  next call hc =>
  obtain ⟨request, approval, callPc⟩ := call
  cases callPc with
  | executing pc =>
    obtain ⟨b, hb, rfl⟩ := Option.map_eq_some_iff.mp hworld
    refine ⟨request, approval, pc, b, hc, hb, ?_⟩
    have hself : (runBody sha256 s.opened c ⟨request, approval, .executing pc⟩ b).calls c =
        some ⟨request, approval, b.next.toCallPc⟩ := Function.update_self ..
    simp only [follow, hself]
    cases hnext : b.next <;> rfl
  | canonicalizing | joined | settled | returned => cases hworld

theorem step_outside (h : step sha256 s (.world input draw) = some t)
    (hinput : ∀ c await, input ≠ .advance c await) :
    t.world.streams = s.world.streams ∧ t.reports = s.reports ∧
      t.broker.resolved = s.broker.resolved ∧
      (t.broker.materialized = s.broker.materialized ∨ ∀ d, t.world.calls d = none) ∧
      ∀ d call, t.world.calls d = some call → Outside s.world.calls d call := by
  simp only [step] at h
  split at h <;> [skip; cases h]
  obtain ⟨world, hworld, rfl⟩ := Option.map_eq_some_iff.mp h
  obtain ⟨hstreams, hcalls⟩ := worldStep_outside hworld hinput
  cases input with
  | advance c await => exact absurd rfl (hinput c await)
  | execute | canonicalized | rejoin | finish => exact ⟨hstreams, rfl, rfl, .inl rfl, hcalls⟩
  | crash secrets =>
    cases hworld
    exact ⟨rfl, rfl, rfl, .inr fun _ => rfl, hcalls⟩

theorem step_resolve {value : String} (h : step sha256 s (.resolve c value) = some t) :
    value ≠ "" ∧ t = { s with broker := s.broker.resolve c value } := by
  simp only [step] at h
  split at h <;> [skip; cases h]
  split at h <;> [skip; cases h]
  next hvalue =>
  cases h
  exact ⟨hvalue.1, rfl⟩

def ending? (sha256 : String → String) (s : SecuredWorld) (request : ActionRequest)
    (pc : ExecutePc) (await : Await) : Option Ending :=
  Execution.ending? sha256 request (s.world.stream sha256 request.idempotencyKey)
    s.world.nextEventId pc await

/-- The condition on a step: secrets are materialised under an id that the broker keeps no other
set for, and what a call concludes with can be redacted. -/
def Secure (sha256 : String → String) (s : SecuredWorld) : SecuredInput → Prop
  | .world (.advance c await) draw =>
    match s.world.calls c with
    | some ⟨request, _, .executing pc⟩ =>
      (∀ e ∈ s.ending? sha256 request pc await, s.Redactable c request draw e) ∧
        (pc.Starts → s.broker.materialized.get request.id = none)
    | _ => True
  | _ => True

instance (sha256 : String → String) (s : SecuredWorld) (i : SecuredInput) :
    Decidable (Secure sha256 s i) := by
  unfold Secure
  split
  · split <;> infer_instance
  · infer_instance

/-- What the step of a call does to the broker and to the reports. -/
inductive Landing (sha256 : String → String) (s : SecuredWorld) (world : World) (c : ℕ)
    (request : ActionRequest) (draw : EventDraw) (pc : ExecutePc) (await : Await) :
    Next → SecuredWorld → Prop where
  | quiet {next : Next} (hnext : ∀ pc', next = .goto pc' → pc'.Holds → pc.Holds) :
    Landing sha256 s world c request draw pc await next { s with world }
  | starts {decision} (hpc : pc.Starts) :
    Landing sha256 s world c request draw pc await (.goto (.materializing decision))
      { s with world, broker := s.broker.materialize c request.id }
  | concludes {e : Ending} {next : Next} (hpc : pc.Holds)
    (he : s.ending? sha256 request pc await = some e)
    (hnext : next = appendThen [e.payload ⟨s.broker.redact⟩ request] (e.after ⟨s.broker.redact⟩)) :
    Landing sha256 s world c request draw pc await next
      { s with world, reports := s.reports ++ [s.report c request draw e] }
  | releases {settlement} (hpc : pc.Holds) :
    Landing sha256 s world c request draw pc await (.goto (.releasing settlement))
      { s with world, broker := s.broker.release request.id }

theorem report?_of_not_concluding {secrets : List String} {events : List ExecutionPayload}
    {after : After} (h : ¬ after.Concluding) :
    report? c secrets request draw (.positioning events after) = none := by
  cases after with
  | conclude | concludeFailed => exact absurd trivial h
  | decide | enforce | respond | run => rcases events with - | ⟨p, - | ⟨q, ps⟩⟩ <;> rfl

theorem land_preliminary {stream : List ExecutionEvent} (h : Preliminary stream next) :
    s.land world c request draw next = { s with world } ∧
      ∀ pc', next = .goto pc' → ¬ pc'.Holds := by
  cases h with
  | positioning hafter =>
    refine ⟨?_, fun pc' h => ?_⟩
    · simp [land, appendThen, arrive, report?_of_not_concluding hafter]
    · cases h
      exact hafter
  | deciding =>
    refine ⟨by simp [land, arrive, report?], fun pc' h => ?_⟩
    cases h
    exact id
  | replayed | refused | reconcile | asked | rejected => exact ⟨rfl, fun _ h => by cases h⟩

theorem land_conclude (e : Ending) :
    s.land world c request draw
        (appendThen [e.payload ⟨s.broker.redact⟩ request] (e.after ⟨s.broker.redact⟩)) =
      { s with world, reports := s.reports ++ [s.report c request draw e] } := by
  cases e <;> rfl

theorem landing (h : BodyMove sha256 ⟨s.broker.redact⟩ request
      (s.world.stream sha256 request.idempotencyKey) s.world.nextEventId await pc b) :
    Landing sha256 s world c request draw pc await b.next
      (s.land world c request draw b.next) := by
  obtain ⟨next, stream, drawn, invoked⟩ := b
  cases h with
  | preliminary hpc hnext hstream =>
    obtain ⟨hland, hholds⟩ := land_preliminary (s := s) hnext
    rw [hland]
    exact .quiet fun pc' h hpc' => absurd hpc' (hholds pc' h)
  | @position events after k _ hnext hstream =>
    cases hnext
    have hland : s.land world c request draw (.goto (.appending k events after)) =
        { s with world } := by
      simp [land, arrive, report?]
    rw [hland]
    exact .quiet fun pc' h hpc' => by
      cases h
      exact hpc'
  | proceed hafter hnext hstream =>
    rcases hnext with hnext | ⟨outcome, -, hnext⟩ | ⟨decision, rfl, hnext⟩
    · obtain ⟨hland, hholds⟩ := land_preliminary (s := s) hnext
      rw [hland]
      exact .quiet fun pc' h hpc' => absurd hpc' (hholds pc' h)
    · cases hnext
      exact .quiet fun _ h => by cases h
    · cases hnext
      have hland : s.land world c request draw (.goto (.materializing decision)) =
          { s with world, broker := s.broker.materialize c request.id } := by
        simp [land, arrive, report?]
      rw [hland]
      exact .starts trivial
  | @run _ pc' _ hpc hnext hpc' hstream =>
    cases hnext
    have hland : s.land world c request draw (.goto pc') = { s with world } := by
      cases pc' with
      | snapshotting | invoking | observing => simp [land, arrive, report?]
      | _ => cases hpc'
    rw [hland]
    exact .quiet fun _ _ _ => hpc
  | @conclude _ e _ hpc he hnext hstream =>
    obtain rfl : next = _ := hnext
    rw [land_conclude]
    exact .concludes hpc he rfl
  | recorded hafter hnext hstream =>
    cases hnext
    have hland : ∀ settlement, s.land world c request draw (.goto (.releasing settlement)) =
        { s with world, broker := s.broker.release request.id } := by
      simp [land, arrive, report?]
    rw [hland]
    exact .releases (by rcases hafter with rfl | rfl <;> trivial)
  | lost hpc hnext hstream =>
    cases hnext
    have hland : ∀ settlement, s.land world c request draw (.goto (.releasing settlement)) =
        { s with world, broker := s.broker.release request.id } := by
      simp [land, arrive, report?]
    rw [hland]
    exact .releases hpc
  | released hnext hstream =>
    rcases hnext with hnext | ⟨error, hnext⟩
    · cases hnext
      exact .quiet fun _ h => by cases h
    · cases hnext
      exact .quiet fun _ h => by cases h

/-- The set of a call is the one that the broker keeps for its request, from the first await of
`materialize` to the release. -/
structure Sealed (s : SecuredWorld) : Prop where
  held : ∀ c request approval pc, s.world.calls c = some ⟨request, approval, .executing pc⟩ →
    pc.Holds → s.broker.materialized.get request.id = some c
  nonempty : ∀ c, "" ∉ s.broker.resolved c
  clean : ∀ r ∈ s.reports, r.Clean

theorem initial_sealed : Sealed initial where
  held := fun _ _ _ _ h => by cases h
  nonempty := fun _ => List.not_mem_nil
  clean := fun _ h => absurd h List.not_mem_nil

theorem Sealed.report_clean_iff (h : Sealed s) {e : Ending}
    (hc : s.world.calls c = some ⟨request, approval, .executing pc⟩) (hpc : pc.Holds) :
    (s.report c request draw e).Clean ↔ s.Redactable c request draw e :=
  SecuredWorld.report_clean_iff (h.held c request approval pc hc hpc) (h.nonempty c)

theorem Sealed.resolve (h : Sealed s) {value : String} (hvalue : value ≠ "") :
    Sealed { s with broker := s.broker.resolve c value } where
  held := h.held
  nonempty := fun d => by
    by_cases hd : d = c
    · subst hd
      simp [KeychainSecretBroker.resolve, h.nonempty d, hvalue.symm]
    · simp [KeychainSecretBroker.resolve, Function.update_of_ne hd, h.nonempty d]
  clean := h.clean

theorem Sealed.outside (h : Sealed s) (hreports : t.reports = s.reports)
    (hresolved : t.broker.resolved = s.broker.resolved)
    (hmaterialized : t.broker.materialized = s.broker.materialized ∨ ∀ d, t.world.calls d = none)
    (hcalls : ∀ d call, t.world.calls d = some call → Outside s.world.calls d call) :
    Sealed t where
  held := fun d request approval pc hd hpc => by
    rcases hmaterialized with hmaterialized | hnone
    · rw [hmaterialized]
      cases hcalls d _ hd with
      | same hd => exact h.held d request approval pc hd hpc
      | entered => cases hpc
    · rw [hnone d] at hd
      cases hd
  nonempty := fun d => hresolved ▸ h.nonempty d
  clean := hreports ▸ h.clean

theorem Sealed.landing (h : Sealed s)
    (hc : s.world.calls c = some ⟨request, approval, .executing pc⟩)
    (hguard : (∀ e ∈ s.ending? sha256 request pc await, s.Redactable c request draw e) ∧
      (pc.Starts → s.broker.materialized.get request.id = none))
    (hself : world.calls c = some ⟨request, approval, next.toCallPc⟩)
    (hothers : ∀ d, d ≠ c → world.calls d = s.world.calls d)
    (hland : Landing sha256 s world c request draw pc await next t) : Sealed t := by
  have hother : ∀ d request' approval' pc', world.calls d =
      some ⟨request', approval', .executing pc'⟩ →
      (d = c ∧ request' = request ∧ next = .goto pc') ∨
        d ≠ c ∧ s.world.calls d = some ⟨request', approval', .executing pc'⟩ := by
    intro d request' approval' pc' hd
    by_cases hdc : d = c
    · subst hdc
      rw [hself, Option.some.injEq, Call.mk.injEq] at hd
      obtain ⟨rfl, -, hpc'⟩ := hd
      refine .inl ⟨rfl, rfl, ?_⟩
      cases next with
      | goto pc'' =>
        cases hpc'
        rfl
      | settle => cases hpc'
    · exact .inr ⟨hdc, hothers d hdc ▸ hd⟩
  cases hland with
  | quiet hnext =>
    refine ⟨fun d request' approval' pc' hd hpc' => ?_, h.nonempty, h.clean⟩
    rcases hother d request' approval' pc' hd with ⟨rfl, rfl, hpc⟩ | ⟨-, hd⟩
    · exact h.held d request' approval pc hc (hnext pc' hpc hpc')
    · exact h.held d request' approval' pc' hd hpc'
  | concludes hpc he hnext =>
    refine ⟨fun d request' approval' pc' hd hpc' => ?_, h.nonempty, fun r hr => ?_⟩
    · rcases hother d request' approval' pc' hd with ⟨rfl, rfl, -⟩ | ⟨-, hd⟩
      · exact h.held d request' approval pc hc hpc
      · exact h.held d request' approval' pc' hd hpc'
    · rcases List.mem_append.mp hr with hr | hr
      · exact h.clean r hr
      · obtain rfl := List.mem_singleton.mp hr
        exact (h.report_clean_iff hc hpc).mpr (hguard.1 _ he)
  | starts hpc =>
    refine ⟨fun d request' approval' pc' hd hpc' => ?_, fun d => ?_, h.clean⟩
    · simp only [KeychainSecretBroker.materialize, OrderedMap.get_set]
      rcases hother d request' approval' pc' hd with ⟨rfl, rfl, -⟩ | ⟨-, hd⟩
      · exact if_pos rfl
      · have hheld := h.held d request' approval' pc' hd hpc'
        have hid : request'.id ≠ request.id := fun heq => by
          rw [heq, hguard.2 hpc] at hheld
          cases hheld
        rw [if_neg hid]
        exact hheld
    · by_cases hd : d = c
      · subst hd
        simp [KeychainSecretBroker.materialize]
      · simp [KeychainSecretBroker.materialize, Function.update_of_ne hd, h.nonempty d]
  | releases hpc =>
    refine ⟨fun d request' approval' pc' hd hpc' => ?_, h.nonempty, h.clean⟩
    rcases hother d request' approval' pc' hd with ⟨-, -, hgoto⟩ | ⟨hne, hd⟩
    · cases hgoto
      cases hpc'
    · have hheld := h.held d request' approval' pc' hd hpc'
      -- The ids differ: the broker keeps one call for an id.
      have hid : request'.id ≠ request.id := fun heq => hne <| by
        rw [heq, h.held c request approval pc hc hpc] at hheld
        exact (Option.some.inj hheld).symm
      simpa [KeychainSecretBroker.release, OrderedMap.get_delete, hid] using hheld

/-- A report stands behind what the call is about to record and return. -/
def Reported (s : SecuredWorld) (c : ℕ) (payload : ExecutionPayload) (outcome : ExecutionOutcome) :
    Prop :=
  ∃ r ∈ s.reports, r.call = c ∧ r.payload = payload ∧ r.outcome = outcome

/-- A result comes from a report of the call, or it is replayed and its report recorded it. -/
def Returned (s : SecuredWorld) (c : ℕ) (outcome : ExecutionOutcome) : Prop :=
  ∀ result replayed, outcome = .result result replayed →
    ∃ r ∈ s.reports, (r.call = c ∧ r.outcome = outcome) ∨
      replayed = true ∧ ∃ id, r.payload = .completed id result

def TracedAppend (s : SecuredWorld) (c : ℕ) (events : List ExecutionPayload) (after : After) :
    Prop :=
  (∀ outcome, after = .conclude outcome ∨ after = .concludeFailed outcome →
      ∃ payload, events = [payload] ∧ s.Reported c payload outcome) ∧
    (¬ after.Concluding → ∀ p ∈ events, ¬ p.Concluding) ∧
    ∀ outcome, after = .respond outcome → ¬ outcome.IsResult

def TracedPc (s : SecuredWorld) (c : ℕ) : ExecutePc → Prop
  | .positioning events after | .appending _ events after => s.TracedAppend c events after
  | .releasing settlement => ∀ outcome, settlement = .ok outcome → s.Returned c outcome
  | _ => True

def TracedCall (s : SecuredWorld) (c : ℕ) : CallPc → Prop
  | .executing pc => s.TracedPc c pc
  | .settled settlement | .returned settlement =>
    ∀ outcome, settlement = .ok outcome → s.Returned c outcome
  | _ => True

def TracedEvent (s : SecuredWorld) (e : ExecutionEvent) : Prop :=
  e.payload.Concluding → ∃ r ∈ s.reports, r.payload = e.payload

structure Traced (s : SecuredWorld) : Prop where
  calls : ∀ c call, s.world.calls c = some call → s.TracedCall c call.pc
  streams : ∀ id, ∀ e ∈ s.world.streams id, s.TracedEvent e

theorem initial_traced : Traced initial where
  calls := fun _ _ h => by cases h
  streams := fun _ _ h => absurd h List.not_mem_nil

theorem Returned.of_not_result {outcome : ExecutionOutcome} (h : ¬ outcome.IsResult) :
    s.Returned c outcome := by
  rintro result replayed rfl
  exact absurd trivial h

theorem Reported.returned {payload : ExecutionPayload} {outcome : ExecutionOutcome}
    (h : s.Reported c payload outcome) : s.Returned c outcome := by
  obtain ⟨r, hr, hcall, -, houtcome⟩ := h
  exact fun _ _ _ => ⟨r, hr, .inl ⟨hcall, houtcome⟩⟩

section Mono
variable (hreports : ∀ r ∈ s.reports, r ∈ t.reports)
include hreports

theorem Returned.mono {outcome : ExecutionOutcome} (h : s.Returned c outcome) :
    t.Returned c outcome := by
  intro result replayed heq
  obtain ⟨r, hr, h⟩ := h result replayed heq
  exact ⟨r, hreports r hr, h⟩

theorem TracedAppend.mono {events : List ExecutionPayload} {after : After}
    (h : s.TracedAppend c events after) : t.TracedAppend c events after := by
  refine ⟨fun outcome hafter => ?_, h.2⟩
  obtain ⟨payload, hevents, r, hr, hreport⟩ := h.1 outcome hafter
  exact ⟨payload, hevents, r, hreports r hr, hreport⟩

theorem TracedCall.mono {callPc : CallPc} (h : s.TracedCall c callPc) : t.TracedCall c callPc := by
  cases callPc with
  | executing pc =>
    cases pc with
    | positioning | appending => exact TracedAppend.mono hreports h
    | releasing settlement => exact fun outcome heq => (h outcome heq).mono hreports
    | _ => trivial
  | settled | returned => exact fun outcome heq => (h outcome heq).mono hreports
  | canonicalizing | joined => trivial

theorem TracedEvent.mono {e : ExecutionEvent} (h : s.TracedEvent e) : t.TracedEvent e := by
  intro he
  obtain ⟨r, hr, hpayload⟩ := h he
  exact ⟨r, hreports r hr, hpayload⟩

end Mono

theorem traced_preliminary {stream : List ExecutionEvent} (hstream : ∀ e ∈ stream, s.TracedEvent e)
    (h : Preliminary stream next) : s.TracedCall c next.toCallPc := by
  cases h with
  | deciding => trivial
  | positioning hafter hrespond hevents =>
    refine ⟨fun outcome h => absurd ?_ hafter, fun _ => hevents, hrespond⟩
    rcases h with rfl | rfl <;> trivial
  | @replayed result hresult =>
    intro outcome houtcome result' replayed heq
    obtain rfl := Except.ok.inj houtcome
    cases heq
    obtain ⟨e, he, hcompleted⟩ := hresult
    cases hpayload : e.payload with
    | completed id recorded =>
      obtain rfl : recorded = result := by simpa [completedResult?, hpayload] using hcompleted
      obtain ⟨r, hr, hreported⟩ := hstream e he (by simp [hpayload])
      exact ⟨r, hr, .inr ⟨rfl, id, hreported.trans hpayload⟩⟩
    | _ => simp [completedResult?, hpayload] at hcompleted
  | refused | reconcile | asked =>
    rintro outcome houtcome
    obtain rfl := Except.ok.inj houtcome
    exact .of_not_result id
  | rejected =>
    rintro outcome houtcome
    cases houtcome

theorem mem_stamp {e : ExecutionEvent} {n : ℕ} {events : List ExecutionPayload}
    (h : e ∈ stamp n events) : e.payload ∈ events := by
  obtain ⟨i, hi, rfl⟩ := List.mem_mapIdx.mp h
  exact List.getElem_mem hi

theorem TracedAppend.stamped {n : ℕ} {events : List ExecutionPayload} {after : After}
    (h : s.TracedAppend c events after) : ∀ e ∈ stamp n events, s.TracedEvent e := by
  intro e he hconcluding
  have hmem := mem_stamp he
  by_cases hafter : after.Concluding
  · obtain ⟨outcome, houtcome⟩ : ∃ outcome, after = .conclude outcome ∨
        after = .concludeFailed outcome := by
      cases after with
      | conclude outcome => exact ⟨outcome, .inl rfl⟩
      | concludeFailed outcome => exact ⟨outcome, .inr rfl⟩
      | _ => cases hafter
    obtain ⟨payload, rfl, r, hr, -, hpayload, -⟩ := h.1 outcome houtcome
    exact ⟨r, hr, hpayload.trans (List.mem_singleton.mp hmem).symm⟩
  · exact absurd hconcluding (h.2.1 hafter e.payload hmem)

theorem traced_body {stream : List ExecutionEvent} {n : ℕ} {broker : SecretBroker}
    (hstream : ∀ e ∈ stream, s.TracedEvent e) (hpc : s.TracedPc c pc)
    (h : BodyMove sha256 broker request stream n await pc b)
    (hreports : ∀ r ∈ s.reports, r ∈ t.reports)
    (hreported : ∀ e, Execution.ending? sha256 request stream n pc await = some e →
      t.Reported c (e.payload broker request) (e.outcome broker)) :
    t.TracedCall c b.next.toCallPc ∧ ∀ e ∈ b.stream, s.TracedEvent e := by
  have happended : ∀ {events after}, s.TracedAppend c events after →
      (b.stream = stream ∨ b.stream = stream ++ stamp n events) →
      ∀ e ∈ b.stream, s.TracedEvent e := by
    rintro events after hafter (hb | hb) e he
    · exact hstream e (hb ▸ he)
    · rcases List.mem_append.mp (hb ▸ he) with he | he
      · exact hstream e he
      · exact hafter.stamped e he
  cases h with
  | preliminary _ hnext hb =>
    exact ⟨(traced_preliminary hstream hnext).mono hreports, hb ▸ hstream⟩
  | position hnext hb =>
    rw [hnext]
    exact ⟨TracedAppend.mono hreports hpc, hb ▸ hstream⟩
  | proceed hafter hnext hb =>
    refine ⟨?_, happended hpc hb⟩
    rcases hnext with hnext | ⟨outcome, rfl, hnext⟩ | ⟨decision, -, hnext⟩
    · exact (traced_preliminary hstream hnext).mono hreports
    · rw [hnext]
      intro outcome' heq
      obtain rfl := Except.ok.inj heq
      exact .of_not_result (hpc.2.2 _ rfl)
    · rw [hnext]
      trivial
  | @run _ pc' _ _ hnext hpc' hb =>
    refine ⟨?_, hb ▸ hstream⟩
    rw [hnext]
    cases pc' with
    | snapshotting | invoking | observing => trivial
    | _ => cases hpc'
  | @conclude _ e _ _ he hnext hb =>
    refine ⟨?_, hb ▸ hstream⟩
    rw [hnext]
    refine ⟨fun outcome h => ⟨_, rfl, ?_⟩, fun hafter => absurd ?_ hafter, fun outcome h => ?_⟩
    · obtain rfl : e.outcome broker = outcome := by
        cases e <;> rcases h with h | h <;> cases h <;> rfl
      exact hreported e he
    · cases e <;> trivial
    · cases e <;> cases h
  | recorded hafter hnext hb =>
    refine ⟨?_, happended hpc hb⟩
    rw [hnext]
    intro outcome heq
    obtain rfl := Except.ok.inj heq
    obtain ⟨payload, -, hreport⟩ := hpc.1 _ hafter
    exact hreport.returned.mono hreports
  | lost _ hnext hb =>
    refine ⟨?_, hb ▸ hstream⟩
    rw [hnext]
    intro outcome heq
    cases heq
  | released hnext hb =>
    refine ⟨?_, hb ▸ hstream⟩
    rcases hnext with hnext | ⟨error, hnext⟩
    · rw [hnext]
      exact fun outcome heq => (hpc outcome heq).mono hreports
    · rw [hnext]
      intro outcome heq
      cases heq

theorem land_world (s : SecuredWorld) (world : World) (c : ℕ) (request : ActionRequest)
    (draw : EventDraw) (next : Next) : (s.land world c request draw next).world = world := by
  cases next <;> rfl

theorem land_reports (s : SecuredWorld) (world : World) (c : ℕ) (request : ActionRequest)
    (draw : EventDraw) (next : Next) :
    ∀ r ∈ s.reports, r ∈ (s.land world c request draw next).reports := by
  cases next with
  | goto pc => exact fun r hr => List.mem_append_left _ hr
  | settle => exact fun r hr => hr

theorem Traced.land (h : Traced s) (hc : s.world.calls c = some ⟨request, approval, .executing pc⟩)
    (hb : bodyStep ⟨sha256, some ⟨s.broker.redact⟩⟩ request approval
      (s.world.stream sha256 request.idempotencyKey) s.world.nextEventId pc await = some b)
    (ht : t = s.land (runBody sha256 s.opened c ⟨request, approval, .executing pc⟩ b) c request draw
      b.next) : Traced t := by
  have hworld := s.land_world (runBody sha256 s.opened c ⟨request, approval, .executing pc⟩ b) c
    request draw b.next
  have hreports : ∀ r ∈ s.reports, r ∈ t.reports := ht ▸ s.land_reports _ c request draw b.next
  rw [← ht] at hworld
  have hreported : ∀ e, s.ending? sha256 request pc await = some e →
      t.Reported c (e.payload ⟨s.broker.redact⟩ request) (e.outcome ⟨s.broker.redact⟩) := by
    intro e he
    rw [ht, bodyStep_ending he hb, land_conclude]
    exact ⟨_, List.mem_append_right _ (List.mem_singleton_self _), rfl, rfl, rfl⟩
  obtain ⟨hcall, hstream⟩ := traced_body (fun e he => h.streams _ e he) (h.calls c _ hc)
    (bodyStep_move hb) hreports hreported
  refine ⟨fun d call hd => ?_, fun id e he => ?_⟩
  · rw [hworld] at hd
    rcases setCall_calls_cases hd with ⟨rfl, rfl⟩ | ⟨-, hd⟩
    · exact hcall
    · exact (h.calls d call hd).mono hreports
  · rw [hworld] at he
    by_cases hid : id = executionStreamId sha256 request.idempotencyKey
    · subst hid
      have hself : (runBody sha256 s.opened c ⟨request, approval, .executing pc⟩ b).streams
          (executionStreamId sha256 request.idempotencyKey) = b.stream := Function.update_self ..
      exact (hstream e (hself ▸ he)).mono hreports
    · have hother : (runBody sha256 s.opened c ⟨request, approval, .executing pc⟩ b).streams id =
          s.world.streams id := Function.update_of_ne hid ..
      rw [hother] at he
      exact (h.streams id e he).mono hreports

theorem Traced.outside (h : Traced s) (hstreams : t.world.streams = s.world.streams)
    (hreports : t.reports = s.reports)
    (hcalls : ∀ d call, t.world.calls d = some call → Outside s.world.calls d call) :
    Traced t where
  calls := fun d call hd => by
    have hmono : ∀ r ∈ s.reports, r ∈ t.reports := fun r hr => hreports ▸ hr
    cases hcalls d call hd with
    | same hd => exact (h.calls d call hd).mono hmono
    | begun | joined | entered => trivial
    | refused => exact fun outcome heq => by cases heq
    | finished hsettled =>
      exact fun outcome heq => (h.calls d _ hsettled outcome heq).mono hmono
  streams := fun id e he =>
    (h.streams id e (hstreams ▸ he)).mono fun r hr => hreports ▸ hr

theorem step_traced (h : Traced s) {i : SecuredInput} (hstep : step sha256 s i = some t) :
    Traced t := by
  cases i with
  | world input draw =>
    by_cases hinput : ∃ c await, input = .advance c await
    · obtain ⟨c, await, rfl⟩ := hinput
      obtain ⟨request, approval, pc, b, hc, hb, ht⟩ := step_advance hstep
      exact h.land hc hb ht
    · obtain ⟨hstreams, hreports, -, -, hcalls⟩ :=
        step_outside hstep fun c await heq => hinput ⟨c, await, heq⟩
      exact h.outside hstreams hreports hcalls
  | resolve c value =>
    obtain ⟨hvalue, rfl⟩ := step_resolve hstep
    exact ⟨h.calls, h.streams⟩

theorem step_sealed (h : Sealed s) {i : SecuredInput} (hguard : Secure sha256 s i)
    (hstep : step sha256 s i = some t) : Sealed t := by
  cases i with
  | world input draw =>
    by_cases hinput : ∃ c await, input = .advance c await
    · obtain ⟨c, await, rfl⟩ := hinput
      obtain ⟨request, approval, pc, b, hc, hb, rfl⟩ := step_advance hstep
      simp only [Secure, hc] at hguard
      refine h.landing hc hguard ?_ (fun d hd => ?_)
        (landing (bodyStep_move hb))
      · exact Function.update_self ..
      · exact Function.update_of_ne hd ..
    · obtain ⟨-, hreports, hresolved, hmaterialized, hcalls⟩ :=
        step_outside hstep fun c await heq => hinput ⟨c, await, heq⟩
      exact h.outside hreports hresolved hmaterialized hcalls
  | resolve c value =>
    obtain ⟨hvalue, rfl⟩ := step_resolve hstep
    exact h.resolve hvalue

/-- In runs that meet the condition, what executions record and return holds no secret; and a
conclusion is free of secrets exactly when its step meets the condition. -/
theorem no_secret_recorded (h : (machine sha256).Reaches (Secure sha256) initial s) :
    (∀ r ∈ s.reports, r.Clean) ∧
      (∀ id, ∀ e ∈ s.world.streams id, e.payload.Concluding →
        ∃ r ∈ s.reports, r.payload = e.payload) ∧
      (∀ c call outcome, s.world.calls c = some call →
        call.pc = .settled (.ok outcome) ∨ call.pc = .returned (.ok outcome) →
        s.Returned c outcome) ∧
      ∀ c request approval pc await draw e t,
        s.world.calls c = some ⟨request, approval, .executing pc⟩ →
        s.ending? sha256 request pc await = some e →
        (machine sha256).step s (.world (.advance c await) draw) = some t →
        t.reports = s.reports ++ [s.report c request draw e] ∧
          ((s.report c request draw e).Clean ↔ s.Redactable c request draw e) := by
  have hsealed : Sealed s := h.invariant initial_sealed fun s i t hs hi hstep =>
    step_sealed hs hi hstep
  have htraced : Traced s := h.invariant initial_traced fun s i t hs _ hstep =>
    step_traced hs hstep
  refine ⟨hsealed.clean, htraced.streams, fun c call outcome hc hpc => ?_, ?_⟩
  · have hcall := htraced.calls c call hc
    rcases hpc with hpc | hpc <;> rw [hpc] at hcall <;> exact hcall outcome rfl
  · intro c request approval pc await draw e t hc he hstep
    obtain ⟨request', approval', pc', b, hc', hb, rfl⟩ := step_advance hstep
    obtain ⟨rfl, rfl, rfl⟩ : request = request' ∧ approval = approval' ∧ pc = pc' := by
      simpa using hc.symm.trans hc'
    refine ⟨by rw [bodyStep_ending he hb, land_conclude], hsealed.report_clean_iff hc ?_⟩
    exact ending?_holds he

def sampleRequest : ActionRequest :=
  { id := "request", idempotencyKey := "key", capability := "shell.run",
    subject := ⟨.agent, "bee"⟩, input := .null,
    requirements := { secretEnv := [("TOKEN", "keychain:bee/token")] }, expectedEffects := [],
    verification := [], scope := ⟨"thread", "turn", none⟩, structureVersion := none }

/-- One call whose sandbox sees the secret `hunter2`. -/
def sampleRun (result : ActionResult) : List SecuredInput :=
  let draw : EventDraw := ⟨"018f5a3e", "2026-01-01T00:00:00.000Z"⟩
  let advance (await : Await) : SecuredInput := .world (.advance 0 await) draw
  [.world (.execute sampleRequest none) draw, .world (.canonicalized 0 .ok) draw] ++
    [.ok, .ok, .ok, .capabilities (.inr ⟨.allow, "policy"⟩) ⟨"local", true, true, true⟩, .ok, .ok,
      .ok, .ok].map advance ++ [.resolve 0 "hunter2"] ++
    [.ok, .ok, .result result, .diff .null, .ok, .ok, .ok].map advance

theorem no_secret_recorded_sample : ∃ s, (machine id).Reaches (Secure id) initial s ∧
    s.reports.map (fun r => (r.secrets, decide ("token=[REDACTED]" ∈ r.texts))) =
      [(["hunter2"], true)] ∧ ∀ r ∈ s.reports, r.Clean := by
  have hguard : (machine id).Guarded (Secure id) initial
      (sampleRun { output := .null, content := "token=hunter2" }) :=
    Machine.guarded_of_allSteps (fun _ _ => of_decide_eq_true) _ (by decide +kernel)
  obtain ⟨s, hreach, hreports⟩ := hguard.exists_reaches
    (f := fun s => s.reports.map fun r => (r.secrets, decide ("token=[REDACTED]" ∈ r.texts)))
    (a := [(["hunter2"], true)]) (by decide +kernel)
  exact ⟨s, hreach, hreports, (no_secret_recorded hreach).1⟩

/-- The verification records of the sandbox are not redacted. -/
theorem verification_leaks : ∃ s, (machine id).Reaches Machine.anyStep initial s ∧
    s.reports.map Report.secrets = [["hunter2"]] ∧
    ((s.world.streams "execution:key").filterMap completedResult?).map ActionResult.verification =
      [["sent hunter2"]] ∧
    ¬ ∀ r ∈ s.reports, r.Clean := by
  let verifications (s : SecuredWorld) : List (List String) :=
    ((s.world.streams "execution:key").filterMap completedResult?).map ActionResult.verification
  obtain ⟨s, hreach, hfacts⟩ := Machine.exists_reaches_of_exec_map (M := machine id)
    (s := initial) (f := fun s => (s.reports.map Report.secrets, verifications s,
      decide (∀ r ∈ s.reports, r.Clean)))
    (a := ([["hunter2"]], [["sent hunter2"]], false))
    (sampleRun { output := .null, content := "", verification := ["sent hunter2"] })
    (by decide +kernel)
  simp only [Prod.mk.injEq, decide_eq_false_iff_not] at hfacts
  exact ⟨s, hreach, hfacts⟩

end SecuredWorld

end BeeAgent.Execution
