import BeeAgent.Execution.Binding
import BeeAgent.Runtime.Lifecycle
import BeeAgent.Runtime.ToolExecution

/-! Re-dispatch after a crash: each dispatch carries an item drawn before it, a leftover call is
dispatched again under a fresh one, and the world has bound its key to the old one. -/
namespace BeeAgent.Runtime
open BeeAgent.Data BeeAgent.Thread BeeAgent.Execution Transition Transition.Machine

section Items
variable {o : AgentLoopOptions}

theorem Move.dispatch_open {log : List ThreadEvent} {nextId : ℕ} {task : Task} {input : TaskInput}
    {step : TaskStep} (hmove : Move o log nextId task input step) {turnId : TurnId} {item : ItemId}
    {call : ToolCall} {approval : Option ApprovalAnswer}
    (hmem : .dispatch turnId item call approval ∈ step.acts) : item ∈ openItems task.pc := by
  cases hmove with
  | giveUp _ hacts | retry _ hacts =>
    obtain ⟨_, _, -, he⟩ := hacts _ hmem
    cases he
  | stream _ hacts =>
    obtain ⟨_, he⟩ := hacts _ hmem
    cases he
  | decide hpc =>
    simp only [List.mem_cons, reduceCtorEq, Act.dispatch.injEq, List.not_mem_nil, or_false,
      false_or] at hmem
    rw [hpc, hmem.2.1]
    exact List.mem_singleton_self _
  | batch hpc hbatch =>
    obtain ⟨intent, hintent, he⟩ := List.mem_filterMap.mp hmem
    unfold dispatchOf? at he
    split at he <;> cases he
    rw [hpc, openItems, nextBatch_some o hbatch]
    exact List.mem_map_of_mem (List.mem_append_left _ hintent)
  | slot _ _ _ hmove => cases hmove <;> simp at hmem
  | _ => simp [itemFailedAct] at hmem

/-- Every tool item that is started or may still be dispatched is drawn. -/
structure ItemsBelow (s : Loop) : Prop where
  started : ∀ id turnId payload, .itemStarted ⟨id, turnId, .toolCall payload⟩ ∈ s.log →
    id < s.nextId
  live : ∀ t task, s.tasks t = some task → ∀ id ∈ openItems task.pc, id < s.nextId

theorem initial_itemsBelow : ItemsBelow Loop.initial where
  started _ _ _ h := by cases h
  live _ _ h := by cases h

/-- What a step of the loop may do as far as its items go. -/
structure Extends (s s' : Loop) (acts : List Act) : Prop where
  trace : s'.trace = s.trace ++ acts
  nextId : s.nextId ≤ s'.nextId
  started : ∀ id turnId payload, .append (.itemStarted ⟨id, turnId, .toolCall payload⟩) ∈ acts →
    id < s'.nextId
  dispatched : ∀ turnId item call approval, .dispatch turnId item call approval ∈ acts →
    item < s'.nextId
  live : ∀ t task, s'.tasks t = some task → (∃ task', s.tasks t = some task' ∧ task'.pc = task.pc) ∨
    ∀ id ∈ openItems task.pc, id < s'.nextId

theorem ItemsBelow.extend {s s' : Loop} {acts : List Act} (h : ItemsBelow s)
    (hextends : Extends s s' acts) : ItemsBelow s' where
  started id turnId payload hmem := by
    rw [Loop.log_eq, hextends.trace, eventsOf_append] at hmem
    obtain hmem | hmem := List.mem_append.mp hmem
    · exact Nat.lt_of_lt_of_le (h.started id turnId payload hmem) hextends.nextId
    · exact hextends.started id turnId payload (mem_eventsOf.mp hmem)
  live t task ht id hid := by
    obtain ⟨task', ht', hpc⟩ | hopen := hextends.live t task ht
    · exact Nat.lt_of_lt_of_le (h.live t task' ht' id (hpc ▸ hid)) hextends.nextId
    · exact hopen id hid

theorem start_extends {s : Loop} {task : Task} (hopen : ∀ id ∈ openItems task.pc, id < s.nextId) :
    Extends s (s.start task) [] where
  trace := (List.append_nil _).symm
  nextId := Nat.le_refl _
  started _ _ _ h := by cases h
  dispatched _ _ _ _ h := by cases h
  live t task' ht := by
    obtain rfl | ht := start_tasks_cases ht
    · exact .inr hopen
    · exact .inl ⟨task', ht, rfl⟩

theorem loopMove_extends {s s' : Loop} {input : LoopInput} (h : ItemsBelow s)
    (hmove : LoopMove o s input s') : ∃ acts, Extends s s' acts := by
  cases hmove with
  | @runTurn userInput structureVersion =>
    have : Extends s (s.start (startedTask o (newTurn s.nextId userInput structureVersion))) [] :=
      start_extends fun _ hid => by cases hid
    exact ⟨[_], rfl, Nat.le_succ _, by simp, by simp, fun t task ht =>
      (this.live t task ht).imp_right fun hopen id hid => Nat.lt_succ_of_lt (hopen id hid)⟩
  | recover => exact ⟨[], start_extends fun _ hid => by cases hid⟩
  | @resume _ _ _ rebuilt pending hrebuild hpending =>
    rw [(rebuild_ok hrebuild).2.2.2.1] at hpending
    obtain ⟨_, hmem, -⟩ := findPendingApproval_started hpending
    refine ⟨[], start_extends fun id hid => ?_⟩
    rw [List.mem_singleton.mp hid]
    exact h.started _ _ _ hmem
  | @rebuildFailed _ turnId error =>
    refine ⟨recoveryFailed turnId error, rfl, Nat.le_refl _, ?_, ?_, fun t task ht =>
      .inl ⟨task, ht, rfl⟩⟩ <;> cases error <;> simp [recoveryFailed]
  | refuse =>
    exact ⟨[], (List.append_nil _).symm, Nat.le_refl _, by simp, by simp, fun t task ht =>
      .inl ⟨task, ht, rfl⟩⟩
  | @abort t task ht =>
    refine ⟨[], (List.append_nil _).symm, Nat.le_refl _, by simp, by simp, fun t' task' ht' => ?_⟩
    by_cases htt : t' = t
    · subst htt
      simp only [Function.update_self, Option.some.injEq] at ht'
      exact .inl ⟨task, ht, by rw [← ht']⟩
    · simp only [Function.update_of_ne htt] at ht'
      exact .inl ⟨task', ht', rfl⟩
  | @fail t task result ht =>
    refine ⟨[], (List.append_nil _).symm, Nat.le_refl _, by simp, by simp, fun t' task' ht' => ?_⟩
    by_cases htt : t' = t
    · subst htt
      simp at ht'
    · simp only [Function.update_of_ne htt] at ht'
      exact .inl ⟨task', ht', rfl⟩
  | @advance t task input step ht hmove =>
    refine ⟨step.acts, trace_apply .., ?_, ?_, ?_, ?_⟩
    · rw [nextId_apply]
      exact Nat.le_add_right ..
    · intro _ _ _ hmem
      rw [nextId_apply]
      exact hmove.startedItem hmem
    · intro _ _ _ _ hmem
      rw [nextId_apply]
      exact Nat.lt_add_right _ (h.live t task ht _ (hmove.dispatch_open hmem))
    · intro t' task' ht'
      obtain ⟨rfl, hnext⟩ | ⟨-, ht'⟩ := apply_tasks_cases ht'
      · refine .inr fun id hid => ?_
        rw [nextId_apply]
        obtain hid | hid :=
          List.mem_append.mp ((hmove.items hnext).subset (List.mem_append_left _ hid))
        · exact Nat.lt_add_right _ (h.live t' task ht id hid)
        · exact (List.mem_range'_1.mp hid).2
      · exact .inl ⟨task', ht', rfl⟩

end Items

section Systems
variable {d : Deployment}

def DrawnText (d : Deployment) (n : ℕ) (id : String) : Prop := ∃ j < n, id = d.options.uuid j

theorem DrawnText.mono {n n' : ℕ} (hn : n ≤ n') (id : String) (h : DrawnText d n id) :
    DrawnText d n' id := by
  obtain ⟨j, hj, hid⟩ := h
  exact ⟨j, Nat.lt_of_lt_of_le hj hn, hid⟩

def CallsDrawn (d : Deployment) (n : ℕ) (_ : World) (input : WorldInput) : Prop :=
  ∀ candidate approval, input = .execute candidate approval → DrawnText d n candidate.id

theorem issue_reaches {n : ℕ} {structureVersion : Option String} {s s' : System} {a : Act}
    (hdrawn : ∀ turnId item call approval, a = .dispatch turnId item call approval → item < n)
    (h : issue d structureVersion s a = some s') : s'.loop = s.loop ∧
      (machine d.options.sha256).Reaches (CallsDrawn d n) s.world s'.world := by
  unfold issue at h
  split at h
  · next turnId item call approval =>
    split at h
    · cases h
      exact ⟨rfl, .refl⟩
    · obtain ⟨world, hstep, rfl⟩ := Option.map_eq_some_iff.mp h
      have hexecute : (machine d.options.sha256).step s.world (.execute _ approval) = some world :=
        hstep
      refine ⟨rfl, Reaches.refl.tail ?_ hexecute⟩
      rintro _ _ ⟨⟩
      exact ⟨item, hdrawn _ _ _ _ rfl, rfl⟩
  · cases h
    exact ⟨rfl, .refl⟩

theorem issueAll_reaches {n : ℕ} {structureVersion : Option String} {acts : List Act}
    (hdrawn : ∀ turnId item call approval, .dispatch turnId item call approval ∈ acts → item < n) :
    ∀ {s s' : System}, acts.foldlM (issue d structureVersion) s = some s' → s'.loop = s.loop ∧
      (machine d.options.sha256).Reaches (CallsDrawn d n) s.world s'.world := by
  induction acts with
  | nil =>
    rintro s _ ⟨⟩
    exact ⟨rfl, .refl⟩
  | cons a acts ih =>
    intro s s' h
    rw [List.foldlM_cons] at h
    obtain ⟨s₁, hfirst, hrest⟩ := Option.bind_eq_some_iff.mp h
    obtain ⟨hloop₁, hreaches₁⟩ := issue_reaches (n := n) (by
      rintro _ _ _ _ rfl
      exact hdrawn _ _ _ _ (List.mem_cons_self ..)) hfirst
    obtain ⟨hloop, hreaches⟩ :=
      ih (fun _ _ _ _ hmem => hdrawn _ _ _ _ (List.mem_cons_of_mem _ hmem)) hrest
    exact ⟨hloop.trans hloop₁, hreaches₁.trans hreaches⟩

/-- What one step of the system is for the loop and for the world. -/
structure SystemMove (d : Deployment) (s s' : System) : Prop where
  items : ItemsBelow s'.loop
  nextId : s.loop.nextId ≤ s'.loop.nextId
  world : (machine d.options.sha256).Reaches (CallsDrawn d s'.loop.nextId) s.world s'.world

theorem advanceLoop_move {s s' : System} {input : LoopInput} (hitems : ItemsBelow s.loop)
    (h : s.advanceLoop d input = some s') :
    loopStep d.options s.loop input = some s'.loop ∧ SystemMove d s s' := by
  obtain ⟨loop, hloop, hissue⟩ := Option.bind_eq_some_iff.mp h
  obtain ⟨acts, hextends⟩ := loopMove_extends hitems (loopStep_move hloop)
  rw [hextends.trace, List.drop_left] at hissue
  obtain ⟨heq, hreaches⟩ := issueAll_reaches hextends.dispatched hissue
  have hs' : s'.loop = loop := heq
  rw [← hs'] at hloop hextends hreaches
  exact ⟨hloop, hitems.extend hextends, hextends.nextId, hreaches⟩

theorem systemStep_move {s s' : System} {input : SystemInput} (hitems : ItemsBelow s.loop)
    (h : systemStep d s input = some s') : SystemMove d s s' := by
  cases input with
  | loop input =>
    simp only [systemStep] at h
    split at h
    · cases h
    · exact (advanceLoop_move hitems h).2
  | answer t index =>
    obtain ⟨task, -, h⟩ := Option.bind_eq_some_iff.mp h
    obtain ⟨⟨item, call⟩, -, h⟩ := Option.bind_eq_some_iff.mp h
    obtain ⟨answer, -, h⟩ := Option.bind_eq_some_iff.mp h
    exact (advanceLoop_move hitems h).2
  | world input =>
    simp only [systemStep] at h
    split at h
    · next hinner =>
      obtain ⟨world, hstep, rfl⟩ := Option.map_eq_some_iff.mp h
      have hworld : (machine d.options.sha256).step s.world input = some world := hstep
      refine ⟨hitems, Nat.le_refl _, Reaches.refl.tail ?_ hworld⟩
      rintro _ _ rfl
      cases hinner
    · cases h
  | crash secrets =>
    simp only [systemStep] at h
    obtain ⟨world, hstep, rfl⟩ := Option.map_eq_some_iff.mp h
    have hcrash : (machine d.options.sha256).step s.world (.crash secrets) = some world := hstep
    refine ⟨⟨hitems.started, fun _ _ ht => by cases ht⟩, Nat.le_refl _,
      Reaches.refl.tail ?_ hcrash⟩
    rintro _ _ ⟨⟩

/-- The items of the loop are drawn, and so are the ids of all that the world was asked for. -/
structure SystemBound (d : Deployment) (s : System) : Prop where
  items : ItemsBelow s.loop
  world : Bound d.options.sha256 (DrawnText d s.loop.nextId) s.world

theorem reaches_world_bound {n : ℕ} {w w' : World}
    (h : Bound d.options.sha256 (DrawnText d n) w)
    (hreaches : (machine d.options.sha256).Reaches (CallsDrawn d n) w w') :
    Bound d.options.sha256 (DrawnText d n) w' ∧
      ∀ id, w.streams id <+: w'.streams id := by
  refine hreaches.invariant (P := fun v => Bound d.options.sha256 (DrawnText d n) v ∧
    ∀ id, w.streams id <+: v.streams id) ⟨h, fun _ => List.prefix_rfl⟩ fun v _ v' hv hguard hstep => ?_
  obtain ⟨hbound, hstreams⟩ := worldMove_bound hv.1 (worldStep_move hstep) hguard
  exact ⟨hbound, fun id => (hv.2 id).trans (hstreams id)⟩

theorem systemMove_bound {s s' : System} (h : SystemBound d s) (hmove : SystemMove d s s') :
    SystemBound d s' :=
  ⟨hmove.items, (reaches_world_bound (h.world.mono (DrawnText.mono hmove.nextId)) hmove.world).1⟩

theorem reaches_systemBound {secrets : Option SecretBroker} {s : System}
    (h : (system d).Reaches anyStep (System.initial secrets) s) : SystemBound d s :=
  h.invariant ⟨initial_itemsBelow, initial_bound secrets⟩ fun _ _ _ hs _ hstep =>
    systemMove_bound hs (systemStep_move hs.items hstep)

theorem systemMove_turnedAway {s s' : System} {id key : String} (hbound : SystemBound d s)
    (h : TurnedAway d.options.sha256 id key s.world) (hmove : SystemMove d s s') :
    TurnedAway d.options.sha256 id key s'.world := by
  have hstart := hbound.world.mono (DrawnText.mono hmove.nextId)
  exact hmove.world.invariant₂ (Q := Bound d.options.sha256 (DrawnText d s'.loop.nextId))
    (fun _ hr => (reaches_world_bound hstart hr).1) h
    fun _ _ _ hb ht _ hstep => worldMove_turnedAway hb ht (worldStep_move hstep)

theorem redispatched {o : AgentLoopOptions} {s s' : Loop} {t : ℕ} {task task' : Task}
    {segments : List Segment} (ht : s.tasks t = some task) (hpc : task.pc = .driving)
    (hstep : loopStep o s (.advance t .proceed) = some s') (ht' : s'.tasks t = some task')
    (hpc' : task'.pc = .running .recovered segments) :
    segmentsIntents segments = unansweredIntents s.nextId task.history := by
  obtain ⟨task₀, ht₀, hmap⟩ := Option.bind_eq_some_iff.mp hstep
  rw [ht, Option.some.injEq] at ht₀
  subst ht₀
  obtain ⟨step, htask, rfl⟩ := Option.map_eq_some_iff.mp hmap
  obtain ⟨-, hnext⟩ | ⟨hne, -⟩ := apply_tasks_cases ht'
  · simp only [taskStep, hpc, Option.some.injEq] at htask
    subst htask
    unfold driveStep at hnext
    split at hnext
    · cases hnext
      cases hpc'
    split at hnext
    · cases hnext
      cases hpc'
    split at hnext
    · cases hnext
      cases hpc'
    · cases hnext
      cases hpc'
      exact segmentsIntents_segmentIntents ..
  · exact absurd rfl hne

/-- A leftover call whose key holds a recorded request is dispatched again for nothing: in every
state that follows, each call of the world under its fresh item stands before its read or has
failed, so it never runs the tool and never returns an outcome; what it reads is the collision; and
alone on the key it returns that. -/
theorem redispatch_collides (hsha : Function.Injective d.options.sha256)
    (huuid : Function.Injective d.options.uuid) {secrets : Option SecretBroker}
    {s s₁ s' : System} (h : (system d).Reaches anyStep (System.initial secrets) s) {t : ℕ}
    {task task₁ : Task} (ht : s.loop.tasks t = some task) (hpc : task.pc = .driving)
    (hstep : (system d).step s (.loop (.advance t .proceed)) = some s₁)
    (ht₁ : s₁.loop.tasks t = some task₁) {segments : List Segment}
    (hpc₁ : task₁.pc = .running .recovered segments) {intent : GenerationIntent}
    (hintent : intent ∈ segmentsIntents segments)
    (hrecorded : recorded .requested (s.world.stream d.options.sha256
      (idempotencyKey d.options.uuid task.turnId intent.call)))
    (h' : (system d).Reaches anyStep s₁ s') {c : ℕ} {call : Call}
    (hc : s'.world.calls c = some call) (hid : call.request.id = d.options.uuid intent.item)
    (hkey : call.request.idempotencyKey = idempotencyKey d.options.uuid task.turnId intent.call) :
    Turned call.pc ∧
      replay ⟨d.options.sha256, s'.world.secrets⟩ call.request
          (s'.world.stream d.options.sha256 call.request.idempotencyKey) =
        .settle (.error (.idempotencyKeyCollision call.request.idempotencyKey)) ∧
      (call.pc = .canonicalizing → s'.world.inflight call.request.idempotencyKey = none →
        ∀ canonicalPath request,
          canonicalizeActionRequest canonicalPath call.request = .ok request →
          ∃ w, (machine d.options.sha256).exec s'.world
              [.canonicalized c canonicalPath, .advance c .ok, .finish c] = some w ∧
            (w.calls c).map Call.pc = some (.returned
              (.error (.idempotencyKeyCollision call.request.idempotencyKey)))) := by
  have hbound := reaches_systemBound h
  rw [redispatched ht hpc (advanceLoop_move hbound.items hstep).1 ht₁ hpc₁] at hintent
  replace h' := h'.head (trivial : anyStep s _) hstep
  have hfresh : ¬ DrawnText d s.loop.nextId (d.options.uuid intent.item) := by
    rintro ⟨j, hj, heq⟩
    obtain ⟨i, hi, rfl⟩ := List.mem_mapIdx.mp hintent
    have : s.loop.nextId + i = j := huuid heq
    exact absurd hj (Nat.not_lt.mpr (this ▸ Nat.le_add_right ..))
  have hstart : TurnedAway d.options.sha256 (d.options.uuid intent.item)
      (idempotencyKey d.options.uuid task.turnId intent.call) s.world :=
    ⟨hbound.world.boundElsewhere hsha hrecorded hfresh, fun c call hc hid _ =>
      absurd (hid ▸ hbound.world.requests c call hc) hfresh⟩
  have hturned := h'.invariant₂ (fun _ hr => reaches_systemBound (h.trans hr)) hstart
    fun _ _ _ hb ht _ hstep => systemMove_turnedAway hb ht (systemStep_move hb.items hstep)
  refine ⟨hturned.calls c call hc hid hkey, ?_, ?_⟩
  · apply replay_boundElsewhere
    rw [hid, hkey]
    exact hturned.bound
  · intro hpc hfree canonicalPath request hcanonical
    rw [hkey] at hfree ⊢
    exact hturned.exec hc hpc hid hkey hfree hcanonical

end Systems

theorem sample_uuid_injective : Function.Injective sampleDeployment.options.uuid := by
  intro m n h
  have hdigits : Nat.toDigits 10 m = Nat.toDigits 10 n := String.ofList_injective h
  rw [← Nat.ofDigitChars_ten_toDigits (n := m), hdigits, Nat.ofDigitChars_ten_toDigits]

def Pc.isDriving : Pc → Bool
  | .driving => true
  | _ => false

theorem Pc.eq_driving {pc : Pc} (h : pc.isDriving) : pc = .driving := by
  cases pc <;> first | rfl | cases h

def Pc.recovered? : Pc → Option (List Segment)
  | .running .recovered segments => some segments
  | _ => none

theorem Pc.eq_recovered {pc : Pc} {segments : List Segment} (h : pc.recovered? = some segments) :
    pc = .running .recovered segments := by
  unfold recovered? at h
  split at h <;> cases h
  rfl

/-- Task 2 dispatches a recorded call again, and call 2 of the world is that dispatch. -/
def redispatches (d : Deployment) (s s₁ s' : System) : Bool :=
  match s.loop.tasks 2, s₁.loop.tasks 2, s'.world.calls 2 with
  | some task, some task₁, some call =>
    task.pc.isDriving &&
      match task₁.pc.recovered?.map segmentsIntents with
      | some (intent :: _) =>
        let key := idempotencyKey d.options.uuid task.turnId intent.call
        recorded .requested (s.world.stream d.options.sha256 key) &&
          call.request.id == d.options.uuid intent.item && call.request.idempotencyKey == key
      | _ => false
  | _, _, _ => false

theorem redispatch_collides_sample :
    ∃ s' call, (system sampleDeployment).Reaches anyStep (System.initial none) s' ∧
      s'.world.calls 2 = some call ∧ Turned call.pc := by
  have hrun : ((system sampleDeployment).exec (System.initial none) recoveredRun).any (fun s =>
      ((system sampleDeployment).step s (.loop (.advance 2 .proceed))).any fun s₁ =>
        ((system sampleDeployment).exec s₁ redispatchInputs).any
          (redispatches sampleDeployment s s₁)) = true := by decide +kernel
  obtain ⟨s, hs, hrun⟩ := (Option.any_eq_true ..).mp hrun
  obtain ⟨s₁, hs₁, hrun⟩ := (Option.any_eq_true ..).mp hrun
  obtain ⟨s', hs', hchecks⟩ := (Option.any_eq_true ..).mp hrun
  have hreaches := exec_reaches recoveredRun (guarded_anyStep _) hs
  have hreaches' := exec_reaches redispatchInputs (guarded_anyStep _) hs'
  unfold redispatches at hchecks
  split at hchecks
  · next task task₁ call htask htask₁ hcall =>
    obtain ⟨hdriving, hchecks⟩ := Bool.and_eq_true_iff.mp hchecks
    split at hchecks
    · next intent rest hintents =>
      obtain ⟨segments, hsegments, hintents⟩ := Option.map_eq_some_iff.mp hintents
      simp only [Bool.and_eq_true, beq_iff_eq] at hchecks
      refine ⟨s', call, (hreaches.tail trivial hs₁).trans hreaches', hcall, ?_⟩
      exact (redispatch_collides Function.injective_id sample_uuid_injective hreaches htask
        (Pc.eq_driving hdriving) hs₁ htask₁ (Pc.eq_recovered hsegments)
        (hintents ▸ List.mem_cons_self ..) hchecks.1.1 hreaches' hcall hchecks.1.2 hchecks.2).1
    · cases hchecks
  · cases hchecks

/-- After the crash the recorded call completes a second time, with the collision as its result. -/
theorem redispatch_fails :
    ∃ s, (system sampleDeployment).Reaches anyStep (System.initial none) s ∧
      (eventTypes (s.world.stream id "tool:0:a"),
        (s.world.calls 2).map (fun call => match call.pc with
          | .returned (.error error) => error.message
          | _ => ""),
        s.loop.log.filterMap fun event => match event with
          | .itemCompleted ⟨item, _, .toolCall payload⟩ => some (item, payload.content)
          | _ => none) =
      ([.requested, .permissionSnapshot, .approvalRequired, .authorized, .started, .completed],
        some "Idempotency key 'tool:0:a' was reused for another action",
        [(3, some "A"), (5, some ("Tool execution failed: " ++
          "Idempotency key 'tool:0:a' was reused for another action"))]) :=
  exists_reaches_of_exec_map
    (recoveredRun ++ [.loop (.advance 2 .proceed)] ++ redispatchInputs) (by decide +kernel)

end BeeAgent.Runtime
