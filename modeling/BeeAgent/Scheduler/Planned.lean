import BeeAgent.Scheduler.Steps

/-! What the stream plans for a trigger, whether it is removed or not, and when a call goes by it. -/
namespace BeeAgent.Scheduler
open Data Transition

/-! ### Events -/

namespace SchedulerEvent

/-- The id of the trigger that an event is about. -/
def subject? : SchedulerEvent → Option String
  | .registered trigger => some trigger.id
  | .triggered payload => some payload.triggerId
  | .removed triggerId _ => some triggerId
  | .other _ => none

/-- What an event makes of the plan for the trigger with the id. -/
def plans (id : String) (before : Option SchedulerTrigger) : SchedulerEvent → Option SchedulerTrigger
  | .removed _ _ => before
  | event => event.effect id before

variable {event : SchedulerEvent} {id : String} {before : Option SchedulerTrigger}

theorem effect_of_ne (h : event.subject? ≠ some id) : event.effect id before = before := by
  cases event with
  | other => rfl
  | registered | triggered | removed => exact if_neg fun heq => h (congrArg some heq.symm)

theorem plans_of_ne (h : event.subject? ≠ some id) : event.plans id before = before := by
  cases event with
  | removed => rfl
  | _ => exact effect_of_ne h

theorem plans_eq_effect (h : ∀ reason, event ≠ .removed id reason) :
    event.plans id before = event.effect id before := by
  cases event with
  | removed triggerId reason =>
    exact (effect_of_ne fun heq => h reason (by rw [Option.some.inj heq])).symm
  | _ => rfl

end SchedulerEvent

def planned (events : List SchedulerEvent) (id : String) : Option SchedulerTrigger :=
  events.foldl (fun before event => event.plans id before) none

/-- The trigger that is left under an id when these events are folded. -/
def leaves (id : String) (before : Option SchedulerTrigger) (events : List SchedulerEvent) :
    Option SchedulerTrigger :=
  events.foldl (fun before event => event.effect id before) before

def Distinct (events : List SchedulerEvent) : Prop :=
  events.Pairwise fun e e' => ∀ t, e' = .registered t → e.subject? ≠ some t.id

variable {events rest : List SchedulerEvent} {event : SchedulerEvent} {id : String}
  {t u : SchedulerTrigger}

theorem planned_append : planned (events ++ [event]) id = event.plans id (planned events id) := by
  rw [planned, List.foldl_append]
  rfl

theorem planned_of_recorded (h : recorded events id = some t) : planned events id = some t := by
  induction events using List.reverseRecOn generalizing t with
  | nil => cases h
  | append_singleton events event ih =>
    rw [recorded_append] at h
    rw [planned_append]
    cases hbefore : recorded events id with
    | some u =>
      rw [ih hbefore]
      rw [hbefore] at h
      rw [SchedulerEvent.plans_eq_effect, h]
      rintro reason rfl
      simp [SchedulerEvent.effect] at h
    | none =>
      rw [hbefore] at h
      cases event with
      | registered u =>
        simp only [SchedulerEvent.plans, SchedulerEvent.effect] at h ⊢
        split
        · next heq => rwa [if_pos heq] at h
        · next hne =>
          rw [if_neg hne] at h
          cases h
      | triggered | removed | other => simp [SchedulerEvent.effect] at h

theorem recorded_eq_planned (h : ∀ reason, .removed id reason ∉ events) :
    recorded events id = planned events id := by
  induction events using List.reverseRecOn with
  | nil => rfl
  | append_singleton events event ih =>
    rw [recorded_append, planned_append,
      ih fun reason hmem => h reason (List.mem_append_left _ hmem), SchedulerEvent.plans_eq_effect]
    rintro reason rfl
    exact h reason (by simp)

theorem leaves_of_none (before : Option SchedulerTrigger) (h : leaves id none rest = some t) :
    leaves id before rest = some t := by
  induction rest generalizing before with
  | nil => cases h
  | cons event rest ih =>
    rw [leaves, List.foldl_cons, ← leaves] at h ⊢
    cases event with
    | registered u =>
      simp only [SchedulerEvent.effect] at h ⊢
      split
      · next heq => rwa [if_pos heq] at h
      · next hne =>
        rw [if_neg hne] at h
        exact ih _ h
    | triggered | removed | other => exact ih _ (by simpa [SchedulerEvent.effect] using h)

theorem leaves_unfired (h : ∀ e ∈ rest, e.subject? = some t.id →
      e = .registered t ∨ ∃ reason, e = .removed t.id reason) {before : Option SchedulerTrigger}
    (hbefore : ∀ u, before = some u → u = t) :
    ∀ u, leaves t.id before rest = some u → u = t := by
  induction rest generalizing before with
  | nil => exact hbefore
  | cons event rest ih =>
    rw [leaves, List.foldl_cons, ← leaves]
    refine ih (fun e he => h e (List.mem_cons_of_mem _ he)) fun u hu => ?_
    by_cases hsubject : event.subject? = some t.id
    · obtain rfl | ⟨reason, rfl⟩ := h event (List.mem_cons_self ..) hsubject
      · rw [SchedulerEvent.effect, if_pos rfl] at hu
        exact (Option.some.inj hu).symm
      · simp [SchedulerEvent.effect] at hu
    · exact hbefore u (by rwa [SchedulerEvent.effect_of_ne hsubject] at hu)

theorem leaves_registered (h : ∀ e ∈ rest, e.subject? = some t.id → e = .registered t) :
    leaves t.id (some t) rest = some t := by
  induction rest with
  | nil => rfl
  | cons event rest ih =>
    rw [leaves, List.foldl_cons, ← leaves]
    have hevent : event.effect t.id (some t) = some t := by
      by_cases hsubject : event.subject? = some t.id
      · rw [h event (List.mem_cons_self ..) hsubject]
        exact if_pos rfl
      · exact SchedulerEvent.effect_of_ne hsubject
    rw [hevent]
    exact ih fun e he => h e (List.mem_cons_of_mem _ he)

theorem Distinct.unique (h : Distinct events) (ht : .registered t ∈ events)
    (hu : .registered u ∈ events) (hid : t.id = u.id) : t = u := by
  induction events with
  | nil => cases ht
  | cons e events ih =>
    obtain ⟨hhead, htail⟩ := List.pairwise_cons.mp h
    obtain rfl | ht' := List.mem_cons.mp ht <;> obtain hu' | hu' := List.mem_cons.mp hu
    · exact (SchedulerEvent.registered.inj hu').symm
    · exact absurd (congrArg some hid) (hhead _ hu' u rfl)
    · subst hu'
      exact absurd (congrArg some hid.symm) (hhead _ ht' t rfl)
    · exact ih htail ht' hu'

theorem registered_of_planned (h : planned events id = some t) :
    ∃ u, .registered u ∈ events ∧ u.id = id := by
  induction events using List.reverseRecOn generalizing t with
  | nil => cases h
  | append_singleton events event ih =>
    rw [planned_append] at h
    have hstep : planned events id ≠ none ∨ ∃ u, event = .registered u ∧ u.id = id := by
      by_contra hnone
      rw [not_or, not_not] at hnone
      rw [hnone.1] at h
      cases event with
      | registered u =>
        simp only [SchedulerEvent.plans, SchedulerEvent.effect] at h
        split at h
        · next heq => exact hnone.2 ⟨u, rfl, heq.symm⟩
        · cases h
      | triggered | removed | other =>
        simp [SchedulerEvent.plans, SchedulerEvent.effect] at h
    obtain hbefore | ⟨u, rfl, hu⟩ := hstep
    · obtain ⟨v, hv⟩ := Option.ne_none_iff_exists'.mp hbefore
      obtain ⟨u, hmem, hu⟩ := ih hv
      exact ⟨u, List.mem_append_left _ hmem, hu⟩
    · exact ⟨u, by simp, hu⟩

theorem planned_same (h : planned events id = some t) : ∃ u, .registered u ∈ events ∧ u.id = id ∧
    t.when = u.when ∧ (t.when.isSome → t = u) := by
  induction events using List.reverseRecOn generalizing t with
  | nil => cases h
  | append_singleton events event ih =>
    rw [planned_append] at h
    have hkeep : planned events id = some t → ∃ u, .registered u ∈ events ++ [event] ∧ u.id = id ∧
        t.when = u.when ∧ (t.when.isSome → t = u) := fun h => by
      obtain ⟨u, hu, hrest⟩ := ih h
      exact ⟨u, List.mem_append_left _ hu, hrest⟩
    by_cases hsubject : event.subject? = some id
    · cases event with
      | registered u =>
        obtain rfl : u = t := Option.some.inj ((if_pos (Option.some.inj hsubject).symm).symm.trans h)
        exact ⟨u, by simp, Option.some.inj hsubject, rfl, fun _ => rfl⟩
      | triggered payload =>
        obtain ⟨v, hv, heq⟩ := Option.bind_eq_some_iff.mp
          ((if_pos (Option.some.inj hsubject).symm).symm.trans h)
        split at heq
        · cases heq
        · next hwhen =>
          obtain rfl := Option.some.inj heq
          obtain ⟨u, hu, hid, hsame, -⟩ := ih hv
          exact ⟨u, List.mem_append_left _ hu, hid, hsame, fun h => absurd h hwhen⟩
      | removed => exact hkeep h
      | other => cases hsubject
    · exact hkeep (by rwa [SchedulerEvent.plans_of_ne hsubject] at h)

theorem registered_of_condition (h : planned events id = some t) (hwhen : t.when.isSome) :
    .registered t ∈ events := by
  obtain ⟨u, hu, -, -, heq⟩ := planned_same h
  rwa [heq hwhen]

theorem planned_unfired (hdistinct : Distinct events) (ht : .registered t ∈ events)
    (h : ∀ payload, .triggered payload ∈ events → payload.triggerId ≠ t.id) :
    planned events t.id = some t := by
  induction events using List.reverseRecOn with
  | nil => cases ht
  | append_singleton events event ih =>
    rw [planned_append]
    by_cases hsubject : event.subject? = some t.id
    · cases event with
      | registered u =>
        obtain rfl : u = t := hdistinct.unique (by simp) ht (Option.some.inj hsubject)
        exact if_pos rfl
      | triggered payload =>
        exact absurd (Option.some.inj hsubject) (h payload (by simp))
      | removed =>
        exact ih (List.pairwise_append.mp hdistinct).1
          ((List.mem_append.mp ht).resolve_right (by simp)) fun payload hmem => h payload (List.mem_append_left _ hmem)
      | other => cases hsubject
    · rw [SchedulerEvent.plans_of_ne hsubject]
      refine ih (List.pairwise_append.mp hdistinct).1 ?_
        fun payload hmem => h payload (List.mem_append_left _ hmem)
      obtain ht | ht := List.mem_append.mp ht
      · exact ht
      · rw [← List.mem_singleton.mp ht] at hsubject
        exact absurd rfl hsubject

theorem planned_gone (hdistinct : Distinct (events ++ [event])) (ht : .registered t ∈ events)
    (h : planned events t.id = none) : planned (events ++ [event]) t.id = none := by
  rw [planned_append, h]
  cases event with
  | registered u =>
    refine if_neg fun heq => ?_
    exact (List.pairwise_append.mp hdistinct).2.2 _ ht _ (List.mem_singleton_self _) u rfl
      (congrArg some heq)
  | triggered payload => exact ite_self _
  | removed | other => rfl

theorem planned_triggered (hdistinct : Distinct events) (ht : .registered t ∈ events)
    (hwhen : t.when.isSome) {payload : TriggeredPayload} (hp : .triggered payload ∈ events)
    (hid : payload.triggerId = t.id) : planned events t.id = none := by
  induction events using List.reverseRecOn with
  | nil => cases ht
  | append_singleton events event ih =>
    obtain ⟨hbefore, -, hlast⟩ := List.pairwise_append.mp hdistinct
    obtain hp | hp := List.mem_append.mp hp
    · have ht : .registered t ∈ events := by
        refine (List.mem_append.mp ht).resolve_right fun hmem => ?_
        exact hlast _ hp _ hmem t rfl (congrArg some hid)
      exact planned_gone hdistinct ht (ih hbefore ht hp)
    · obtain rfl := List.mem_singleton.mp hp
      have ht := (List.mem_append.mp ht).resolve_right (by simp)
      rw [planned_append]
      refine (if_pos hid.symm).trans ?_
      cases hplan : planned events t.id with
      | none => rfl
      | some u =>
        obtain ⟨v, hv, hvid, hsame, -⟩ := planned_same hplan
        obtain rfl : v = t := Distinct.unique hbefore hv ht hvid
        exact if_pos (hsame ▸ hwhen)

/-! ### Calls -/

namespace Stage

/-- The triggers whose plan a stage rests on. -/
def ids (stage : Stage) : List String :=
  stage.held.map (·.id) ++ stage.written?.toList.flatMap fun
    | .register trigger | .fire trigger .. => [trigger.id]
    | .remove .. => []

variable {stage : Stage}

theorem exclusive_of_held (h : t ∈ stage.held) : stage.exclusive := by
  unfold held at h
  split at h <;> first | rfl | simp at h

theorem held_of_firing (h : stage.firing? = some t) : t ∈ stage.held := by
  unfold firing? at h
  split at h <;> cases h <;> exact List.mem_cons_self ..

theorem exclusive_of_fire {now : String} {run : SchedulerFiredRun} {next : Option String}
    {after : After} (h : stage.written? = some (.fire t now run next after)) : stage.exclusive := by
  unfold written? at h
  split at h
  · cases h
    rfl
  · cases h

theorem exclusive_of_ids (h : id ∈ stage.ids) :
    stage.exclusive ∨ ∃ t, stage.written? = some (.register t) ∧ t.id = id := by
  obtain h | h := List.mem_append.mp h
  · obtain ⟨t, ht, -⟩ := List.mem_map.mp h
    exact .inl (exclusive_of_held ht)
  · obtain ⟨job, hjob, hid⟩ := List.mem_flatMap.mp h
    rw [Option.mem_toList] at hjob
    cases job with
    | register t => exact .inr ⟨t, hjob, (List.mem_singleton.mp hid).symm⟩
    | fire => exact .inl (exclusive_of_fire hjob)
    | remove => cases hid

theorem exclusive_of_rest (h : stage.rest? = some rest) : stage.exclusive := by
  unfold rest? at h
  split at h
  · rfl
  · cases h

theorem not_over_of_exclusive (h : stage.exclusive) : stage.isOver = false := by
  cases stage with
  | finished | dropped => cases h
  | _ => rfl

theorem not_queued_of_exclusive (h : stage.exclusive) : stage ≠ .queued := by
  rintro rfl
  cases h

end Stage

/-- What may still be written goes by the stream: nothing is registered twice, and nothing else is
about a trigger that is not registered. -/
def Job.Due (events : List SchedulerEvent) : Job → Prop
  | .register trigger => trigger.Sound ∧ ∀ t, .registered t ∈ events → t.id ≠ trigger.id
  | job => ∃ t id, .registered t ∈ events ∧ t.id = id ∧ job.event.subject? = some id

theorem Keyed.get_of_findFrom {triggers : Triggers} (h : Keyed triggers) {cursor n : ℕ}
    (hfind : triggers.findFrom cursor awaitsTask = some (n, t)) : triggers.get t.id = some t := by
  obtain ⟨-, id, hget⟩ := LiveMap.findFrom_some hfind
  rw [h id t hget]
  exact hget

namespace Job
variable {job : Job} {triggers : Triggers}

theorem keyed_apply (h : Keyed triggers) : Keyed (job.apply triggers) := by
  cases job with
  | register trigger => exact h.set trigger
  | remove => exact h.delete _
  | fire trigger now run next after =>
    rw [apply]
    split
    · exact h.delete _
    · exact h.set { trigger with nextRunAt := next }

theorem get_apply_of_ne (h : job.event.subject? ≠ some id) :
    (job.apply triggers).get id = triggers.get id := by
  have hne : ∀ id', job.event.subject? = some id' → id ≠ id' := by
    rintro id' hsubject rfl
    exact h hsubject
  cases job with
  | register trigger => exact (LiveMap.get_set ..).trans (if_neg (hne _ rfl))
  | remove => exact (LiveMap.get_delete ..).trans (if_neg (hne _ rfl))
  | fire trigger now run next after =>
    rw [apply]
    split
    · exact (LiveMap.get_delete ..).trans (if_neg (hne _ rfl))
    · exact (LiveMap.get_set ..).trans (if_neg (hne _ rfl))

theorem get_apply_fire (trigger : SchedulerTrigger) (now : String) (run : SchedulerFiredRun)
    (next : Option String) (after : After) :
    ((Job.fire trigger now run next after).apply triggers).get trigger.id =
      if trigger.when.isSome then none else some { trigger with nextRunAt := next } := by
  rw [apply]
  split
  · exact (LiveMap.get_delete ..).trans (if_pos rfl)
  · exact (LiveMap.get_set ..).trans (if_pos rfl)

theorem sorted_apply (h : triggers.Sorted) : (job.apply triggers).Sorted := by
  cases job with
  | register trigger => exact h.set ..
  | remove => exact h.delete _
  | fire trigger now run next after =>
    rw [apply]
    split
    · exact h.delete _
    · exact h.set ..

theorem number_apply_of_ne {n : ℕ} (hn : triggers.number id = some n)
    (h : job.event.subject? ≠ some id) : (job.apply triggers).number id = some n := by
  have hne : ∀ id', job.event.subject? = some id' → id ≠ id' := by
    rintro id' hsubject rfl
    exact h hsubject
  cases job with
  | register trigger => exact LiveMap.number_set hn _
  | remove => exact LiveMap.number_delete hn (hne _ rfl)
  | fire trigger now run next after =>
    rw [apply]
    split
    · exact LiveMap.number_delete hn (hne _ rfl)
    · exact LiveMap.number_set hn _

end Job

/-- A call goes by the stream. -/
structure Call.Fits (events : List SchedulerEvent) (call : Call) : Prop where
  serialized : call.stage = .queued ∨ call.stage.exclusive → call.op.serialized
  held : ∀ t ∈ call.stage.held, planned events t.id = some t
  apart : (call.stage.held.map (·.id)).Nodup
  due : ∀ job, call.stage.unwritten? = some job → job.Due events
  written : ∀ job, call.stage.written? = some job → job.event ∈ events
  returning : ∀ t, call.stage.written? = some (.register t) →
    planned events t.id = some t ∧ ∀ p, .triggered p ∈ events → p.triggerId ≠ t.id
  writing : ∀ t now run next after, call.stage.written? = some (.fire t now run next after) →
    planned events t.id = if t.when.isSome then none else some { t with nextRunAt := next }
  rest : ∀ rest, call.stage.rest? = some rest → ∀ e ∈ rest, e ∈ events

namespace Call.Fits
variable {call : Call}

theorem plain (hqueued : call.stage = .queued → call.op.serialized)
    (hexclusive : call.stage.exclusive = false) (hwritten : call.stage.written? = none)
    (hdue : ∀ job, call.stage.unwritten? = some job → job.Due events) : call.Fits events := by
  have hheld : call.stage.held = [] := List.eq_nil_iff_forall_not_mem.mpr fun t ht => by
    rw [Stage.exclusive_of_held ht] at hexclusive
    cases hexclusive
  refine ⟨fun h => hqueued (h.resolve_right (by simp [hexclusive])), by simp [hheld],
    by simp [hheld], hdue, by simp [hwritten], by simp [hwritten], by simp [hwritten],
    fun rest hrest => ?_⟩
  rw [Stage.exclusive_of_rest hrest] at hexclusive
  cases hexclusive

theorem of_over (h : call.stage.isOver) : call.Fits events := by
  obtain ⟨op, stage⟩ := call
  cases stage with
  | finished | dropped => exact plain (by simp) rfl rfl (by simp [Stage.unwritten?])
  | _ => cases h

theorem append (h : call.Fits events)
    (hids : ∀ id ∈ call.stage.ids, ∀ before, event.plans id before = before)
    (hregister : ∀ t, event = .registered t →
      ∀ u, call.stage.unwritten? = some (.register u) → t.id ≠ u.id)
    (hfired : ∀ p, event = .triggered p →
      ∀ u, call.stage.written? = some (.register u) → p.triggerId ≠ u.id) :
    call.Fits (events ++ [event]) where
  serialized := h.serialized
  held t ht := by
    rw [planned_append, hids t.id (List.mem_append_left _ (List.mem_map_of_mem ht))]
    exact h.held t ht
  apart := h.apart
  due job hjob := by
    have hdue := h.due job hjob
    cases job with
    | register u =>
      refine ⟨hdue.1, fun t ht => ?_⟩
      obtain ht | ht := List.mem_append.mp ht
      · exact hdue.2 t ht
      · exact hregister t (List.mem_singleton.mp ht).symm u hjob
    | remove | fire =>
      obtain ⟨t, id, ht, hid⟩ := hdue
      exact ⟨t, id, List.mem_append_left _ ht, hid⟩
  written job hjob := List.mem_append_left _ (h.written job hjob)
  returning t ht := by
    obtain ⟨hplan, hfires⟩ := h.returning t ht
    refine ⟨?_, fun p hp => ?_⟩
    · rw [planned_append, hids t.id]
      · exact hplan
      · simp [Stage.ids, ht]
    · obtain hp | hp := List.mem_append.mp hp
      · exact hfires p hp
      · exact hfired p (List.mem_singleton.mp hp).symm t ht
  writing t now run next after ht := by
    rw [planned_append, hids t.id]
    · exact h.writing t now run next after ht
    · simp [Stage.ids, ht]
  rest rest hrest e he := List.mem_append_left _ (h.rest rest hrest e he)

theorem advance {stage : Stage} (hqueued : stage ≠ .queued)
    (hserialized : stage.exclusive → call.op.serialized) (hwritten : stage.written? = none)
    (hrest : stage.rest? = none) (hheld : ∀ t ∈ stage.held, planned events t.id = some t)
    (hapart : (stage.held.map (·.id)).Nodup)
    (hdue : ∀ job, stage.unwritten? = some job → job.Due events) :
    Call.Fits events { call with stage } where
  serialized hstage := hserialized (hstage.resolve_left hqueued)
  held := hheld
  apart := hapart
  due := hdue
  written job hjob := by simp [hwritten] at hjob
  returning t ht := by simp [hwritten] at ht
  writing t now run next after ht := by simp [hwritten] at ht
  rest rest hr := by simp [hrest] at hr

/-- What it writes itself. -/
theorem record (h : call.Fits events) {job : Job} {attempt n : ℕ}
    (hstage : call.stage = .appending job attempt n)
    (hnot : ∀ {id : String}, (∀ t, .registered t ∈ events → t.id ≠ id) →
      ∀ {e : SchedulerEvent}, e ∈ events → e.subject? ≠ some id) :
    Call.Fits (events ++ [job.event]) { call with stage := .recorded job } where
  serialized hor := by
    refine h.serialized (.inr ?_)
    have hexclusive := hor.resolve_left (by simp)
    rw [hstage]
    cases job <;> exact hexclusive
  held u hu := by
    cases job with
    | register | remove => cases hu
    | fire t now run next after =>
      have hapart := h.apart
      have hheld := h.held u
      simp only [hstage, Stage.held, List.map_cons, List.nodup_cons, List.mem_cons] at hapart hheld
      rw [planned_append, SchedulerEvent.plans_of_ne]
      · exact hheld (.inr hu)
      · exact fun heq => hapart.1 (List.mem_map.mpr ⟨u, hu, (Option.some.inj heq).symm⟩)
  apart := by
    cases job with
    | register | remove => exact List.nodup_nil
    | fire t now run next after =>
      have hapart := h.apart
      simp only [hstage, Stage.held, List.map_cons, List.nodup_cons] at hapart
      exact hapart.2
  due job hjob := by cases hjob
  written job' hjob := by
    rw [← Option.some.inj hjob]
    simp
  returning t ht := by
    obtain rfl : job = .register t := Option.some.inj ht
    have hdue : ∀ u, .registered u ∈ events → u.id ≠ t.id :=
      (h.due (.register t) (by rw [hstage]; rfl)).2
    refine ⟨by rw [planned_append]; exact if_pos rfl, fun p hp hid => ?_⟩
    obtain hp | hp := List.mem_append.mp hp
    · exact hnot hdue hp (congrArg some hid)
    · cases List.mem_singleton.mp hp
  writing t now run next after ht := by
    obtain rfl : job = .fire t now run next after := Option.some.inj ht
    rw [planned_append, h.held t (by simp [hstage, Stage.held])]
    exact if_pos rfl
  rest rest hrest := by cases hrest

end Call.Fits

end BeeAgent.Scheduler
