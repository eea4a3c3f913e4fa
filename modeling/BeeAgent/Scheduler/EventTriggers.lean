import BeeAgent.Scheduler.Cadence
import BeeAgent.Scheduler.Happenings

/-! The triggers that wait for an event, and the runs in which each of them is fired by the first
event that matches, and once. -/
namespace BeeAgent.Scheduler
open Data Transition

def SchedulerTrigger.onEvent (t : SchedulerTrigger) : Bool := (t.when.bind (·.event)).isSome

/-- An event that is notified fires each trigger that waits for it, a trigger is fired once, and only
by an event it waits for. -/
structure EventsFire (history : List Happening) : Prop where
  all : Throughout (fun before x after => ∀ c event t, x = .began c (.notify event) →
    .recorded (.registered t) ∈ before → awaitsEvent event t → (∀ c', .started c' t ∉ before) →
    (∀ reason, .recorded (.removed t.id reason) ∉ before) → .started c t ∈ after) history
  once : Justified (fun before x => ∀ c t, x = .started c t → t.onEvent →
    ∀ c' u, .started c' u ∈ before → u.id ≠ t.id) history
  only : Justified (fun before x => ∀ c t, x = .started c t → t.onEvent →
    ∃ event, .began c (.notify event) ∈ before ∧ awaitsEvent event t) history

/-- The turn of a notification has come. -/
def Notifies (s : AgentScheduler) (input : Input) (c : ℕ) (event : ObservedEvent) : Prop :=
  (∃ draw, input = .resume c draw) ∧
    ∃ call, s.calls[c]? = some call ∧ call.stage = .queued ∧ call.op = .notify event

/-- A proper step. Where the turn of a notification has come, no trigger that waits for the event
stands behind another one or is still to get to the live map, and the firing of such a trigger is
recorded. -/
structure Heard (s : AgentScheduler) (input : Input) : Prop where
  proper : Proper s input
  first : ∀ c event t u, Notifies s input c event →
    s.triggers.values.find? (awaitsEvent event) = some t → u ∈ s.triggers.values →
    awaitsEvent event u → u = t ∨ ∃ reason, .removed u.id reason ∈ s.events
  returned : ∀ c event t, Notifies s input c event → s.Returns t → awaitsEvent event t →
    (s.triggers.get t.id).isSome ∨ ∃ reason, .removed t.id reason ∈ s.events
  recorded : ∀ (c : ℕ) (call : Call) (t : SchedulerTrigger), s.calls[c]? = some call →
    call.stage.firing? = some t → t.onEvent → ¬ Lost s input c call t

variable {o : SchedulerOptions} {s s' : AgentScheduler} {input : Input} {c : ℕ} {call : Call}
  {t : SchedulerTrigger} {event : ObservedEvent} {new : List Happening}

theorem onEvent_of_awaitsEvent (h : awaitsEvent event t) : t.onEvent := by
  simp only [awaitsEvent, Bool.and_eq_true] at h
  cases hcondition : t.when.bind (·.event) with
  | none => simp [hcondition] at h
  | some condition => simp [SchedulerTrigger.onEvent, hcondition]

theorem when_of_onEvent (h : t.onEvent) : t.when.isSome := by
  cases hwhen : t.when with
  | none => simp [SchedulerTrigger.onEvent, hwhen] at h
  | some w => rfl

theorem SchedulerTrigger.Sound.not_onEvent (h : t.Sound) (hreached : reached s t = true) :
    t.onEvent = false := by
  cases hwhen : t.when with
  | none => simp [onEvent, hwhen]
  | some w =>
    have hsingle := h.single w hwhen
    simp only [reached, hwhen, Option.bind_some] at hreached
    cases htask : w.taskStatus with
    | none => simp [htask] at hreached
    | some condition => simpa [onEvent, hwhen, htask] using hsingle

/-- The turn of a notification is where event triggers are fired. -/
theorem Told.notified (h : Told s) (hnews : News o s input new) {before after : List Happening}
    (hnew : new = before ++ .started c t :: after) (hevent : t.onEvent) :
    ∃ event call, Notifies s input c event ∧ s.calls[c]? = some call ∧ call.stage = .queued ∧
      free s c ∧ before = [.began c (.notify event)] ∧
      s.triggers.values.find? (awaitsEvent event) = some t := by
  have hmem : .started c t ∈ new := by simp [hnew]
  have hwhen := when_of_onEvent hevent
  cases hnews with
  | nothing => cases hmem
  | ended | recorded | changed => simp at hmem
  | started hcall hstarts =>
    obtain ⟨rfl, rfl⟩ := Happening.started.inj (List.mem_singleton.mp hmem)
    generalize hstage : Call.stage _ = stage at hstarts
    cases hstarts with
    | task hreached =>
      have hplanned := (h.inPlan.fits _ _ hcall).held t (by simp [hstage, Stage.held])
      have hsound := h.inPlan.sound t (registered_of_condition hplanned hwhen)
      simp [hsound.not_onEvent hreached] at hevent
    | due =>
      simp [h.later _ _ t hcall (by simp [hstage, Stage.later, After.rest])] at hwhen
  | @began c' call draw hinput hcall hstage hfree =>
    obtain ⟨rfl, now, after', hrunning⟩ := mem_happening.mp ((List.mem_cons.mp hmem).resolve_left (by simp))
    obtain ⟨-, hnone⟩ | ⟨event, hop, hfind⟩ := enter_running hrunning
    · simp [hnone] at hwhen
    refine ⟨event, call, ⟨⟨draw, hinput⟩, call, hcall, hstage, hop⟩, hcall, hstage, hfree, ?_, hfind⟩
    rw [hrunning, hop] at hnew
    cases before with
    | nil => cases hnew
    | cons x before =>
      obtain ⟨rfl, hrest⟩ := List.cons.inj hnew
      cases before with
      | nil => rfl
      | cons y before => simp [Stage.happening] at hrest

/-- What is fired by an event is gone or is being fired, and nothing is fired as it should not be. -/
structure AllHeard (s : AgentScheduler) : Prop where
  told : Told s
  spent : ∀ c t, .started c t ∈ s.history → t.onEvent → planned s.events t.id = none ∨
    ∃ (c' : ℕ) (call : Call), s.calls[c']? = some call ∧ call.stage.firing? = some t
  fires : EventsFire s.history

namespace AllHeard

theorem planned_of_find (h : Told s) (hcall : s.calls[c]? = some call)
    (hstage : call.stage = .queued) (hfree : free s c)
    (hfind : s.triggers.values.find? (awaitsEvent event) = some t) :
    planned s.events t.id = some t := by
  obtain ⟨hnorest, hnowrites⟩ := h.inPlan.turn hcall hstage hfree
  obtain ⟨id, hget⟩ := LiveMap.mem_values_iff.mp (List.mem_of_find?_eq_some hfind)
  rw [h.inPlan.keyed id t hget]
  exact h.inPlan.planned_of_get hnorest (hnowrites id) hget

/-- A notification finds each trigger that waits for the event, as it is the only one. -/
theorem find_of_registered (h : Told s) (hheard : Heard s input) (hcall : s.calls[c]? = some call)
    (hstage : call.stage = .queued) (hfree : free s c) (hnotifies : Notifies s input c event)
    (ht : .registered t ∈ s.events) (hawaits : awaitsEvent event t)
    (hstarted : ∀ c', .started c' t ∉ s.history) (hremoved : ∀ reason, .removed t.id reason ∉ s.events) :
    s.triggers.values.find? (awaitsEvent event) = some t := by
  have hget := h.live_of_turn hcall hstage hfree ht
    (when_of_onEvent (onEvent_of_awaitsEvent hawaits)) hstarted hremoved fun hreturns => by
      refine (hheard.returned c event t hnotifies hreturns hawaits).resolve_right ?_
      exact fun ⟨reason, hreason⟩ => hremoved reason hreason
  have hmem := LiveMap.mem_values_iff.mpr ⟨t.id, hget⟩
  cases hfind : s.triggers.values.find? (awaitsEvent event) with
  | none => exact absurd hawaits (by simpa using List.find?_eq_none.mp hfind t hmem)
  | some u =>
    obtain heq | ⟨reason, hreason⟩ := hheard.first c event u t hnotifies hfind hmem hawaits
    · rw [heq]
    · exact absurd hreason (hremoved reason)

theorem step (h : AllHeard s) (hheard : Heard s input) (hs : schedulerStep o s input = some s') :
    AllHeard s' := by
  have hmoves := schedulerStep_moves h.told.inPlan.numbered hs
  have htold := h.told.step hheard.proper hs
  obtain ⟨new, hhistory, hnews⟩ := hmoves.news
  refine ⟨htold, fun c t ht hevent => ?_, ?_⟩
  · have hwhen := when_of_onEvent hevent
    obtain ht | ⟨call, now, after, hcall, hstage⟩ := hmoves.started ht
    · obtain hgone | ⟨c', call, hcall, hfiring⟩ := h.spent c t ht hevent
      · obtain ⟨u, hu, -, -, heq⟩ := h.told.runs c t ht
        exact .inl (htold.gone hmoves (heq hwhen ▸ hu) hgone)
      · obtain ⟨call', hcall', hfiring'⟩ | ⟨now, run, next, after, rfl⟩ | hlost :=
          hmoves.firing hcall hfiring
        · exact .inr ⟨c', call', hcall', hfiring'⟩
        · left
          rw [events_record, planned_append,
            (h.told.inPlan.fits c' call hcall).held t (Stage.held_of_firing hfiring)]
          exact (if_pos rfl).trans (if_pos hwhen)
        · exact absurd hlost (hheard.recorded c' call t hcall hfiring hevent)
    · exact .inr ⟨c, call, hcall, by rw [hstage]; rfl⟩
  rw [hhistory]
  constructor
  case all =>
    refine h.fires.all.append (fun before x after hall c event t hx ht hawaits hstarted hremoved =>
      List.mem_append_left _ (hall c event t hx ht hawaits hstarted hremoved)) ?_
    rintro before x after hnew c event t rfl ht hawaits hstarted hremoved
    obtain ⟨call, draw, hinput, hcall, hstage, hop, hfree, rfl, rfl⟩ := hnews.turn hnew
    simp only [List.append_nil, h.told.logged _] at ht hstarted hremoved
    have hfind := find_of_registered h.told hheard hcall hstage hfree
      ⟨⟨draw, hinput⟩, call, hcall, hstage, hop⟩ ht hawaits hstarted hremoved
    simp [enter, hfind, Stage.happening]
  case once =>
    refine h.fires.once.append ?_
    rintro before x after hnew c t rfl hevent c' u hu hid
    obtain ⟨event, call, -, hcall, hstage, hfree, rfl, hfind⟩ := h.told.notified hnews hnew hevent
    have hu := (List.mem_append.mp hu).resolve_right (by simp)
    have hwhen := when_of_onEvent hevent
    have hplanned := planned_of_find h.told hcall hstage hfree hfind
    obtain rfl : u = t := h.told.same (registered_of_condition hplanned hwhen) hu hid hwhen
    obtain hgone | ⟨c'', call'', hcall'', hfiring⟩ := h.spent c' u hu hevent
    · simp [hgone] at hplanned
    · exact h.told.inPlan.nobody hcall hstage hfree hcall'' 
        (Stage.exclusive_of_held (Stage.held_of_firing hfiring))
  case only =>
    refine h.fires.only.append ?_
    rintro before x after hnew c t rfl hevent
    obtain ⟨event, call, -, hcall, hstage, hfree, rfl, hfind⟩ := h.told.notified hnews hnew hevent
    exact ⟨event, by simp, List.find?_some hfind⟩

end AllHeard

/-- In every run in which one trigger at a time waits for what is notified and each firing is
recorded, the events fire what waits for them. -/
theorem reaches_eventsFire (h : (scheduler o).Reaches Heard .initial s) : EventsFire s.history := by
  have hinvariant : AllHeard s := by
    refine h.invariant ⟨.initial, fun c t ht => ?_, throughout_nil, justified_nil, justified_nil⟩
      fun _ _ _ hall hheard hs => hall.step hheard hs
    cases ht
  exact hinvariant.fires

/-- What is run was registered, a trigger with a condition as it was registered, and what is recorded
as run was. -/
theorem reaches_runs (h : (scheduler o).Reaches Proper .initial s) :
    (∀ c t, .started c t ∈ s.history → ∃ u, .registered u ∈ s.events ∧ u.id = t.id ∧
      t.when = u.when ∧ (t.when.isSome → t = u)) ∧
    ∀ p, .triggered p ∈ s.events → ∃ c t, .started c t ∈ s.history ∧ t.id = p.triggerId :=
  ⟨(reaches_told h).runs, (reaches_told h).fired⟩

/-! ### Samples -/

/-- A check of a step that loses no firing. -/
def keepsFirings (s : AgentScheduler) (input : Input) : Bool :=
  (s.calls.all fun call => call.stage.firing?.all fun t => t.intervalMs.isNone) &&
    match input with
    | .restart => s.calls.all fun call => call.stage.firing?.isNone
    | .fail c => (s.calls[c]?).all fun call => call.stage.unwritten?.isNone
    | .resume c _ => (s.calls[c]?).all fun call =>
      match call.stage with
      | .appending _ _ n => n = s.stream.length + 1
      | _ => true
    | _ => true

theorem not_lost_of_keepsFirings (h : keepsFirings s input) (hcall : s.calls[c]? = some call)
    (ht : call.stage.firing? = some t) : ¬ Lost s input c call t := by
  obtain ⟨hinterval, hinput⟩ := Bool.and_eq_true_iff.mp h
  rintro (hlost | rfl | ⟨rfl, hlost⟩ | ⟨draw, job, attempt, n, rfl, hstage, -, hne⟩)
  · have hnone := List.all_eq_true.mp hinterval call (List.mem_of_getElem? hcall)
    rw [ht, Option.all_some, Option.isNone_iff_eq_none] at hnone
    simp [hnone] at hlost
  · have hnone := List.all_eq_true.mp hinput call (List.mem_of_getElem? hcall)
    simp [ht] at hnone
  · simp only [hcall, Option.all_some, Option.isNone_iff_eq_none] at hinput
    simp [hinput] at hlost
  · simp only [hcall, Option.all_some, hstage, decide_eq_true_eq] at hinput
    exact hne hinput

/-- A check of a step that only steps pass in which every event is heard. -/
def heardStep (s : AgentScheduler) (input : Input) : Bool :=
  properStep s input && keepsFirings s input &&
    match input with
    | .resume c _ => (s.calls[c]?).all fun call =>
      match call.op with
      | .notify event => (s.triggers.values.filter (awaitsEvent event)).length ≤ 1 &&
        s.calls.all fun call =>
          match call.stage.written? with
          | some (.register _) => false
          | _ => true
      | _ => true
    | _ => true

theorem heard_of_heardStep (h : heardStep s input) : Heard s input := by
  simp only [heardStep, Bool.and_eq_true] at h
  obtain ⟨⟨hproper, hkeeps⟩, hnotify⟩ := h
  refine ⟨proper_of_properStep hproper, ?_, ?_,
    fun c call t hcall ht _ => not_lost_of_keepsFirings hkeeps hcall ht⟩
  · rintro c event t u ⟨⟨draw, rfl⟩, call, hcall, -, hop⟩ hfind hu hawaits
    simp only [hcall, Option.all_some, hop, Bool.and_eq_true, decide_eq_true_eq] at hnotify
    have ht : t ∈ s.triggers.values.filter (awaitsEvent event) :=
      List.mem_filter.mpr ⟨List.mem_of_find?_eq_some hfind, List.find?_some hfind⟩
    have hu : u ∈ s.triggers.values.filter (awaitsEvent event) := List.mem_filter.mpr ⟨hu, hawaits⟩
    obtain ⟨v, hv⟩ := List.length_eq_one_iff.mp
      (Nat.le_antisymm hnotify.1 (List.length_pos_of_mem ht))
    rw [hv, List.mem_singleton] at ht hu
    exact .inl (hu.trans ht.symm)
  · rintro c event t ⟨⟨draw, rfl⟩, call, hcall, -, hop⟩ ⟨c', call', hcall', hwritten⟩ -
    simp only [hcall, Option.all_some, hop, Bool.and_eq_true] at hnotify
    have hnone := List.all_eq_true.mp hnotify.2 call' (List.mem_of_getElem? hcall')
    simp [hwritten] at hnone

def onFailure : RegisterSchedulerTriggerInput :=
  { input := "look", threadId := sampleId
    when := some { event := some { eventType := "turn.failed" } } }

def turnFailed : ObservedEvent := ⟨"thread:1", "turn.failed"⟩

def otherDraw : Draw := ⟨"2026-01-01T00:00:30.000Z", "00000000-0000-4000-8000-000000000002"⟩

def registering (c : ℕ) (init : RegisterSchedulerTriggerInput) (draw : Draw) : List Input :=
  [.call (.register init) draw, .resume c draw, .resume c draw, .resume c draw]

/-- A notification, and the run it starts. -/
def notifying (c : ℕ) (event : ObservedEvent) : List Input :=
  [.call (.notify event) sampleDraw, .resume c sampleDraw, .ran c sampleId .completed,
    .resume c sampleDraw, .resume c sampleDraw, .resume c sampleDraw]

/-- Two notifications: the first fires the trigger. -/
theorem reaches_eventsFire_twice : ∃ s, (scheduler sampleOptions).Reaches Heard .initial s ∧
    .started 1 (newTrigger onFailure sampleDraw) ∈ s.history ∧ EventsFire s.history := by
  have hguarded : (scheduler sampleOptions).Guarded Heard .initial
      (registering 0 onFailure sampleDraw ++ notifying 1 turnFailed ++
        [.call (.notify turnFailed) sampleDraw, .resume 2 sampleDraw]) :=
    Machine.guarded_of_allSteps (fun _ _ => heard_of_heardStep) _ (by decide +kernel)
  obtain ⟨s, hreaches, hhistory⟩ := hguarded.exists_reaches
    (f := fun (s : AgentScheduler) =>
      decide (Happening.started 1 (newTrigger onFailure sampleDraw) ∈ s.history))
    (a := true) (by decide +kernel)
  exact ⟨s, hreaches, of_decide_eq_true hhistory, reaches_eventsFire hreaches⟩

theorem reaches_runs_once : ∃ s, (scheduler sampleOptions).Reaches Proper .initial s ∧
    ∀ p, .triggered p ∈ s.events → ∃ c t, .started c t ∈ s.history ∧ t.id = p.triggerId := by
  have hguarded : (scheduler sampleOptions).Guarded Proper .initial
      (registering 0 onFailure sampleDraw ++ notifying 1 turnFailed) :=
    Machine.guarded_of_allSteps (fun _ _ => proper_of_properStep) _ (by decide +kernel)
  obtain ⟨s, hreaches, -⟩ := hguarded.exists_reaches (f := fun s => s.events.length) (a := 2)
    (by decide +kernel)
  exact ⟨s, hreaches, (reaches_runs hreaches).2⟩

/-- Two triggers wait for the same event, and one of them is fired. -/
theorem turnFailed_missed : ∃ s, (scheduler sampleOptions).Reaches Proper .initial s ∧
    ¬ EventsFire s.history := by
  have hguarded : (scheduler sampleOptions).Guarded Proper .initial
      (registering 0 onFailure sampleDraw ++ registering 1 onFailure otherDraw ++
        notifying 2 turnFailed) :=
    Machine.guarded_of_allSteps (fun _ _ => proper_of_properStep) _ (by decide +kernel)
  obtain ⟨s, hreaches, hhistory⟩ := hguarded.exists_reaches (f := AgentScheduler.history)
    (a := [.recorded (.registered (newTrigger onFailure sampleDraw)), .ended 0,
      .recorded (.registered (newTrigger onFailure otherDraw)), .ended 1,
      .began 2 (.notify turnFailed), .started 2 (newTrigger onFailure sampleDraw),
      .recorded (.triggered ⟨sampleId, sampleId, some sampleId, .completed,
        "2026-01-01T00:00:00.000Z", 0, none⟩), .ended 2]) (by decide +kernel)
  refine ⟨s, hreaches, fun hfire => ?_⟩
  have hstarted := hfire.all [.recorded (.registered (newTrigger onFailure sampleDraw)), .ended 0,
      .recorded (.registered (newTrigger onFailure otherDraw)), .ended 1] _ _ hhistory
    2 turnFailed (newTrigger onFailure otherDraw) rfl (by simp) (by decide +kernel) (by simp) (by simp)
  exact absurd hstarted (by decide +kernel)

end BeeAgent.Scheduler
