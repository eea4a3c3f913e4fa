import BeeAgent.Data.Cadence
import BeeAgent.Data.Shedding
import BeeAgent.Scheduler.InPlan
import BeeAgent.Transition.History

/-! The cadence of the interval triggers, and the runs in which they keep it. -/
namespace BeeAgent.Scheduler
open Data Transition
open Shedding (load)

/-- The firings of a trigger that a stream records. -/
def firings (events : List SchedulerEvent) (id : String) : List TriggeredPayload :=
  events.filterMap fun
    | .triggered payload => if payload.triggerId = id then some payload else none
    | _ => none

def accounted (fired : List TriggeredPayload) : ℕ := load (fun f => 1 + f.missedIntervals) fired

section Statements
variable (o : SchedulerOptions)

/-- What is planned once these firings are recorded. -/
def plannedInstant (start : ℤ) (fired : List TriggeredPayload) : Option ℤ :=
  match fired.getLast? with
  | none => some start
  | some firing => firing.nextRunAt.bind o.parse

/-- A firing that was planned for an instant and came at a tick. -/
structure KeepsCadence (step start : ℤ) (before : List TriggeredPayload) (firing : TriggeredPayload)
    (instant tick next : ℤ) : Prop where
  planned : plannedInstant o start before = some instant
  fired : o.parse firing.firedAt = some tick
  follows : firing.nextRunAt.bind o.parse = some next
  later : tick < next
  whole : step ∣ next - start
  missed : firing.missedIntervals = (instants start step ∩ Set.Ioc instant tick).ncard
  passed : accounted (before ++ [firing]) = (instants start step ∩ Set.Iic tick).ncard

/-- Each firing of the trigger keeps the cadence of its interval. -/
def FiresInCadence (events : List SchedulerEvent) (t : SchedulerTrigger) : Prop :=
  ∀ step start, t.intervalMs = some step → t.nextRunAt.bind o.parse = some start →
    Justified (fun before firing => ∃ instant tick next,
      KeepsCadence o step start before firing instant tick next) (firings events t.id)

def CadenceKept (s : AgentScheduler) : Prop :=
  ∀ t, .registered t ∈ s.events → FiresInCadence o s.events t

/-- The trigger has no interval, or it comes a whole number of intervals late. -/
def InTime (t : SchedulerTrigger) (now : String) : Prop :=
  ∀ step, t.intervalMs = some step → ∃ instant tick, t.nextRunAt.bind o.parse = some instant ∧
    o.parse now = some tick ∧ instant ≤ tick ∧ step ∣ tick - instant

/-- A proper step, and in time where the run of a trigger has come to its end. -/
structure Punctual (s : AgentScheduler) (input : Input) : Prop where
  proper : Proper s input
  inTime : ∀ (c : ℕ) (call : Call) (t : SchedulerTrigger) (now : String) (after : After),
    (input = .fail c ∨ ∃ id status, input = .ran c id status) → s.calls[c]? = some call →
    call.stage = .running t now after → InTime o t now

end Statements

variable {o : SchedulerOptions} {s s' : AgentScheduler} {input : Input} {events : List SchedulerEvent}
  {id : String} {t : SchedulerTrigger}

theorem firings_append (payload : TriggeredPayload) :
    firings (events ++ [.triggered payload]) payload.triggerId =
      firings events payload.triggerId ++ [payload] := by
  simp [firings]

theorem firings_append_of_ne {event : SchedulerEvent}
    (h : ∀ payload, event = .triggered payload → payload.triggerId ≠ id) :
    firings (events ++ [event]) id = firings events id := by
  cases event with
  | triggered payload => simp [firings, h payload rfl]
  | _ => simp [firings]

theorem accounted_concat (fired : List TriggeredPayload) (firing : TriggeredPayload) :
    accounted (fired ++ [firing]) = accounted fired + (1 + firing.missedIntervals) := by
  simp [accounted]

theorem fire_instants (hdate : ∀ x text, o.toISOString x = some text → o.parse text = some x)
    {now : String} {missed : ℕ} {next : Option String} {step instant tick : ℤ}
    (hstep : t.intervalMs = some step) (hinstant : t.nextRunAt.bind o.parse = some instant)
    (htick : o.parse now = some tick) (hmissed : missedIntervals o t now = some missed)
    (hnext : following o t now missed = some next) :
    missed = ((tick - instant) / step).toNat ∧
      next.bind o.parse = some (max (instant + (missed + 1) * step) (tick + step)) := by
  obtain ⟨text, htext, hparse⟩ := Option.bind_eq_some_iff.mp hinstant
  simp only [missedIntervals, hstep, htext, htick, hparse, Option.bind_some, Option.map_some,
    Option.some.injEq] at hmissed
  simp only [following, hstep, htext, htick, hparse, Option.bind_some, Option.map_eq_some_iff] at hnext
  obtain ⟨iso, hiso, rfl⟩ := hnext
  exact ⟨hmissed.symm, hdate _ _ hiso⟩

/-- What the stream plans for a trigger is what its firings leave of it, and they keep its cadence. -/
structure OnCadence (o : SchedulerOptions) (events : List SchedulerEvent) (t : SchedulerTrigger) :
    Prop where
  same : ∀ u, planned events t.id = some u → { u with nextRunAt := t.nextRunAt } = t
  counted : ∀ step start, t.intervalMs = some step → t.nextRunAt.bind o.parse = some start →
    plannedInstant o start (firings events t.id) =
      some (start + accounted (firings events t.id) * step)
  aims : ∀ step start, t.intervalMs = some step → t.nextRunAt.bind o.parse = some start →
    ∀ u, planned events t.id = some u →
      u.nextRunAt.bind o.parse = plannedInstant o start (firings events t.id)
  kept : FiresInCadence o events t

/-- A firing that is still to be written is as it should be. -/
def FiresInTime (o : SchedulerOptions) : Job → Prop
  | .fire t now run next _ => missedIntervals o t now = some run.missedIntervals ∧
    following o t now run.missedIntervals = some next ∧ InTime o t now
  | _ => True

namespace OnCadence

theorem registered (h : ∀ e ∈ events, e.subject? ≠ some t.id) :
    OnCadence o (events ++ [.registered t]) t := by
  have hplanned : planned (events ++ [.registered t]) t.id = some t := by
    rw [planned_append]
    exact if_pos rfl
  have hfirings : firings (events ++ [.registered t]) t.id = [] := by
    rw [firings_append_of_ne (by simp), firings, List.filterMap_eq_nil_iff]
    intro e he
    cases e with
    | triggered payload => exact if_neg fun heq => h _ he (congrArg some heq)
    | _ => rfl
  refine ⟨fun u hu => ?_, fun step start hstep hstart => ?_, fun step start hstep hstart u hu => ?_,
    fun step start hstep hstart => ?_⟩
  · rw [hplanned] at hu
    cases hu
    rfl
  · simp [hfirings, plannedInstant, accounted]
  · rw [hplanned] at hu
    cases hu
    rw [hfirings]
    exact hstart
  · rw [hfirings]
    exact justified_nil

theorem other {event : SchedulerEvent} (h : OnCadence o events t)
    (hplans : ∀ before, event.plans t.id before = before)
    (hfires : ∀ payload, event = .triggered payload → payload.triggerId ≠ t.id) :
    OnCadence o (events ++ [event]) t := by
  have hplanned : planned (events ++ [event]) t.id = planned events t.id := by
    rw [planned_append, hplans]
  have hfirings : firings (events ++ [event]) t.id = firings events t.id :=
    firings_append_of_ne hfires
  refine ⟨?_, ?_, ?_, ?_⟩
  · rw [hplanned]
    exact h.same
  · rw [hfirings]
    exact h.counted
  · rw [hplanned, hfirings]
    exact h.aims
  · rw [FiresInCadence, hfirings]
    exact h.kept

theorem fired (h : OnCadence o events t)
    (hdate : ∀ x text, o.toISOString x = some text → o.parse text = some x) (hsound : t.Sound)
    {u : SchedulerTrigger} (hu : planned events u.id = some u) (hid : u.id = t.id) {now : String}
    {run : SchedulerFiredRun} {next : Option String} {after : After}
    (hjob : FiresInTime o (.fire u now run next after)) :
    OnCadence o (events ++ [(Job.fire u now run next after).event]) t := by
  obtain ⟨hmissed, hnext, htime⟩ := hjob
  have hsame := h.same u (hid ▸ hu)
  have hfirings : firings (events ++ [(Job.fire u now run next after).event]) t.id =
      firings events t.id ++ [⟨u.id, u.threadId, run.turnId, run.status, now, run.missedIntervals,
        next⟩] := by
    rw [← hid]
    exact firings_append _
  have hplanned : ∀ v, planned (events ++ [(Job.fire u now run next after).event]) t.id = some v →
      v = { u with nextRunAt := next } := by
    intro v hv
    rw [planned_append, ← hid, hu] at hv
    simp only [Job.event, SchedulerEvent.plans, SchedulerEvent.effect, if_true,
      Option.bind_some] at hv
    split at hv
    · cases hv
    · exact (Option.some.inj hv).symm
  have hkeeps : ∀ step start, t.intervalMs = some step → t.nextRunAt.bind o.parse = some start →
      ∃ instant tick next', KeepsCadence o step start (firings events t.id) ⟨u.id, u.threadId,
        run.turnId, run.status, now, run.missedIntervals, next⟩ instant tick next' ∧
        next' = start + (accounted (firings events t.id) + (1 + run.missedIntervals) : ℕ) * step := by
    intro step start hstep hstart
    have hinterval : u.intervalMs = some step :=
      (congrArg SchedulerTrigger.intervalMs hsame).trans hstep
    obtain ⟨instant, tick, hinstant, htick, hle, hlate⟩ := htime step hinterval
    have hcounted := h.counted step start hstep hstart
    have haims := (h.aims step start hstep hstart u (hid ▸ hu)).symm.trans hinstant
    have hsum : instant = start + accounted (firings events t.id) * step :=
      Option.some.inj (haims.symm.trans hcounted)
    have hpos := hsound.interval step hstep
    obtain ⟨hcount, hbind⟩ := fire_instants hdate hinterval hinstant htick hmissed hnext
    obtain ⟨hmax, hlater, hpassed⟩ := instants_late hpos hsum hle hlate
    rw [hcount, hmax, ← hcount] at hbind
    rw [← hcount] at hlater hpassed
    refine ⟨instant, tick, _, ⟨haims, htick, hbind, hlater, ?_, ?_, ?_⟩, rfl⟩
    · rw [add_sub_cancel_left]
      exact Dvd.intro_left _ rfl
    · rw [ncard_instants_Ioc hpos ⟨_, hsum⟩ hle]
      exact hcount
    · rw [accounted_concat, hpassed]
  refine ⟨fun v hv => ?_, fun step start hstep hstart => ?_, fun step start hstep hstart v hv => ?_,
    fun step start hstep hstart => ?_⟩
  · rw [hplanned v hv]
    exact hsame
  · obtain ⟨instant, tick, next', hkeep, rfl⟩ := hkeeps step start hstep hstart
    rw [hfirings]
    simp only [plannedInstant, List.getLast?_concat]
    rw [hkeep.follows, accounted_concat]
  · rw [hplanned v hv, hfirings]
    simp [plannedInstant]
  · obtain ⟨instant, tick, next', hkeep, -⟩ := hkeeps step start hstep hstart
    rw [hfirings]
    exact (h.kept step start hstep hstart).concat ⟨instant, tick, next', hkeep⟩

end OnCadence

/-- The streams and the firings in flight are on their cadences. -/
structure AllOnCadence (o : SchedulerOptions) (s : AgentScheduler) : Prop where
  inPlan : InPlan s
  jobs : ∀ (c : ℕ) (call : Call) (job : Job), s.calls[c]? = some call →
    call.stage.unwritten? = some job → FiresInTime o job
  triggers : ∀ t, .registered t ∈ s.events → OnCadence o s.events t

theorem AllOnCadence.step (h : AllOnCadence o s)
    (hdate : ∀ x text, o.toISOString x = some text → o.parse text = some x)
    (hpunctual : Punctual o s input) (hs : schedulerStep o s input = some s') :
    AllOnCadence o s' := by
  have hmoves := schedulerStep_moves h.inPlan.numbered hs
  refine ⟨h.inPlan.step hpunctual.proper hs, fun c call job hcall hjob => ?_, ?_⟩
  · cases hmoves.comes hcall hjob with
    | kept hcall hjob => exact h.jobs _ _ _ hcall hjob
    | registers | removes => trivial
    | fires hcall hstage hmissed hnext hinput =>
      exact ⟨hmissed, hnext, hpunctual.inTime _ _ _ _ _ hinput hcall hstage⟩
  · obtain heq | ⟨c, call, job, attempt, hcall, hstage, rfl⟩ := hmoves.events
    · rw [heq]
      exact h.triggers
    rw [events_record]
    intro t ht
    have hjob : call.stage.unwritten? = some job := by rw [hstage]; rfl
    have hfits := h.inPlan.fits c call hcall
    have hdue := hfits.due job hjob
    cases job with
    | register u =>
      obtain ht | ht := List.mem_append.mp ht
      · have hne := hdue.2 t ht
        exact (h.triggers t ht).other
          (fun before => SchedulerEvent.plans_of_ne fun heq => hne (Option.some.inj heq).symm)
          fun payload heq => by cases heq
      · cases List.mem_singleton.mp ht
        exact .registered fun e he => h.inPlan.not_about hdue.2 he
    | remove triggerId reason =>
      have ht := (List.mem_append.mp ht).resolve_right (by simp [Job.event])
      exact (h.triggers t ht).other (fun before => rfl) fun payload heq => by cases heq
    | fire u now run next after =>
      have ht := (List.mem_append.mp ht).resolve_right (by simp [Job.event])
      by_cases hid : u.id = t.id
      · exact (h.triggers t ht).fired hdate (h.inPlan.sound t ht)
          (hfits.held u (by simp [hstage, Stage.held])) hid (h.jobs c call _ hcall hjob)
      · refine (h.triggers t ht).other
          (fun before => SchedulerEvent.plans_of_ne fun heq => hid (Option.some.inj heq))
          fun payload heq hpayload => ?_
        cases heq
        exact hid hpayload

/-- In every run in which the ticks come a whole number of intervals late, the interval triggers keep
their cadence. -/
theorem reaches_cadenceKept
    (hdate : ∀ x text, o.toISOString x = some text → o.parse text = some x)
    (h : (scheduler o).Reaches (Punctual o) .initial s) : CadenceKept o s := by
  have hinvariant : AllOnCadence o s := by
    refine h.invariant ⟨.initial, fun c call job hcall => ?_, fun t ht => ?_⟩
      fun _ _ _ hon hpunctual hs => hon.step hdate hpunctual hs
    · cases hcall
    · cases ht
  exact fun t ht => (hinvariant.triggers t ht).kept

/-! ### Samples -/

/-- A check of a step that only punctual steps pass. -/
def punctualStep (o : SchedulerOptions) (s : AgentScheduler) (input : Input) : Bool :=
  properStep s input &&
    match input with
    | .ran c _ _ | .fail c => (s.calls[c]?).all fun call =>
      match call.stage with
      | .running t now _ => t.intervalMs.all fun step =>
        match t.nextRunAt.bind o.parse, o.parse now with
        | some instant, some tick => instant ≤ tick && (tick - instant) % step = 0
        | _, _ => false
      | _ => true
    | _ => true

theorem punctual_of_punctualStep (h : punctualStep o s input) : Punctual o s input := by
  obtain ⟨hproper, htime⟩ := Bool.and_eq_true_iff.mp h
  refine ⟨proper_of_properStep hproper, fun c call t now after hinput hcall hstage step hstep => ?_⟩
  have hall : (match t.nextRunAt.bind o.parse, o.parse now with
      | some instant, some tick => instant ≤ tick && (tick - instant) % step = 0
      | _, _ => false) = true := by
    obtain rfl | ⟨id, status, rfl⟩ := hinput <;>
      simpa only [hcall, Option.all_some, hstage, hstep] using htime
  cases hinstant : t.nextRunAt.bind o.parse with
  | none => simp [hinstant] at hall
  | some instant =>
    cases htick : o.parse now with
    | none => simp [hinstant, htick] at hall
    | some tick =>
      simp only [hinstant, htick, Bool.and_eq_true, decide_eq_true_eq] at hall
      exact ⟨instant, tick, rfl, rfl, hall.1, Int.dvd_of_emod_eq_zero hall.2⟩

def sampleDates : List (ℤ × String) :=
  [(1767225600000, "2026-01-01T00:00:00.000Z"), (1767225630000, "2026-01-01T00:00:30.000Z"),
    (1767225660000, "2026-01-01T00:01:00.000Z"), (1767225690000, "2026-01-01T00:01:30.000Z"),
    (1767225720000, "2026-01-01T00:02:00.000Z")]

/-- `Date` on a few instants. -/
def sampleOptions : SchedulerOptions where
  formats := ⟨fun _ => true, fun _ => true⟩
  localeCompare _ _ := 0
  parse text := (sampleDates.find? fun date => date.2 = text).map Prod.fst
  toISOString x := (sampleDates.find? fun date => date.1 = x).map Prod.snd

theorem sampleOptions_dates : ∀ x text, sampleOptions.toISOString x = some text →
    sampleOptions.parse text = some x := by
  intro x text h
  obtain ⟨date, hdate, rfl⟩ := Option.map_eq_some_iff.mp h
  have hx := List.find?_some hdate
  rw [decide_eq_true_eq] at hx
  subst hx
  have hall : ∀ date ∈ sampleDates, sampleOptions.parse date.2 = some date.1 := by decide +kernel
  exact hall date (List.mem_of_find?_eq_some hdate)

def sampleId : String := "00000000-0000-4000-8000-000000000001"

def sampleDraw : Draw := ⟨"2026-01-01T00:00:00.000Z", sampleId⟩

def everyMinute : RegisterSchedulerTriggerInput :=
  { input := "ping", threadId := sampleId, intervalMs := some 60000 }

/-- A trigger for every minute, and one tick. -/
def sampleRun (now : String) : List Input :=
  [.call (.register everyMinute) sampleDraw, .resume 0 sampleDraw, .resume 0 sampleDraw,
    .resume 0 sampleDraw, .call .tick sampleDraw, .resume 1 ⟨now, sampleId⟩,
    .ran 1 sampleId .completed, .resume 1 sampleDraw, .resume 1 sampleDraw]

/-- A tick one minute late. -/
theorem reaches_cadenceKept_minute :
    ∃ s, (scheduler sampleOptions).Reaches (Punctual sampleOptions) .initial s ∧
      (firings s.events sampleId).map (·.missedIntervals) = [1] ∧
      CadenceKept sampleOptions s := by
  have hguarded : (scheduler sampleOptions).Guarded (Punctual sampleOptions) .initial
      (sampleRun "2026-01-01T00:01:00.000Z") :=
    Machine.guarded_of_allSteps (fun _ _ => punctual_of_punctualStep) _ (by decide +kernel)
  obtain ⟨s, hreaches, hfired⟩ := hguarded.exists_reaches
    (f := fun s => (firings s.events sampleId).map (·.missedIntervals)) (a := [1])
    (by decide +kernel)
  exact ⟨s, hreaches, hfired, reaches_cadenceKept sampleOptions_dates hreaches⟩

/-- A tick half a minute late: the next run is planned a minute from then. -/
theorem halfMinute_drifts : (∀ x text, sampleOptions.toISOString x = some text →
      sampleOptions.parse text = some x) ∧
    ∃ s, (scheduler sampleOptions).Reaches Proper .initial s ∧ ¬ CadenceKept sampleOptions s := by
  refine ⟨sampleOptions_dates, ?_⟩
  have hguarded : (scheduler sampleOptions).Guarded Proper .initial
      (sampleRun "2026-01-01T00:00:30.000Z") :=
    Machine.guarded_of_allSteps (fun _ _ => proper_of_properStep) _ (by decide +kernel)
  obtain ⟨s, hreaches, hevents⟩ := hguarded.exists_reaches (f := AgentScheduler.events)
    (a := [.registered (newTrigger everyMinute sampleDraw),
      .triggered ⟨sampleId, sampleId, some sampleId, .completed, "2026-01-01T00:00:30.000Z", 0,
        some "2026-01-01T00:01:30.000Z"⟩]) (by decide +kernel)
  refine ⟨s, hreaches, fun hkept => ?_⟩
  have hregistered : .registered (newTrigger everyMinute sampleDraw) ∈ s.events := by simp [hevents]
  have hjustified := hkept _ hregistered 60000 1767225600000 rfl (by decide +kernel)
  obtain ⟨instant, tick, next, hkeeps⟩ := hjustified [] _ [] (by rw [hevents]; rfl)
  have hnext : sampleOptions.parse "2026-01-01T00:01:30.000Z" = some 1767225690000 := by
    decide +kernel
  obtain rfl : 1767225690000 = next := Option.some.inj (hnext.symm.trans hkeeps.follows)
  exact absurd hkeeps.whole (by decide)

end BeeAgent.Scheduler
