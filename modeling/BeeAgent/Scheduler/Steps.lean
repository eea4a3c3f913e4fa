import BeeAgent.Scheduler.Firing

/-! What a step of the scheduler can do, and what it leaves of the calls. -/
namespace BeeAgent.Scheduler
open Data Transition

/-- The due triggers that are still to be fired. -/
def After.rest : After → List SchedulerTrigger
  | .due rest _ => rest
  | _ => []

namespace Stage

/-- The copies of triggers that are still to be fired or to be recorded as fired. -/
def held : Stage → List SchedulerTrigger
  | .reading trigger _ _ _ => [trigger]
  | .running trigger _ after => trigger :: after.rest
  | .latest (.fire trigger _ _ _ after) _ => trigger :: after.rest
  | .appending (.fire trigger _ _ _ after) _ _ => trigger :: after.rest
  | .recorded (.fire _ _ _ _ after) => after.rest
  | _ => []

/-- What is still to be written to the stream. -/
def unwritten? : Stage → Option Job
  | .latest job _ => some job
  | .appending job _ _ => some job
  | _ => none

/-- What is written but not yet in the live map. -/
def written? : Stage → Option Job
  | .recorded job => some job
  | _ => none

/-- The trigger whose run is started and not yet recorded. -/
def firing? : Stage → Option SchedulerTrigger
  | .running trigger _ _ => some trigger
  | .latest (.fire trigger ..) _ => some trigger
  | .appending (.fire trigger ..) _ _ => some trigger
  | _ => none

/-- The due triggers that come after it. -/
def later : Stage → List SchedulerTrigger
  | .running _ _ after => after.rest
  | .latest (.fire _ _ _ _ after) _ => after.rest
  | .appending (.fire _ _ _ _ after) _ _ => after.rest
  | .recorded (.fire _ _ _ _ after) => after.rest
  | _ => []

def rest? : Stage → Option (List SchedulerEvent)
  | .replaying rest => some rest
  | _ => none

/-- No two calls are at such a stage. -/
def exclusive : Stage → Bool
  | .replaying _ | .reading .. | .running .. => true
  | .latest (.fire ..) _ | .appending (.fire ..) _ _ | .recorded (.fire ..) => true
  | _ => false

end Stage

/-- The state once a job of the call is written. -/
def AgentScheduler.record (s : AgentScheduler) (c : ℕ) (job : Job) : AgentScheduler :=
  { (s.withStage c (.recorded job)).happens (.recorded job.event) with
    stream := s.stream ++ [⟨s.nextEventId, job.event⟩]
    nextEventId := s.nextEventId + 1 }

/-- The steps of a call that change nothing but its stage. -/
inductive Advances (o : SchedulerOptions) (s : AgentScheduler) (c : ℕ) :
    Input → Stage → Stage → Prop where
  | rebuilt {draw : Draw} :
    Advances o s c (.resume c draw) (.replaying []) (.finished (.ok .rebuilt))
  | unknown {draw : Draw} {event : SchedulerEvent} {rest : List SchedulerEvent} {e : SchedulerError}
    (hfold : foldEvent s.triggers event = .error e) :
    Advances o s c (.resume c draw) (.replaying (event :: rest)) (.finished (.error e))
  | found {draw : Draw} {trigger : SchedulerTrigger} {cursor : ℕ} {fired : List SchedulerFiredRun}
    {now : String} (hreached : reached s trigger = true) :
    Advances o s c (.resume c draw) (.reading trigger cursor fired now)
      (.running trigger now (.pending cursor fired))
  | passed {draw : Draw} {trigger : SchedulerTrigger} {cursor : ℕ} {fired : List SchedulerFiredRun}
    {now : String} (hreached : reached s trigger = false) :
    Advances o s c (.resume c draw) (.reading trigger cursor fired now)
      (nextPending s.triggers cursor fired now)
  | asked {draw : Draw} {job : Job} {attempt : ℕ} :
    Advances o s c (.resume c draw) (.latest job attempt)
      (.appending job attempt (Chronicle.getLatestSequence s.stream + 1))
  | retried {draw : Draw} {job : Job} {attempt expectedSequence : ℕ} :
    Advances o s c (.resume c draw) (.appending job attempt expectedSequence)
      (.latest job (attempt + 1))
  | refused {draw : Draw} {job : Job} {attempt expectedSequence : ℕ} {e : SchedulerError}
    (hlast : 2 ≤ attempt) (hsequence : expectedSequence ≠ s.stream.length + 1) :
    Advances o s c (.resume c draw) (.appending job attempt expectedSequence) (.finished (.error e))
  | settled {input : Input} {trigger : SchedulerTrigger} {now : String} {after : After} {turnId : Option String}
    {status : SchedulerRunStatus} (hinput : input = .fail c ∨ ∃ id, input = .ran c id status) :
    Advances o s c input (.running trigger now after) (settle o trigger now after turnId status)
  | failed {stage : Stage} (hawaits : stage.rest?.isSome ∨ stage.unwritten?.isSome ∨
      ∃ trigger cursor fired now, stage = .reading trigger cursor fired now) :
    Advances o s c (.fail c) stage (.finished (.error .chronicle))

/-- The changes of one step. -/
inductive Moves (o : SchedulerOptions) (s : AgentScheduler) : Input → AgentScheduler → Prop where
  | called (op : SchedulerOperation) (draw : Draw) :
    Moves o s (.call op draw) { s with
      calls := s.calls ++ [⟨op, start o s draw op⟩]
      history := s.history ++ (start o s draw op).happening s.calls.length }
  | entered {c : ℕ} {call : Call} {draw : Draw} (hcall : s.calls[c]? = some call)
    (hstage : call.stage = .queued) (hfree : free s c) :
    Moves o s (.resume c draw) (((cleared s call.op).happens (.began c call.op)).withStage c
      (enter o s.triggers s.events draw.now call.op))
  | replayed {c : ℕ} {call : Call} {draw : Draw} {event : SchedulerEvent}
    {rest : List SchedulerEvent} {triggers : Triggers} (hcall : s.calls[c]? = some call)
    (hstage : call.stage = .replaying (event :: rest))
    (hfold : foldEvent s.triggers event = .ok triggers) :
    Moves o s (.resume c draw) { s.withStage c (.replaying rest) with triggers }
  | advanced {c : ℕ} {call : Call} {input : Input} {stage : Stage}
    (hcall : s.calls[c]? = some call) (h : Advances o s c input call.stage stage) :
    Moves o s input (s.withStage c stage)
  | landed {c : ℕ} {call : Call} {draw : Draw} {job : Job} {attempt : ℕ}
    (hcall : s.calls[c]? = some call)
    (hstage : call.stage = .appending job attempt (s.stream.length + 1)) :
    Moves o s (.resume c draw) (s.record c job)
  | concluded {c : ℕ} {call : Call} {draw : Draw} {job : Job} (hcall : s.calls[c]? = some call)
    (hstage : call.stage = .recorded job) : Moves o s (.resume c draw) (conclude s c job)
  | observed (taskId : String) (event : TaskEvent) :
    Moves o s (.observed taskId event) { s.happens (.changed taskId event) with
      kanban := s.kanban.set taskId ((s.kanban.get taskId).getD [] ++ [event]) }
  | restarted {triggers : Triggers} (hrebuild : rebuild s.events = .ok triggers) :
    Moves o s .restart { s with
      triggers
      calls := s.calls.map fun call => { call with stage := call.stage.drop } }

def Numbered (s : AgentScheduler) : Prop := ∀ event ∈ s.stream, event.eventId < s.nextEventId

variable {o : SchedulerOptions} {s s' : AgentScheduler} {input : Input} {c c' : ℕ}
  {call call' : Call} {stage : Stage}

theorem schedulerStep_moves (hnumbered : Numbered s) (h : schedulerStep o s input = some s') :
    Moves o s input s' := by
  cases input with
  | call op draw =>
    cases h
    exact .called op draw
  | resume c draw =>
    obtain ⟨call, hcall, h⟩ := Option.bind_eq_some_iff.mp h
    split at h
    · next hstage =>
      split at h
      · next hfree =>
        cases h
        exact .entered hcall hstage hfree
      · cases h
    · next rest hstage =>
      cases h
      cases rest with
      | nil => exact .advanced hcall (hstage ▸ .rebuilt)
      | cons event rest =>
        rw [replay]
        split
        · next e hfold => exact .advanced hcall (hstage ▸ .unknown hfold)
        · next triggers hfold => exact .replayed hcall hstage hfold
    · next trigger cursor fired now hstage =>
      cases h
      split
      · next hreached => exact .advanced hcall (hstage ▸ .found hreached)
      · next hreached => exact .advanced hcall (hstage ▸ .passed (Bool.eq_false_iff.mpr hreached))
    · next job attempt hstage =>
      cases h
      exact .advanced hcall (hstage ▸ .asked)
    · next job attempt expectedSequence hstage =>
      cases h
      have hfresh : ∀ e ∈ s.stream, e.eventId ≠ s.nextEventId := fun e he =>
        Nat.ne_of_lt (hnumbered e he)
      by_cases hsequence : expectedSequence = s.stream.length + 1
      · subst hsequence
        rw [land, show s.stream.length = Chronicle.getLatestSequence s.stream from rfl,
          Chronicle.append_next]
        exact .landed hcall hstage
      · rw [land]
        split
        · split
          · exact .advanced hcall (hstage ▸ .retried)
          · next hlast =>
            exact .advanced hcall (hstage ▸ .refused (Nat.le_of_not_lt hlast) hsequence)
        · next stream happend =>
          exact absurd (Chronicle.append_fresh hfresh happend).1 hsequence
    · next job hstage =>
      cases h
      exact .concluded hcall hstage
    all_goals cases h
  | ran c turnId status =>
    obtain ⟨call, hcall, h⟩ := Option.bind_eq_some_iff.mp h
    split at h
    · next trigger now after hstage =>
      cases h
      exact .advanced hcall (hstage ▸ .settled (.inr ⟨turnId, rfl⟩))
    · cases h
  | fail c =>
    obtain ⟨call, hcall, h⟩ := Option.bind_eq_some_iff.mp h
    split at h
    · next trigger now after hstage =>
      cases h
      exact .advanced hcall (hstage ▸ .settled (.inl rfl))
    all_goals try cases h
    all_goals refine .advanced hcall (.failed ?_)
    · next hstage => simp [hstage, Stage.rest?]
    · next hstage => simp [hstage]
    · next hstage => simp [hstage, Stage.unwritten?]
    · next hstage => simp [hstage, Stage.unwritten?]
  | observed taskId event =>
    cases h
    exact .observed taskId event
  | restart =>
    simp only [schedulerStep] at h
    split at h
    · cases h
    · next triggers hrebuild =>
      cases h
      exact .restarted hrebuild

/-! ### Stages -/

/-- What `register` has checked of a trigger. -/
structure SchedulerTrigger.Sound (t : SchedulerTrigger) : Prop where
  enabled : t.enabled
  interval : ∀ step, t.intervalMs = some step → 0 < step
  schedule : t.when.isSome → t.intervalMs = none ∧ t.nextRunAt = none
  single : ∀ w, t.when = some w → w.taskStatus.isSome ≠ w.event.isSome

theorem register_ok {f : Kanban.Formats} {init : RegisterSchedulerTriggerInput} {draw : Draw}
    {t : SchedulerTrigger} (h : register f init draw = .ok t) :
    t = newTrigger init draw ∧ t.Sound := by
  simp only [register] at h
  split at h <;> [cases h; skip]
  next hinterval =>
  split at h <;> [cases h; skip]
  next hexclusive =>
  split at h <;> [cases h; skip]
  obtain rfl := parseTrigger_ok h
  refine ⟨rfl, rfl, fun step hstep => ?_, fun hwhen => ?_, fun w hw => parseTrigger_when h hw⟩
  · have hstep : init.intervalMs = some step := hstep
    simp only [hstep, Option.any_some, decide_eq_true_eq] at hinterval
    omega
  · have hwhen : init.when.isSome := hwhen
    simp only [hwhen, Bool.true_and, Bool.or_eq_true, not_or, Bool.not_eq_true,
      Option.isSome_eq_false_iff, Option.isNone_iff_eq_none] at hexclusive
    exact ⟨hexclusive.2, by simp [newTrigger, Option.ne_none_iff_isSome.mpr hwhen]⟩

theorem start_cases (o : SchedulerOptions) (s : AgentScheduler) (draw : Draw)
    (op : SchedulerOperation) :
    (start o s draw op = .queued ∧ op.serialized) ∨ (start o s draw op).isOver ∨
      (∃ init, op = .register init ∧ start o s draw op = .latest (.register (newTrigger init draw)) 0 ∧
        (newTrigger init draw).Sound) ∨
      ∃ id reason t, op = .remove id reason ∧ s.triggers.get id = some t ∧
        start o s draw op = .latest (.remove id reason) 0 := by
  cases op with
  | register init =>
    rw [start]
    split
    · exact .inr (.inl rfl)
    · next t ht =>
      obtain ⟨rfl, hsound⟩ := register_ok ht
      exact .inr (.inr (.inl ⟨init, rfl, rfl, hsound⟩))
  | remove id reason =>
    rw [start]
    split
    · exact .inr (.inl rfl)
    · next t ht => exact .inr (.inr (.inr ⟨id, reason, t, rfl, ht, rfl⟩))
  | tick | notify | rebuild => exact .inl ⟨rfl, rfl⟩

theorem mem_due {o : SchedulerOptions} {triggers : Triggers} {now : String}
    {trigger : SchedulerTrigger} :
    trigger ∈ due o triggers now ↔ trigger ∈ triggers.values ∧ isDue now trigger := by
  rw [due, List.mem_insertionSort, List.mem_filter]

theorem Keyed.nodup_ids {triggers : Triggers} (h : Keyed triggers) :
    (triggers.values.map (·.id)).Nodup := by
  have hids : triggers.values.map (·.id) = triggers.numbered.keys := by
    rw [LiveMap.values, OrderedMap.values, OrderedMap.keys, List.map_map, List.map_map]
    refine List.map_congr_left fun e he => h e.1 e.2.2 ?_
    rw [LiveMap.get, OrderedMap.mem_entries_iff.mp he]
    rfl
  rw [hids]
  exact triggers.numbered.nodup

theorem nodup_due {triggers : Triggers} (h : Keyed triggers) (o : SchedulerOptions) (now : String) :
    ((due o triggers now).map (·.id)).Nodup :=
  (((List.perm_insertionSort _ _).map _).nodup_iff).mpr
    (h.nodup_ids.sublist (List.filter_sublist.map _))

theorem nextPending_cases (triggers : Triggers) (cursor : ℕ) (fired : List SchedulerFiredRun)
    (now : String) :
    nextPending triggers cursor fired now = .finished (.ok (.report fired)) ∧
        triggers.findFrom cursor awaitsTask = none ∨
      ∃ n t, nextPending triggers cursor fired now = .reading t (n + 1) fired now ∧
        triggers.findFrom cursor awaitsTask = some (n, t) := by
  rw [nextPending]
  split
  · next n t hfind => exact .inr ⟨n, t, rfl, hfind⟩
  · next hfind => exact .inl ⟨rfl, hfind⟩

/-- A stage that a call gets to with nothing to write and nothing to read back. -/
structure Stage.Plain (stage : Stage) : Prop where
  queued : stage ≠ .queued
  rest : stage.rest? = none
  unwritten : stage.unwritten? = none
  written : stage.written? = none

theorem nextPending_plain (triggers : Triggers) (cursor : ℕ) (fired : List SchedulerFiredRun)
    (now : String) : (nextPending triggers cursor fired now).Plain := by
  obtain ⟨h, -⟩ | ⟨n, t, h, -⟩ := nextPending_cases triggers cursor fired now <;> rw [h] <;>
    exact ⟨by simp, rfl, rfl, rfl⟩

theorem nextDue_plain (triggers : Triggers) (fired : List SchedulerFiredRun) (now : String)
    (rest : List SchedulerTrigger) : (nextDue triggers fired now rest).Plain := by
  cases rest with
  | nil => exact nextPending_plain ..
  | cons t rest => exact ⟨by simp [nextDue], rfl, rfl, rfl⟩

theorem proceed_plain (triggers : Triggers) (job : Job) : (proceed triggers job).Plain := by
  cases job with
  | register | remove => exact ⟨by simp [proceed], rfl, rfl, rfl⟩
  | fire t now run next after =>
    cases after with
    | due => exact nextDue_plain ..
    | pending => exact nextPending_plain ..
    | notified => exact ⟨by simp [proceed], rfl, rfl, rfl⟩

/-- The copies that a stage holds are among those, or it has one that was just found. -/
def Stage.HoldsOf (triggers : Triggers) (stage : Stage) (copies : List SchedulerTrigger) : Prop :=
  stage.held.Sublist copies ∨
    ∃ cursor n t, stage.held = [t] ∧ triggers.findFrom cursor awaitsTask = some (n, t)

theorem nextPending_holds (triggers : Triggers) (cursor : ℕ) (fired : List SchedulerFiredRun)
    (now : String) (copies : List SchedulerTrigger) :
    (nextPending triggers cursor fired now).HoldsOf triggers copies := by
  obtain ⟨h, -⟩ | ⟨n, t, h, hfind⟩ := nextPending_cases triggers cursor fired now <;> rw [h]
  · exact .inl (List.nil_sublist _)
  · exact .inr ⟨cursor, n, t, rfl, hfind⟩

theorem nextDue_holds (triggers : Triggers) (fired : List SchedulerFiredRun) (now : String)
    (rest : List SchedulerTrigger) : (nextDue triggers fired now rest).HoldsOf triggers rest := by
  cases rest with
  | nil => exact nextPending_holds ..
  | cons t rest => exact .inl (List.Sublist.refl _)

theorem proceed_holds (triggers : Triggers) (job : Job) :
    (proceed triggers job).HoldsOf triggers (Stage.recorded job).held := by
  cases job with
  | register | remove => exact .inl (List.nil_sublist _)
  | fire t now run next after =>
    cases after with
    | due => exact nextDue_holds ..
    | pending => exact nextPending_holds ..
    | notified => exact .inl (List.nil_sublist _)

theorem proceed_exclusive {triggers : Triggers} {job : Job} (h : (proceed triggers job).exclusive) :
    (Stage.recorded job).exclusive := by
  cases job with
  | register | remove => cases h
  | fire => rfl

theorem cleared_calls (s : AgentScheduler) (op : SchedulerOperation) :
    (cleared s op).calls = s.calls := by
  cases op <;> rfl

theorem cleared_history (s : AgentScheduler) (op : SchedulerOperation) :
    (cleared s op).history = s.history := by
  cases op <;> rfl

theorem cleared_of_ne {op : SchedulerOperation} (s : AgentScheduler) (hop : op ≠ .rebuild) :
    cleared s op = s := by
  cases op with
  | rebuild => exact absurd rfl hop
  | _ => rfl

theorem enter_plain {triggers : Triggers} {op : SchedulerOperation} (hkeyed : Keyed triggers)
    (hserialized : op.serialized) (hop : op ≠ .rebuild) (events : List SchedulerEvent)
    (now : String) : (enter o triggers events now op).Plain ∧
      (∀ t ∈ (enter o triggers events now op).held, t ∈ triggers.values) ∧
      ((enter o triggers events now op).held.map (·.id)).Nodup := by
  cases op with
  | register | remove => cases hserialized
  | rebuild => exact absurd rfl hop
  | tick =>
    refine ⟨nextDue_plain .., fun t ht => ?_, ?_⟩ <;>
      obtain hsub | ⟨cursor, n, u, heq, hfind⟩ := nextDue_holds triggers [] now (due o triggers now)
    · exact (mem_due.mp (hsub.subset ht)).1
    · obtain rfl : t = u := by simpa [enter, heq] using ht
      obtain ⟨-, id, hget⟩ := LiveMap.findFrom_some hfind
      exact LiveMap.mem_values_iff.mpr ⟨id, hget⟩
    · exact (nodup_due hkeyed o now).sublist (hsub.map _)
    · simp [enter, heq]
  | notify event =>
    rw [enter]
    split
    · next t hfind =>
      refine ⟨⟨by simp, rfl, rfl, rfl⟩, fun u hu => ?_, List.nodup_singleton _⟩
      rw [List.mem_singleton.mp hu]
      exact List.mem_of_find?_eq_some hfind
    · exact ⟨⟨by simp, rfl, rfl, rfl⟩, by simp [Stage.held], List.nodup_nil⟩

theorem enter_unwritten (triggers : Triggers) (events : List SchedulerEvent) (now : String)
    (op : SchedulerOperation) : (enter o triggers events now op).unwritten? = none := by
  cases op with
  | tick => exact (nextDue_plain ..).unwritten
  | notify event =>
    rw [enter]
    split <;> rfl
  | _ => rfl

theorem settle_cases (o : SchedulerOptions) (t : SchedulerTrigger) (now : String) (after : After)
    (turnId : Option String) (status : SchedulerRunStatus) :
    settle o t now after turnId status = .finished (.error .invalidTime) ∧
        (t.intervalMs.isSome ∧ t.nextRunAt.isSome) ∨
      ∃ run next, settle o t now after turnId status = .latest (.fire t now run next after) 0 ∧
        missedIntervals o t now = some run.missedIntervals ∧
        following o t now run.missedIntervals = some next := by
  have hinvalid : missedIntervals o t now = none ∨ (∃ missed, following o t now missed = none) →
      t.intervalMs.isSome ∧ t.nextRunAt.isSome := by
    rw [missedIntervals]
    simp only [following]
    cases t.intervalMs <;> cases t.nextRunAt <;> simp
  rw [settle]
  split
  · next hmissed => exact .inl ⟨rfl, hinvalid (.inl hmissed)⟩
  · next missed hmissed =>
    split
    · next hnext => exact .inl ⟨rfl, hinvalid (.inr ⟨missed, hnext⟩)⟩
    · next next hnext => exact .inr ⟨_, next, rfl, hmissed, hnext⟩

namespace Advances
variable {stage' : Stage}

theorem not_over (h : Advances o s c input stage stage') : stage.isOver = false := by
  cases h with
  | failed hawaits =>
    cases stage with
    | finished | dropped => simp [Stage.rest?, Stage.unwritten?] at hawaits
    | _ => rfl
  | _ => rfl

theorem not_written (h : Advances o s c input stage stage') : stage.written? = none := by
  cases h with
  | failed hawaits =>
    cases stage with
    | recorded => simp [Stage.rest?, Stage.unwritten?] at hawaits
    | _ => rfl
  | _ => rfl

theorem plain (h : Advances o s c input stage stage') :
    stage' ≠ .queued ∧ stage'.rest? = none ∧ stage'.written? = none := by
  cases h with
  | @passed _ trigger cursor fired now =>
    have h := nextPending_plain s.triggers cursor fired now
    exact ⟨h.queued, h.rest, h.written⟩
  | @settled _ t now after turnId status =>
    obtain ⟨h, -⟩ | ⟨run, next, h, -⟩ := settle_cases o t now after turnId status <;>
      rw [h] <;> exact ⟨by simp, rfl, rfl⟩
  | _ => exact ⟨by simp, rfl, rfl⟩

theorem exclusive (h : Advances o s c input stage stage') (h' : stage'.exclusive) :
    stage.exclusive := by
  cases h with
  | @asked _ job => cases job <;> exact h'
  | @retried _ job => cases job <;> exact h'
  | _ => first | rfl | cases h'

theorem unwritten {job : Job} (h : Advances o s c input stage stage')
    (h' : stage'.unwritten? = some job) : stage.unwritten? = some job ∨
      ∃ t now run next after, job = .fire t now run next after ∧ stage = .running t now after ∧
        missedIntervals o t now = some run.missedIntervals ∧
        following o t now run.missedIntervals = some next ∧
        (input = .fail c ∨ ∃ id status, input = .ran c id status) := by
  cases h with
  | @passed _ trigger cursor fired now =>
    rw [(nextPending_plain s.triggers cursor fired now).unwritten] at h'
    cases h'
  | @settled _ t now after turnId status hinput =>
    obtain ⟨h, -⟩ | ⟨run, next, h, hmissed, hnext⟩ := settle_cases o t now after turnId status
    · rw [h] at h'
      cases h'
    · rw [h] at h'
      cases h'
      exact .inr ⟨t, now, run, next, after, rfl, rfl, hmissed, hnext,
        hinput.imp id fun ⟨id, h⟩ => ⟨id, status, h⟩⟩
  | asked | retried => exact .inl h'
  | _ => cases h'

theorem holds (h : Advances o s c input stage stage') :
    stage'.HoldsOf s.triggers stage.held ∧
      (stage.rest? = none ∨ stage'.held = []) := by
  cases h with
  | passed => exact ⟨nextPending_holds .., .inl rfl⟩
  | @settled _ t now after turnId status =>
    obtain ⟨h, -⟩ | ⟨run, next, h, -⟩ := settle_cases o t now after turnId status <;> rw [h]
    · exact ⟨.inl (List.nil_sublist _), .inl rfl⟩
    · exact ⟨.inl (List.Sublist.refl _), .inl rfl⟩
  | @asked _ job => cases job <;> exact ⟨.inl (List.Sublist.refl _), .inl rfl⟩
  | @retried _ job => cases job <;> exact ⟨.inl (List.Sublist.refl _), .inl rfl⟩
  | found => exact ⟨.inl (List.Sublist.refl _), .inl rfl⟩
  | _ => exact ⟨.inl (List.nil_sublist _), .inr rfl⟩

theorem rest {rest : List SchedulerEvent} (h : Advances o s c input stage stage')
    (hrest : stage.rest? = some rest) : rest = [] ∨
      (∃ event ∈ rest, ∃ e, foldEvent s.triggers event = .error e) ∨ input = .fail c := by
  cases h with
  | rebuilt => exact .inl (Option.some.inj hrest).symm
  | unknown hfold =>
    cases hrest
    exact .inr (.inl ⟨_, List.mem_cons_self .., _, hfold⟩)
  | failed => exact .inr (.inr rfl)
  | settled | found | passed | asked | retried | refused => cases hrest

end Advances

/-! ### Calls -/

theorem withStage_calls (h : (s.withStage c stage).calls[c']? = some call') :
    (c' = c ∧ ∃ call, s.calls[c]? = some call ∧ call' = { call with stage }) ∨
      c' ≠ c ∧ s.calls[c']? = some call' := by
  rw [AgentScheduler.withStage, List.getElem?_modify] at h
  by_cases heq : c' = c
  · subst heq
    obtain ⟨call, hcall, rfl⟩ := Option.map_eq_some_iff.mp h
    exact .inl ⟨rfl, call, hcall, if_pos rfl⟩
  · exact .inr ⟨heq, by simpa [Ne.symm heq] using h⟩

theorem append_calls {new : Call} (h : (s.calls ++ [new])[c]? = some call) :
    s.calls[c]? = some call ∨ c = s.calls.length ∧ call = new := by
  rw [List.getElem?_append] at h
  split at h
  · exact .inl h
  · next hle =>
    obtain ⟨hlt, rfl⟩ := List.getElem?_eq_some_iff.mp h
    rw [List.length_singleton] at hlt
    exact .inr ⟨by omega, by simp⟩

theorem withStage_self (hcall : s.calls[c]? = some call) :
    (s.withStage c stage).calls[c]? = some { call with stage } := by
  simp [AgentScheduler.withStage, hcall]

theorem withStage_of_ne (h : c' ≠ c) : (s.withStage c stage).calls[c']? = s.calls[c']? :=
  List.getElem?_modify_ne _ _ (Ne.symm h)

theorem events_record (s : AgentScheduler) (c : ℕ) (job : Job) :
    (s.record c job).events = s.events ++ [job.event] := List.map_append

theorem free_iff : free s c ↔ ∀ c' < c, ∀ call, s.calls[c']? = some call → call.op.serialized →
    call.stage.isOver := by
  simp only [free, List.all_eq_true, List.mem_take_iff_getElem, Bool.or_eq_true,
    Bool.not_eq_true', ← Bool.not_eq_true]
  constructor
  · intro h c' hlt call hcall hserialized
    obtain ⟨hlength, rfl⟩ := List.getElem?_eq_some_iff.mp hcall
    exact (h _ ⟨c', by omega, rfl⟩).resolve_left (not_not_intro hserialized)
  · rintro h call ⟨c', hlt, rfl⟩
    by_cases hserialized : (s.calls[c']).op.serialized = true
    · exact .inr (h c' (by omega) _ (List.getElem?_eq_getElem _) hserialized)
    · exact .inl hserialized

/-- Where a job comes from that a call has before it. -/
inductive Job.Comes (o : SchedulerOptions) (s : AgentScheduler) (input : Input) (c : ℕ) : Job → Prop
    where
  | kept {call : Call} {job : Job} (hcall : s.calls[c]? = some call)
    (hjob : call.stage.unwritten? = some job) : Comes o s input c job
  | registers {init : RegisterSchedulerTriggerInput} {draw : Draw}
    (hinput : input = .call (.register init) draw) (hsound : (newTrigger init draw).Sound) :
    Comes o s input c (.register (newTrigger init draw))
  | removes (triggerId : String) (reason : Option String) : Comes o s input c (.remove triggerId reason)
  | fires {call : Call} {t : SchedulerTrigger} {now : String} {run : SchedulerFiredRun}
    {next : Option String} {after : After} (hcall : s.calls[c]? = some call)
    (hstage : call.stage = .running t now after)
    (hmissed : missedIntervals o t now = some run.missedIntervals)
    (hnext : following o t now run.missedIntervals = some next)
    (hinput : input = .fail c ∨ ∃ id status, input = .ran c id status) :
    Comes o s input c (.fire t now run next after)

theorem Moves.comes (h : Moves o s input s') (hcall : s'.calls[c]? = some call) {job : Job}
    (hjob : call.stage.unwritten? = some job) : Job.Comes o s input c job := by
  cases h with
  | called op draw =>
    obtain hcall | ⟨-, rfl⟩ := append_calls hcall
    · exact .kept hcall hjob
    · obtain ⟨heq, -⟩ | hover | ⟨init, rfl, heq, hsound⟩ | ⟨id, reason, t, -, -, heq⟩ :=
        start_cases o s draw op
      · simp [heq, Stage.unwritten?] at hjob
      · cases hstage : start o s draw op <;> simp [hstage, Stage.isOver, Stage.unwritten?] at hover hjob
      · rw [heq] at hjob
        cases hjob
        exact .registers rfl hsound
      · rw [heq] at hjob
        cases hjob
        exact .removes id reason
  | entered hcall₀ =>
    obtain ⟨rfl, call₀, -, rfl⟩ | ⟨-, hcall⟩ := withStage_calls hcall
    · simp [enter_unwritten] at hjob
    · exact .kept (by rw [← cleared_calls s]; exact hcall) hjob
  | replayed | landed =>
    obtain ⟨rfl, call₀, -, rfl⟩ | ⟨-, hcall⟩ := withStage_calls hcall
    · cases hjob
    · exact .kept hcall hjob
  | advanced hcall₀ hadvances =>
    obtain ⟨rfl, call₁, hcall₁, rfl⟩ | ⟨-, hcall⟩ := withStage_calls hcall
    · obtain hold | ⟨t, now, run, next, after, rfl, hstage, hmissed, hnext, hinput⟩ :=
        hadvances.unwritten hjob
      · exact .kept hcall₀ hold
      · exact .fires hcall₀ hstage hmissed hnext hinput
    · exact .kept hcall hjob
  | concluded =>
    obtain ⟨rfl, call₀, -, rfl⟩ | ⟨-, hcall⟩ := withStage_calls hcall
    · simp [(proceed_plain ..).unwritten] at hjob
    · exact .kept hcall hjob
  | observed => exact .kept hcall hjob
  | restarted =>
    rw [List.getElem?_map] at hcall
    obtain ⟨call₀, -, rfl⟩ := Option.map_eq_some_iff.mp hcall
    cases hstage : call₀.stage <;> simp [hstage, Stage.drop, Stage.unwritten?] at hjob

theorem Moves.events (h : Moves o s input s') : s'.events = s.events ∨
    ∃ c call job attempt, s.calls[c]? = some call ∧
      call.stage = .appending job attempt (s.stream.length + 1) ∧ s' = s.record c job := by
  cases h with
  | landed hcall hstage => exact .inr ⟨_, _, _, _, hcall, hstage, rfl⟩
  | @entered c call =>
    left
    cases call.op <;> rfl
  | _ => exact .inl rfl

end BeeAgent.Scheduler
