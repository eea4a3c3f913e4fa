import BeeAgent.Scheduler.EventTriggers

/-! The triggers that wait for a task, and the runs in which each of them is fired by the first tick
that begins after the task has come to its status. -/
namespace BeeAgent.Scheduler
open Data Transition

def SchedulerTrigger.onTask (t : SchedulerTrigger) : Bool := (t.when.bind (·.taskStatus)).isSome

/-- The task of the trigger comes to the status it waits for. -/
def Happening.fulfils (t : SchedulerTrigger) : Happening → Prop
  | .changed taskId event => ∃ condition, t.when.bind (·.taskStatus) = some condition ∧
    taskId = condition.taskId ∧ event.eventType = "kanban.task.status_changed" ∧
    event.taskId = condition.taskId ∧ event.status = condition.status
  | _ => False

def ChangedSince (history : List Happening) (t : SchedulerTrigger) : Prop :=
  ∃ x, x.fulfils t ∧ [.recorded (.registered t), x].Sublist history

def Owed (history : List Happening) (c : ℕ) (t : SchedulerTrigger) : Prop :=
  ∃ x, x.fulfils t ∧ [.recorded (.registered t), x, .began c .tick].Sublist history

def Caught (history : List Happening) (t : SchedulerTrigger) : Prop :=
  (∃ c, .started c t ∈ history) ∨ ∃ reason, .recorded (.removed t.id reason) ∈ history

/-- A tick does not end before it has fired what was waiting when it began, no trigger is fired but
after a change, and none after its firing was recorded. -/
structure TasksFire (history : List Happening) : Prop where
  all : Justified (fun before x => ∀ c t, x = .ended c → t.enabled → t.onTask → Owed before c t →
    Caught before t) history
  only : Justified (fun before x => ∀ c t, x = .started c t → t.onTask → ChangedSince before t)
    history
  again : Justified (fun before x => ∀ c t p, x = .started c t → t.onTask →
    .recorded (.triggered p) ∈ before → p.triggerId ≠ t.id) history

def Waiting (s : AgentScheduler) (t : SchedulerTrigger) : Prop :=
  .registered t ∈ s.events ∧ reached s t = true ∧ ¬ Caught s.history t

/-- The call comes to an error: the Chronicle store fails, the third append is refused, or a time
can not be read or written. -/
def Throws (o : SchedulerOptions) (s : AgentScheduler) (input : Input) (c : ℕ) (call : Call) : Prop :=
  (input = .fail c ∧ (call.stage.unwritten?.isSome ∨
      ∃ t cursor fired now, call.stage = .reading t cursor fired now)) ∨
    (∃ draw job attempt n, input = .resume c draw ∧ call.stage = .appending job attempt n ∧
      2 ≤ attempt ∧ n ≠ s.stream.length + 1) ∨
    (input = .fail c ∨ ∃ id status, input = .ran c id status) ∧
      ∃ t now after, call.stage = .running t now after ∧
        (missedIntervals o t now).bind (following o t now) = none

/-- A proper step. What is observed bears a later time than the triggers that wait for it, what was
observed before a registration an earlier one; and where a trigger waits, it is in the live map
when a tick begins, and no tick throws. -/
structure Timely (o : SchedulerOptions) (s : AgentScheduler) (input : Input) : Prop where
  proper : Proper s input
  later : ∀ taskId event t, input = .observed taskId event → .registered t ∈ s.events →
    (Happening.changed taskId event).fulfils t → ¬ keyLe event.ingestTime t.createdAt
  earlier : ∀ (c : ℕ) (draw : Draw) (call : Call) (t : SchedulerTrigger) (attempt : ℕ),
    input = .resume c draw → s.calls[c]? = some call →
    call.stage = .appending (.register t) attempt (s.stream.length + 1) → reached s t = false
  returned : ∀ (c : ℕ) (draw : Draw) (call : Call) (t : SchedulerTrigger), input = .resume c draw →
    s.calls[c]? = some call → call.stage = .queued → call.op = .tick → s.Returns t → Waiting s t →
    (s.triggers.get t.id).isSome
  whole : ∀ (c : ℕ) (call : Call), s.calls[c]? = some call → call.op = .tick →
    Throws o s input c call → ∀ t, ¬ Waiting s t

variable {o : SchedulerOptions} {s s' : AgentScheduler} {input : Input} {c : ℕ} {call : Call}
  {t : SchedulerTrigger} {history new : List Happening} {draw : Draw}

theorem when_of_onTask (h : t.onTask) : t.when.isSome := by
  rw [SchedulerTrigger.onTask] at h
  cases hwhen : t.when with
  | none => simp [hwhen] at h
  | some w => rfl

theorem Owed.changedSince (h : Owed history c t) : ChangedSince history t := by
  obtain ⟨x, hx, hsub⟩ := h
  refine ⟨x, hx, List.Sublist.trans ?_ hsub⟩
  exact List.sublist_append_left [.recorded (.registered t), x] [.began c .tick]

theorem Caught.mono (h : Caught history t) : Caught (history ++ new) t :=
  h.imp (fun ⟨c, hc⟩ => ⟨c, List.mem_append_left _ hc⟩)
    fun ⟨reason, hr⟩ => ⟨reason, List.mem_append_left _ hr⟩

theorem ChangedSince.mono (h : ChangedSince history t) : ChangedSince (history ++ new) t := by
  obtain ⟨x, hx, hsub⟩ := h
  exact ⟨x, hx, hsub.trans (List.sublist_append_left ..)⟩

theorem ChangedSince.registered (h : ChangedSince history t) :
    .recorded (.registered t) ∈ history := by
  obtain ⟨x, -, hsub⟩ := h
  exact hsub.subset (List.mem_cons_self ..)

theorem ChangedSince.of_append (h : ChangedSince (history ++ new) t)
    (hnew : ∀ x ∈ new, ¬ x.fulfils t) : ChangedSince history t := by
  obtain ⟨x, hx, hsub⟩ := h
  exact ⟨x, hx, sublist_of_not_mem hsub rfl fun hmem => hnew x hmem hx⟩

theorem Owed.of_append (h : Owed (history ++ new) c t) (hnew : .began c .tick ∉ new) :
    Owed history c t := by
  obtain ⟨x, hx, hsub⟩ := h
  exact ⟨x, hx, sublist_of_not_mem hsub rfl hnew⟩

/-! ### Changes -/

theorem reached_congr (h : s'.kanban = s.kanban) : reached s' t = reached s t := by
  rw [reached, reached, h]

theorem onTask_of_reached (h : reached s t = true) : t.onTask := by
  rw [reached] at h
  rw [SchedulerTrigger.onTask]
  cases hcondition : t.when.bind (·.taskStatus) with
  | none => simp [hcondition] at h
  | some condition => rfl

theorem reached_observed {taskId : String} {event : TaskEvent} {history : List Happening} :
    reached { s with
      history
      kanban := s.kanban.set taskId ((s.kanban.get taskId).getD [] ++ [event]) } t = true ↔
      reached s t = true ∨ (Happening.changed taskId event).fulfils t ∧
        ¬ keyLe event.ingestTime t.createdAt := by
  simp only [reached, Happening.fulfils]
  cases hcondition : t.when.bind (·.taskStatus) with
  | none => simp
  | some condition =>
    simp only [Option.any_some, Option.some.injEq, OrderedMap.get_set]
    by_cases htask : condition.taskId = taskId
    · subst htask
      simp only [if_true, Option.getD_some, taskReachedStatus, List.any_append, List.any_cons,
        List.any_nil, Bool.or_false, Bool.or_eq_true, Bool.and_eq_true, decide_eq_true_eq,
        Bool.not_eq_true', decide_eq_false_iff_not]
      refine or_congr_right ⟨?_, ?_⟩
      · rintro ⟨⟨⟨htype, hlater⟩, hid⟩, hstatus⟩
        exact ⟨⟨condition, rfl, rfl, htype, hid, hstatus⟩, hlater⟩
      · rintro ⟨⟨_, rfl, -, htype, hid, hstatus⟩, hlater⟩
        exact ⟨⟨⟨htype, hlater⟩, hid⟩, hstatus⟩
    · rw [if_neg htask]
      refine (or_iff_left ?_).symm
      rintro ⟨⟨_, rfl, heq, -⟩, -⟩
      exact htask heq.symm

theorem Moves.changes (h : Moves o s input s') :
    (s'.kanban = s.kanban ∧ ∃ new, s'.history = s.history ++ new ∧
      ∀ taskId event, .changed taskId event ∉ new) ∨
    ∃ taskId event, input = .observed taskId event ∧
      s' = { s.happens (.changed taskId event) with
        kanban := s.kanban.set taskId ((s.kanban.get taskId).getD [] ++ [event]) } := by
  by_cases hinput : ∃ taskId event, input = .observed taskId event
  · right
    obtain ⟨taskId, event, rfl⟩ := hinput
    refine ⟨taskId, event, rfl, ?_⟩
    cases h with
    | observed => rfl
    | advanced hcall hadvances =>
      generalize Call.stage _ = stage at hadvances
      cases hadvances with
      | settled hinput => simp at hinput
  · left
    constructor
    · cases h with
      | observed taskId event => exact absurd ⟨taskId, event, rfl⟩ hinput
      | @entered c call => cases call.op <;> rfl
      | _ => rfl
    · obtain ⟨new, hhistory, hnews⟩ := h.news
      refine ⟨new, hhistory, fun taskId event hmem => ?_⟩
      cases hnews with
      | nothing => cases hmem
      | ended | started | recorded => simp at hmem
      | began =>
        have hmem := (List.mem_cons.mp hmem).resolve_left (by simp)
        unfold Stage.happening at hmem
        split at hmem <;> simp at hmem
      | changed heq => exact hinput ⟨_, _, heq⟩

/-- A registration that is new has just landed. -/
theorem Moves.registers (h : Moves o s input s') (ht : .registered t ∈ s'.events) :
    .registered t ∈ s.events ∨ ∃ c draw call attempt, input = .resume c draw ∧
      s.calls[c]? = some call ∧
      call.stage = .appending (.register t) attempt (s.stream.length + 1) := by
  cases h with
  | @landed c call draw job attempt hcall hstage =>
    rw [events_record] at ht
    refine (List.mem_append.mp ht).imp_right fun hmem => ?_
    cases job with
    | register u =>
      cases List.mem_singleton.mp hmem
      exact ⟨c, draw, call, attempt, rfl, hcall, hstage⟩
    | remove | fire => cases List.mem_singleton.mp hmem
  | @entered c call =>
    left
    revert ht
    cases call.op <;> exact id
  | _ => exact .inl ht

/-! ### Sweeps -/

/-- The number that the iterator over the live map is to go on from. -/
def After.cursor? : After → Option ℕ
  | .due .. => some 0
  | .pending cursor _ => some cursor
  | .notified => none

namespace Stage

def cursor? : Stage → Option ℕ
  | .reading _ cursor _ _ => some cursor
  | .running _ _ after => after.cursor?
  | .latest (.fire _ _ _ _ after) _ => after.cursor?
  | .appending (.fire _ _ _ _ after) _ _ => after.cursor?
  | .recorded (.fire _ _ _ _ after) => after.cursor?
  | _ => none

/-- The iterator is at the trigger, or has yet to come to it. -/
def Ahead (triggers : Triggers) (t : SchedulerTrigger) (stage : Stage) : Prop :=
  (∃ cursor n, stage.cursor? = some cursor ∧ triggers.number t.id = some n ∧ cursor ≤ n) ∨
    ∃ cursor fired now, stage = .reading t cursor fired now

theorem Ahead.of_number {triggers triggers' : Triggers} {stage : Stage} (h : stage.Ahead triggers t)
    (hnumber : ∀ n, triggers.number t.id = some n → triggers'.number t.id = some n) :
    stage.Ahead triggers' t := by
  obtain ⟨cursor, n, hcursor, hn, hle⟩ | hreading := h
  · exact .inl ⟨cursor, n, hcursor, hnumber n hn, hle⟩
  · exact .inr hreading

theorem exclusive_of_ahead {triggers : Triggers} {stage : Stage} (h : stage.Ahead triggers t) :
    stage.exclusive := by
  obtain ⟨cursor, n, hcursor, -⟩ | ⟨cursor, fired, now, rfl⟩ := h
  · unfold cursor? at hcursor
    split at hcursor <;> first | rfl | cases hcursor
  · rfl

end Stage

theorem awaitsTask_of_sound (h : t.Sound) (htask : t.onTask) : awaitsTask t := by
  simp only [awaitsTask, h.enabled, (h.schedule (when_of_onTask htask)).2, Option.isNone_none,
    Bool.true_and]
  exact htask

section Iterator
variable {triggers : Triggers} (hsorted : triggers.Sorted) (hget : triggers.get t.id = some t)
  (hawaits : awaitsTask t)
include hsorted hget hawaits

theorem nextPending_ahead {cursor n : ℕ} (hn : triggers.number t.id = some n) (hle : cursor ≤ n)
    (fired : List SchedulerFiredRun) (now : String) :
    (nextPending triggers cursor fired now).Ahead triggers t := by
  obtain ⟨n', hn', hnumbered⟩ := LiveMap.numbered_get hget
  cases hn.symm.trans hn'
  obtain ⟨-, hfind⟩ | ⟨i, u, heq, hfind⟩ := nextPending_cases triggers cursor fired now
  · simp [LiveMap.findFrom_eq_none hfind hnumbered hle] at hawaits
  rw [heq]
  obtain hlt | ⟨-, rfl⟩ := hsorted.findFrom_le hfind hnumbered hle hawaits
  · exact .inl ⟨i + 1, n, rfl, hn, hlt⟩
  · exact .inr ⟨i + 1, fired, now, rfl⟩

theorem nextDue_ahead (fired : List SchedulerFiredRun) (now : String)
    (rest : List SchedulerTrigger) : (nextDue triggers fired now rest).Ahead triggers t := by
  obtain ⟨n, hn, -⟩ := LiveMap.numbered_get hget
  cases rest with
  | nil => exact nextPending_ahead hsorted hget hawaits hn (Nat.zero_le n) fired now
  | cons => exact .inl ⟨0, n, rfl, hn, Nat.zero_le n⟩

theorem proceed_ahead {job : Job} (hahead : (Stage.recorded job).Ahead triggers t) :
    (proceed triggers job).Ahead triggers t := by
  obtain ⟨cursor, n, hcursor, hn, hle⟩ | ⟨cursor, fired, now, heq⟩ := hahead
  · cases job with
    | register | remove => cases hcursor
    | fire u now run next after =>
      cases after with
      | due => exact nextDue_ahead hsorted hget hawaits _ now _
      | pending =>
        cases hcursor
        exact nextPending_ahead hsorted hget hawaits hn hle _ now
      | notified => cases hcursor
  · cases heq

theorem Advances.ahead {stage : Stage} (h : Advances o s c input call.stage stage)
    (hs : s.triggers = triggers) (hahead : call.stage.Ahead triggers t)
    (hreached : reached s t = true) (hthrows : ¬ Throws o s input c call) :
    stage.Ahead triggers t ∨ ∃ now after, stage = .running t now after := by
  subst hs
  generalize hold : call.stage = old at h hahead
  cases h with
  | found =>
    obtain ⟨cursor, n, hcursor, hn, hle⟩ | ⟨cursor, fired, now, heq⟩ := hahead
    · exact .inl (.inl ⟨cursor, n, hcursor, hn, hle⟩)
    · cases heq
      exact .inr ⟨_, _, rfl⟩
  | passed hnot =>
    obtain ⟨cursor, n, hcursor, hn, hle⟩ | ⟨cursor, fired, now, heq⟩ := hahead
    · cases hcursor
      exact .inl (nextPending_ahead hsorted hget hawaits hn hle ..)
    · cases heq
      simp [hreached] at hnot
  | @settled _ u now after turnId status hinput =>
    have hinput : input = .fail c ∨ ∃ id status, input = .ran c id status :=
      hinput.imp_right fun ⟨id, h⟩ => ⟨id, status, h⟩
    obtain ⟨cursor, n, hcursor, hn, hle⟩ | ⟨cursor, fired, now, heq⟩ := hahead
    · left
      rw [settle]
      split
      · next hmissed =>
        exact absurd (.inr (.inr ⟨hinput, u, now, after, hold, by simp [hmissed]⟩)) hthrows
      · next missed hmissed =>
        split
        · next hnext =>
          exact absurd (.inr (.inr ⟨hinput, u, now, after, hold, by simp [hmissed, hnext]⟩)) hthrows
        · exact .inl ⟨cursor, n, hcursor, hn, hle⟩
    · cases heq
  | @asked _ job =>
    obtain ⟨cursor, n, hcursor, hn, hle⟩ | ⟨cursor, fired, now, heq⟩ := hahead
    · refine .inl (.inl ⟨cursor, n, ?_, hn, hle⟩)
      cases job <;> exact hcursor
    · cases heq
  | @retried _ job =>
    obtain ⟨cursor, n, hcursor, hn, hle⟩ | ⟨cursor, fired, now, heq⟩ := hahead
    · refine .inl (.inl ⟨cursor, n, ?_, hn, hle⟩)
      cases job <;> exact hcursor
    · cases heq
  | refused hlast hsequence =>
    exact absurd (.inr (.inl ⟨_, _, _, _, rfl, hold, hlast, hsequence⟩)) hthrows
  | failed hawaits =>
    refine absurd (.inl ⟨rfl, ?_⟩) hthrows
    rw [hold]
    refine hawaits.resolve_left fun hrest => ?_
    cases old with
    | replaying =>
      obtain ⟨cursor, n, hcursor, -⟩ | ⟨cursor, fired, now, heq⟩ := hahead
      · cases hcursor
      · cases heq
    | _ => cases hrest
  | rebuilt | unknown =>
    obtain ⟨cursor, n, hcursor, -⟩ | ⟨cursor, fired, now, heq⟩ := hahead
    · cases hcursor
    · cases heq

end Iterator

theorem foldEvent_sorted {triggers triggers' : Triggers} {event : SchedulerEvent}
    (h : foldEvent triggers event = .ok triggers') (hsorted : triggers.Sorted) :
    triggers'.Sorted := by
  unfold foldEvent at h
  split at h
  · cases h
    exact hsorted.set ..
  · split at h
    · cases h
      exact hsorted
    · split at h <;> cases h
      · exact hsorted.delete _
      · exact hsorted.set ..
  · cases h
    exact hsorted.delete _
  · cases h

theorem foldlM_sorted {events : List SchedulerEvent} {triggers triggers' : Triggers}
    (h : events.foldlM foldEvent triggers = .ok triggers') (hsorted : triggers.Sorted) :
    triggers'.Sorted := by
  induction events generalizing triggers with
  | nil =>
    cases h
    exact hsorted
  | cons event events ih =>
    rw [List.foldlM_cons] at h
    cases hfold : foldEvent triggers event with
    | error e =>
      rw [hfold] at h
      cases h
    | ok middle =>
      rw [hfold] at h
      exact ih h (foldEvent_sorted hfold hsorted)

theorem Moves.sorted (h : Moves o s input s') (hsorted : s.triggers.Sorted) :
    s'.triggers.Sorted := by
  cases h with
  | @entered c call =>
    cases call.op with
    | rebuild => exact LiveMap.sorted_empty
    | _ => exact hsorted
  | replayed hcall hstage hfold => exact foldEvent_sorted hfold hsorted
  | concluded => exact Job.sorted_apply hsorted
  | restarted hrebuild => exact foldlM_sorted hrebuild LiveMap.sorted_empty
  | _ => exact hsorted

/-! ### Runs -/

theorem Told.reading (h : Told s) (hnews : News o s input new) {before after : List Happening}
    (hnew : new = before ++ .started c t :: after) (htask : t.onTask) :
    ∃ call cursor fired now, s.calls[c]? = some call ∧ call.stage = .reading t cursor fired now ∧
      reached s t = true ∧ before = [] := by
  have hmem : .started c t ∈ new := by simp [hnew]
  have hwhen := when_of_onTask htask
  cases hnews with
  | nothing => cases hmem
  | ended | recorded | changed => simp at hmem
  | @started c' call u hcall hstarts =>
    obtain ⟨rfl, rfl⟩ := Happening.started.inj (List.mem_singleton.mp hmem)
    have hbefore : before = [] := by
      cases before with
      | nil => rfl
      | cons x before => simp at hnew
    generalize hstage : Call.stage _ = stage at hstarts
    cases hstarts with
    | @task t cursor fired now hreached =>
      exact ⟨call, cursor, fired, now, hcall, hstage, hreached, hbefore⟩
    | due => simp [h.later _ _ t hcall (by simp [hstage, Stage.later, After.rest])] at hwhen
  | @began c' call draw hinput hcall hstage hfree =>
    obtain ⟨rfl, now, after', hrunning⟩ :=
      mem_happening.mp ((List.mem_cons.mp hmem).resolve_left (by simp))
    obtain ⟨-, hnone⟩ | ⟨event, hop, hfind⟩ := enter_running hrunning
    · simp [hnone] at hwhen
    · have hplanned := AllHeard.planned_of_find h hcall hstage hfree hfind
      have hsound := h.inPlan.sound t (registered_of_condition hplanned hwhen)
      obtain ⟨w, hw⟩ := Option.isSome_iff_exists.mp hwhen
      have hsingle := hsound.single w hw
      have hevent := onEvent_of_awaitsEvent (List.find?_some hfind)
      simp only [SchedulerTrigger.onTask, SchedulerTrigger.onEvent, hw, Option.bind_some]
        at htask hevent
      exact absurd (htask.trans hevent.symm) hsingle

/-- What is waiting when a tick begins is fired before the tick ends. -/
structure Sweeps (s : AgentScheduler) : Prop where
  told : Told s
  sorted : s.triggers.Sorted
  turns : ∀ c op, .began c op ∈ s.history →
    ∃ call, s.calls[c]? = some call ∧ call.op = op ∧ call.stage ≠ .queued
  changed : ∀ t, .registered t ∈ s.events → reached s t = true → ChangedSince s.history t
  counted : ∀ t, ChangedSince s.history t → reached s t = true
  swept : ∀ (c : ℕ) (call : Call), s.calls[c]? = some call → call.stage.isOver = false →
    ∀ t, Owed s.history c t → Caught s.history t ∨
      s.triggers.get t.id = some t ∧ call.stage.Ahead s.triggers t
  fires : TasksFire s.history

namespace Sweeps

theorem changed_step (h : Sweeps s) (hmoves : Moves o s input s') (htimely : Timely o s input)
    (ht : .registered t ∈ s'.events) (hreached : reached s' t = true) :
    ChangedSince s'.history t := by
  obtain ⟨hkanban, new, hhistory, -⟩ | ⟨taskId, event, rfl, rfl⟩ := hmoves.changes
  · rw [reached_congr hkanban] at hreached
    rw [hhistory]
    obtain ht | ⟨c, draw, call, attempt, rfl, hcall, hstage⟩ := hmoves.registers ht
    · exact (h.changed t ht hreached).mono
    · simp [htimely.earlier c draw call t attempt rfl hcall hstage] at hreached
  · obtain hreached | ⟨hfulfils, -⟩ := reached_observed.mp hreached
    · exact (h.changed t ht hreached).mono
    · exact ⟨_, hfulfils, (List.singleton_sublist.mpr ((h.told.logged _).mpr ht)).append
        (List.Sublist.refl [_])⟩

theorem counted_step (h : Sweeps s) (hmoves : Moves o s input s') (htimely : Timely o s input)
    (ht : ChangedSince s'.history t) : reached s' t = true := by
  obtain ⟨hkanban, new, hhistory, hnew⟩ | ⟨taskId, event, rfl, rfl⟩ := hmoves.changes
  · rw [reached_congr hkanban]
    rw [hhistory] at ht
    refine h.counted t (ht.of_append fun x hx hfulfils => ?_)
    cases x with
    | changed taskId event => exact hnew taskId event hx
    | _ => cases hfulfils
  · refine reached_observed.mpr ?_
    by_cases hfulfils : (Happening.changed taskId event).fulfils t
    · have hregistered : .recorded (.registered t) ∈ s.history :=
        (List.mem_append.mp ht.registered).resolve_right (by simp)
      exact .inr ⟨hfulfils, htimely.later taskId event t rfl
        ((h.told.logged _).mp hregistered) hfulfils⟩
    · refine .inl (h.counted t (ht.of_append fun x hx => ?_))
      rw [List.mem_singleton.mp hx]
      exact hfulfils

theorem waiting (h : Sweeps s) (ht : ChangedSince s.history t) (hcaught : ¬ Caught s.history t) :
    Waiting s t :=
  ⟨(h.told.logged _).mp ht.registered, h.counted t ht, hcaught⟩

theorem begins (h : Sweeps s) (htimely : Timely o s (.resume c draw))
    (hcall : s.calls[c]? = some call) (hstage : call.stage = .queued) (hop : call.op = .tick)
    (hfree : free s c) (hwaiting : Waiting s t) :
    s.triggers.get t.id = some t ∧
      (enter o s.triggers s.events draw.now .tick).Ahead s.triggers t := by
  obtain ⟨ht, hreached, hcaught⟩ := hwaiting
  rw [Caught, not_or, not_exists, not_exists] at hcaught
  have htask := onTask_of_reached hreached
  have hget := h.told.live_of_turn hcall hstage hfree ht (when_of_onTask htask) hcaught.1
    (fun reason hreason => hcaught.2 reason ((h.told.logged _).mpr hreason)) fun hreturns =>
      htimely.returned c draw call t rfl hcall hstage hop hreturns
        ⟨ht, hreached, not_or.mpr ⟨not_exists.mpr hcaught.1, not_exists.mpr hcaught.2⟩⟩
  exact ⟨hget, nextDue_ahead h.sorted hget (awaitsTask_of_sound (h.told.inPlan.sound t ht) htask) ..⟩

/-- What others write leaves a trigger in its place that is neither fired nor removed. -/
theorem applied (h : Sweeps s) (ht : .registered t ∈ s.events) (hwhen : t.when.isSome)
    (hcaught : ¬ Caught s.history t) (hget : s.triggers.get t.id = some t) {job : Job}
    (hmem : job.event ∈ s.events) : (job.apply s.triggers).get t.id = some t ∧
      ∀ n, s.triggers.number t.id = some n → (job.apply s.triggers).number t.id = some n := by
  by_cases hsubject : job.event.subject? = some t.id
  · cases job with
    | register u =>
      obtain rfl : u = t := h.told.inPlan.distinct.unique hmem ht (Option.some.inj hsubject)
      exact ⟨(LiveMap.get_set ..).trans (if_pos rfl), fun n hn => LiveMap.number_set hn _⟩
    | remove triggerId reason =>
      obtain rfl := Option.some.inj hsubject
      exact absurd (.inr ⟨reason, (h.told.logged _).mpr hmem⟩) hcaught
    | fire u now run next after =>
      obtain ⟨c, v, hv, hid⟩ := h.told.fired _ hmem
      have hid : v.id = t.id := hid.trans (Option.some.inj hsubject)
      exact absurd (.inl ⟨c, h.told.same ht hv hid hwhen ▸ hv⟩) hcaught
  · exact ⟨(Job.get_apply_of_ne hsubject).trans hget,
      fun n hn => Job.number_apply_of_ne hn hsubject⟩

/-- A tick that goes on keeps what waits before it. -/
theorem onward {call' : Call} (h : Sweeps s) (hmoves : Moves o s input s') (htimely : Timely o s input)
    (hcall : s.calls[c]? = some call) (hop : call.op = .tick) (hwaiting : Waiting s t)
    (hget : s.triggers.get t.id = some t) (hahead : call.stage.Ahead s.triggers t)
    (hcall' : s'.calls[c]? = some call') (hrestart : input ≠ .restart) :
    Caught s'.history t ∨ s'.triggers.get t.id = some t ∧ call'.stage.Ahead s'.triggers t := by
  have hexclusive := Stage.exclusive_of_ahead hahead
  have ht := hwaiting.1
  have hwhen := when_of_onTask (onTask_of_reached hwaiting.2.1)
  have hawaits := awaitsTask_of_sound (h.told.inPlan.sound t ht) (onTask_of_reached hwaiting.2.1)
  cases hmoves with
  | called =>
    rw [List.getElem?_append_left (List.getElem?_eq_some_iff.mp hcall).1, hcall] at hcall'
    cases hcall'
    exact .inr ⟨hget, hahead⟩
  | entered hcall₀ hstage hfree =>
    exact absurd hexclusive (h.told.inPlan.nobody hcall₀ hstage hfree hcall)
  | replayed hcall₀ hstage =>
    obtain rfl := h.told.inPlan.alone hcall hcall₀ hexclusive (by rw [hstage]; rfl)
    cases hcall₀.symm.trans hcall
    rw [hstage] at hahead
    obtain ⟨cursor, n, hcursor, -⟩ | ⟨cursor, fired, now, heq⟩ := hahead
    · cases hcursor
    · cases heq
  | advanced hcall₀ hadvances =>
    obtain ⟨rfl, call₁, hcall₁, rfl⟩ | ⟨-, hcall'⟩ := withStage_calls hcall'
    · cases hcall₀.symm.trans hcall
      have hthrows : ¬ Throws o s input c call := fun hthrows =>
        htimely.whole c call hcall hop hthrows t hwaiting
      obtain hahead | hrunning :=
        hadvances.ahead h.sorted hget hawaits rfl hahead hwaiting.2.1 hthrows
      · exact .inr ⟨hget, hahead⟩
      · exact .inl (.inl ⟨c, List.mem_append_right _ (mem_happening.mpr ⟨rfl, hrunning⟩)⟩)
    · cases hcall'.symm.trans hcall
      exact .inr ⟨hget, hahead⟩
  | @landed _ call₀ draw job attempt hcall₀ hstage =>
    obtain ⟨rfl, call₁, hcall₁, rfl⟩ | ⟨-, hcall'⟩ := withStage_calls hcall'
    · cases hcall₀.symm.trans hcall
      rw [hstage] at hahead
      obtain ⟨cursor, n, hcursor, hn, hle⟩ | ⟨cursor, fired, now, heq⟩ := hahead
      · refine .inr ⟨hget, .inl ⟨cursor, n, ?_, hn, hle⟩⟩
        cases job <;> exact hcursor
      · cases heq
    · cases hcall'.symm.trans hcall
      exact .inr ⟨hget, hahead⟩
  | @concluded c₀ call₀ draw job hcall₀ hstage =>
    have hmem := (h.told.inPlan.fits c₀ call₀ hcall₀).written job (by rw [hstage]; rfl)
    obtain ⟨hget', hnumber⟩ := h.applied ht hwhen hwaiting.2.2 hget hmem
    obtain ⟨rfl, call₁, hcall₁, rfl⟩ | ⟨-, hcall'⟩ := withStage_calls hcall'
    · cases hcall₀.symm.trans hcall
      rw [hstage] at hahead
      exact .inr ⟨hget', proceed_ahead (Job.sorted_apply h.sorted) hget' hawaits
        (hahead.of_number hnumber)⟩
    · cases hcall'.symm.trans hcall
      exact .inr ⟨hget', hahead.of_number hnumber⟩
  | observed =>
    cases hcall'.symm.trans hcall
    exact .inr ⟨hget, hahead⟩
  | restarted => exact absurd rfl hrestart

theorem swept_step {call' : Call} (h : Sweeps s) (hmoves : Moves o s input s')
    (htimely : Timely o s input) (hcall' : s'.calls[c]? = some call')
    (hlive : ∀ call, s.calls[c]? = some call → call.stage.isOver = false)
    (hrestart : input ≠ .restart) (ht : Owed s'.history c t) :
    Caught s'.history t ∨ s'.triggers.get t.id = some t ∧ call'.stage.Ahead s'.triggers t := by
  obtain ⟨new, hhistory, hnews⟩ := hmoves.news
  by_cases hcaught : Caught s.history t
  · exact .inl (hhistory ▸ hcaught.mono)
  by_cases hbegan : .began c .tick ∈ new
  · obtain ⟨before, after, hnew⟩ := List.append_of_mem hbegan
    obtain ⟨call, draw, rfl, hcall, hstage, hop, hfree, rfl, rfl⟩ := hnews.turn hnew
    have hold : ChangedSince s.history t := by
      refine (hhistory ▸ ht.changedSince).of_append fun x hx hfulfils => ?_
      cases x with
      | changed taskId event =>
        obtain ⟨-, new', hhistory', hnot⟩ | ⟨taskId', event', hinput, -⟩ := hmoves.changes
        · rw [List.append_cancel_left (hhistory'.symm.trans hhistory)] at hnot
          exact hnot taskId event hx
        · cases hinput
      | _ => cases hfulfils
    have hbegins := h.begins htimely hcall hstage hop hfree (h.waiting hold hcaught)
    rw [hmoves.enters hcall hstage, hop] at hcall' ⊢
    obtain ⟨-, call₁, -, rfl⟩ | ⟨hne, -⟩ := withStage_calls hcall'
    · exact .inr hbegins
    · exact absurd rfl hne
  · have howed := (hhistory ▸ ht).of_append hbegan
    obtain ⟨x, -, hsub⟩ := id howed
    obtain ⟨call, hcall, hop, -⟩ := h.turns c .tick (hsub.subset (by simp))
    obtain hcaught' | ⟨hget, hahead⟩ := h.swept c call hcall (hlive call hcall) t howed
    · exact absurd hcaught' hcaught
    · exact h.onward hmoves htimely hcall hop (h.waiting howed.changedSince hcaught) hget hahead
        hcall' hrestart

theorem fires_step (h : Sweeps s) (hmoves : Moves o s input s') (htimely : Timely o s input) :
    TasksFire s'.history := by
  obtain ⟨new, hhistory, hnews⟩ := hmoves.news
  rw [hhistory]
  constructor
  case all =>
    refine h.fires.all.append ?_
    rintro before x after hnew c t rfl - - howed
    have hmem : .ended c ∈ new := by simp [hnew]
    obtain ⟨hrestart, hlive, hstarted, hrecorded, call', result, hcall', hstage⟩ :=
      hmoves.ended hhistory hmem
    have howed' : Owed s'.history c t := by
      obtain ⟨x, hx, hsub⟩ := howed
      refine ⟨x, hx, hsub.trans ?_⟩
      rw [hhistory, hnew, ← List.append_assoc]
      exact List.sublist_append_left ..
    have hcaught : Caught s'.history t := by
      refine (h.swept_step hmoves htimely hcall' hlive hrestart howed').resolve_right ?_
      rintro ⟨-, hahead⟩
      have hexclusive := Stage.exclusive_of_ahead hahead
      rw [hstage] at hexclusive
      cases hexclusive
    rw [hhistory] at hcaught
    obtain ⟨c', hc'⟩ | ⟨reason, hreason⟩ := hcaught
    · exact .inl ⟨c', List.mem_append_left _
        ((List.mem_append.mp hc').resolve_right (hstarted c' t))⟩
    · exact .inr ⟨reason, List.mem_append_left _
        ((List.mem_append.mp hreason).resolve_right (hrecorded _))⟩
  case only =>
    refine h.fires.only.append ?_
    rintro before x after hnew c t rfl htask
    obtain ⟨call, cursor, fired, now, hcall, hstage, hreached, rfl⟩ :=
      h.told.reading hnews hnew htask
    have hplanned := (h.told.inPlan.fits c call hcall).held t (by simp [hstage, Stage.held])
    exact (h.changed t (registered_of_condition hplanned (when_of_onTask htask)) hreached).mono
  case again =>
    refine h.fires.again.append ?_
    rintro before x after hnew c t p rfl htask hp hid
    obtain ⟨call, cursor, fired, now, hcall, hstage, hreached, rfl⟩ :=
      h.told.reading hnews hnew htask
    have hplanned := (h.told.inPlan.fits c call hcall).held t (by simp [hstage, Stage.held])
    have hwhen := when_of_onTask htask
    rw [List.append_nil, h.told.logged] at hp
    rw [planned_triggered h.told.inPlan.distinct (registered_of_condition hplanned hwhen) hwhen hp
      hid] at hplanned
    cases hplanned

theorem step (h : Sweeps s) (htimely : Timely o s input) (hs : schedulerStep o s input = some s') :
    Sweeps s' := by
  have hmoves := schedulerStep_moves h.told.inPlan.numbered hs
  have htold := h.told.step htimely.proper hs
  obtain ⟨new, hhistory, hnews⟩ := hmoves.news
  constructor
  case told => exact htold
  case sorted => exact hmoves.sorted h.sorted
  case turns =>
    intro c op hmem
    rw [hhistory] at hmem
    obtain hmem | hmem := List.mem_append.mp hmem
    · obtain ⟨call, hcall, hop, hqueued⟩ := h.turns c op hmem
      obtain ⟨call', hcall', hop', hqueued', -⟩ := hmoves.goes hcall hqueued
      exact ⟨call', hcall', hop'.trans hop, hqueued'⟩
    · obtain ⟨before, after, hnew⟩ := List.append_of_mem hmem
      obtain ⟨call, draw, rfl, hcall, hstage, rfl, hfree, rfl, rfl⟩ := hnews.turn hnew
      rw [hmoves.enters hcall hstage]
      refine ⟨_, withStage_self (cleared_calls s _ ▸ hcall), rfl, ?_⟩
      by_cases hop : call.op = .rebuild
      · simp [hop, enter]
      · exact (enter_plain h.told.inPlan.keyed
          ((h.told.inPlan.fits c call hcall).serialized (.inl hstage)) hop _ _).1.queued
  case changed => exact fun t ht hreached => h.changed_step hmoves htimely ht hreached
  case counted => exact fun t ht => h.counted_step hmoves htimely ht
  case swept =>
    intro c call' hcall' hover t ht
    have hlive : ∀ call, s.calls[c]? = some call → call.stage.isOver = false := by
      intro call hcall
      by_contra hnot
      rw [Bool.not_eq_false] at hnot
      have hqueued : call.stage ≠ .queued := by
        rintro hqueued
        simp [hqueued, Stage.isOver] at hnot
      obtain ⟨call'', hcall'', -, -, hover''⟩ := hmoves.goes hcall hqueued
      cases hcall''.symm.trans hcall'
      simp [hover, hnot] at hover''
    have hrestart : input ≠ .restart := by
      rintro rfl
      simp [hmoves.restarts hcall'] at hover
    exact h.swept_step hmoves htimely hcall' hlive hrestart ht
  case fires => exact h.fires_step hmoves htimely

theorem initial : Sweeps .initial where
  told := .initial
  sorted := LiveMap.sorted_empty
  turns c op hmem := by cases hmem
  changed t ht := by cases ht
  counted t ht := by cases ht.registered
  swept c call hcall := by cases hcall
  fires := ⟨justified_nil, justified_nil, justified_nil⟩

end Sweeps

/-- In every run in which the clocks tell changes from registrations, and no tick throws or begins
before a registration returns while a trigger waits, the ticks fire what waits for a task. -/
theorem reaches_tasksFire (h : (scheduler o).Reaches (Timely o) .initial s) : TasksFire s.history :=
  (h.invariant Sweeps.initial fun _ _ _ hsweeps htimely hs => hsweeps.step htimely hs).fires

/-! ### Samples -/

/-- A check of a step that only timely steps pass. -/
def timelyStep (o : SchedulerOptions) (s : AgentScheduler) (input : Input) : Bool :=
  properStep s input &&
    match input with
    | .observed _ event => s.events.all fun
      | .registered t => !keyLe event.ingestTime t.createdAt
      | _ => true
    | .resume c _ => (s.calls[c]?).all fun call =>
      match call.stage with
      | .appending job _ n => n = s.stream.length + 1 &&
        match job with
        | .register t => !reached s t
        | _ => true
      | .queued => s.calls.all fun call =>
        match call.stage.written? with
        | some (.register _) => false
        | _ => true
      | _ => true
    | .ran c _ _ => (s.calls[c]?).all fun call =>
      match call.stage with
      | .running t now _ => ((missedIntervals o t now).bind (following o t now)).isSome
      | _ => true
    | .fail _ => false
    | _ => true

theorem timely_of_timelyStep (h : timelyStep o s input) : Timely o s input := by
  obtain ⟨hproper, hinput⟩ := Bool.and_eq_true_iff.mp h
  refine ⟨proper_of_properStep hproper, ?_, ?_, ?_, ?_⟩
  · rintro taskId event t rfl ht -
    simpa using List.all_eq_true.mp hinput _ ht
  · rintro c draw call t attempt rfl hcall hstage
    simpa [hcall, hstage] using hinput
  · rintro c draw call t rfl hcall hstage - ⟨c', call', hcall', hwritten⟩ -
    simp only [hcall, Option.all_some, hstage] at hinput
    have hnone := List.all_eq_true.mp hinput call' (List.mem_of_getElem? hcall')
    simp [hwritten] at hnone
  · rintro c call hcall - (⟨rfl, -⟩ | ⟨draw, job, attempt, n, rfl, hstage, -, hne⟩ |
      ⟨rfl | ⟨id, status, rfl⟩, t, now, after, hstage, hnone⟩)
    · cases hinput
    · simp only [hcall, Option.all_some, hstage, Bool.and_eq_true, decide_eq_true_eq] at hinput
      exact absurd hinput.1 hne
    · cases hinput
    · simp [hcall, hstage, hnone] at hinput

def onDone : RegisterSchedulerTriggerInput :=
  { input := "next", threadId := sampleId
    when := some { taskStatus := some ⟨sampleId, .done⟩ } }

def doneAt (ingestTime : String) : TaskEvent :=
  ⟨"kanban.task.status_changed", ingestTime, sampleId, .done⟩

/-- A trigger is registered, its task is done at that time, and there is a tick. -/
def doneRun (ingestTime : String) : List Input :=
  registering 0 onDone sampleDraw ++ [.observed sampleId (doneAt ingestTime),
    .call .tick otherDraw, .resume 1 otherDraw, .resume 1 otherDraw]

/-- The task is done half a minute after the registration. -/
theorem reaches_tasksFire_done :
    ∃ s, (scheduler sampleOptions).Reaches (Timely sampleOptions) .initial s ∧
      .started 1 (newTrigger onDone sampleDraw) ∈ s.history ∧ TasksFire s.history := by
  have hguarded : (scheduler sampleOptions).Guarded (Timely sampleOptions) .initial
      (doneRun "2026-01-01T00:00:30.000Z" ++ [.ran 1 sampleId .completed, .resume 1 otherDraw,
        .resume 1 otherDraw, .resume 1 otherDraw]) :=
    Machine.guarded_of_allSteps (fun _ _ => timely_of_timelyStep) _ (by decide +kernel)
  obtain ⟨s, hreaches, hhistory⟩ := hguarded.exists_reaches
    (f := fun (s : AgentScheduler) =>
      decide (Happening.started 1 (newTrigger onDone sampleDraw) ∈ s.history))
    (a := true) (by decide +kernel)
  exact ⟨s, hreaches, of_decide_eq_true hhistory, reaches_tasksFire hreaches⟩

/-- The task is done in the millisecond of the registration, after it. -/
theorem sameTime_missed : ∃ s, (scheduler sampleOptions).Reaches Proper .initial s ∧
    ¬ TasksFire s.history := by
  have hguarded : (scheduler sampleOptions).Guarded Proper .initial
      (doneRun "2026-01-01T00:00:00.000Z") :=
    Machine.guarded_of_allSteps (fun _ _ => proper_of_properStep) _ (by decide +kernel)
  obtain ⟨s, hreaches, hhistory⟩ := hguarded.exists_reaches (f := AgentScheduler.history)
    (a := [.recorded (.registered (newTrigger onDone sampleDraw)), .ended 0,
      .changed sampleId (doneAt "2026-01-01T00:00:00.000Z"), .began 1 .tick, .ended 1]) (by decide +kernel)
  refine ⟨s, hreaches, fun hfire => ?_⟩
  have hcaught := hfire.all
    [.recorded (.registered (newTrigger onDone sampleDraw)), .ended 0,
      .changed sampleId (doneAt "2026-01-01T00:00:00.000Z"), .began 1 .tick] _ [] hhistory 1 (newTrigger onDone sampleDraw) rfl rfl rfl
    ⟨.changed sampleId (doneAt "2026-01-01T00:00:00.000Z"),
      ⟨⟨sampleId, .done⟩, rfl, rfl, rfl, rfl, rfl⟩, by decide +kernel⟩
  obtain ⟨c, hc⟩ | ⟨reason, hreason⟩ := hcaught
  · simp at hc
  · simp at hreason

end BeeAgent.Scheduler
