import BeeAgent.Scheduler.InPlan
import BeeAgent.Transition.History

/-! What a step adds to the history, and which copies of triggers the calls go on with. -/
namespace BeeAgent.Scheduler
open Data Transition

variable {o : SchedulerOptions} {s s' : AgentScheduler} {input : Input} {c : ℕ} {call : Call}
  {t : SchedulerTrigger}

/-- How a call comes to start a run after its turn has begun. -/
inductive Starts (s : AgentScheduler) : Stage → SchedulerTrigger → Prop where
  | task {t : SchedulerTrigger} {cursor : ℕ} {fired : List SchedulerFiredRun} {now : String}
    (hreached : reached s t = true) : Starts s (.reading t cursor fired now) t
  | due {u : SchedulerTrigger} {now : String} {run : SchedulerFiredRun} {next : Option String}
    {t : SchedulerTrigger} {rest : List SchedulerTrigger} {fired : List SchedulerFiredRun} :
    Starts s (.recorded (.fire u now run next (.due (t :: rest) fired))) t

/-- What is new in the history after a step. -/
inductive News (o : SchedulerOptions) (s : AgentScheduler) (input : Input) :
    List Happening → Prop where
  | nothing : News o s input []
  | ended (c : ℕ) : News o s input [.ended c]
  | started {c : ℕ} {call : Call} {t : SchedulerTrigger} (hcall : s.calls[c]? = some call)
    (hstarts : Starts s call.stage t) : News o s input [.started c t]
  | began {c : ℕ} {call : Call} {draw : Draw} (hinput : input = .resume c draw)
    (hcall : s.calls[c]? = some call) (hstage : call.stage = .queued) (hfree : free s c) :
    News o s input
      (.began c call.op :: (enter o s.triggers s.events draw.now call.op).happening c)
  | recorded (event : SchedulerEvent) : News o s input [.recorded event]
  | changed {taskId : String} {event : TaskEvent} (hinput : input = .observed taskId event) :
    News o s input [.changed taskId event]

theorem News.nextPending {triggers : Triggers} {cursor : ℕ} {fired : List SchedulerFiredRun}
    {now : String} : News o s input ((nextPending triggers cursor fired now).happening c) := by
  obtain ⟨h, -⟩ | ⟨n, t, h, -⟩ := nextPending_cases triggers cursor fired now <;> rw [h]
  · exact .ended c
  · exact .nothing

theorem Moves.news (h : Moves o s input s') :
    ∃ new, s'.history = s.history ++ new ∧ News o s input new := by
  cases h with
  | called op draw =>
    refine ⟨_, rfl, ?_⟩
    obtain ⟨h, -⟩ | hover | ⟨init, -, h, -⟩ | ⟨id, reason, t, -, -, h⟩ := start_cases o s draw op
    · rw [h]
      exact .nothing
    · cases hstage : start o s draw op with
      | finished => exact .ended _
      | dropped => exact .nothing
      | _ => simp [hstage, Stage.isOver] at hover
    · rw [h]
      exact .nothing
    · rw [h]
      exact .nothing
  | @entered c call draw hcall hstage hfree =>
    refine ⟨_, ?_, .began rfl hcall hstage hfree⟩
    simp [AgentScheduler.withStage, AgentScheduler.happens, cleared_history]
  | replayed => exact ⟨[], rfl, .nothing⟩
  | advanced hcall hadvances =>
    refine ⟨_, rfl, ?_⟩
    generalize hold : Call.stage _ = stage at hadvances
    cases hadvances with
    | passed => exact .nextPending
    | found hreached => exact .started hcall (by rw [hold]; exact .task hreached)
    | @settled _ t now after turnId status =>
      obtain ⟨h, -⟩ | ⟨run, next, h, -⟩ := settle_cases o t now after turnId status <;> rw [h]
      · exact .ended _
      · exact .nothing
    | asked | retried => exact .nothing
    | rebuilt | unknown | refused | failed => exact .ended _
  | @landed c call draw job =>
    exact ⟨[.recorded job.event], by simp [AgentScheduler.record, AgentScheduler.withStage,
      AgentScheduler.happens, Stage.happening], .recorded job.event⟩
  | @concluded c call draw job hcall hstage =>
    refine ⟨_, rfl, ?_⟩
    cases job with
    | register | remove => exact .ended _
    | fire u now run next after =>
      cases after with
      | notified => exact .ended _
      | pending => exact .nextPending
      | due rest fired =>
        cases rest with
        | nil => exact .nextPending
        | cons t rest => exact .started hcall (by rw [hstage]; exact .due)
  | observed taskId event => exact ⟨_, rfl, .changed rfl⟩
  | restarted => exact ⟨[], (List.append_nil _).symm, .nothing⟩

theorem News.turn {new before after : List Happening} {op : SchedulerOperation}
    (h : News o s input new) (hnew : new = before ++ .began c op :: after) :
    ∃ call draw, input = .resume c draw ∧ s.calls[c]? = some call ∧ call.stage = .queued ∧
      call.op = op ∧ free s c ∧ before = [] ∧
      after = (enter o s.triggers s.events draw.now op).happening c := by
  have hmem : .began c op ∈ new := by simp [hnew]
  cases h with
  | nothing => cases hmem
  | ended | started | recorded | changed => simp at hmem
  | @began c' call draw hinput hcall hstage hfree =>
    have hnot : .began c op ∉ (enter o s.triggers s.events draw.now call.op).happening c' := by
      cases enter o s.triggers s.events draw.now call.op <;> simp [Stage.happening]
    obtain ⟨rfl, rfl⟩ := Happening.began.inj ((List.mem_cons.mp hmem).resolve_right hnot)
    cases before with
    | nil => exact ⟨call, draw, hinput, hcall, hstage, rfl, hfree, rfl, (List.cons.inj hnew).2.symm⟩
    | cons x before =>
      refine absurd ?_ hnot
      rw [(List.cons.inj hnew).2]
      simp

/-! ### Copies -/

@[simp] theorem later_nextPending (triggers : Triggers) (cursor : ℕ) (fired : List SchedulerFiredRun)
    (now : String) : (nextPending triggers cursor fired now).later = [] := by
  obtain ⟨h, -⟩ | ⟨n, t, h, -⟩ := nextPending_cases triggers cursor fired now <;> rw [h] <;> rfl

@[simp] theorem later_nextDue (triggers : Triggers) (fired : List SchedulerFiredRun) (now : String)
    (rest : List SchedulerTrigger) : (nextDue triggers fired now rest).later = rest.tail := by
  cases rest with
  | nil => exact later_nextPending ..
  | cons => rfl

theorem later_proceed (triggers : Triggers) (job : Job) :
    (proceed triggers job).later = (Stage.recorded job).later.tail := by
  cases job with
  | register | remove => rfl
  | fire t now run next after =>
    cases after with
    | due rest fired => exact later_nextDue ..
    | pending cursor fired => exact later_nextPending ..
    | notified => rfl

theorem later_enter {triggers : Triggers} {events : List SchedulerEvent} {now : String}
    {op : SchedulerOperation} (ht : t ∈ (enter o triggers events now op).later) : t.when = none := by
  cases op with
  | tick =>
    rw [enter, later_nextDue] at ht
    have hdue := (mem_due.mp (List.mem_of_mem_tail ht)).2
    simp only [isDue, Bool.and_eq_true, Option.isNone_iff_eq_none] at hdue
    exact hdue.1.2
  | notify event =>
    rw [enter] at ht
    split at ht <;> cases ht
  | register | remove | rebuild => cases ht

theorem enter_running {triggers : Triggers} {events : List SchedulerEvent} {now now' : String}
    {op : SchedulerOperation} {after : After}
    (h : enter o triggers events now op = .running t now' after) :
    (op = .tick ∧ t.when = none) ∨
      ∃ event, op = .notify event ∧ triggers.values.find? (awaitsEvent event) = some t := by
  cases op with
  | tick =>
    refine .inl ⟨rfl, ?_⟩
    cases hdue : due o triggers now with
    | nil =>
      simp only [enter, hdue, nextDue] at h
      obtain ⟨heq, -⟩ | ⟨n, u, heq, -⟩ := nextPending_cases triggers 0 [] now <;>
        simp [heq] at h
    | cons u rest =>
      simp only [enter, hdue, nextDue, Stage.running.injEq] at h
      obtain ⟨rfl, -, -⟩ := h
      have hmem := (mem_due.mp (hdue ▸ List.mem_cons_self ..)).2
      simp only [isDue, Bool.and_eq_true, Option.isNone_iff_eq_none] at hmem
      exact hmem.1.2
  | notify event =>
    refine .inr ⟨event, rfl, ?_⟩
    rw [enter] at h
    split at h
    · next u hfind =>
      cases h
      exact hfind
    · cases h
  | register | remove | rebuild => cases h

theorem Advances.later {stage stage' : Stage} (h : Advances o s c input stage stage') :
    stage'.later ⊆ stage.later := by
  cases h with
  | passed => simp
  | @settled _ t now after turnId status =>
    obtain ⟨h, -⟩ | ⟨run, next, h, -⟩ := settle_cases o t now after turnId status <;> rw [h]
    · exact List.nil_subset _
    · exact List.Subset.refl _
  | @asked _ job => cases job <;> exact List.Subset.refl _
  | @retried _ job => cases job <;> exact List.Subset.refl _
  | _ => exact List.nil_subset _

theorem Moves.later (h : Moves o s input s') (hcall : s'.calls[c]? = some call)
    (ht : t ∈ call.stage.later) :
    t.when = none ∨ ∃ call₀, s.calls[c]? = some call₀ ∧ t ∈ call₀.stage.later := by
  cases h with
  | called op draw =>
    obtain hcall | ⟨-, rfl⟩ := append_calls hcall
    · exact .inr ⟨call, hcall, ht⟩
    · obtain ⟨h, -⟩ | hover | ⟨init, -, h, -⟩ | ⟨id, reason, t, -, -, h⟩ := start_cases o s draw op
      · simp [h, Stage.later] at ht
      · cases hstage : start o s draw op <;> simp [hstage, Stage.isOver, Stage.later] at hover ht
      · simp [h, Stage.later] at ht
      · simp [h, Stage.later] at ht
  | entered hcall₀ =>
    obtain ⟨rfl, call₀, -, rfl⟩ | ⟨-, hcall⟩ := withStage_calls hcall
    · exact .inl (later_enter ht)
    · exact .inr ⟨call, by rw [← cleared_calls s]; exact hcall, ht⟩
  | replayed =>
    obtain ⟨rfl, call₀, -, rfl⟩ | ⟨-, hcall⟩ := withStage_calls hcall
    · cases ht
    · exact .inr ⟨call, hcall, ht⟩
  | advanced hcall₀ hadvances =>
    obtain ⟨rfl, call₁, -, rfl⟩ | ⟨-, hcall⟩ := withStage_calls hcall
    · exact .inr ⟨_, hcall₀, hadvances.later ht⟩
    · exact .inr ⟨call, hcall, ht⟩
  | @landed _ call₀ draw job attempt hcall₀ hstage =>
    obtain ⟨rfl, call₁, -, rfl⟩ | ⟨-, hcall⟩ := withStage_calls hcall
    · refine .inr ⟨call₀, hcall₀, ?_⟩
      rw [hstage]
      cases job <;> exact ht
    · exact .inr ⟨call, hcall, ht⟩
  | @concluded _ call₀ draw job hcall₀ hstage =>
    obtain ⟨rfl, call₁, -, rfl⟩ | ⟨-, hcall⟩ := withStage_calls hcall
    · refine .inr ⟨call₀, hcall₀, ?_⟩
      rw [hstage]
      exact List.mem_of_mem_tail (later_proceed _ job ▸ ht)
    · exact .inr ⟨call, hcall, ht⟩
  | observed => exact .inr ⟨call, hcall, ht⟩
  | restarted =>
    rw [List.getElem?_map] at hcall
    obtain ⟨call₀, -, rfl⟩ := Option.map_eq_some_iff.mp hcall
    cases hstage : call₀.stage <;> simp [hstage, Stage.drop, Stage.later] at ht

/-! ### Runs -/

theorem mem_happening {stage : Stage} : .started c t ∈ stage.happening c' ↔
    c = c' ∧ ∃ now after, stage = .running t now after := by
  cases stage with
  | running t' now after =>
    simp only [Stage.happening, List.mem_singleton, Happening.started.injEq, Stage.running.injEq]
    constructor
    · rintro ⟨hc, ht⟩
      exact ⟨hc, now, after, ht.symm, rfl, rfl⟩
    · rintro ⟨hc, _, _, ht, -⟩
      exact ⟨hc, ht.symm⟩
  | _ => simp [Stage.happening]

theorem running_of_firing {stage : Stage} (hunwritten : stage.unwritten? = none)
    (ht : stage.firing? = some t) : ∃ now after, stage = .running t now after := by
  cases stage with
  | running t' now after =>
    cases ht
    exact ⟨now, after, rfl⟩
  | latest | appending => cases hunwritten
  | _ => cases ht

theorem Advances.firing {stage stage' : Stage} (h : Advances o s c input stage stage')
    (ht : stage'.firing? = some t) :
    stage.firing? = some t ∨ ∃ now after, stage' = .running t now after := by
  cases h with
  | found =>
    cases ht
    exact .inr ⟨_, _, rfl⟩
  | passed => exact .inr (running_of_firing (nextPending_plain ..).unwritten ht)
  | @settled _ t now after turnId status =>
    obtain ⟨h, -⟩ | ⟨run, next, h, -⟩ := settle_cases o t now after turnId status <;> rw [h] at ht
    · cases ht
    · exact .inl ht
  | @asked _ job => cases job <;> exact .inl ht
  | @retried _ job => cases job <;> exact .inl ht
  | _ => cases ht

theorem Moves.begun (h : Moves o s input s') (hcall : s'.calls[c]? = some call)
    (ht : call.stage.firing? = some t) : .started c t ∈ s'.history ∨
      ∃ call₀, s.calls[c]? = some call₀ ∧ call₀.stage.firing? = some t := by
  cases h with
  | called op draw =>
    obtain hcall | ⟨-, rfl⟩ := append_calls hcall
    · exact .inr ⟨call, hcall, ht⟩
    · obtain ⟨h, -⟩ | hover | ⟨init, -, h, -⟩ | ⟨id, reason, t, -, -, h⟩ := start_cases o s draw op
      · simp [h, Stage.firing?] at ht
      · cases hstage : start o s draw op <;> simp [hstage, Stage.isOver, Stage.firing?] at hover ht
      · simp [h, Stage.firing?] at ht
      · simp [h, Stage.firing?] at ht
  | entered hcall₀ =>
    obtain ⟨rfl, call₀, -, rfl⟩ | ⟨-, hcall⟩ := withStage_calls hcall
    · exact .inl (List.mem_append_right _
        (mem_happening.mpr ⟨rfl, running_of_firing (enter_unwritten ..) ht⟩))
    · exact .inr ⟨call, by rw [← cleared_calls s]; exact hcall, ht⟩
  | replayed =>
    obtain ⟨rfl, call₀, -, rfl⟩ | ⟨-, hcall⟩ := withStage_calls hcall
    · cases ht
    · exact .inr ⟨call, hcall, ht⟩
  | advanced hcall₀ hadvances =>
    obtain ⟨rfl, call₁, -, rfl⟩ | ⟨-, hcall⟩ := withStage_calls hcall
    · obtain ht | hrunning := hadvances.firing ht
      · exact .inr ⟨_, hcall₀, ht⟩
      · exact .inl (List.mem_append_right _ (mem_happening.mpr ⟨rfl, hrunning⟩))
    · exact .inr ⟨call, hcall, ht⟩
  | landed =>
    obtain ⟨rfl, call₁, -, rfl⟩ | ⟨-, hcall⟩ := withStage_calls hcall
    · cases ht
    · exact .inr ⟨call, hcall, ht⟩
  | concluded =>
    obtain ⟨rfl, call₁, -, rfl⟩ | ⟨-, hcall⟩ := withStage_calls hcall
    · exact .inl (List.mem_append_right _
        (mem_happening.mpr ⟨rfl, running_of_firing (proceed_plain ..).unwritten ht⟩))
    · exact .inr ⟨call, hcall, ht⟩
  | observed => exact .inr ⟨call, hcall, ht⟩
  | restarted =>
    rw [List.getElem?_map] at hcall
    obtain ⟨call₀, -, rfl⟩ := Option.map_eq_some_iff.mp hcall
    cases hstage : call₀.stage <;> simp [hstage, Stage.drop, Stage.firing?] at ht

/-- What keeps the firing of a trigger from being recorded. -/
def Lost (s : AgentScheduler) (input : Input) (c : ℕ) (call : Call) (t : SchedulerTrigger) : Prop :=
  t.intervalMs.isSome ∨ input = .restart ∨ input = .fail c ∧ call.stage.unwritten?.isSome ∨
    ∃ draw job attempt n, input = .resume c draw ∧ call.stage = .appending job attempt n ∧
      2 ≤ attempt ∧ n ≠ s.stream.length + 1

theorem Advances.fires {stage : Stage} (h : Advances o s c input call.stage stage)
    (ht : call.stage.firing? = some t) :
    stage.firing? = some t ∨ Lost s input c call t := by
  generalize hold : call.stage = old at h ht
  cases h with
  | @settled _ u now after turnId status =>
    cases ht
    obtain ⟨-, hinterval, -⟩ | ⟨run, next, h, -⟩ := settle_cases o t now after turnId status
    · exact .inr (.inl hinterval)
    · exact .inl (h ▸ rfl)
  | @asked _ job => cases job <;> exact .inl ht
  | @retried _ job => cases job <;> exact .inl ht
  | refused hlast hsequence =>
    exact .inr (.inr (.inr (.inr ⟨_, _, _, _, rfl, hold, hlast, hsequence⟩)))
  | failed hawaits =>
    refine .inr (.inr (.inr (.inl ⟨rfl, ?_⟩)))
    rw [hold]
    cases old with
    | running => simp [Stage.rest?, Stage.unwritten?] at hawaits
    | latest | appending => rfl
    | _ => cases ht
  | found | passed | rebuilt | unknown => cases ht

theorem Moves.firing (h : Moves o s input s') (hcall : s.calls[c]? = some call)
    (ht : call.stage.firing? = some t) :
    (∃ call', s'.calls[c]? = some call' ∧ call'.stage.firing? = some t) ∨
      (∃ now run next after, s' = s.record c (.fire t now run next after)) ∨
      Lost s input c call t := by
  cases h with
  | called =>
    exact .inl ⟨call, (List.getElem?_append_left (List.getElem?_eq_some_iff.mp hcall).1).trans hcall,
      ht⟩
  | @entered c₀ call₀ draw hcall₀ hstage =>
    have hne : c ≠ c₀ := by
      rintro rfl
      cases hcall₀.symm.trans hcall
      simp [hstage, Stage.firing?] at ht
    exact .inl ⟨call, (withStage_of_ne hne).trans ((cleared_calls s call₀.op).symm ▸ hcall), ht⟩
  | @replayed c₀ call₀ draw event rest triggers hcall₀ hstage =>
    have hne : c ≠ c₀ := by
      rintro rfl
      cases hcall₀.symm.trans hcall
      simp [hstage, Stage.firing?] at ht
    exact .inl ⟨call, (withStage_of_ne hne).trans hcall, ht⟩
  | @advanced c₀ call₀ input stage hcall₀ hadvances =>
    by_cases hne : c = c₀
    · subst hne
      cases hcall₀.symm.trans hcall
      exact (hadvances.fires ht).imp (fun ht => ⟨_, withStage_self hcall, ht⟩) .inr
    · exact .inl ⟨call, (withStage_of_ne hne).trans hcall, ht⟩
  | @landed c₀ call₀ draw job attempt hcall₀ hstage =>
    by_cases hne : c = c₀
    · subst hne
      cases hcall₀.symm.trans hcall
      rw [hstage] at ht
      cases job with
      | register | remove => cases ht
      | fire t' now run next after =>
        cases ht
        exact .inr (.inl ⟨now, run, next, after, rfl⟩)
    · exact .inl ⟨call, (withStage_of_ne hne).trans hcall, ht⟩
  | @concluded c₀ call₀ draw job hcall₀ hstage =>
    have hne : c ≠ c₀ := by
      rintro rfl
      cases hcall₀.symm.trans hcall
      simp [hstage, Stage.firing?] at ht
    exact .inl ⟨call, (withStage_of_ne hne).trans hcall, ht⟩
  | observed => exact .inl ⟨call, hcall, ht⟩
  | restarted => exact .inr (.inr (.inr (.inl rfl)))

theorem Moves.goes (h : Moves o s input s') (hcall : s.calls[c]? = some call)
    (hqueued : call.stage ≠ .queued) : ∃ call', s'.calls[c]? = some call' ∧ call'.op = call.op ∧
      call'.stage ≠ .queued ∧ (call.stage.isOver → call'.stage.isOver) := by
  have hstay : ∀ {s₀ : AgentScheduler} {c₀ : ℕ} {call₀ : Call} {stage : Stage},
      s₀.calls = s.calls → s.calls[c₀]? = some call₀ → (c = c₀ → stage ≠ .queued) →
      (c = c₀ → call₀.stage.isOver = false) → ∃ call', (s₀.withStage c₀ stage).calls[c]? = some call' ∧
        call'.op = call.op ∧ call'.stage ≠ .queued ∧ (call.stage.isOver → call'.stage.isOver) := by
    intro s₀ c₀ call₀ stage hcalls hcall₀ hstage hover
    by_cases hc : c = c₀
    · subst hc
      cases hcall₀.symm.trans hcall
      exact ⟨_, withStage_self (hcalls ▸ hcall), rfl, hstage rfl, by simp [hover rfl]⟩
    · exact ⟨call, (withStage_of_ne hc).trans (hcalls ▸ hcall), rfl, hqueued, id⟩
  cases h with
  | called =>
    exact ⟨call, (List.getElem?_append_left (List.getElem?_eq_some_iff.mp hcall).1).trans hcall,
      rfl, hqueued, id⟩
  | @entered c₀ call₀ draw hcall₀ hstage =>
    have hne : c ≠ c₀ := by
      rintro rfl
      cases hcall₀.symm.trans hcall
      exact hqueued hstage
    exact hstay (cleared_calls s call₀.op) hcall₀ (fun h => absurd h hne) fun h => absurd h hne
  | replayed hcall₀ hstage =>
    exact hstay rfl hcall₀ (fun _ => by simp) fun _ => by simp [hstage, Stage.isOver]
  | advanced hcall₀ hadvances =>
    exact hstay rfl hcall₀ (fun _ => hadvances.plain.1) fun _ => hadvances.not_over
  | landed hcall₀ hstage =>
    exact hstay rfl hcall₀ (fun _ => by simp) fun _ => by simp [hstage, Stage.isOver]
  | concluded hcall₀ hstage =>
    exact hstay rfl hcall₀ (fun _ => (proceed_plain ..).queued) fun _ => by simp [hstage, Stage.isOver]
  | observed => exact ⟨call, hcall, rfl, hqueued, id⟩
  | restarted =>
    refine ⟨{ call with stage := call.stage.drop }, by simp [hcall], rfl, ?_, fun _ => ?_⟩ <;>
      cases call.stage <;> simp [Stage.drop, Stage.isOver]

theorem Moves.restarts (h : Moves o s .restart s') (hcall : s'.calls[c]? = some call) :
    call.stage.isOver := by
  cases h with
  | restarted =>
    rw [List.getElem?_map] at hcall
    obtain ⟨call₀, -, rfl⟩ := Option.map_eq_some_iff.mp hcall
    cases call₀.stage <;> simp [Stage.drop, Stage.isOver]
  | advanced hcall₀ hadvances =>
    generalize Call.stage _ = old at hadvances
    cases hadvances with
    | settled hinput => simp at hinput

theorem Moves.enters {draw : Draw} (h : Moves o s (.resume c draw) s')
    (hcall : s.calls[c]? = some call) (hstage : call.stage = .queued) :
    s' = ((cleared s call.op).happens (.began c call.op)).withStage c
      (enter o s.triggers s.events draw.now call.op) := by
  cases h with
  | entered hcall₀ =>
    cases hcall₀.symm.trans hcall
    rfl
  | advanced hcall₀ hadvances =>
    generalize hold : Call.stage _ = stage at hadvances
    cases hadvances with
    | settled hinput => simp at hinput
    | _ =>
      cases hcall₀.symm.trans hcall
      simp [hstage] at hold
  | replayed hcall₀ hstage₀ | landed hcall₀ hstage₀ | concluded hcall₀ hstage₀ =>
    cases hcall₀.symm.trans hcall
    simp [hstage] at hstage₀

theorem Moves.started (h : Moves o s input s') (ht : .started c t ∈ s'.history) :
    .started c t ∈ s.history ∨ ∃ (call : Call) (now : String) (after : After),
      s'.calls[c]? = some call ∧ call.stage = .running t now after := by
  have hmoved : ∀ {s₀ : AgentScheduler} {c₀ : ℕ} {call₀ : Call} {stage : Stage},
      s₀.calls[c₀]? = some call₀ → .started c t ∈ stage.happening c₀ →
      ∃ (call : Call) (now : String) (after : After), (s₀.withStage c₀ stage).calls[c]? = some call ∧
        call.stage = .running t now after := by
    intro s₀ c₀ call₀ stage hcall₀ hmem
    obtain ⟨rfl, now, after, hstage⟩ := mem_happening.mp hmem
    exact ⟨_, now, after, withStage_self hcall₀, hstage⟩
  cases h with
  | called op draw =>
    obtain ht | ht := List.mem_append.mp ht
    · exact .inl ht
    · obtain ⟨rfl, now, after, hstage⟩ := mem_happening.mp ht
      exact .inr ⟨_, now, after, List.getElem?_concat_length, hstage⟩
  | @entered c₀ call₀ draw hcall₀ =>
    obtain ht | ht := List.mem_append.mp ht
    · refine .inl (cleared_history s call₀.op ▸ (List.mem_append.mp ht).resolve_right (by simp))
    · exact .inr (hmoved (cleared_calls s _ ▸ hcall₀) ht)
  | replayed => exact .inl ((List.mem_append.mp ht).resolve_right (by simp [Stage.happening]))
  | advanced hcall₀ hadvances =>
    obtain ht | ht := List.mem_append.mp ht
    · exact .inl ht
    · exact .inr (hmoved hcall₀ ht)
  | landed =>
    have ht := (List.mem_append.mp ht).resolve_right (by simp)
    exact .inl ((List.mem_append.mp ht).resolve_right (by simp [Stage.happening]))
  | concluded hcall₀ =>
    obtain ht | ht := List.mem_append.mp ht
    · exact .inl ht
    · exact .inr (hmoved hcall₀ ht)
  | observed => exact .inl ((List.mem_append.mp ht).resolve_right (by simp))
  | restarted => exact .inl ht

theorem ended_mem_happening {stage : Stage} :
    .ended c ∈ stage.happening c' ↔ c = c' ∧ ∃ result, stage = .finished result := by
  cases stage <;> simp [Stage.happening]

theorem Moves.ended {new : List Happening} (h : Moves o s input s')
    (hhistory : s'.history = s.history ++ new) (hmem : .ended c ∈ new) :
    input ≠ .restart ∧ (∀ call, s.calls[c]? = some call → call.stage.isOver = false) ∧
      (∀ c t, .started c t ∉ new) ∧ (∀ event, .recorded event ∉ new) ∧
      ∃ call result, s'.calls[c]? = some call ∧ call.stage = .finished result := by
  have hquiet : ∀ {c' : ℕ} {result : Except SchedulerError SchedulerResult},
      (∀ c t, .started c t ∉ (Stage.finished result).happening c') ∧
        ∀ event, .recorded event ∉ (Stage.finished result).happening c' := by
    intro c' result
    simp [Stage.happening]
  have hnew : ∀ seen, s'.history = s.history ++ seen → seen = new := fun seen h =>
    List.append_cancel_left (h.symm.trans hhistory)
  cases h with
  | called op draw =>
    rw [← hnew _ rfl] at hmem ⊢
    obtain ⟨rfl, result, hstage⟩ := ended_mem_happening.mp hmem
    rw [hstage]
    refine ⟨by simp, fun call hcall => ?_, hquiet.1, hquiet.2, _, result,
      List.getElem?_concat_length, rfl⟩
    simp at hcall
  | @entered c₀ call₀ draw hcall₀ hstage₀ =>
    rw [← hnew (.began c₀ call₀.op ::
      (enter o s.triggers s.events draw.now call₀.op).happening c₀)
      (by simp [AgentScheduler.withStage, AgentScheduler.happens, cleared_history])] at hmem ⊢
    obtain ⟨rfl, result, hstage⟩ :=
      ended_mem_happening.mp ((List.mem_cons.mp hmem).resolve_left (by simp))
    rw [hstage]
    refine ⟨by simp, fun call hcall => ?_, by simp [Stage.happening], by simp [Stage.happening], _,
      result, withStage_self (cleared_calls s _ ▸ hcall₀), rfl⟩
    cases hcall.symm.trans hcall₀
    simp [hstage₀, Stage.isOver]
  | advanced hcall₀ hadvances =>
    rw [← hnew _ rfl] at hmem ⊢
    obtain ⟨rfl, result, hstage⟩ := ended_mem_happening.mp hmem
    rw [hstage]
    refine ⟨?_, fun call hcall => ?_, hquiet.1, hquiet.2, _, result, withStage_self hcall₀, rfl⟩
    · rintro rfl
      generalize Call.stage _ = old at hadvances
      cases hadvances with
      | settled hinput => simp at hinput
    · cases hcall.symm.trans hcall₀
      exact hadvances.not_over
  | concluded hcall₀ hstage₀ =>
    rw [← hnew _ rfl] at hmem ⊢
    obtain ⟨rfl, result, hstage⟩ := ended_mem_happening.mp hmem
    refine ⟨by simp, fun call hcall => ?_, hstage ▸ hquiet.1, hstage ▸ hquiet.2, _, result,
      withStage_self hcall₀, hstage⟩
    cases hcall.symm.trans hcall₀
    simp [hstage₀, Stage.isOver]
  | replayed =>
    rw [← hnew _ rfl] at hmem
    cases hmem
  | @landed _ _ _ job =>
    rw [← hnew [.recorded job.event] (by simp [AgentScheduler.record, AgentScheduler.withStage,
      AgentScheduler.happens, Stage.happening])] at hmem
    simp at hmem
  | observed =>
    rw [← hnew _ rfl] at hmem
    simp at hmem
  | restarted =>
    rw [← hnew [] (List.append_nil _).symm] at hmem
    cases hmem

def Logged (s : AgentScheduler) : Prop := ∀ event, .recorded event ∈ s.history ↔ event ∈ s.events

theorem Moves.logged (h : Moves o s input s') (hlogged : Logged s) : Logged s' := by
  intro event
  have hstage : ∀ (history : List Happening) (c : ℕ) (stage : Stage),
      .recorded event ∈ history ++ stage.happening c ↔ .recorded event ∈ history := by
    intro history c stage
    cases stage <;> simp [Stage.happening]
  cases h with
  | called | advanced | replayed | concluded => exact (hstage ..).trans (hlogged event)
  | @entered c call =>
    refine (hstage ..).trans (List.mem_append.trans ((or_iff_left (by simp)).trans ?_))
    cases call.op <;> exact hlogged event
  | landed =>
    rw [events_record, List.mem_append, List.mem_singleton, ← hlogged event]
    exact List.mem_append.trans (or_congr (hstage ..) (by simp))
  | observed => exact List.mem_append.trans ((or_iff_left (by simp)).trans (hlogged event))
  | restarted => exact hlogged event

/-- The history tells of the stream and of the runs. -/
structure Told (s : AgentScheduler) : Prop where
  inPlan : InPlan s
  logged : Logged s
  later : ∀ (c : ℕ) (call : Call) (t : SchedulerTrigger), s.calls[c]? = some call →
    t ∈ call.stage.later → t.when = none
  begun : ∀ (c : ℕ) (call : Call) (t : SchedulerTrigger), s.calls[c]? = some call →
    call.stage.firing? = some t → .started c t ∈ s.history
  runs : ∀ c t, .started c t ∈ s.history →
    ∃ u, .registered u ∈ s.events ∧ u.id = t.id ∧ t.when = u.when ∧ (t.when.isSome → t = u)
  fired : ∀ p, .triggered p ∈ s.events → ∃ c t, .started c t ∈ s.history ∧ t.id = p.triggerId

theorem Moves.history (h : Moves o s input s') : s.history ⊆ s'.history := by
  obtain ⟨new, heq, -⟩ := h.news
  rw [heq]
  exact List.subset_append_left ..

namespace Told

theorem step (h : Told s) (hproper : Proper s input) (hs : schedulerStep o s input = some s') :
    Told s' := by
  have hmoves := schedulerStep_moves h.inPlan.numbered hs
  have hplan := h.inPlan.step hproper hs
  have hevents : s.events ⊆ s'.events := by
    obtain heq | ⟨c, call, job, attempt, -, -, rfl⟩ := hmoves.events
    · exact heq ▸ List.Subset.refl _
    · exact events_record s c job ▸ List.subset_append_left ..
  constructor
  case inPlan => exact hplan
  case logged => exact hmoves.logged h.logged
  case later =>
    intro c call t hcall ht
    obtain hwhen | ⟨call₀, hcall₀, ht₀⟩ := hmoves.later hcall ht
    · exact hwhen
    · exact h.later c call₀ t hcall₀ ht₀
  case begun =>
    intro c call t hcall ht
    obtain hstarted | ⟨call₀, hcall₀, ht₀⟩ := hmoves.begun hcall ht
    · exact hstarted
    · exact hmoves.history (h.begun c call₀ t hcall₀ ht₀)
  case runs =>
    intro c t ht
    obtain ht | ⟨call, now, after, hcall, hstage⟩ := hmoves.started ht
    · obtain ⟨u, hu, hsame⟩ := h.runs c t ht
      exact ⟨u, hevents hu, hsame⟩
    · exact planned_same ((hplan.fits c call hcall).held t (by simp [hstage, Stage.held]))
  case fired =>
    intro p hp
    have hold : .triggered p ∈ s.events →
        ∃ c t, .started c t ∈ s'.history ∧ t.id = p.triggerId := by
      intro hp
      obtain ⟨c, t, ht, hid⟩ := h.fired p hp
      exact ⟨c, t, hmoves.history ht, hid⟩
    obtain heq | ⟨c, call, job, attempt, hcall, hstage, heq⟩ := hmoves.events
    · exact hold (heq ▸ hp)
    rw [heq, events_record] at hp
    obtain hp | hp := List.mem_append.mp hp
    · exact hold hp
    · cases job with
      | register | remove => cases List.mem_singleton.mp hp
      | fire t now run next after =>
        cases List.mem_singleton.mp hp
        exact ⟨c, t, hmoves.history (h.begun c call t hcall (by rw [hstage]; rfl)), rfl⟩

theorem initial : Told .initial where
  inPlan := .initial
  logged event := by simp [AgentScheduler.initial, AgentScheduler.events]
  later c call t hcall := by cases hcall
  begun c call t hcall := by cases hcall
  runs c t ht := by cases ht
  fired p hp := by cases hp

theorem same (h : Told s) {u : SchedulerTrigger} (ht : .registered t ∈ s.events)
    (hu : .started c u ∈ s.history) (hid : u.id = t.id) (hwhen : t.when.isSome) : u = t := by
  obtain ⟨v, hv, hvid, hsame, heq⟩ := h.runs c u hu
  obtain rfl : v = t := h.inPlan.distinct.unique hv ht (hvid.trans hid)
  exact heq (hsame ▸ hwhen)

theorem unfired (h : Told s) (ht : .registered t ∈ s.events) (hwhen : t.when.isSome)
    (hstarted : ∀ c, .started c t ∉ s.history) : planned s.events t.id = some t := by
  refine planned_unfired h.inPlan.distinct ht fun p hp hid => ?_
  obtain ⟨c, u, hu, huid⟩ := h.fired p hp
  exact hstarted c (h.same ht hu (huid.trans hid) hwhen ▸ hu)

/-- A trigger that is recorded and neither fired nor removed is in the live map when a turn comes,
unless its registration is still to return. -/
theorem live_of_turn (h : Told s) (hcall : s.calls[c]? = some call) (hstage : call.stage = .queued)
    (hfree : free s c) (ht : .registered t ∈ s.events) (hwhen : t.when.isSome)
    (hstarted : ∀ c, .started c t ∉ s.history) (hremoved : ∀ reason, .removed t.id reason ∉ s.events)
    (hreturned : s.Returns t → (s.triggers.get t.id).isSome) : s.triggers.get t.id = some t := by
  obtain ⟨hnorest, hnowrites⟩ := h.inPlan.turn hcall hstage hfree
  have hplanned := h.unfired ht hwhen hstarted
  obtain hget | ⟨u, hreturns, hid⟩ | hwrites :=
    h.inPlan.kept [] (.inr ⟨rfl, hnorest⟩) t.id t hplanned hremoved
  · exact hget
  · obtain ⟨c', call', hcall', hwritten⟩ := hreturns
    obtain rfl : u = t := h.inPlan.distinct.unique
      ((h.inPlan.fits c' call' hcall').written _ hwritten) ht hid
    obtain ⟨v, hv⟩ := Option.isSome_iff_exists.mp (hreturned ⟨c', call', hcall', hwritten⟩)
    rw [hv, ← h.inPlan.planned_of_get hnorest (hnowrites u.id) hv, hplanned]
  · exact absurd hwrites (hnowrites t.id)

theorem gone (h' : Told s') (hmoves : Moves o s input s')
    (ht : .registered t ∈ s.events) (hgone : planned s.events t.id = none) :
    planned s'.events t.id = none := by
  obtain heq | ⟨c, call, job, attempt, -, -, rfl⟩ := hmoves.events
  · rw [heq]
    exact hgone
  · have hdistinct := h'.inPlan.distinct
    rw [events_record] at hdistinct ⊢
    exact planned_gone hdistinct ht hgone

end Told

theorem reaches_told (h : (scheduler o).Reaches Proper .initial s) : Told s :=
  h.invariant Told.initial fun _ _ _ htold hproper hs => htold.step hproper hs

end BeeAgent.Scheduler
