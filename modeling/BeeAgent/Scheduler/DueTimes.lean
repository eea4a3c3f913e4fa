import BeeAgent.Data.DateTime
import BeeAgent.Kanban.Board
import BeeAgent.Scheduler.Steps

/-! The comparisons of times with the clock: when a trigger is due, a task becomes claimable and a
lease is reclaimed. -/
namespace BeeAgent.Scheduler
open Data
open Kanban (KanbanOptions KanbanTask KanbanTaskId Tasks)

/-- What is planned for the one time is found due at the other exactly when its instant is not after
the other's. -/
structure FollowsTime (planned now : IsoDateTime) : Prop where
  trigger : ∀ (o : SchedulerOptions) (triggers : Triggers) (trigger : SchedulerTrigger),
    trigger ∈ triggers.values → trigger.enabled → trigger.when = none →
    trigger.nextRunAt = some planned.text →
    (trigger ∈ due o triggers now.text ↔ planned.instant ≤ now.instant)
  task : ∀ (localeCompare : String → String → ℤ) (tasks : Tasks) (task : KanbanTask),
    task ∈ tasks.values → task.status = .ready → task.scheduledAt = some planned.text →
    (task ∈ Kanban.list localeCompare tasks
      { status := some [.ready], scheduledBefore := some now.text } ↔ planned.instant ≤ now.instant)
  lease : ∀ (o : KanbanOptions) (tasks : Tasks) (draw : Kanban.Draw) (task : KanbanTask)
    (claim : Kanban.KanbanClaimLease) (rest : List KanbanTask) (reclaimed : List KanbanTaskId),
    task.claim = some claim → claim.expiresAt = planned.text →
    (Kanban.reclaim o tasks draw now.text reclaimed (task :: rest) ≠ .reclaiming rest reclaimed ↔
      planned.instant ≤ now.instant)

variable {planned now : IsoDateTime}

/-- A trigger of a schedule, as `register` makes it. -/
def plannedTrigger (text : String) : SchedulerTrigger :=
  { id := "", input := "", threadId := "", at_ := some text, enabled := true, createdAt := text
    nextRunAt := some text }

/-- Each of the three compares the texts. -/
theorem followsTime_iff_keyLe : FollowsTime planned now ↔
    (keyLe planned.text now.text ↔ planned.instant ≤ now.instant) := by
  constructor
  · intro h
    have hdue := h.trigger
      ⟨⟨fun _ => true, fun _ => true⟩, fun _ _ => 0, fun _ => none, fun _ => none⟩
      (LiveMap.empty.set "" (plannedTrigger planned.text)) (plannedTrigger planned.text)
      (LiveMap.mem_values_iff.mpr ⟨"", by simp [LiveMap.get_set]⟩) rfl rfl rfl
    rw [← hdue, mem_due]
    simp [LiveMap.mem_values_iff, LiveMap.get_set, isDue, plannedTrigger]
  · intro h
    refine ⟨fun o triggers trigger hmem henabled hwhen hnext => ?_,
      fun localeCompare tasks task hmem hstatus hscheduled => ?_,
      fun o tasks draw task claim rest reclaimed hclaim hexpires => ?_⟩
    · rw [mem_due, ← h]
      simp [hmem, isDue, henabled, hwhen, hnext]
    · rw [Kanban.list, Kanban.KanbanTaskQuery.cut, List.mem_insertionSort, List.mem_filter, ← h]
      simp [hmem, Kanban.KanbanTaskQuery.accepts, hstatus, hscheduled]
    · rw [← h, Kanban.reclaim, Kanban.lapsed, hclaim, Option.any_some, hexpires]
      by_cases hle : keyLe planned.text now.text
      · simp only [hle, decide_true, if_true, ne_eq, iff_true]
        cases Kanban.transition o.formats tasks task.id
          { dst := .ready, expectedVersion := task.version, at_ := some now.text } draw.clock <;>
          simp [Kanban.appendOf]
      · simp [hle]

/-- The comparisons follow time exactly where the planned text is not cut short by the clock's, and
goes beyond it with zeros only. -/
theorem followsTime_iff (planned now : IsoDateTime) :
    FollowsTime planned now ↔ Aligned planned.stem now.stem :=
  followsTime_iff_keyLe.trans (IsoDateTime.keyLe_iff planned now)

/-- The first of January 2026 at midnight, to the given precision. -/
def newYear (seconds : Option Seconds) : IsoDateTime where
  date := ⟨2026, 1, 1, by decide, by decide, by decide⟩
  hour := 0
  minute := 0
  seconds := seconds
  hour_lt := by decide
  minute_lt := by decide

def planToTheSecond : IsoDateTime := newYear (some ⟨0, [], by decide⟩)

def halfASecondLater : IsoDateTime := newYear (some ⟨0, [5, 0, 0], by decide⟩)

/-- What is planned for a full second is not found due within that second. -/
theorem fullSecond_notDue : planToTheSecond.text = "2026-01-01T00:00:00Z" ∧
    halfASecondLater.text = "2026-01-01T00:00:00.500Z" ∧
    ¬ FollowsTime planToTheSecond halfASecondLater := by
  refine ⟨by decide +kernel, by decide +kernel, fun h => ?_⟩
  have haligned := (IsoDateTime.keyLe_iff _ _).mp (followsTime_iff_keyLe.mp h)
  have hprefix : planToTheSecond.stem <+: halfASecondLater.stem := by decide +kernel
  exact absurd (haligned.1 hprefix) (by decide +kernel)

end BeeAgent.Scheduler
