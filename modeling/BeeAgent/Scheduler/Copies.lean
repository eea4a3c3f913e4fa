import BeeAgent.Scheduler.Happenings

/-! The copies of triggers that ticks and notifications go on with, from where they are taken from
the live map to where they are started and put back. -/
namespace BeeAgent.Scheduler
open Data Transition

namespace Stage

/-- The copies of triggers that are still to be started. -/
def waiting : Stage → List SchedulerTrigger
  | .reading trigger _ _ _ => [trigger]
  | stage => stage.later

/-- The trigger that is started, up to where a copy of it is put back into the live map. -/
def putting? : Stage → Option SchedulerTrigger
  | .recorded (.fire trigger ..) => some trigger
  | stage => stage.firing?

def copies (stage : Stage) : List SchedulerTrigger := stage.putting?.toList ++ stage.waiting

/-- The trigger whose condition is looked at. -/
def found? : Stage → Option SchedulerTrigger
  | .reading trigger _ _ _ => some trigger
  | _ => none

end Stage

namespace AgentScheduler
variable (s : AgentScheduler)

/-- The removal is written, and its call has not gone on yet. -/
def Leaving (id : String) : Prop :=
  ∃ (c : ℕ) (call : Call) (reason : Option String), s.calls[c]? = some call ∧
    call.stage.written? = some (.remove id reason)

def Idle : Prop := ∀ (c : ℕ) (call : Call), s.calls[c]? = some call → call.stage.isOver

end AgentScheduler

/-- The triggers that a step takes from the live map, to fire them or to look at their condition. -/
def taken (o : SchedulerOptions) (s : AgentScheduler) : Input → List SchedulerTrigger
  | .resume c draw =>
    match s.calls[c]? with
    | none => []
    | some call =>
      match call.stage with
      | .queued => (enter o s.triggers s.events draw.now call.op).held
      | .reading trigger cursor fired now =>
        if reached s trigger then [] else (nextPending s.triggers cursor fired now).found?.toList
      | .recorded job => (proceed (job.apply s.triggers) job).found?.toList
      | _ => []
  | _ => []

variable {o : SchedulerOptions} {s s' : AgentScheduler} {input : Input} {c c' : ℕ}
  {call call' : Call} {stage stage' : Stage} {t u : SchedulerTrigger} {id : String}
  {events : List SchedulerEvent}

/-! ### Copies -/

theorem Stage.mem_copies : t ∈ stage.copies ↔ stage.putting? = some t ∨ t ∈ stage.waiting := by
  simp [copies]

theorem Stage.mem_copies_of_held (h : t ∈ stage.held) : t ∈ stage.copies := by
  rw [mem_copies]
  cases stage with
  | reading => exact .inr h
  | running => exact (List.mem_cons.mp h).imp_left fun h => by rw [h]; rfl
  | latest job | appending job =>
    cases job with
    | register | remove => cases h
    | fire => exact (List.mem_cons.mp h).imp_left fun h => by rw [h]; rfl
  | recorded job =>
    cases job with
    | register | remove => cases h
    | fire => exact .inr h
  | _ => cases h

theorem Stage.held_or_recorded (h : t ∈ stage.copies) : t ∈ stage.held ∨
    ∃ now run next after, stage.written? = some (.fire t now run next after) := by
  rw [mem_copies] at h
  cases stage with
  | reading => exact .inl (h.resolve_left (by simp [putting?, firing?]))
  | running =>
    exact .inl (h.elim (fun h => by cases h; exact List.mem_cons_self) (List.mem_cons_of_mem _))
  | latest job | appending job =>
    cases job with
    | register | remove => simp [putting?, firing?, waiting, later] at h
    | fire =>
      exact .inl (h.elim (fun h => by cases h; exact List.mem_cons_self) (List.mem_cons_of_mem _))
  | recorded job =>
    cases job with
    | register | remove => simp [putting?, firing?, waiting, later] at h
    | fire t' now run next after =>
      refine h.elim (fun h => ?_) .inl
      cases h
      exact .inr ⟨now, run, next, after, rfl⟩
  | _ => simp [putting?, firing?, waiting, later] at h

theorem nextPending_copies (triggers : Triggers) (cursor : ℕ) (fired : List SchedulerFiredRun)
    (now : String) : (nextPending triggers cursor fired now).putting? = none ∧
      (nextPending triggers cursor fired now).waiting =
        (nextPending triggers cursor fired now).found?.toList := by
  obtain ⟨h, -⟩ | ⟨n, t, h, -⟩ := nextPending_cases triggers cursor fired now <;> rw [h] <;>
    exact ⟨rfl, rfl⟩

theorem live_of_found (hkeyed : Keyed s.triggers) {cursor : ℕ} {fired : List SchedulerFiredRun}
    {now : String} (h : t ∈ (nextPending s.triggers cursor fired now).found?.toList) :
    s.triggers.get t.id = some t := by
  obtain ⟨heq, -⟩ | ⟨n, u, heq, hfind⟩ := nextPending_cases s.triggers cursor fired now
  · simp [heq, Stage.found?] at h
  · obtain rfl : t = u := by simpa [heq, Stage.found?] using h
    exact hkeyed.get_of_findFrom hfind

/-- Only the reading of a condition that is not met takes triggers from the live map. -/
theorem Advances.waiting (h : Advances o s c input stage stage') (ht : t ∈ stage'.waiting) :
    t ∈ stage.waiting ∨ ∃ draw trigger cursor fired now, input = .resume c draw ∧
      stage = .reading trigger cursor fired now ∧ reached s trigger = false ∧
      t ∈ (nextPending s.triggers cursor fired now).found?.toList := by
  cases h with
  | passed hreached =>
    rw [(nextPending_copies ..).2] at ht
    exact .inr ⟨_, _, _, _, _, rfl, rfl, hreached, ht⟩
  | @settled _ u now after turnId status =>
    obtain ⟨h, -⟩ | ⟨run, next, h, -⟩ := settle_cases o u now after turnId status <;> rw [h] at ht
    · cases ht
    · exact .inl ht
  | @asked _ job | @retried _ job => cases job <;> exact .inl ht
  | found | rebuilt | unknown | refused | failed => cases ht

theorem Advances.putting (h : Advances o s c input stage stage') (ht : stage'.putting? = some t) :
    stage.putting? = some t ∨ t ∈ stage.waiting := by
  cases h with
  | passed => simp [(nextPending_copies ..).1] at ht
  | found =>
    cases ht
    exact .inr List.mem_cons_self
  | @settled _ u now after turnId status =>
    obtain ⟨h, -⟩ | ⟨run, next, h, -⟩ := settle_cases o u now after turnId status <;> rw [h] at ht
    · cases ht
    · exact .inl ht
  | @asked _ job | @retried _ job => cases job <;> exact .inl ht
  | rebuilt | unknown | refused | failed => cases ht

theorem start_idle (o : SchedulerOptions) (s : AgentScheduler) (draw : Draw)
    (op : SchedulerOperation) : (start o s draw op).rest? = none ∧
      (start o s draw op).written? = none ∧ (start o s draw op).copies = [] := by
  obtain ⟨h, -⟩ | hover | ⟨init, -, h, -⟩ | ⟨id, reason, t, -, -, h⟩ := start_cases o s draw op
  · rw [h]
    exact ⟨rfl, rfl, rfl⟩
  · cases hstage : start o s draw op with
    | finished | dropped => exact ⟨rfl, rfl, rfl⟩
    | _ => simp [hstage, Stage.isOver] at hover
  · rw [h]
    exact ⟨rfl, rfl, rfl⟩
  · rw [h]
    exact ⟨rfl, rfl, rfl⟩

theorem drop_idle (stage : Stage) :
    stage.drop.rest? = none ∧ stage.drop.written? = none ∧ stage.drop.copies = [] := by
  cases stage <;> exact ⟨rfl, rfl, rfl⟩

theorem live_of_entered (hplan : InPlan s) {draw : Draw} (hcall : s.calls[c]? = some call)
    (hstage : call.stage = .queued) (hop : call.op ≠ .rebuild)
    (ht : t ∈ (enter o s.triggers s.events draw.now call.op).copies) :
    t ∈ taken o s (.resume c draw) ∧ s.triggers.get t.id = some t := by
  have hserialized := (hplan.fits c call hcall).serialized (.inl hstage)
  obtain ⟨hplain, hheld, -⟩ := enter_plain (o := o) hplan.keyed hserialized hop s.events draw.now
  have ht : t ∈ (enter o s.triggers s.events draw.now call.op).held :=
    (Stage.held_or_recorded ht).resolve_right fun ⟨_, _, _, _, h⟩ => by simp [hplain.written] at h
  refine ⟨by simpa [taken, hcall, hstage] using ht, ?_⟩
  obtain ⟨id, hget⟩ := LiveMap.mem_values_iff.mp (hheld t ht)
  rw [hplan.keyed id t hget]
  exact hget

theorem proceed_waiting (triggers : Triggers) (job : Job)
    (ht : t ∈ (proceed triggers job).waiting) :
    t ∈ (Stage.recorded job).waiting ∨ t ∈ (proceed triggers job).found?.toList := by
  cases job with
  | register | remove => cases ht
  | fire u now run next after =>
    cases after with
    | notified => cases ht
    | pending =>
      rw [proceed, (nextPending_copies ..).2] at ht
      exact .inr ht
    | due rest fired =>
      cases rest with
      | nil =>
        rw [proceed, nextDue, (nextPending_copies ..).2] at ht
        exact .inr ht
      | cons v rest => exact .inl (List.mem_cons_of_mem v ht)

theorem proceed_putting (triggers : Triggers) (job : Job)
    (ht : (proceed triggers job).putting? = some t) : t ∈ (Stage.recorded job).waiting := by
  cases job with
  | register | remove => cases ht
  | fire u now run next after =>
    cases after with
    | notified => cases ht
    | pending => simp [proceed, (nextPending_copies ..).1] at ht
    | due rest fired =>
      cases rest with
      | nil => simp [proceed, nextDue, (nextPending_copies ..).1] at ht
      | cons v rest =>
        cases ht
        exact List.mem_cons_self

theorem live_of_proceeded (hkeyed : Keyed s.triggers) {job : Job}
    (ht : t ∈ (proceed (job.apply s.triggers) job).found?.toList) :
    (job.apply s.triggers).get t.id = some t := by
  have hkeyed' : Keyed (conclude s 0 job).triggers := Job.keyed_apply hkeyed
  cases job with
  | register | remove => cases ht
  | fire u now run next after =>
    cases after with
    | notified => cases ht
    | pending => exact live_of_found hkeyed' ht
    | due rest fired =>
      cases rest with
      | nil => exact live_of_found hkeyed' ht
      | cons => cases ht

/-! ### Moves -/

theorem AgentScheduler.Leaving.mono (h : s.Leaving id)
    (hcalls : ∀ (c : ℕ) (call : Call), s.calls[c]? = some call → call.stage.written?.isSome →
      s'.calls[c]? = some call) : s'.Leaving id := by
  obtain ⟨c, call, reason, hcall, hleaving⟩ := h
  exact ⟨c, call, reason, hcalls c call hcall (by simp [hleaving]), hleaving⟩

theorem enter_written (triggers : Triggers) (events : List SchedulerEvent) (now : String)
    (op : SchedulerOperation) : (enter o triggers events now op).written? = none := by
  cases op with
  | tick => exact (nextDue_plain ..).written
  | notify event =>
    rw [enter]
    split <;> rfl
  | _ => rfl

theorem Moves.written {job : Job} (h : Moves o s input s') (hcall : s'.calls[c]? = some call)
    (hjob : call.stage.written? = some job) : s.calls[c]? = some call ∨
      ∃ draw call₀ attempt, input = .resume c draw ∧ s.calls[c]? = some call₀ ∧
        call₀.stage = .appending job attempt (s.stream.length + 1) ∧ s' = s.record c job := by
  cases h with
  | called op draw =>
    obtain hcall | ⟨-, rfl⟩ := append_calls hcall
    · exact .inl hcall
    · simp [(start_idle o s draw op).2.1] at hjob
  | entered =>
    obtain ⟨rfl, call₁, -, rfl⟩ | ⟨-, hcall⟩ := withStage_calls hcall
    · simp [enter_written] at hjob
    · exact .inl (by rw [← cleared_calls s]; exact hcall)
  | replayed =>
    obtain ⟨rfl, call₁, -, rfl⟩ | ⟨-, hcall⟩ := withStage_calls hcall
    · cases hjob
    · exact .inl hcall
  | advanced hcall₀ hadvances =>
    obtain ⟨rfl, call₁, -, rfl⟩ | ⟨-, hcall⟩ := withStage_calls hcall
    · simp [hadvances.plain.2.2] at hjob
    · exact .inl hcall
  | landed hcall₀ hstage =>
    obtain ⟨rfl, call₁, -, rfl⟩ | ⟨-, hcall⟩ := withStage_calls hcall
    · cases hjob
      exact .inr ⟨_, _, _, rfl, hcall₀, hstage, rfl⟩
    · exact .inl hcall
  | concluded =>
    obtain ⟨rfl, call₁, -, rfl⟩ | ⟨-, hcall⟩ := withStage_calls hcall
    · simp [(proceed_plain ..).written] at hjob
    · exact .inl hcall
  | observed => exact .inl hcall
  | restarted =>
    rw [List.getElem?_map] at hcall
    obtain ⟨call₀, -, rfl⟩ := Option.map_eq_some_iff.mp hcall
    simp [(drop_idle _).2.1] at hjob

theorem Moves.waiting (h : Moves o s input s') (hplan : InPlan s) (hop : ∀ (c : ℕ) (call : Call),
    s.calls[c]? = some call → call.op ≠ .rebuild) (hcall : s'.calls[c]? = some call)
    (ht : t ∈ call.stage.waiting) :
    (∃ call₀, s.calls[c]? = some call₀ ∧ t ∈ call₀.stage.waiting) ∨
      t ∈ taken o s input ∧ s'.triggers.get t.id = some t := by
  cases h with
  | called op draw =>
    obtain hcall | ⟨-, rfl⟩ := append_calls hcall
    · exact .inl ⟨call, hcall, ht⟩
    · have hnone := Stage.mem_copies.mpr (.inr ht)
      simp [(start_idle o s draw op).2.2] at hnone
  | @entered c₀ call₁ draw hcall₀ hstage =>
    obtain ⟨rfl, call₀, -, rfl⟩ | ⟨-, hcall⟩ := withStage_calls hcall
    · right
      have hlive := live_of_entered hplan hcall₀ hstage (hop c call₁ hcall₀)
        (Stage.mem_copies.mpr (.inr ht))
      rw [cleared_of_ne s (hop c call₁ hcall₀)]
      exact hlive
    · exact .inl ⟨call, by rw [← cleared_calls s]; exact hcall, ht⟩
  | replayed =>
    obtain ⟨rfl, call₀, -, rfl⟩ | ⟨-, hcall⟩ := withStage_calls hcall
    · cases ht
    · exact .inl ⟨call, hcall, ht⟩
  | @advanced c₀ call₁ _ stage hcall₀ hadvances =>
    obtain ⟨rfl, call₀, -, rfl⟩ | ⟨-, hcall⟩ := withStage_calls hcall
    · obtain ht | ⟨draw, trigger, cursor, fired, now, rfl, hstage, hreached, ht⟩ :=
        hadvances.waiting ht
      · exact .inl ⟨call₁, hcall₀, ht⟩
      · exact .inr ⟨by simpa [taken, hcall₀, hstage, hreached] using ht,
          live_of_found hplan.keyed ht⟩
    · exact .inl ⟨call, hcall, ht⟩
  | @landed c₀ call₁ draw job attempt hcall₀ hstage =>
    obtain ⟨rfl, call₀, -, rfl⟩ | ⟨-, hcall⟩ := withStage_calls hcall
    · refine .inl ⟨call₁, hcall₀, ?_⟩
      rw [hstage]
      cases job <;> exact ht
    · exact .inl ⟨call, hcall, ht⟩
  | @concluded c₀ call₁ draw job hcall₀ hstage =>
    obtain ⟨rfl, call₀, -, rfl⟩ | ⟨-, hcall⟩ := withStage_calls hcall
    · obtain ht | ht := proceed_waiting _ job ht
      · exact .inl ⟨call₁, hcall₀, by rw [hstage]; exact ht⟩
      · exact .inr ⟨by simpa [taken, hcall₀, hstage] using ht, live_of_proceeded hplan.keyed ht⟩
    · exact .inl ⟨call, hcall, ht⟩
  | observed => exact .inl ⟨call, hcall, ht⟩
  | restarted =>
    rw [List.getElem?_map] at hcall
    obtain ⟨call₀, -, rfl⟩ := Option.map_eq_some_iff.mp hcall
    have hnone := Stage.mem_copies.mpr (.inr ht)
    simp [(drop_idle _).2.2] at hnone

theorem Moves.putting (h : Moves o s input s') (hplan : InPlan s) (hop : ∀ (c : ℕ) (call : Call),
    s.calls[c]? = some call → call.op ≠ .rebuild) (hcall : s'.calls[c]? = some call)
    (ht : call.stage.putting? = some t) :
    (∃ call₀, s.calls[c]? = some call₀ ∧ t ∈ call₀.stage.copies ∧
      (call₀.stage.putting? = some t ∨ t ∈ call₀.stage.waiting)) ∨
      t ∈ taken o s input ∧ s'.triggers.get t.id = some t := by
  have hkept : ∀ {call₀ : Call}, s.calls[c]? = some call₀ →
      call₀.stage.putting? = some t ∨ t ∈ call₀.stage.waiting → ∃ call₀, s.calls[c]? = some call₀ ∧
        t ∈ call₀.stage.copies ∧ (call₀.stage.putting? = some t ∨ t ∈ call₀.stage.waiting) :=
    fun hcall h => ⟨_, hcall, Stage.mem_copies.mpr h, h⟩
  cases h with
  | called op draw =>
    obtain hcall | ⟨-, rfl⟩ := append_calls hcall
    · exact .inl (hkept hcall (.inl ht))
    · have hnone := Stage.mem_copies.mpr (.inl ht)
      simp [(start_idle o s draw op).2.2] at hnone
  | @entered c₀ call₁ draw hcall₀ hstage =>
    obtain ⟨rfl, call₀, -, rfl⟩ | ⟨-, hcall⟩ := withStage_calls hcall
    · right
      have hlive := live_of_entered hplan hcall₀ hstage (hop c call₁ hcall₀)
        (Stage.mem_copies.mpr (.inl ht))
      rw [cleared_of_ne s (hop c call₁ hcall₀)]
      exact hlive
    · exact .inl (hkept (by rw [← cleared_calls s]; exact hcall) (.inl ht))
  | replayed =>
    obtain ⟨rfl, call₀, -, rfl⟩ | ⟨-, hcall⟩ := withStage_calls hcall
    · cases ht
    · exact .inl (hkept hcall (.inl ht))
  | @advanced c₀ call₁ _ stage hcall₀ hadvances =>
    obtain ⟨rfl, call₀, -, rfl⟩ | ⟨-, hcall⟩ := withStage_calls hcall
    · exact .inl (hkept hcall₀ (hadvances.putting ht))
    · exact .inl (hkept hcall (.inl ht))
  | @landed c₀ call₁ draw job attempt hcall₀ hstage =>
    obtain ⟨rfl, call₀, -, rfl⟩ | ⟨-, hcall⟩ := withStage_calls hcall
    · refine .inl (hkept hcall₀ (.inl ?_))
      rw [hstage]
      cases job <;> exact ht
    · exact .inl (hkept hcall (.inl ht))
  | @concluded c₀ call₁ draw job hcall₀ hstage =>
    obtain ⟨rfl, call₀, -, rfl⟩ | ⟨-, hcall⟩ := withStage_calls hcall
    · exact .inl (hkept hcall₀ (.inr (by rw [hstage]; exact proceed_putting _ job ht)))
    · exact .inl (hkept hcall (.inl ht))
  | observed => exact .inl (hkept hcall (.inl ht))
  | restarted =>
    rw [List.getElem?_map] at hcall
    obtain ⟨call₀, -, rfl⟩ := Option.map_eq_some_iff.mp hcall
    have hnone := Stage.mem_copies.mpr (.inl ht)
    simp [(drop_idle _).2.2] at hnone

theorem Moves.removing (h : Moves o s input s') (hcall : s'.calls[c]? = some call)
    {reason : Option String} (hjob : call.stage.unwritten? = some (.remove id reason)) :
    (∃ call₀, s.calls[c]? = some call₀ ∧ call₀.stage.unwritten? = some (.remove id reason)) ∨
      s.triggers.get id ≠ none := by
  cases h with
  | called op draw =>
    obtain hcall | ⟨-, rfl⟩ := append_calls hcall
    · exact .inl ⟨call, hcall, hjob⟩
    · obtain ⟨heq, -⟩ | hover | ⟨init, -, heq, -⟩ | ⟨id', reason', t, -, hlive, heq⟩ :=
        start_cases o s draw op
      · simp [heq, Stage.unwritten?] at hjob
      · cases hstage : start o s draw op <;>
          simp [hstage, Stage.isOver, Stage.unwritten?] at hover hjob
      · simp [heq, Stage.unwritten?] at hjob
      · rw [heq] at hjob
        cases hjob
        exact .inr (by simp [hlive])
  | entered =>
    obtain ⟨rfl, call₀, -, rfl⟩ | ⟨-, hcall⟩ := withStage_calls hcall
    · simp [enter_unwritten] at hjob
    · exact .inl ⟨call, by rw [← cleared_calls s]; exact hcall, hjob⟩
  | replayed | landed =>
    obtain ⟨rfl, call₀, -, rfl⟩ | ⟨-, hcall⟩ := withStage_calls hcall
    · cases hjob
    · exact .inl ⟨call, hcall, hjob⟩
  | advanced hcall₀ hadvances =>
    obtain ⟨rfl, call₁, -, rfl⟩ | ⟨-, hcall⟩ := withStage_calls hcall
    · obtain hold | ⟨t, now, run, next, after, heq, -⟩ := hadvances.unwritten hjob
      · exact .inl ⟨_, hcall₀, hold⟩
      · cases heq
    · exact .inl ⟨call, hcall, hjob⟩
  | concluded =>
    obtain ⟨rfl, call₀, -, rfl⟩ | ⟨-, hcall⟩ := withStage_calls hcall
    · simp [(proceed_plain ..).unwritten] at hjob
    · exact .inl ⟨call, hcall, hjob⟩
  | observed => exact .inl ⟨call, hcall, hjob⟩
  | restarted =>
    rw [List.getElem?_map] at hcall
    obtain ⟨call₀, -, rfl⟩ := Option.map_eq_some_iff.mp hcall
    cases hstage : call₀.stage <;> simp [hstage, Stage.drop, Stage.unwritten?] at hjob

theorem Moves.leaving (h : Moves o s input s') (hleaving : s.Leaving id) : s'.Leaving id ∨
    (∃ (c : ℕ) (draw : Draw) (call : Call) (reason : Option String),
      input = .resume c draw ∧ s.calls[c]? = some call ∧
      call.stage = .recorded (.remove id reason)) ∨ ∀ (c : ℕ) (call : Call),
      s'.calls[c]? = some call → call.stage.copies = [] := by
  cases h with
  | called op draw =>
    refine .inl (hleaving.mono fun c call hcall _ => ?_)
    exact (List.getElem?_append_left (List.getElem?_eq_some_iff.mp hcall).1).trans hcall
  | @entered c₀ call₁ draw hcall hstage =>
    refine .inl (hleaving.mono fun c call hcall' hwritten => ?_)
    have hcleared : (cleared s call₁.op).calls[c]? = some call := by
      rw [cleared_calls]
      exact hcall'
    refine (withStage_of_ne ?_).trans hcleared
    rintro rfl
    cases hcall.symm.trans hcall'
    simp [hstage, Stage.written?] at hwritten
  | replayed hcall hstage =>
    exact .inl (hleaving.mono (written_withStage hcall (by rw [hstage]; rfl)))
  | advanced hcall hadvances =>
    exact .inl (hleaving.mono (written_withStage hcall hadvances.not_written))
  | landed hcall hstage =>
    exact .inl (hleaving.mono (written_withStage hcall (by rw [hstage]; rfl)))
  | @concluded c call draw job hcall hstage =>
    obtain ⟨c', call', reason, hcall', hwritten⟩ := hleaving
    by_cases heq : c' = c
    · subst heq
      cases hcall.symm.trans hcall'
      rw [hstage] at hwritten
      cases hwritten
      exact .inr (.inl ⟨c', draw, call, reason, rfl, hcall, hstage⟩)
    · exact .inl ⟨c', call', reason, (withStage_of_ne heq).trans hcall', hwritten⟩
  | observed => exact .inl hleaving
  | restarted =>
    refine .inr (.inr fun c call hcall => ?_)
    rw [List.getElem?_map] at hcall
    obtain ⟨call₀, -, rfl⟩ := Option.map_eq_some_iff.mp hcall
    exact (drop_idle _).2.2

end BeeAgent.Scheduler
