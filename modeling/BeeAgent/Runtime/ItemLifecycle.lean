import BeeAgent.Runtime.ItemSteps

/-! The items of a turn along its runs: in the runs in which no step gives up items that it leaves
open, every item is closed once, behind its start and before its turn ends. -/
namespace BeeAgent.Runtime
open BeeAgent.Data BeeAgent.Thread BeeAgent.Execution Transition Transition.Machine Ledger

variable {o : AgentLoopOptions}

theorem Move.startedItem_lt {log : List ThreadEvent} {nextId : ℕ} {task : Task} {input : TaskInput}
    {step : TaskStep} (h : Move o log nextId task input step) {item : Item}
    (hmem : .itemStarted item ∈ eventsOf step.acts) : item.id < nextId + step.drawn := by
  rw [mem_eventsOf] at hmem
  cases h with
  | giveUp _ hacts | retry _ hacts =>
    obtain ⟨_, _, -, he⟩ := hacts _ hmem
    cases he
  | stream _ hacts =>
    obtain ⟨_, he⟩ := hacts _ hmem
    cases he
  | batch =>
    obtain ⟨intent, -, he⟩ := List.mem_filterMap.mp hmem
    unfold dispatchOf? at he
    split at he <;> cases he
  | slot _ _ _ hmove =>
    cases hmove with
    | suspend =>
      simp only [List.mem_singleton, Act.append.injEq, ThreadEvent.itemStarted.injEq] at hmem
      rw [hmem]
      exact Nat.lt_succ_self _
    | answer | suspended | reject => simp [completedToolItem, checkpointEvent] at hmem
  | recordInput | intent | attempt =>
    simp only [List.mem_cons, List.not_mem_nil, or_false, Act.append.injEq, startedToolItem,
      ThreadEvent.itemStarted.injEq, reduceCtorEq] at hmem
    rw [hmem]
    exact Nat.lt_succ_self _
  | @terminate terminal => cases terminal <;> simp [Runtime.terminate] at hmem
  | _ => simp [completedToolItem, checkpointEvent, itemFailedAct] at hmem

/-- The items of every turn are in order: what its log leaves open is what its live call accounts
for, and a turn without one rests. -/
structure Itemized (s : Loop) : Prop where
  tidy : ∀ turnId, Tidy (turnEvents s.log turnId)
  fresh : ∀ item, .itemStarted item ∈ s.log → item.id < s.nextId
  live : ∀ t task, s.tasks t = some task → t < s.nextTask
  tracks : ∀ t task, s.tasks t = some task → Tracks s.log task
  rests : ∀ turnId, s.Idle turnId → Rests s.log turnId

theorem Tracks.of_opened {log log' : List ThreadEvent} {task : Task} (h : Tracks log task)
    (hopened : opened log' task.turnId = opened log task.turnId) : Tracks log' task := by
  rw [Tracks, hopened]
  exact h

theorem Rests.of_opened {log log' : List ThreadEvent} {turnId : TurnId} (h : Rests log turnId)
    (hopened : opened log' turnId = opened log turnId) : Rests log' turnId := by
  rw [Rests, hopened]
  exact h

theorem recoveryFailed_quiet {turnId : TurnId} {error : RebuildError} :
    ∀ e ∈ eventsOf (recoveryFailed turnId error), Quiet e := by
  intro e he
  cases error with
  | notFound => cases he
  | digestMismatch =>
    rw [List.mem_singleton.mp he]
    exact ⟨rfl, rfl, rfl⟩

namespace Itemized
variable {s : Loop} {t : ℕ} {task : Task}

theorem initial : Itemized Loop.initial where
  tidy _ := Throughout.nil
  fresh _ h := by cases h
  live _ _ h := by cases h
  tracks _ _ h := by cases h
  rests _ _ := .inl rfl

theorem idle_of_start (h : Itemized s) {turnId : TurnId} (hidle : (s.start task).Idle turnId) :
    s.Idle turnId := by
  intro t' task' ht'
  refine hidle t' task' ?_
  have hne : t' ≠ s.nextTask := Nat.ne_of_lt (h.live t' task' ht')
  simpa [Loop.start, Function.update_of_ne hne] using ht'

theorem live_start (h : Itemized s) : ∀ t task', (s.start task).tasks t = some task' →
    t < s.nextTask + 1 := by
  intro t task' ht
  by_cases hne : t = s.nextTask
  · rw [hne]
    exact Nat.lt_succ_self _
  · refine Nat.lt_succ_of_lt (h.live t task' ?_)
    simpa [Loop.start, Function.update_of_ne hne] using ht

theorem start (h : Itemized s) (htask : Tracks s.log task) : Itemized (s.start task) where
  tidy := h.tidy
  fresh := h.fresh
  live := h.live_start
  tracks t task' ht := by
    obtain rfl | ht := start_tasks_cases ht
    · exact htask
    · exact h.tracks t task' ht
  rests turnId hidle := h.rests turnId (h.idle_of_start hidle)

theorem append_quiet (h : Itemized s) {acts : List Act} (hes : ∀ e ∈ eventsOf acts, Quiet e)
    {n : ℕ} (hn : s.nextId ≤ n) : Itemized { s with trace := s.trace ++ acts, nextId := n } := by
  have hlog : Loop.log { s with trace := s.trace ++ acts, nextId := n } = s.log ++ eventsOf acts :=
    eventsOf_append ..
  refine ⟨fun turnId => ?_, fun item hmem => ?_, h.live, fun t task ht => ?_,
    fun turnId hidle => ?_⟩
  · rw [hlog]
    exact tidy_append_quiet (h.tidy turnId) hes
  · rw [hlog] at hmem
    obtain hmem | hmem := List.mem_append.mp hmem
    · exact Nat.lt_of_lt_of_le (h.fresh item hmem) hn
    · cases (hes _ hmem).started
  · rw [hlog]
    exact (h.tracks t task ht).of_opened (opened_append_quiet hes)
  · rw [hlog]
    exact (h.rests turnId hidle).of_opened (opened_append_quiet hes)

/-- What a turn without a call leaves open is found again as the approval that it waits for. -/
theorem pending_of_idle (h : Itemized s) {turnId : TurnId} (hidle : s.Idle turnId)
    (uuid : ℕ → String) : opened s.log turnId = [] ∨ ∃ pending,
      findPendingApproval uuid s.log turnId = some pending ∧
      (opened s.log turnId).Perm [⟨pending.approvalItem.1, turnId, .approval pending.approvalItem.2⟩,
        ⟨pending.toolItem.1, turnId, .toolCall pending.toolItem.2⟩] ∧
      pending.approvalItem.2.callId = some pending.toolItem.2.callId ∧
      pending.approvalItem.2.status = .pending := by
  obtain hnone | ⟨tool, approval, call, payload, hperm, hcallId, hstatus⟩ := h.rests turnId hidle
  · exact .inl hnone
  · have htool : ⟨tool, turnId, .toolCall call⟩ ∈ opened s.log turnId :=
      hperm.mem_iff.mpr (by simp)
    have happroval : ⟨approval, turnId, .approval payload⟩ ∈ opened s.log turnId :=
      hperm.mem_iff.mpr (by simp)
    have hfound : findPendingApproval uuid s.log turnId ≠ none :=
      exists_pending (h.tidy turnId) htool happroval hcallId hstatus
    obtain ⟨pending, hpending⟩ := Option.ne_none_iff_exists'.mp hfound
    obtain ⟨htool, happroval⟩ := findPendingApproval_opened (h.tidy turnId) hpending
    have htool := hperm.mem_iff.mp htool
    have happroval := hperm.mem_iff.mp happroval
    simp only [List.mem_cons, List.not_mem_nil, or_false, Item.mk.injEq, reduceCtorEq, and_false,
      false_or, ItemPayload.toolCall.injEq, ItemPayload.approval.injEq, true_and] at htool happroval
    obtain ⟨rfl, rfl⟩ := htool
    obtain ⟨rfl, rfl⟩ := happroval
    exact .inr ⟨pending, hpending, hperm, hcallId, hstatus⟩

theorem recovered (h : Itemized s) {turnId : TurnId} {rebuilt : Rebuilt}
    (hidle : s.Idle turnId) (hrebuild : rebuild o s.log turnId = .ok rebuilt)
    (hpending : rebuilt.pendingApproval = none) : Tracks s.log (rebuilt.task o .driving) := by
  rw [(rebuild_ok hrebuild).2.2.2.1] at hpending
  refine tracks_of_perm rfl ?_
  rw [rebuilt_task_turnId hrebuild]
  obtain hnone | ⟨found, hfound, -⟩ := h.pending_of_idle hidle o.uuid
  · rw [hnone]
    exact List.Perm.refl _
  · cases hfound.symm.trans hpending

theorem resumed (h : Itemized s) {turnId : TurnId} {rebuilt : Rebuilt} {pending : PendingApproval}
    (hidle : s.Idle turnId) (hrebuild : rebuild o s.log turnId = .ok rebuilt)
    (hpending : rebuilt.pendingApproval = some pending) (decision : ApprovalAnswer) :
    Tracks s.log (rebuilt.task o (.deciding pending decision)) := by
  rw [(rebuild_ok hrebuild).2.2.2.1] at hpending
  refine ⟨[], ?_⟩
  rw [rebuilt_task_turnId hrebuild]
  obtain hnone | ⟨found, hfound, hperm, hcallId, hstatus⟩ := h.pending_of_idle hidle o.uuid
  · have htool := (findPendingApproval_opened (h.tidy turnId) hpending).1
    rw [hnone] at htool
    cases htool
  · obtain rfl : found = pending := Option.some.inj (hfound.symm.trans hpending)
    exact ⟨by rw [List.append_nil]; exact hperm, rfl, hcallId, hstatus⟩

theorem abandoned (h : Itemized s) (ht : s.tasks t = some task) (hpc : task.pc.Abandons) :
    Rests s.log task.turnId := by
  have htracks := h.tracks t task ht
  have hnone : task.pc.settles = false → itemsAt task.turnId task.pc = [] →
      Rests s.log task.turnId := fun hsettles hitems => by
    have hopen := htracks.perm hsettles
    rw [hitems] at hopen
    exact .inl (List.perm_nil.mp hopen)
  cases hp : task.pc with
  | settling after slots segments =>
    rw [hp] at hpc
    exact htracks.rests hp hpc
  | deciding pending decision =>
    obtain ⟨approvals, hperm, happrovals⟩ := htracks
    simp only [hp, Approvals, itemsAt] at hperm happrovals
    obtain ⟨rfl, hcallId, hstatus⟩ := happrovals
    exact .inr ⟨_, _, _, _, by rwa [List.append_nil] at hperm, hcallId, hstatus⟩
  | approved | streaming | awaitingResult =>
    rw [hp] at hpc
    cases hpc
  | running after segments =>
    rw [hp] at hpc
    refine hnone (by rw [hp]; rfl) ?_
    rw [hp, itemsAt, show segmentsIntents segments = [] from hpc]
    rfl
  | reading | recordingInput | driving | checkpointing | generating | summarizing | attempting
  | terminating => exact hnone (by rw [hp]; rfl) (by rw [hp]; rfl)

theorem advance (h : Itemized s) (hexclusive : Exclusive s) {input : TaskInput} {step : TaskStep}
    (ht : s.tasks t = some task) (hguard : ClosesItems o task input)
    (hstep : taskStep o s.log s.nextId task input = some step) : Itemized (s.apply t step) := by
  have hmove := taskStep_move hstep
  have hgoes := taskStep_goes (h.tracks t task ht) (h.tidy _) h.fresh hguard hstep
  have hother : ∀ turnId, turnId ≠ task.turnId → ∀ e ∈ eventsOf step.acts, e.turnId ≠ turnId :=
    fun turnId hne e he heq => hne (heq.symm.trans (hmove.turnId_events e he))
  refine ⟨fun turnId => ?_, fun item hmem => ?_, fun t' task' ht' => ?_, fun t' task' ht' => ?_,
    fun turnId hidle => ?_⟩
  · rw [log_apply]
    by_cases hturn : turnId = task.turnId
    · rw [hturn]
      exact hgoes.tidy
    · rw [turnEvents_append, turnEvents_other (hother turnId hturn), List.append_nil]
      exact h.tidy turnId
  · rw [log_apply] at hmem
    rw [nextId_apply]
    obtain hmem | hmem := List.mem_append.mp hmem
    · exact Nat.lt_add_right _ (h.fresh item hmem)
    · exact hmove.startedItem_lt hmem
  · have hnext : (s.apply t step).nextTask = s.nextTask := by
      unfold Loop.apply
      split <;> rfl
    rw [hnext]
    obtain ⟨rfl, -⟩ | ⟨-, ht'⟩ := apply_tasks_cases ht'
    · exact h.live _ _ ht
    · exact h.live t' task' ht'
  · rw [log_apply]
    obtain ⟨-, hnext⟩ | ⟨hne, ht'⟩ := apply_tasks_cases ht'
    · exact hgoes.tracks task' hnext
    · have hturn : task'.turnId ≠ task.turnId := fun heq =>
        hne (hexclusive.unique _ _ _ _ ht' ht heq)
      exact (h.tracks t' task' ht').of_opened (opened_append_other (hother _ hturn))
  · rw [log_apply]
    by_cases hturn : turnId = task.turnId
    · subst hturn
      cases hnext : step.next with
      | «continue» task' =>
        refine absurd (hmove.turnId.2 _ hnext) (hidle t task' ?_)
        simp [Loop.apply, hnext]
      | settle result => exact hgoes.rests result hnext
    · refine (h.rests turnId fun t' task' ht' heq => ?_).of_opened
        (opened_append_other (hother turnId hturn))
      by_cases hne : t' = t
      · rw [hne, ht] at ht'
        cases ht'
        exact hturn heq.symm
      · refine hidle t' task' ?_ heq
        unfold Loop.apply
        split <;> simpa [Function.update_of_ne hne] using ht'

theorem step {s' : Loop} {input : LoopInput} (h : Itemized s) (hexclusive : Exclusive s)
    (hg : ClosesAll o s input) (hstep : loopStep o s input = some s') : Itemized s' := by
  by_cases hadvance : ∃ t taskInput, input = .advance t taskInput
  · obtain ⟨t, taskInput, rfl⟩ := hadvance
    obtain ⟨task, ht, hstep⟩ := Option.bind_eq_some_iff.mp hstep
    obtain ⟨step, hadvance, rfl⟩ := Option.map_eq_some_iff.mp hstep
    exact h.advance hexclusive ht (hg.step t taskInput task rfl ht) hadvance
  cases loopStep_move hstep with
  | advance => exact absurd ⟨_, _, rfl⟩ hadvance
  | @runTurn text structureVersion =>
    have hquiet : ∀ e ∈ eventsOf
        [.append (.turnStarted (newTurn s.nextId text structureVersion))], Quiet e := by
      intro e he
      rw [List.mem_singleton.mp he]
      exact ⟨rfl, rfl, rfl⟩
    have happend := h.append_quiet hquiet (Nat.le_succ s.nextId)
    refine happend.start (tracks_of_perm rfl (List.Perm.of_eq ?_))
    show opened (eventsOf _) s.nextId = []
    rw [eventsOf_append, opened_append_quiet hquiet, opened,
      turnEvents_other fun e he => Nat.ne_of_lt (hexclusive.acts _ (mem_eventsOf.mp he))]
    rfl
  | recover hrebuild hpending hactive =>
    have hidle := hg.entry _ (.recover hrebuild hpending hactive)
    exact h.start (h.recovered hidle hrebuild hpending)
  | resume hrebuild hpending hid =>
    have hidle := hg.entry _ (.resume hrebuild hpending hid)
    exact h.start (h.resumed hidle hrebuild hpending _)
  | @rebuildFailed _ turnId error =>
    have hquiet : ∀ e ∈ eventsOf (recoveryFailed turnId error), Quiet e := recoveryFailed_quiet
    have happend := h.append_quiet hquiet (le_refl s.nextId)
    exact ⟨happend.tidy, happend.fresh, fun t task ht => Nat.lt_succ_of_lt (h.live t task ht),
      happend.tracks, happend.rests⟩
  | refuse =>
    exact ⟨h.tidy, h.fresh, fun t task ht => Nat.lt_succ_of_lt (h.live t task ht), h.tracks,
      h.rests⟩
  | @abort t task ht =>
    have hold : ∀ t' task', Function.update s.tasks t (some { task with aborted := true }) t' =
        some task' → ∃ old, s.tasks t' = some old ∧ old.turnId = task'.turnId ∧
          old.pc = task'.pc := by
      intro t' task' ht'
      by_cases hne : t' = t
      · subst hne
        simp only [Function.update_self, Option.some.injEq] at ht'
        subst ht'
        exact ⟨task, ht, rfl, rfl⟩
      · exact ⟨task', by simpa [Function.update_of_ne hne] using ht', rfl, rfl⟩
    refine ⟨h.tidy, h.fresh, fun t' task' ht' => ?_, fun t' task' ht' => ?_,
      fun turnId hidle => h.rests turnId fun t' task' ht' => ?_⟩
    · obtain ⟨old, hold, -⟩ := hold t' task' ht'
      exact h.live t' old hold
    · obtain ⟨old, hold, hturn, hpc⟩ := hold t' task' ht'
      have htracks := h.tracks t' old hold
      rw [Tracks, hturn, hpc] at htracks
      exact htracks
    · by_cases hne : t' = t
      · subst hne
        rw [ht] at ht'
        cases ht'
        exact hidle t' { task with aborted := true } (by simp)
      · exact hidle t' task' (by simpa [Function.update_of_ne hne] using ht')
  | @fail t task _ ht =>
    have hkept : ∀ t' task', Function.update s.tasks t none t' = some task' →
        t' ≠ t ∧ s.tasks t' = some task' := by
      intro t' task' ht'
      by_cases hne : t' = t
      · subst hne
        simp at ht'
      · exact ⟨hne, by simpa [Function.update_of_ne hne] using ht'⟩
    refine ⟨h.tidy, h.fresh, fun t' task' ht' => h.live t' task' (hkept t' task' ht').2,
      fun t' task' ht' => h.tracks t' task' (hkept t' task' ht').2, fun turnId hidle => ?_⟩
    by_cases hturn : turnId = task.turnId
    · rw [hturn]
      exact h.abandoned ht (hg.fail t task rfl ht)
    · refine h.rests turnId fun t' task' ht' heq => ?_
      by_cases hne : t' = t
      · rw [hne, ht] at ht'
        cases ht'
        exact hturn heq.symm
      · exact hidle t' task' (by simpa [Function.update_of_ne hne] using ht') heq

end Itemized

theorem reaches_itemized {s : Loop} (h : (loop o).Reaches (ClosesAll o) Loop.initial s) :
    Itemized s :=
  h.invariant₂ (fun _ hs => reaches_exclusive (fun _ _ hg => hg.entry) hs) Itemized.initial
    fun _ _ _ hexclusive hs hg hstep => hs.step hexclusive hg hstep

/-- The events of a turn close each item once at most, behind its start, and have closed every item
that they started when the turn ends. -/
structure ItemsClosed (es : List ThreadEvent) : Prop where
  once : (es.filterMap closedItemId?).Nodup
  started : ∀ before e after id, es = before ++ e :: after → closedItemId? e = some id →
    id ∈ (before.filterMap startedItem?).map Item.id
  ended : ∀ before e after, es = before ++ e :: after → e.terminalTurn?.isSome →
    ∀ item ∈ before.filterMap startedItem?, item.id ∈ before.filterMap closedItemId?

theorem Tidy.itemsClosed {es : List ThreadEvent} (h : Tidy es) : ItemsClosed es where
  once := h.fair.closedKeys_nodup
  started before e after id heq hid :=
    Account.openedKeys_of_opened ((h before e after heq).admits.closes id hid)
  ended before e after heq hended item hitem := by
    obtain ⟨turn, hturn⟩ := Option.isSome_iff_exists.mp hended
    have hnone := (h before e after heq).ended turn hturn
    have hbefore : Tidy before := by
      rw [heq] at h
      exact h.left
    by_contra hopen
    have hmem := hbefore.fair.mem_opened_iff.mpr ⟨hitem, hopen⟩
    rw [hnone] at hmem
    cases hmem

/-- In a run whose steps close what they give up, the items of every turn are closed. -/
theorem items_closed {s : Loop} (h : (loop o).Reaches (ClosesAll o) Loop.initial s)
    (turnId : TurnId) : ItemsClosed (turnEvents s.log turnId) :=
  ((reaches_itemized h).tidy turnId).itemsClosed

/-- A turn that no call is live on has no item open, or is resumable: what is open is one tool call
and the approval that it waits for, which is found again in the log. -/
theorem idle_resumable {s : Loop} (h : (loop o).Reaches (ClosesAll o) Loop.initial s)
    {turnId : TurnId} (hidle : s.Idle turnId) : opened s.log turnId = [] ∨ ∃ pending,
      findPendingApproval o.uuid s.log turnId = some pending ∧
      (opened s.log turnId).Perm [⟨pending.approvalItem.1, turnId, .approval pending.approvalItem.2⟩,
        ⟨pending.toolItem.1, turnId, .toolCall pending.toolItem.2⟩] ∧
      pending.approvalItem.2.callId = some pending.toolItem.2.callId ∧
      pending.approvalItem.2.status = .pending :=
  (reaches_itemized h).pending_of_idle hidle o.uuid

/-! ### Runs -/

/-- A step of a call that is not cancelled, leaves no call unanswered, asks for no approval and
throws no attempt away. -/
def plainStep (s : Loop) : LoopInput → Bool
  | .runTurn .. => true
  | .advance t input => (s.tasks t).all fun task => !task.aborted && match task.pc, input with
    | .driving, _ => (unansweredCalls task.history).isEmpty
    | .settling _ slots _, .proceed => (slots.filterMap asking?).isEmpty
    | .approved .., _ | .settling .., .slotRejected _ | .awaitingResult _, .result .cancelled
    | .awaitingResult _, .result .maxTokens | .awaitingResult _, .resultThrown _
    | .streaming _, .attemptThrown _ | .awaitingResult _, .attemptThrown _ => false
    | _, _ => true
  | _ => false

theorem closesAll_of_plainStep (s : Loop) (input : LoopInput) (h : plainStep s input) :
    ClosesAll o s input := by
  refine ⟨fun turnId hadmits => ?_, ?_, ?_⟩
  · cases hadmits <;> cases h
  · rintro t taskInput task rfl ht
    simp only [plainStep, ht, Option.all_some, Bool.and_eq_true, Bool.not_eq_eq_eq_not,
      Bool.not_true] at h
    obtain ⟨haborted, h⟩ := h
    unfold ClosesItems
    split <;> simp_all
  · rintro t task rfl
    cases h

/-- A turn with one tool call, to its end. -/
def calledRun : List LoopInput :=
  startInputs 0 ++ replyInputs 0 [sampleCall "a"] .toolCalls ++
    advances 0 [.slot 0 (sampleAnswer "A"), .proceed, .proceed, .proceed] ++
    replyInputs 0 [] .endTurn ++ advances 0 [.proceed, .proceed]

theorem items_closed_called : ∃ s, (loop sampleOptions).Reaches (ClosesAll sampleOptions)
    Loop.initial s ∧ (turnEvents s.log 0).filterMap closedItemId? = [1, 2, 3, 4] ∧
      ItemsClosed (turnEvents s.log 0) := by
  have hguarded : (loop sampleOptions).Guarded (ClosesAll sampleOptions) Loop.initial calledRun :=
    guarded_of_allSteps closesAll_of_plainStep _ (by rw [loop_eq_quick]; decide +kernel)
  obtain ⟨s, hreaches, hclosed⟩ := hguarded.exists_reaches
    (f := fun s => (turnEvents s.log 0).filterMap closedItemId?) (a := [1, 2, 3, 4])
    (by rw [loop_eq_quick]; decide +kernel)
  exact ⟨s, hreaches, hclosed, items_closed hreaches 0⟩

/-- A batch of one call ends with the call suspended. -/
def suspendsOne (s : Loop) : LoopInput → Bool
  | .advance t .proceed => (s.tasks t).all fun task => match task.pc with
    | .settling _ [slot] segments => (asking? slot).isSome && (segmentsIntents segments).isEmpty
    | _ => false
  | _ => false

theorem closesAll_of_suspendsOne (s : Loop) (input : LoopInput) (h : suspendsOne s input) :
    ClosesAll o s input := by
  refine ⟨fun turnId hadmits => ?_, ?_, ?_⟩
  · cases hadmits <;> cases h
  · rintro t taskInput task rfl ht
    cases taskInput with
    | proceed =>
      simp only [suspendsOne, ht, Option.all_some] at h
      split at h
      · next after slot segments hpc =>
        rw [Bool.and_eq_true, List.isEmpty_iff] at h
        obtain ⟨intent, hasking⟩ := Option.isSome_iff_exists.mp h.1
        have hunanswered : unanswered? slot = some intent := by
          unfold asking? at hasking
          unfold unanswered?
          split at hasking <;> simp_all
        unfold ClosesItems
        simp only [hpc]
        exact fun _ => ⟨h.2, by simp [hasking], by simp [hasking, hunanswered]⟩
      · cases h
    | _ => cases h
  · rintro t task rfl
    cases h

theorem idle_resumable_suspended : ∃ s pending,
    (loop sampleOptions).Reaches (ClosesAll sampleOptions) Loop.initial s ∧ s.Idle 0 ∧
      findPendingApproval sampleOptions.uuid s.log 0 = some pending := by
  have hcloses : ∀ s input, plainStep s input || suspendsOne s input →
      ClosesAll sampleOptions s input := by
    intro s input h
    rcases Bool.or_eq_true_iff.mp h with hplain | hsuspends
    · exact closesAll_of_plainStep s input hplain
    · exact closesAll_of_suspendsOne s input hsuspends
  have hguarded : (loop sampleOptions).Guarded (ClosesAll sampleOptions) Loop.initial
      (startInputs 0 ++ replyInputs 0 [sampleCall "a"] .toolCalls ++ advances 0
        [.slot 0 (.outcome (.approvalRequired "approval" "Allow?" "")), .slotRecorded 0, .proceed]) :=
    guarded_of_allSteps hcloses _ (by decide +kernel)
  obtain ⟨s, hreaches, hend⟩ := hguarded.exists_reaches
    (f := fun s => (s.nextTask, (s.tasks 0).isNone, (opened s.log 0).length)) (a := (1, true, 2))
    (by decide +kernel)
  simp only [Prod.mk.injEq, Option.isNone_iff_eq_none] at hend
  obtain ⟨hnext, hnone, hopened⟩ := hend
  have hidle : s.Idle 0 := by
    intro t task ht
    obtain rfl : t = 0 := by
      have := (reaches_itemized hreaches).live t task ht
      omega
    cases hnone.symm.trans ht
  obtain hempty | ⟨pending, hpending, -⟩ := idle_resumable hreaches hidle
  · simp [hempty] at hopened
  · exact ⟨s, pending, hreaches, hidle, hpending⟩

def escalatingOptions : AgentLoopOptions :=
  { sampleOptions with maxOutputTokens := some 4096, modelMaxOutputTokens := 8192 }

/-- The reply is cut off behind a tool call, and the turn goes on with another one to its end. -/
def cutOffRun : List LoopInput :=
  startInputs 0 ++ advances 0 [.proceed, .assembled [] [] none, .proceed,
    .streamEvent (.toolIntent (sampleCall "a")), .streamEnd, .result .maxTokens] ++
    replyInputs 0 [] .endTurn ++ advances 0 [.proceed, .proceed]

/-- The call of the reply that is thrown away is still open when the turn ends. -/
theorem item_left_open : ∃ s, (loop escalatingOptions).Reaches anyStep Loop.initial s ∧
    ¬ ItemsClosed (turnEvents s.log 0) := by
  obtain ⟨s, hreaches, hend⟩ := exists_reaches_of_exec_map (M := loop escalatingOptions)
    (s := Loop.initial) (f := fun s =>
      ((((turnEvents s.log 0).dropLast.filterMap startedItem?).map Item.id,
        (turnEvents s.log 0).dropLast.filterMap closedItemId?),
        ((turnEvents s.log 0).getLast?.bind ThreadEvent.terminalTurn?).isSome))
    (a := (([1, 2, 3, 4], [1, 2, 4]), true)) cutOffRun (by decide +kernel)
  obtain ⟨hitems, hlast⟩ := Prod.mk.inj hend
  obtain ⟨hstarted, hclosed⟩ := Prod.mk.inj hitems
  obtain ⟨turn, hlast⟩ := Option.isSome_iff_exists.mp hlast
  obtain ⟨e, he, hended⟩ := Option.bind_eq_some_iff.mp hlast
  refine ⟨s, hreaches, fun h => ?_⟩
  have hthree : 3 ∈ ((turnEvents s.log 0).dropLast.filterMap startedItem?).map Item.id := by
    rw [hstarted]
    decide
  obtain ⟨item, hitem, hid⟩ := List.mem_map.mp hthree
  have hmem := h.ended _ e [] (List.dropLast_append_getLast? e he).symm
    (Option.isSome_iff_exists.mpr ⟨turn, hended⟩) item hitem
  rw [hid, hclosed] at hmem
  exact absurd hmem (by decide)

end BeeAgent.Runtime
