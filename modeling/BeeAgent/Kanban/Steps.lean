import BeeAgent.Kanban.Board

/-! What a step of the board can do: the changes it makes, the tasks a call holds after it, and the
appends it asks for. -/
namespace BeeAgent.Kanban
open Data

def Mutation.claim? : Mutation → Option KanbanClaimLease
  | .transition command _ => command.claim
  | _ => none

def After.tasks : After → List KanbanTask
  | .reclaim rest _ => rest
  | _ => []

/-- The tasks that a call has read and still goes by. -/
def Stage.tasks : Stage → List KanbanTask
  | .appending _ after => after.tasks
  | .indexing next after => next :: after.tasks
  | .got task | .replayed task _ => task.toList
  | .counting running => running
  | .scanning ready runnable => ready ++ runnable
  | .checking task _ ready runnable => task :: (ready ++ runnable)
  | .reclaiming rest _ => rest
  | .walking current _ => [current]
  | .listing | .reading _ | .finished _ => []

/-- The task a stage is about to index. -/
def Stage.indexing? : Stage → Option KanbanTask
  | .indexing next _ => some next
  | _ => none

/-- The changes of one step. -/
inductive Moves (o : KanbanOptions) (b : Board) : Input → Board → Prop where
  | called (op : KanbanOperation) (draw : Draw) :
    Moves o b (.call op draw) { b.cleared op with
      calls := (b.cleared op).calls ++ [⟨op, start o (b.cleared op) draw op⟩] }
  | failed {c : ℕ} {call : Call} {e : KanbanError} {input : Input}
    (hcall : b.calls[c]? = some call) (hstage : call.stage.indexing? = none) :
    Moves o b input (b.withStage c (.finished (.error e)))
  | proceeded {c : ℕ} {call : Call} (draw : Draw) (hcall : b.calls[c]? = some call)
    (hstage : call.stage.indexing? = none) :
    Moves o b (.resume c draw) (b.withStage c (proceed o b draw call.op call.stage))
  | landed {c : ℕ} {call : Call} {commit : Commit} {after : After} {stream : Stream} {draw : Draw}
    (hcall : b.calls[c]? = some call) (hstage : call.stage = .appending commit after)
    (happend : Chronicle.append (b.stream commit.taskId) [⟨b.nextEventId, commit.event⟩]
      commit.expectedSequence = .ok stream) :
    Moves o b (.resume c draw) { b.withStage c (.indexing commit.next after) with
      streams := b.streams.set commit.taskId stream
      nextEventId := b.nextEventId + 1
      landed := b.landed ++ [⟨c, commit⟩] }
  | indexed {c : ℕ} {call : Call} {next : KanbanTask} {after : After} {draw : Draw}
    (hcall : b.calls[c]? = some call) (hstage : call.stage = .indexing next after) :
    Moves o b (.resume c draw) ((b.index next).withStage c (resume next after))
  | replayed {c : ℕ} {call : Call} {task : Option KanbanTask} {rest : List KanbanTaskId}
    {draw : Draw} (hcall : b.calls[c]? = some call) (hstage : call.stage = .replayed task rest) :
    Moves o b (.resume c draw) ((task.elim b b.index).withStage c (.reading rest))

theorem boardStep_moves {o : KanbanOptions} {b b' : Board} {input : Input}
    (h : boardStep o b input = some b') : Moves o b input b' := by
  cases input with
  | call op draw =>
    cases h
    exact .called op draw
  | resume c draw =>
    obtain ⟨call, hcall, h⟩ := Option.bind_eq_some_iff.mp h
    split at h
    · cases h
    · next commit after hstage =>
      cases h
      unfold land
      split
      · exact .failed hcall (by rw [hstage]; rfl)
      · next stream happend => exact .landed hcall hstage happend
    · next next after hstage =>
      cases h
      exact .indexed hcall hstage
    · next task rest hstage =>
      cases h
      exact .replayed hcall hstage
    · next hfinished happending hindexing hreplayed =>
      cases h
      refine .proceeded draw hcall ?_
      cases hstage : call.stage with
      | indexing next after => exact absurd hstage (hindexing next after)
      | _ => rfl
  | fail c =>
    obtain ⟨call, hcall, h⟩ := Option.bind_eq_some_iff.mp h
    split at h
    · next hawaits =>
      cases h
      refine .failed hcall ?_
      cases hstage : call.stage with
      | indexing next after => simp [hstage, Stage.awaitsChronicle] at hawaits
      | _ => rfl
    · cases h

/-- The appends that a call asks for: as it starts (`none`), or as it goes on from a stage. -/
inductive Asks (o : KanbanOptions) (b : Board) (draw : Draw) :
    KanbanOperation → Option Stage → Commit → Prop where
  | created {init : NewKanbanTaskInit} {commit : Commit}
    (hnew : existing? b.tasks b.idempotency init = none)
    (h : create o.formats init draw.uuid draw.clock = .ok commit) :
    Asks o b draw (.create init) none commit
  | commented {taskId : KanbanTaskId} {input : KanbanCommentInput} {commit : Commit}
    (h : comment o.formats b.tasks taskId input draw.uuid draw.clock = .ok commit) :
    Asks o b draw (.comment taskId input) none commit
  /-- By nobody's lease, and with no claim but that of a plain transition. -/
  | mutated {op : KanbanOperation} {stage : Option Stage} {taskId : KanbanTaskId}
    {mutation : Mutation} {commit : Commit} (hlease : op.lease? = none)
    (hnote : ∀ note, mutation ≠ .comment note) (hother : ∀ workerId now, op ≠ .claimNext workerId now)
    (hclaim : mutation.claim? = none ∨ stage = none ∧ ∃ command clock,
      op = .transition taskId command ∧ mutation = .transition command clock)
    (h : mutate o.formats b.tasks taskId mutation = .ok commit) : Asks o b draw op stage commit
  | renewed {op : KanbanOperation} {taskId : KanbanTaskId} {leaseId expiresAt : String}
    {commit : Commit} (hlease : op.lease? = some (taskId, leaseId))
    (h : mutate o.formats b.tasks taskId (.renewLease leaseId expiresAt) = .ok commit) :
    Asks o b draw op none commit
  | settled {op : KanbanOperation} {taskId : KanbanTaskId} {leaseId clock : String}
    {read : Option KanbanTask} {task : KanbanTask} {command : KanbanTransitionCommand}
    {commit : Commit} (hlease : op.lease? = some (taskId, leaseId))
    (howned : owned taskId leaseId read = .ok task) (hversion : command.expectedVersion = task.version)
    (hclaim : command.claim = none)
    (h : mutate o.formats b.tasks taskId (.transition command clock) = .ok commit) :
    Asks o b draw op (some (.got read)) commit
  | claimed {workerId now leaseId expiresAt clock : String} {task : KanbanTask}
    {runnable : List KanbanTask} {commit : Commit} {command : KanbanTransitionCommand}
    (hversion : command.expectedVersion = task.version) (hdst : command.dst = .running)
    (hclaim : command.claim = some ⟨workerId, leaseId, now, expiresAt⟩)
    (h : mutate o.formats b.tasks task.id (.transition command clock) = .ok commit) :
    Asks o b draw (.claimNext workerId now) (some (.scanning [] (task :: runnable))) commit

theorem appendOf_eq {r : Except KanbanError Commit} {after after' : After} {commit : Commit}
    (h : appendOf after r = .appending commit after') : r = .ok commit ∧ after' = after := by
  cases r with
  | error e => cases h
  | ok commit' =>
    cases h
    exact ⟨rfl, rfl⟩

variable {o : KanbanOptions} {b : Board} {draw : Draw} {op : KanbanOperation} {stage : Stage}
variable {commit : Commit} {after : After}

theorem start_asks (h : start o b draw op = .appending commit after) :
    Asks o b draw op none commit := by
  cases op with
  | create init =>
    simp only [start] at h
    split at h
    · cases h
    · next hnew => exact .created hnew (appendOf_eq h).1
  | transition taskId command =>
    exact .mutated rfl (by simp) (by simp) (.inr ⟨rfl, _, _, rfl, rfl⟩) (appendOf_eq h).1
  | renewLease taskId leaseId expiresAt => exact .renewed rfl (appendOf_eq h).1
  | update taskId patch => exact .mutated rfl (by simp) (by simp) (.inl rfl) (appendOf_eq h).1
  | comment taskId input => exact .commented (appendOf_eq h).1
  | heartbeat taskId leaseId now =>
    simp only [start, heartbeat] at h
    split at h
    · cases h
    · exact .renewed rfl (appendOf_eq h).1
  | rebuild => cases h
  | claimNext workerId now => cases h
  | reclaimExpired now => cases h
  | complete taskId leaseId now => cases h
  | fail taskId leaseId reason now => cases h
  | block taskId leaseId reason now => cases h
  | cancel taskId now => cases h
  | transitionAlongPath taskId dst reason => cases h

theorem settle_asks {taskId : KanbanTaskId} {leaseId now : String} {dst : KanbanTaskStatus}
    {reason : Option String} {read : Option KanbanTask} (hlease : op.lease? = some (taskId, leaseId))
    (h : settle o b.tasks draw taskId leaseId dst reason now read = .appending commit after) :
    Asks o b draw op (some (.got read)) commit := by
  unfold settle at h
  split at h
  · cases h
  · next task howned => exact .settled hlease howned rfl rfl (appendOf_eq h).1

theorem proceed_asks (h : proceed o b draw op stage = .appending commit after) :
    stage = .appending commit after ∨ Asks o b draw op (some stage) commit := by
  unfold proceed at h
  split at h
  · exact .inr (settle_asks rfl h)
  · exact .inr (settle_asks rfl h)
  · exact .inr (settle_asks rfl h)
  · next taskId now read =>
    unfold cancel at h
    split at h
    · cases h
    · exact .inr (.mutated rfl (by simp) (by simp) (.inl rfl) (appendOf_eq h).1)
  · next taskId dst reason read =>
    unfold target at h
    split at h
    · cases h
    split at h
    · exact .inr (.mutated rfl (by simp) (by simp) (.inl rfl) (appendOf_eq h).1)
    · cases h
  · next taskId dst reason current path =>
    unfold hop at h
    split at h
    · cases h
    · exact .inr (.mutated rfl (by simp) (by simp) (.inl rfl) (appendOf_eq h).1)
  · split at h <;> cases h
  · next workerId now runnable =>
    unfold claim at h
    split at h
    · cases h
    split at h
    · cases h
    · exact .inr (.claimed rfl rfl rfl (appendOf_eq h).1)
  · cases h
  · cases h
  · split at h <;> cases h
  · next now rest reclaimed =>
    unfold reclaim at h
    split at h
    · cases h
    split at h
    · exact .inr (.mutated rfl (by simp) (by simp) (.inl rfl) (appendOf_eq h).1)
    · cases h
  · cases h
  · cases h
  · split at h <;> cases h
  · exact .inl h

theorem mem_values_of_mem_list {localeCompare : String → String → ℤ} {tasks : Tasks}
    {query : KanbanTaskQuery} {t : KanbanTask} (h : t ∈ list localeCompare tasks query) :
    t ∈ tasks.values ∧ query.accepts t := by
  have hcut : t ∈ (tasks.values.filter query.accepts).insertionSort fun a b =>
      compareTasks localeCompare a b ≤ 0 := by
    unfold list KanbanTaskQuery.cut at h
    split at h
    · exact h
    · split at h
      · exact List.mem_of_mem_take h
      · exact List.mem_of_mem_take h
  exact List.mem_filter.mp ((List.mem_insertionSort _).mp hcut)

theorem mem_list {localeCompare : String → String → ℤ} {tasks : Tasks} {query : KanbanTaskQuery}
    {t : KanbanTask} (ht : t ∈ tasks.values) (haccepts : query.accepts t)
    (hlimit : query.limit = none) : t ∈ list localeCompare tasks query := by
  simp only [list, KanbanTaskQuery.cut, hlimit]
  exact (List.mem_insertionSort _).mpr (List.mem_filter.mpr ⟨ht, haccepts⟩)

def Board.Shows (b : Board) (t : KanbanTask) : Prop :=
  (∃ k, b.tasks.get k = some t) ∨ ∃ k, foldStream (b.events k) = .ok (some t)

theorem shows_of_mem_list {query : KanbanTaskQuery} {t : KanbanTask}
    (h : t ∈ list o.localeCompare b.tasks query) : b.Shows t :=
  .inl (OrderedMap.mem_values_iff.mp (mem_values_of_mem_list h).1)

theorem appendOf_tasks {r : Except KanbanError Commit} {t : KanbanTask}
    (h : t ∈ (appendOf after r).tasks) : t ∈ after.tasks := by
  cases r with
  | error e => cases h
  | ok commit => exact h

theorem settle_tasks {tasks : Tasks} {taskId : KanbanTaskId} {leaseId now : String}
    {dst : KanbanTaskStatus} {reason : Option String} {read : Option KanbanTask} :
    (settle o tasks draw taskId leaseId dst reason now read).tasks = [] := by
  unfold settle
  split
  · rfl
  · exact List.eq_nil_iff_forall_not_mem.mpr fun t ht => List.not_mem_nil (appendOf_tasks ht)

theorem start_tasks {t : KanbanTask} (h : t ∈ (start o b draw op).tasks) : b.Shows t := by
  cases op with
  | create init =>
    simp only [start] at h
    split at h
    · cases h
    · cases appendOf_tasks h
  | transition taskId command => cases appendOf_tasks h
  | renewLease taskId leaseId expiresAt => cases appendOf_tasks h
  | update taskId patch => cases appendOf_tasks h
  | comment taskId input => cases appendOf_tasks h
  | heartbeat taskId leaseId now =>
    simp only [start, heartbeat] at h
    split at h
    · cases h
    · cases appendOf_tasks h
  | rebuild => cases h
  | claimNext workerId now => exact shows_of_mem_list h
  | reclaimExpired now => exact shows_of_mem_list h
  | complete taskId leaseId now => exact .inl ⟨taskId, Option.mem_toList.mp h⟩
  | fail taskId leaseId reason now => exact .inl ⟨taskId, Option.mem_toList.mp h⟩
  | block taskId leaseId reason now => exact .inl ⟨taskId, Option.mem_toList.mp h⟩
  | cancel taskId now => exact .inl ⟨taskId, Option.mem_toList.mp h⟩
  | transitionAlongPath taskId dst reason => exact .inl ⟨taskId, Option.mem_toList.mp h⟩

theorem proceed_tasks {t : KanbanTask} (h : t ∈ (proceed o b draw op stage).tasks) :
    t ∈ stage.tasks ∨ b.Shows t := by
  unfold proceed at h
  split at h
  · simp [settle_tasks] at h
  · simp [settle_tasks] at h
  · simp [settle_tasks] at h
  · unfold cancel at h
    split at h
    · cases h
    · cases appendOf_tasks h
  · unfold target at h
    split at h
    · cases h
    split at h
    · cases appendOf_tasks h
    · exact .inl h
  · unfold hop at h
    split at h
    · cases h
    · cases appendOf_tasks h
  · split at h
    · exact .inr (shows_of_mem_list (by simpa only [Stage.tasks, List.append_nil] using h))
    · cases h
  · unfold claim at h
    split at h
    · cases h
    split at h
    · cases h
    · cases appendOf_tasks h
  · exact .inl h
  · simp only [Stage.tasks, List.mem_append, List.mem_cons] at h ⊢
    tauto
  · split at h
    · exact .inl h
    · exact .inl (List.mem_cons_of_mem _ h)
  · unfold reclaim at h
    split at h
    · cases h
    split at h
    · exact .inl (List.mem_cons_of_mem _ (appendOf_tasks h))
    · exact .inl (List.mem_cons_of_mem _ h)
  · cases h
  · cases h
  · split at h
    · cases h
    · next streamId _ _ task htask =>
      obtain rfl : task = some t := Option.mem_toList.mp h
      exact .inr (.inr ⟨streamId, htask⟩)
  · exact .inl h

theorem resume_tasks {next t : KanbanTask} (h : t ∈ (resume next after).tasks) :
    t ∈ (Stage.indexing next after).tasks := by
  cases after with
  | done => cases h
  | reclaim rest reclaimed => exact List.mem_cons_of_mem _ h
  | walk path =>
    obtain rfl : t = next := List.mem_singleton.mp h
    exact List.mem_cons_self

theorem appendOf_indexing? {r : Except KanbanError Commit} :
    (appendOf after r).indexing? = none := by
  cases r <;> rfl

theorem start_indexing? : (start o b draw op).indexing? = none := by
  cases op with
  | create init =>
    simp only [start]
    split
    · rfl
    · exact appendOf_indexing?
  | heartbeat taskId leaseId now =>
    simp only [start, heartbeat]
    split
    · rfl
    · exact appendOf_indexing?
  | _ => first | rfl | exact appendOf_indexing?

theorem proceed_indexing? : (proceed o b draw op stage).indexing? = none ∨
    proceed o b draw op stage = stage := by
  unfold proceed
  split
  all_goals first
    | exact .inr rfl
    | refine .inl ?_
      first
        | rfl
        | (split <;> rfl)
        | (simp only [settle, cancel, target, hop, claim, reclaim]
           repeat' split
           all_goals first | rfl | exact appendOf_indexing?)

theorem Asks.computed {stage : Option Stage} (h : Asks o b draw op stage commit) :
    commit.Computed o.formats b.tasks := by
  cases h with
  | created hnew h => exact (create_computed _ h).1
  | commented h => exact (mutate_computed h).1
  | mutated hlease hnote hother hclaim h => exact (mutate_computed h).1
  | renewed hlease h => exact (mutate_computed h).1
  | settled hlease howned hversion hclaim h => exact (mutate_computed h).1
  | claimed hversion hdst hclaim h => exact (mutate_computed h).1

section Calls
variable {c d : ℕ} {call call' : Call} {stage' : Stage}

theorem getElem?_withStage (h : (b.withStage c stage').calls[d]? = some call') :
    (d = c ∧ ∃ call, b.calls[c]? = some call ∧ call' = { call with stage := stage' }) ∨
      d ≠ c ∧ b.calls[d]? = some call' := by
  simp only [Board.withStage, List.getElem?_modify] at h
  by_cases hd : c = d
  · subst hd
    obtain ⟨call, hcall, rfl⟩ : ∃ call, b.calls[c]? = some call ∧
        { call with stage := stage' } = call' := by
      simpa using h
    exact .inl ⟨rfl, call, hcall, rfl⟩
  · exact .inr ⟨Ne.symm hd, by simpa [hd] using h⟩

theorem getElem?_called (h : (b.calls ++ [call])[d]? = some call') :
    b.calls[d]? = some call' ∨ d = b.calls.length ∧ call' = call := by
  rcases Nat.lt_trichotomy d b.calls.length with hd | hd | hd
  · exact .inl (by rwa [List.getElem?_append_left hd] at h)
  · subst hd
    simp at h
    exact .inr ⟨rfl, h.symm⟩
  · rw [List.getElem?_eq_none (by simp; omega)] at h
    cases h

end Calls

end BeeAgent.Kanban
