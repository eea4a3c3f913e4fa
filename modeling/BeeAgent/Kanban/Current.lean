import BeeAgent.Kanban.Logged

/-! While no rebuild is made, the projection is the log but for the writes that are not indexed yet:
at most one of a task, and the newest. -/
namespace BeeAgent.Kanban
open Data Transition

/-- A step that does not begin a rebuild. -/
def unrebuilt (_ : Board) : Input → Prop
  | .call .rebuild _ => False
  | _ => True

def unrebuiltCheck : Input → Bool
  | .call .rebuild _ => false
  | _ => true

theorem unrebuilt_of_check (b : Board) (input : Input) (h : unrebuiltCheck input) :
    unrebuilt b input := by
  unfold unrebuiltCheck at h
  split at h
  · cases h
  · next hne =>
    unfold unrebuilt
    split
    · exact absurd rfl (hne _)
    · trivial

def Stage.isFinished : Stage → Bool
  | .finished _ => true
  | _ => false

theorem finished_of_isFinished {stage : Stage} (h : stage.isFinished) :
    ∃ result, stage = .finished result := by
  cases stage with
  | finished result => exact ⟨result, rfl⟩
  | _ => cases h

def Pending (calls : List Call) (c : ℕ) (next : KanbanTask) : Prop :=
  ∃ call, calls[c]? = some call ∧ call.stage.indexing? = some next

def Board.version (b : Board) (k : KanbanTaskId) : ℕ := (b.tasks.get k).elim 0 KanbanTask.version

/-- A call that is no rebuild and does not index what it replayed. -/
def Plain (call : Call) : Prop := call.op ≠ .rebuild ∧ ∀ task rest, call.stage ≠ .replayed task rest

structure Current (b : Board) : Prop where
  plain : ∀ (c : ℕ) (call : Call), b.calls[c]? = some call → Plain call
  newest : ∀ c next, Pending b.calls c next → next.version = (b.stream next.id).length
  alone : ∀ c d next next', Pending b.calls c next → Pending b.calls d next' →
    next.id = next'.id → c = d
  behind : ∀ c next, Pending b.calls c next → b.version next.id < next.version
  asked : ∀ (c d : ℕ) next (call : Call) (commit : Commit) after, Pending b.calls c next →
    b.calls[d]? = some call → call.stage = .appending commit after → commit.taskId = next.id →
    commit.expectedSequence ≤ next.version
  current : ∀ k, b.version k = (b.stream k).length ∨ ∃ c next, Pending b.calls c next ∧ next.id = k

section Calls
variable {b : Board} {c d : ℕ} {call : Call} {stage : Stage} {next : KanbanTask}

theorem pending_withStage (h : Pending (b.withStage c stage).calls d next) :
    (d = c ∧ stage.indexing? = some next) ∨ d ≠ c ∧ Pending b.calls d next := by
  obtain ⟨call', hcall', hnext⟩ := h
  rcases getElem?_withStage hcall' with ⟨rfl, call, -, rfl⟩ | ⟨hd, hold⟩
  · exact .inl ⟨rfl, hnext⟩
  · exact .inr ⟨hd, call', hold, hnext⟩

theorem pending_withStage_of_ne (hd : d ≠ c) (h : Pending b.calls d next) :
    Pending (b.withStage c stage).calls d next := by
  obtain ⟨call, hcall, hnext⟩ := h
  refine ⟨call, ?_, hnext⟩
  simp [Board.withStage, hcall, Ne.symm hd]

theorem pending_withStage_self (hcall : b.calls[c]? = some call)
    (hstage : stage.indexing? = some next) : Pending (b.withStage c stage).calls c next :=
  ⟨{ call with stage }, by simp [Board.withStage, hcall], hstage⟩

theorem pending_withStage_iff (hcall : b.calls[c]? = some call)
    (hidle : call.stage.indexing? = none) (hstage : stage.indexing? = none) :
    Pending (b.withStage c stage).calls d next ↔ Pending b.calls d next := by
  constructor
  · intro h
    rcases pending_withStage h with ⟨-, hnext⟩ | ⟨-, h⟩
    · rw [hstage] at hnext
      cases hnext
    · exact h
  · intro h
    refine pending_withStage_of_ne (fun hd => ?_) h
    obtain ⟨call', hcall', hnext⟩ := h
    rw [hd, hcall] at hcall'
    cases hcall'
    rw [hidle] at hnext
    cases hnext

theorem pending_called_iff (hidle : call.stage.indexing? = none) :
    Pending (b.calls ++ [call]) d next ↔ Pending b.calls d next := by
  constructor
  · rintro ⟨call', hcall', hnext⟩
    rcases getElem?_called hcall' with hold | ⟨-, rfl⟩
    · exact ⟨call', hold, hnext⟩
    · rw [hidle] at hnext
      cases hnext
  · rintro ⟨call', hcall', hnext⟩
    have hlt := (List.getElem?_eq_some_iff.mp hcall').1
    exact ⟨call', by rwa [List.getElem?_append_left hlt], hnext⟩

end Calls

section Plain
variable {o : KanbanOptions} {b : Board} {draw : Draw} {op : KanbanOperation} {stage : Stage}

theorem appendOf_ne_replayed {after : After} {r : Except KanbanError Commit}
    {task : Option KanbanTask} {rest : List KanbanTaskId} : appendOf after r ≠ .replayed task rest := by
  intro h
  cases r <;> cases h

theorem start_plain (h : op ≠ .rebuild) : Plain ⟨op, start o b draw op⟩ := by
  refine ⟨h, fun task rest => ?_⟩
  cases op with
  | create init =>
    simp only [start]
    split
    · exact Stage.noConfusion
    · exact appendOf_ne_replayed
  | heartbeat taskId leaseId now =>
    simp only [start, heartbeat]
    split
    · exact Stage.noConfusion
    · exact appendOf_ne_replayed
  | rebuild => exact absurd rfl h
  | _ =>
    simp only [start]
    first
      | exact appendOf_ne_replayed
      | exact Stage.noConfusion

theorem proceed_plain (h : Plain ⟨op, stage⟩) : Plain ⟨op, proceed o b draw op stage⟩ := by
  refine ⟨h.1, fun task rest => ?_⟩
  simp only
  unfold proceed
  split
  all_goals first
    | exact Stage.noConfusion
    | exact absurd rfl h.1
    | exact h.2 task rest
    | (split <;> exact Stage.noConfusion)
    | (simp only [settle, cancel, target, hop, claim, reclaim]
       repeat' split
       all_goals first | exact appendOf_ne_replayed | exact Stage.noConfusion)

theorem resume_plain {call : Call} {next : KanbanTask} {after : After} (h : Plain call) :
    Plain { call with stage := resume next after } := by
  refine ⟨h.1, fun task rest => ?_⟩
  cases after <;> exact fun h => nomatch h

end Plain

variable {o : KanbanOptions} {b b' : Board} {draw : Draw} {op : KanbanOperation}
variable {commit : Commit} {input : Input}

theorem Asks.sequence_le {stage : Option Stage} (h : Asks o b draw op stage commit) :
    commit.expectedSequence ≤ b.version commit.taskId + 1 := by
  have hcomputed := h.computed
  unfold Commit.Computed at hcomputed
  split at hcomputed
  · obtain ⟨uuid, clock, -, -, -, hsequence⟩ := hcomputed
    omega
  · next base mutation horigin =>
    obtain ⟨hget, -, hsequence⟩ := hcomputed
    rw [hsequence, Board.version, hget]
    rfl

namespace Current

theorem quiet (h : Current b) (hstream : ∀ k, b'.stream k = b.stream k)
    (htasks : b'.tasks = b.tasks) (hplain : ∀ (c : ℕ) (call : Call), b'.calls[c]? = some call → Plain call)
    (hpending : ∀ c next, Pending b'.calls c next ↔ Pending b.calls c next)
    (hasked : ∀ (d : ℕ) (call : Call) commit after, b'.calls[d]? = some call →
      call.stage = .appending commit after →
      (∃ call₀, b.calls[d]? = some call₀ ∧ call₀.stage = .appending commit after) ∨
        commit.expectedSequence ≤ b.version commit.taskId + 1) : Current b' where
  plain := hplain
  newest := fun c next hc => by
    rw [hstream]
    exact h.newest c next ((hpending c next).mp hc)
  alone := fun c d next next' hc hd hid =>
    h.alone c d next next' ((hpending _ _).mp hc) ((hpending _ _).mp hd) hid
  behind := fun c next hc => by
    rw [Board.version, htasks]
    exact h.behind c next ((hpending c next).mp hc)
  asked := by
    intro c d next call commit after hc hcall hstage hid
    have hc := (hpending c next).mp hc
    rcases hasked d call commit after hcall hstage with ⟨call₀, hcall₀, hstage₀⟩ | hle
    · exact h.asked c d next call₀ commit after hc hcall₀ hstage₀ hid
    · have := h.behind c next hc
      rw [← hid] at this
      omega
  current := fun k => by
    rw [Board.version, htasks, hstream]
    rcases h.current k with hcurrent | ⟨c, next, hc, hid⟩
    · exact .inl hcurrent
    · exact .inr ⟨c, next, (hpending c next).mpr hc, hid⟩

/-- A write finds the projection up to date, and leaves it one behind. -/
theorem land (h : Current b) (hlogged : Logged False b) {c : ℕ} {call : Call} {after : After}
    (hcall : b.calls[c]? = some call) (hstage : call.stage = .appending commit after)
    (hland : Landing False b b' commit) (htasks : b'.tasks = b.tasks)
    (hcalls : b'.calls = (b.withStage c (.indexing commit.next after)).calls) : Current b' := by
  have hnone : ∀ d next, Pending b.calls d next → next.id ≠ commit.taskId := by
    intro d next hd hid
    have hle := h.asked d c next call commit after hd hcall hstage hid.symm
    have hversion := h.newest d next hd
    rw [hid] at hversion
    have := hland.sequence
    omega
  have hstream : ∀ k, k ≠ commit.taskId → b'.stream k = b.stream k := fun k hk => by
    rw [hland.streams, if_neg hk]
  have hnew : Pending b'.calls c commit.next := hcalls ▸ pending_withStage_self hcall rfl
  have hcases : ∀ d next, Pending b'.calls d next →
      (d = c ∧ next = commit.next) ∨ d ≠ c ∧ Pending b.calls d next := by
    intro d next hd
    rw [hcalls] at hd
    rcases pending_withStage hd with ⟨rfl, hnext⟩ | hold
    · exact .inl ⟨rfl, (Option.some.inj hnext).symm⟩
    · exact .inr hold
  have hversion : ∀ k, b.version k ≤ (b.stream k).length := by
    intro k
    cases hget : b.tasks.get k with
    | none => simp [Board.version, hget]
    | some t =>
      have := (hlogged.projected k t hget).2.2.1
      simpa [Board.version, hget] using this
  constructor
  · intro d call' hcall'
    rw [hcalls] at hcall'
    rcases getElem?_withStage hcall' with ⟨rfl, call₀, hcall₀, rfl⟩ | ⟨-, hold⟩
    · exact ⟨(h.plain _ _ hcall₀).1, fun _ _ => Stage.noConfusion⟩
    · exact h.plain d call' hold
  · intro d next hd
    rcases hcases d next hd with ⟨rfl, rfl⟩ | ⟨-, hold⟩
    · rw [hland.version, hland.id, hland.length]
    · rw [hstream _ (hnone d next hold)]
      exact h.newest d next hold
  · intro d e next next' hd he hid
    rcases hcases d next hd with ⟨rfl, rfl⟩ | ⟨-, hold⟩ <;>
      rcases hcases e next' he with ⟨rfl, rfl⟩ | ⟨-, hold'⟩
    · rfl
    · exact absurd (hid.symm.trans hland.id) (hnone e next' hold')
    · exact absurd (hid.trans hland.id) (hnone d next hold)
    · exact h.alone d e next next' hold hold' hid
  · intro d next hd
    rw [Board.version, htasks]
    rcases hcases d next hd with ⟨rfl, rfl⟩ | ⟨-, hold⟩
    · have := hversion commit.next.id
      rw [hland.version]
      rw [hland.id] at this ⊢
      exact Nat.lt_succ_of_le this
    · exact h.behind d next hold
  · intro d e next call' commit' after' hd hcall' hstage' hid
    rw [hcalls] at hcall'
    rcases getElem?_withStage hcall' with ⟨rfl, call₀, -, rfl⟩ | ⟨-, hold⟩
    · cases hstage'
    rcases hcases d next hd with ⟨rfl, rfl⟩ | ⟨-, hpending⟩
    · rw [hland.version]
      rw [hland.id] at hid
      rcases hlogged.asked e call' commit' after' hold hstage' with
        ⟨-, -, -, -, hsequence⟩ | ⟨-, ⟨-, -, hle, -⟩, -, -, hsequence⟩
      · omega
      · rw [hid] at hle
        omega
    · exact h.asked d e next call' commit' after' hpending hold hstage' hid
  · intro k
    by_cases hk : k = commit.taskId
    · exact .inr ⟨c, commit.next, hnew, hland.id.trans hk.symm⟩
    · rw [Board.version, htasks, hstream k hk]
      rcases h.current k with hcurrent | ⟨d, next, hd, hid⟩
      · exact .inl hcurrent
      · have hdc : d ≠ c := by
          rintro rfl
          obtain ⟨call', hcall', hnext⟩ := hd
          rw [hcall] at hcall'
          cases hcall'
          rw [hstage] at hnext
          cases hnext
        exact .inr ⟨d, next, hcalls ▸ pending_withStage_of_ne hdc hd, hid⟩

theorem index (h : Current b) {c : ℕ} {call : Call} {next : KanbanTask} {after : After}
    (hcall : b.calls[c]? = some call) (hstage : call.stage = .indexing next after) :
    Current ((b.index next).withStage c (resume next after)) := by
  have hc : Pending b.calls c next := ⟨call, hcall, by rw [hstage]; rfl⟩
  have hidle : (resume next after).indexing? = none := by cases after <;> rfl
  have hother : ∀ d next', Pending ((b.index next).withStage c (resume next after)).calls d next' →
      d ≠ c ∧ Pending b.calls d next' ∧ next'.id ≠ next.id := by
    intro d next' hd
    rcases pending_withStage (b := b.index next) hd with ⟨-, hnext⟩ | ⟨hne, hold⟩
    · rw [hidle] at hnext
      cases hnext
    · exact ⟨hne, hold, fun hid => hne (h.alone d c _ _ hold hc hid)⟩
  have hversion : ∀ k, Board.version ((b.index next).withStage c (resume next after)) k =
      if k = next.id then next.version else b.version k := by
    intro k
    change ((b.tasks.set next.id next).get k).elim 0 KanbanTask.version = _
    rw [OrderedMap.get_set]
    split <;> rfl
  constructor
  · intro d call' hcall'
    rcases getElem?_withStage (b := b.index next) hcall' with ⟨rfl, call₀, hcall₀, rfl⟩ | ⟨-, hold⟩
    · exact resume_plain (h.plain _ _ hcall₀)
    · exact h.plain d call' hold
  · exact fun d next' hd => h.newest d next' (hother d next' hd).2.1
  · exact fun d e _ _ hd he hid => h.alone d e _ _ (hother _ _ hd).2.1 (hother _ _ he).2.1 hid
  · intro d next' hd
    obtain ⟨-, hold, hid⟩ := hother d next' hd
    rw [hversion, if_neg hid]
    exact h.behind d next' hold
  · intro d e next' call' commit after' hd hcall' hstage' hid
    rcases getElem?_withStage (b := b.index next) hcall' with ⟨rfl, call₀, -, rfl⟩ | ⟨-, hold⟩
    · cases after <;> cases hstage'
    · exact h.asked d e next' call' commit after' (hother d next' hd).2.1 hold hstage' hid
  · intro k
    rw [hversion]
    by_cases hk : k = next.id
    · subst hk
      rw [if_pos rfl]
      exact .inl (h.newest c next hc)
    · rw [if_neg hk]
      rcases h.current k with hcurrent | ⟨d, next', hd, hid⟩
      · exact .inl hcurrent
      · have hdc : d ≠ c := by
          rintro rfl
          obtain ⟨call', hcall', hnext⟩ := hd
          rw [hcall] at hcall'
          cases hcall'
          rw [hstage] at hnext
          cases hnext
          exact hk hid.symm
        exact .inr ⟨d, next', pending_withStage_of_ne (b := b.index next) hdc hd, hid⟩

theorem withStage (h : Current b) {c : ℕ} {call : Call} {stage : Stage}
    (hcall : b.calls[c]? = some call) (hidle : call.stage.indexing? = none)
    (hstage : stage.indexing? = none) (hplain : Plain { call with stage })
    (hasked : ∀ commit after, stage = .appending commit after →
      call.stage = .appending commit after ∨
        commit.expectedSequence ≤ b.version commit.taskId + 1) :
    Current (b.withStage c stage) := by
  refine h.quiet (fun _ => rfl) rfl (fun d call' hcall' => ?_)
    (fun d next => pending_withStage_iff hcall hidle hstage) fun d call' commit after hcall' hstage' => ?_
  · rcases getElem?_withStage hcall' with ⟨rfl, call₀, hcall₀, rfl⟩ | ⟨-, hold⟩
    · rw [hcall] at hcall₀
      cases hcall₀
      exact hplain
    · exact h.plain d call' hold
  · rcases getElem?_withStage hcall' with ⟨rfl, call₀, hcall₀, rfl⟩ | ⟨-, hold⟩
    · rcases hasked commit after hstage' with hold | hle
      · exact .inl ⟨call, hcall, hold⟩
      · exact .inr hle
    · exact .inl ⟨call', hold, hstage'⟩

theorem step (h : Current b) (hlogged : Logged False b) (hguard : unrebuilt b input)
    (hstep : boardStep o b input = some b') : Current b' := by
  cases boardStep_moves hstep with
  | called op draw =>
    have hop : op ≠ .rebuild := by
      rintro rfl
      exact hguard
    have hcleared : b.cleared op = b := by cases op <;> first | rfl | exact absurd rfl hop
    rw [hcleared]
    refine h.quiet (fun _ => rfl) rfl (fun d call' hcall' => ?_)
      (fun d next => pending_called_iff start_indexing?) fun d call' commit after hcall' hstage' => ?_
    · rcases getElem?_called hcall' with hold | ⟨-, rfl⟩
      · exact h.plain d call' hold
      · exact start_plain hop
    · rcases getElem?_called hcall' with hold | ⟨-, rfl⟩
      · exact .inl ⟨call', hold, hstage'⟩
      · exact .inr (start_asks hstage').sequence_le
  | @failed c call e input hcall hidle =>
    exact h.withStage hcall hidle rfl ⟨(h.plain c call hcall).1, fun _ _ => Stage.noConfusion⟩
      fun _ _ => Stage.noConfusion
  | @proceeded c call draw hcall hidle =>
    refine h.withStage hcall hidle ?_ (proceed_plain (h.plain c call hcall)) fun commit after hstage => ?_
    · rcases @proceed_indexing? o b draw call.op call.stage with hnone | hsame
      · exact hnone
      · rw [hsame]
        exact hidle
    · rcases proceed_asks hstage with hold | hasks
      · exact .inl hold
      · exact .inr hasks.sequence_le
  | landed hcall hstage happend =>
    exact h.land hlogged hcall hstage (hlogged.landing_of hcall hstage happend rfl) rfl rfl
  | indexed hcall hstage => exact h.index hcall hstage
  | @replayed c call task rest draw hcall hstage =>
    exact absurd hstage ((h.plain c call hcall).2 task rest)

theorem initial : Current .initial := by
  have hnone : ∀ c next, ¬ Pending Board.initial.calls c next := by
    rintro c next ⟨call, hcall, -⟩
    cases hcall
  constructor
  · intro c call hcall
    cases hcall
  · exact fun c next hc => absurd hc (hnone c next)
  · exact fun c d next next' hc => absurd hc (hnone c next)
  · exact fun c next hc => absurd hc (hnone c next)
  · exact fun c d next call commit after hc => absurd hc (hnone c next)
  · exact fun k => .inl rfl

theorem reaches {G : Board → Input → Prop} (hG : ∀ b input, G b input → unrebuilt b input)
    (h : (board o).Reaches G .initial b) : Current b :=
  h.invariant₂ (fun _ hb => Logged.of_reaches hb) initial
    fun b input _ hlogged hb hguard hstep => hb.step hlogged (hG b input hguard) hstep

end Current

/-- Between the append and the index of a write no other write of the task goes through, and the
projection is behind by what the one call has yet to index. -/
theorem projection_follows (h : (board o).Reaches unrebuilt .initial b) (k : KanbanTaskId) :
    b.version k = (b.stream k).length ∨ ∃ c next, Pending b.calls c next ∧ next.id = k ∧
      next.version = (b.stream k).length ∧ b.version k < next.version ∧
      (∀ d next', Pending b.calls d next' → next'.id = k → d = c) ∧
      ∀ (d : ℕ) (call : Call) (commit : Commit) after, b.calls[d]? = some call →
        call.stage = .appending commit after → commit.taskId = k →
        commit.expectedSequence ≠ (b.stream k).length + 1 := by
  have hcurrent : Current b := Current.reaches (fun _ _ hguard => hguard) h
  rcases hcurrent.current k with heq | ⟨c, next, hc, rfl⟩
  · exact .inl heq
  · have hnewest := hcurrent.newest c next hc
    refine .inr ⟨c, next, hc, rfl, hnewest, hcurrent.behind c next hc,
      fun d next' hd hid => hcurrent.alone d c _ _ hd hc hid,
      fun d call commit after hcall hstage hid => ?_⟩
    have := hcurrent.asked c d next call commit after hc hcall hstage hid
    omega

theorem projection_follows_sample : ∃ b, (board sampleOptions).Reaches unrebuilt .initial b ∧
    ∃ c next, Pending b.calls c next ∧ next.id = sampleId 1 := by
  have hguard : (board sampleOptions).Guarded unrebuilt .initial
      [.call (.create { title := "task" }) (sampleDraw 1), .resume 0 (sampleDraw 1)] :=
    Machine.guarded_of_allSteps unrebuilt_of_check _ (by decide +kernel)
  obtain ⟨b, hb, hbehind⟩ := hguard.exists_reaches
    (f := fun (b : Board) => decide (b.version (sampleId 1) = (b.stream (sampleId 1)).length))
    (a := false) (by decide +kernel)
  obtain heq | ⟨c, next, hc, hid, -⟩ := projection_follows hb (sampleId 1)
  · exact absurd heq (of_decide_eq_false hbehind)
  · exact ⟨b, hb, c, next, hc, hid⟩

end BeeAgent.Kanban
