import BeeAgent.Kanban.WellFormed

/-! Leases as fencing tokens: an operation that goes by a lease writes only while that lease is the
one the task runs under, however its steps interleave with others. -/
namespace BeeAgent.Kanban
open Data Transition Machine

def RunsUnder (t : KanbanTask) (leaseId : String) : Prop :=
  t.status = .running ∧ t.leaseId? = some leaseId

def Board.Held (b : Board) (k : KanbanTaskId) (leaseId : String) : Prop :=
  ∃ t, foldStream (b.events k) = .ok (some t) ∧ RunsUnder t leaseId

/-- A mutation of a task that runs under the lease, which brings no claim of its own. -/
def ByLease (k : KanbanTaskId) (leaseId : String) (commit : Commit) : Prop :=
  commit.taskId = k ∧ ∃ base mutation, commit.origin = .mutated base mutation ∧
    RunsUnder base leaseId ∧ mutation.claim? = none

/-- The operations that end with the task of a write of their own. -/
def KanbanOperation.mutates : KanbanOperation → Bool
  | .create _ | .rebuild | .reclaimExpired _ | .transitionAlongPath _ _ _ => false
  | _ => true

/-- The stages of an operation that goes by a lease. -/
def LeaseStage (k : KanbanTaskId) (leaseId : String) : Stage → Prop
  | .got task => ∀ t, task = some t → t.id = k
  | .appending commit after => after = .done ∧ ByLease k leaseId commit
  | .indexing _ after => after = .done
  | .finished result => (∃ error, result = .error error) ∨ ∃ t, result = .ok (.task t)
  | _ => False

/-- The writes that a stage has behind it. -/
def Credited (writes : List Landed) (c : ℕ) (op : KanbanOperation) : Stage → Prop
  | .indexing next _ => ∃ e ∈ writes, e.call = c ∧ e.commit.next = next
  | .finished (.ok (.task t)) => op.mutates → ∃ e ∈ writes, e.call = c ∧ e.commit.next = t
  | _ => True

structure Fenced (b : Board) : Prop where
  leased : ∀ (c : ℕ) (call : Call) k leaseId, b.calls[c]? = some call →
    call.op.lease? = some (k, leaseId) → LeaseStage k leaseId call.stage
  credited : ∀ (c : ℕ) (call : Call), b.calls[c]? = some call →
    Credited b.landed c call.op call.stage
  written : ∀ e ∈ b.landed, ∃ call, b.calls[e.call]? = some call ∧
    ∀ k leaseId, call.op.lease? = some (k, leaseId) → ByLease k leaseId e.commit

variable {o : KanbanOptions} {b b' : Board} {k : KanbanTaskId} {leaseId : String} {draw : Draw}
variable {op : KanbanOperation} {stage : Stage} {t u base next : KanbanTask} {commit : Commit}
variable {mutation : Mutation} {event : KanbanTaskEvent} {c : ℕ} {call : Call} {input : Input}

theorem RunsUnder.alike {strict : Prop} (h : RunsUnder t leaseId) (halike : Alike strict t u) :
    RunsUnder u leaseId := by
  obtain ⟨at_, rfl, -⟩ := halike
  exact h

theorem Applied.claim_cases (h : Applied base mutation event next) (hbase : WellFormed base)
    (hstatus : next.status = .running) {claim : KanbanClaimLease} (hclaim : next.claim = some claim) :
    mutation.claim? = some claim ∨ base.status = .running ∧ ∃ before, base.claim = some before ∧
      before.claimant = claim.claimant ∧ before.leaseId = claim.leaseId := by
  cases h with
  | @transition command clock next h =>
    obtain ⟨-, hedge, rfl⟩ := applyTransition_ok h
    have hdst : command.dst = .running := hstatus
    cases hbrought : command.claim with
    | some brought =>
      refine .inl (hbrought.trans ?_)
      simpa [hdst, hbrought] using hclaim
    | none =>
      -- the claim would be that of a task that runs, and no move leads from there to `running`
      have hold : base.claim.isSome := by
        cases hbaseClaim : base.claim with
        | some claim => rfl
        | none => simp [hdst, hbrought, hbaseClaim] at hclaim
      rw [hbase.claim hold, hdst] at hedge
      exact absurd hedge (by decide)
  | renewed hrunning hlease =>
    obtain ⟨before, hbefore, rfl⟩ := Option.map_eq_some_iff.mp hclaim
    exact .inr ⟨hrunning, before, hbefore, rfl, rfl⟩
  | updated hversion => exact .inr ⟨hstatus, claim, hclaim, rfl, rfl⟩
  | commented note => exact .inr ⟨hstatus, claim, hclaim, rfl, rfl⟩

theorem Applied.runsUnder (h : Applied base mutation event next) (hbase : WellFormed base)
    (hnext : RunsUnder next leaseId) : RunsUnder base leaseId ∨
      ∃ claim, mutation.claim? = some claim ∧ claim.leaseId = leaseId := by
  obtain ⟨hstatus, hlease⟩ := hnext
  obtain ⟨claim, hclaim, rfl⟩ := Option.map_eq_some_iff.mp hlease
  rcases h.claim_cases hbase hstatus hclaim with hbrought | ⟨hrunning, before, hbefore, -, hsame⟩
  · exact .inr ⟨claim, hbrought, rfl⟩
  · exact .inl ⟨hrunning, by rw [KanbanTask.leaseId?, hbefore, Option.map_some, hsame]⟩

theorem Applied.of_renewLease {expiresAt : String}
    (h : Applied base (.renewLease leaseId expiresAt) event next) : RunsUnder base leaseId := by
  cases h with
  | renewed hstatus hlease => exact ⟨hstatus, hlease⟩

theorem Applied.of_transition {command : KanbanTransitionCommand} {clock : String}
    (h : Applied base (.transition command clock) event next) :
    applyTransition base command clock = .ok next := by
  cases h with
  | transition h => exact h

section Stages

theorem leaseStage_appendOf {r : Except KanbanError Commit}
    (h : ∀ commit, r = .ok commit → ByLease k leaseId commit) :
    LeaseStage k leaseId (appendOf .done r) := by
  cases r with
  | error e => exact .inl ⟨e, rfl⟩
  | ok commit => exact ⟨rfl, h commit rfl⟩

theorem byLease_of_renewLease {expiresAt : String}
    (h : mutate o.formats b.tasks k (.renewLease leaseId expiresAt) = .ok commit) :
    ByLease k leaseId commit := by
  obtain ⟨hcomputed, htask, base, horigin⟩ := mutate_computed h
  rw [Commit.Computed, horigin] at hcomputed
  exact ⟨htask, base, _, horigin, (applied_of_apply hcomputed.2.1).of_renewLease, rfl⟩

theorem owned_ok {read : Option KanbanTask} (h : owned k leaseId read = .ok t) :
    read = some t ∧ RunsUnder t leaseId := by
  unfold owned at h
  split at h
  · cases h
  · next task =>
    split at h
    · cases h
    · next hheld =>
      rw [not_or, not_not, not_not] at hheld
      cases h
      exact ⟨rfl, hheld⟩

theorem leaseStage_settle (hlogged : Logged False b) {read : Option KanbanTask}
    {dst : KanbanTaskStatus} {reason : Option String} {now : String}
    (hread : ∀ t, read = some t → t.id = k ∧ Seen False b k t) :
    LeaseStage k leaseId (settle o b.tasks draw k leaseId dst reason now read) := by
  unfold settle
  split
  · next e he => exact .inl ⟨e, rfl⟩
  · next task howned =>
    obtain ⟨rfl, hruns⟩ := owned_ok howned
    refine leaseStage_appendOf fun commit hcommit => ?_
    obtain ⟨hcomputed, htask, base, horigin⟩ := mutate_computed hcommit
    rw [Commit.Computed, horigin] at hcomputed
    refine ⟨htask, base, _, horigin, ?_, rfl⟩
    have hseen := hlogged.projected _ _ hcomputed.1
    rw [htask] at hseen
    have hversion := (applyTransition_ok (applied_of_apply hcomputed.2.1).of_transition).1
    exact hruns.alike (Logged.seen_alike (hread task rfl).2 hseen hversion)

theorem start_leaseStage (hlogged : Logged False b) (hlease : op.lease? = some (k, leaseId)) :
    LeaseStage k leaseId (start o b draw op) := by
  cases op with
  | renewLease taskId lease expiresAt =>
    cases hlease
    exact leaseStage_appendOf fun commit hcommit => byLease_of_renewLease hcommit
  | heartbeat taskId lease now =>
    cases hlease
    simp only [start, heartbeat]
    split
    · exact .inl ⟨_, rfl⟩
    · exact leaseStage_appendOf fun commit hcommit => byLease_of_renewLease hcommit
  | complete taskId lease now =>
    cases hlease
    exact fun t ht => (hlogged.projected k t ht).1
  | fail taskId lease reason now =>
    cases hlease
    exact fun t ht => (hlogged.projected k t ht).1
  | block taskId lease reason now =>
    cases hlease
    exact fun t ht => (hlogged.projected k t ht).1
  | _ => cases hlease

theorem proceed_leaseStage (hlogged : Logged False b) (hlease : op.lease? = some (k, leaseId))
    (hheld : ∀ t ∈ stage.tasks, Seen False b t.id t) (h : LeaseStage k leaseId stage) :
    LeaseStage k leaseId (proceed o b draw op stage) := by
  have hread : ∀ read, stage = .got read → ∀ t, read = some t → t.id = k ∧ Seen False b k t := by
    rintro read rfl t rfl
    have hid : t.id = k := h t rfl
    exact ⟨hid, hid ▸ hheld t (by simp [Stage.tasks])⟩
  unfold proceed
  split
  · next taskId lease now read =>
    cases hlease
    exact leaseStage_settle hlogged (hread read rfl)
  · next taskId lease reason now read =>
    cases hlease
    exact leaseStage_settle hlogged (hread read rfl)
  · next taskId lease reason now read =>
    cases hlease
    exact leaseStage_settle hlogged (hread read rfl)
  all_goals first | exact h | cases hlease

end Stages

section Credits
variable {writes more : List Landed}

theorem Credited.mono (h : Credited writes c op stage) (hmore : ∀ e ∈ writes, e ∈ more) :
    Credited more c op stage := by
  unfold Credited at h ⊢
  split
  · obtain ⟨e, he, hcall⟩ := h
    exact ⟨e, hmore e he, hcall⟩
  · intro hmutates
    obtain ⟨e, he, hcall⟩ := h hmutates
    exact ⟨e, hmore e he, hcall⟩
  · trivial

theorem credited_appendOf {after : After} {r : Except KanbanError Commit} :
    Credited writes c op (appendOf after r) := by
  cases r <;> trivial

theorem credited_of_not_mutates (h : op.mutates = false) :
    Credited writes c op (.finished (.ok (.task t))) := by
  intro hmutates
  rw [h] at hmutates
  cases hmutates

theorem start_credited : Credited writes c op (start o b draw op) := by
  cases op with
  | create init =>
    simp only [start]
    split
    · exact credited_of_not_mutates rfl
    · exact credited_appendOf
  | heartbeat taskId lease now =>
    simp only [start, heartbeat]
    split
    · trivial
    · exact credited_appendOf
  | _ =>
    simp only [start]
    first
      | trivial
      | exact credited_appendOf

theorem proceed_credited (h : Credited writes c op stage) :
    Credited writes c op (proceed o b draw op stage) := by
  unfold proceed
  split
  case h_6 =>
    unfold hop
    split
    · exact credited_of_not_mutates rfl
    · exact credited_appendOf
  all_goals first
    | exact h
    | trivial
    | (split <;> trivial)
    | (simp only [settle, cancel, target, claim, reclaim]
       repeat' split
       all_goals first | exact credited_appendOf | trivial)

end Credits

theorem Moves.call_op (h : Moves o b input b') (hcall : b.calls[c]? = some call) :
    ∃ call', b'.calls[c]? = some call' ∧ call'.op = call.op := by
  have hwith : ∀ (b : Board) (d : ℕ) (stage : Stage), b.calls[c]? = some call →
      ∃ call', (b.withStage d stage).calls[c]? = some call' ∧ call'.op = call.op := by
    intro b d stage hcall
    by_cases hd : d = c
    · exact ⟨{ call with stage }, by simp [Board.withStage, hd, hcall], rfl⟩
    · exact ⟨call, by simp [Board.withStage, hd, hcall], rfl⟩
  cases h with
  | called op draw =>
    have hlt := (List.getElem?_eq_some_iff.mp hcall).1
    refine ⟨call, ?_, rfl⟩
    cases op <;> exact (List.getElem?_append_left hlt).trans hcall
  | failed hc hstage => exact hwith b _ _ hcall
  | proceeded draw hc hstage => exact hwith b _ _ hcall
  | landed hc hstage happend => exact hwith b _ _ hcall
  | indexed hc hstage => exact hwith _ _ _ hcall
  | @replayed d call' task rest draw hc hstage =>
    cases task <;> exact hwith _ _ _ hcall

namespace Fenced

theorem restage (h : Fenced b) (hmoves : Moves o b input b') (hlanded : b'.landed = b.landed)
    (hcalls : ∀ (d : ℕ) (call : Call), b'.calls[d]? = some call → b.calls[d]? = some call ∨
      (∀ k leaseId, call.op.lease? = some (k, leaseId) → LeaseStage k leaseId call.stage) ∧
      Credited b.landed d call.op call.stage) : Fenced b' where
  leased := by
    intro d call k leaseId hcall hlease
    rcases hcalls d call hcall with hold | ⟨hstage, -⟩
    · exact h.leased d call k leaseId hold hlease
    · exact hstage k leaseId hlease
  credited := by
    intro d call hcall
    rw [hlanded]
    rcases hcalls d call hcall with hold | ⟨-, hcredited⟩
    · exact h.credited d call hold
    · exact hcredited
  written := by
    intro e he
    rw [hlanded] at he
    obtain ⟨call, hcall, hby⟩ := h.written e he
    obtain ⟨call', hcall', hop⟩ := hmoves.call_op hcall
    exact ⟨call', hcall', hop ▸ hby⟩

theorem withStage (h : Fenced b) (hmoves : Moves o b input b') (hlanded : b'.landed = b.landed)
    (hcall : b.calls[c]? = some call) (hcalls : b'.calls = (b.withStage c stage).calls)
    (hleased : ∀ k leaseId, call.op.lease? = some (k, leaseId) → LeaseStage k leaseId stage)
    (hcredited : Credited b.landed c call.op stage) : Fenced b' := by
  refine h.restage hmoves hlanded fun d call' hcall' => ?_
  rw [hcalls] at hcall'
  rcases getElem?_withStage hcall' with ⟨rfl, call₀, hcall₀, rfl⟩ | ⟨-, hold⟩
  · rw [hcall] at hcall₀
    cases hcall₀
    exact .inr ⟨hleased, hcredited⟩
  · exact .inl hold

theorem step (h : Fenced b) (hlogged : Logged False b) (hstep : boardStep o b input = some b') :
    Fenced b' := by
  cases boardStep_moves hstep with
  | called op draw =>
    refine h.restage (boardStep_moves hstep) (by cases op <;> rfl) fun d call' hcall' => ?_
    rcases getElem?_called hcall' with hold | ⟨-, rfl⟩
    · exact .inl (by cases op <;> exact hold)
    · exact .inr ⟨fun k leaseId hlease => start_leaseStage (hlogged.cleared op) hlease,
        start_credited⟩
  | failed hcall hstage =>
    exact h.withStage (boardStep_moves hstep) rfl hcall rfl (fun _ _ _ => .inl ⟨_, rfl⟩) trivial
  | @proceeded c call draw hcall hstage =>
    refine h.withStage (boardStep_moves hstep) rfl hcall rfl (fun k leaseId hlease => ?_)
      (proceed_credited (h.credited c call hcall))
    exact proceed_leaseStage hlogged hlease (fun t ht => hlogged.held c call t hcall ht)
      (h.leased c call k leaseId hcall hlease)
  | @landed c call commit after stream draw hcall hstage happend =>
    have hby : ∀ k leaseId, call.op.lease? = some (k, leaseId) →
        after = .done ∧ ByLease k leaseId commit := fun k leaseId hlease => by
      have := h.leased c call k leaseId hcall hlease
      rwa [hstage] at this
    have hmore : ∀ e ∈ b.landed, e ∈ b.landed ++ [⟨c, commit⟩] := fun e he =>
      List.mem_append_left _ he
    constructor
    · intro d call' k leaseId hcall' hlease
      rcases getElem?_withStage hcall' with ⟨rfl, call₀, hcall₀, rfl⟩ | ⟨-, hold⟩
      · rw [hcall] at hcall₀
        cases hcall₀
        exact (hby k leaseId hlease).1
      · exact h.leased d call' k leaseId hold hlease
    · intro d call' hcall'
      rcases getElem?_withStage hcall' with ⟨rfl, call₀, hcall₀, rfl⟩ | ⟨-, hold⟩
      · exact ⟨⟨d, commit⟩, List.mem_append_right _ List.mem_cons_self, rfl, rfl⟩
      · exact (h.credited d call' hold).mono hmore
    · intro e he
      rcases List.mem_append.mp he with he | he
      · obtain ⟨call', hcall', hby'⟩ := h.written e he
        obtain ⟨call'', hcall'', hop⟩ := (boardStep_moves hstep).call_op hcall'
        exact ⟨call'', hcall'', hop ▸ hby'⟩
      · obtain rfl := List.mem_singleton.mp he
        obtain ⟨call', hcall', hop⟩ := (boardStep_moves hstep).call_op hcall
        exact ⟨call', hcall', fun k leaseId hlease => (hby k leaseId (hop ▸ hlease)).2⟩
  | @indexed c call next after draw hcall hstage =>
    refine h.withStage (boardStep_moves hstep) rfl hcall rfl
      (fun k leaseId hlease => ?_) ?_
    · have := h.leased c call k leaseId hcall hlease
      rw [hstage] at this
      obtain rfl : after = .done := this
      exact .inr ⟨next, rfl⟩
    · have := h.credited c call hcall
      rw [hstage] at this
      cases after with
      | done => exact fun _ => this
      | _ => trivial
  | @replayed c call task rest draw hcall hstage =>
    have hcalls : ((task.elim b b.index).withStage c (.reading rest)).calls =
        (b.withStage c (.reading rest)).calls := by
      cases task <;> rfl
    refine h.withStage (boardStep_moves hstep) (by cases task <;> rfl) hcall hcalls
      (fun k leaseId hlease => ?_) trivial
    have := h.leased c call k leaseId hcall hlease
    rw [hstage] at this
    exact this.elim

theorem initial : Fenced .initial where
  leased := fun _ _ _ _ hcall => nomatch hcall
  credited := fun _ _ hcall => nomatch hcall
  written := fun _ he => nomatch he

theorem reaches {G : Board → Input → Prop} (h : (board o).Reaches G .initial b) : Fenced b :=
  h.invariant₂ (fun _ hb => Logged.of_reaches hb) initial
    fun _ _ _ hlogged hb _ hstep => hb.step hlogged hstep

end Fenced

/-- No claim of the task with the lease is written by the step. -/
def unclaimed (k : KanbanTaskId) (leaseId : String) (b : Board) : Input → Prop
  | .resume c _ => ∀ call commit after base mutation claim, b.calls[c]? = some call →
      call.stage = .appending commit after → commit.taskId = k →
      commit.origin = .mutated base mutation → mutation.claim? = some claim →
      claim.leaseId ≠ leaseId
  | _ => True

/-- What the board is known to keep to, in every run. -/
structure Sound (b : Board) : Prop where
  logged : Logged False b
  recorded : Recorded b
  fenced : Fenced b

theorem Sound.reaches {G : Board → Input → Prop} (h : (board o).Reaches G .initial b) : Sound b :=
  ⟨Logged.of_reaches h, Recorded.reaches h, Fenced.reaches h⟩

theorem Sound.step (h : Sound b) (hstep : boardStep o b input = some b') : Sound b' :=
  ⟨h.logged.step (fun hf => hf.elim) hstep, h.recorded.step h.logged hstep,
    h.fenced.step h.logged hstep⟩

theorem Landing.fold_base (h : Landing False b b' commit)
    (horigin : commit.origin = .mutated base mutation) :
    ∃ v, foldStream (b.events commit.taskId) = .ok (some v) ∧ Alike False base v ∧
      b.taskAt commit.taskId (b.stream commit.taskId).length = .ok (some v) ∧
      Applied base mutation commit.event commit.next := by
  cases h.asked with
  | created horigin' => rw [horigin] at horigin'; cases horigin'
  | mutated horigin' hbase happlied htime hsequence =>
    rw [horigin] at horigin'
    cases horigin'
    obtain ⟨-, -, -, v, hv, halike⟩ := hbase
    have hversion : base.version = (b.stream commit.taskId).length := by
      have := h.sequence
      omega
    rw [hversion] at hv
    exact ⟨v, taskAt_length b _ ▸ hv, halike, hv, happlied⟩

/-- A lease that a task does not run under comes back by a claim only, and meanwhile nothing is
written by it. -/
theorem Sound.step_unheld (h : Sound b) (hheld : ¬ b.Held k leaseId)
    (hguard : unclaimed k leaseId b input) (hstep : boardStep o b input = some b') :
    ¬ b'.Held k leaseId ∧ ∀ e ∈ b'.landed, ByLease k leaseId e.commit → e ∈ b.landed := by
  rcases (boardStep_moves hstep).frame with
    ⟨hstreams, hlanded⟩ | ⟨c, draw, call, commit, after, stream, rfl, hcall, hstage, happend, hb'⟩
  · refine ⟨fun ⟨t, ht, hruns⟩ => hheld ⟨t, ?_, hruns⟩, fun e he _ => hlanded ▸ he⟩
    rwa [Board.events, Board.stream, hstreams] at ht
  have hland : Landing False b b' commit := h.logged.landing_of hcall hstage happend (by rw [hb'])
  have hby : ¬ ByLease k leaseId commit := by
    rintro ⟨rfl, base, mutation, horigin, hruns, -⟩
    obtain ⟨v, hv, halike, -⟩ := hland.fold_base horigin
    exact hheld ⟨v, hv, hruns.alike halike⟩
  refine ⟨?_, fun e he hlease => ?_⟩
  · rintro ⟨t, ht, hruns⟩
    by_cases hk : k = commit.taskId
    · subst hk
      obtain ⟨u, hu, halike⟩ := hland.last
      rw [← hland.length, taskAt_length, ht] at hu
      obtain rfl : t = u := Option.some.inj (Except.ok.inj hu)
      have hnext : RunsUnder commit.next leaseId := hruns.alike halike.symm
      cases hasked : commit.origin with
      | created init =>
        cases hland.asked with
        | created horigin hnew => exact absurd (hnew.status.symm.trans hnext.1) (by decide)
        | mutated horigin' => rw [hasked] at horigin'; cases horigin'
      | mutated base mutation =>
        obtain ⟨v, hv, halike', hat, happlied⟩ := hland.fold_base hasked
        have hwell := (h.recorded.wellFormed le_rfl hat).alike halike'.symm
        rcases happlied.runsUnder hwell hnext with hbase | ⟨claim, hclaim, hlease⟩
        · exact hheld ⟨v, hv, hbase.alike halike'⟩
        · exact hguard call commit after base mutation claim hcall hstage rfl hasked hclaim hlease
    · rw [Board.events, hland.streams, if_neg hk] at ht
      exact hheld ⟨t, ht, hruns⟩
  · rw [hb'] at he
    rcases List.mem_append.mp he with he | he
    · exact he
    · obtain rfl := List.mem_singleton.mp he
      exact absurd hlease hby

theorem Sound.run_unheld (h : Sound b) (hheld : ¬ b.Held k leaseId)
    (hrun : (board o).Reaches (unclaimed k leaseId) b b') :
    Sound b' ∧ ¬ b'.Held k leaseId ∧
      ∀ e ∈ b'.landed, ByLease k leaseId e.commit → e ∈ b.landed := by
  refine hrun.invariant (P := fun b₁ => Sound b₁ ∧ ¬ b₁.Held k leaseId ∧
    ∀ e ∈ b₁.landed, ByLease k leaseId e.commit → e ∈ b.landed) ⟨h, hheld, fun e he _ => he⟩
    fun b₁ input b₂ hb hguard hstep => ?_
  obtain ⟨hsound, hunheld, hlanded⟩ := hb
  obtain ⟨hunheld', hlanded'⟩ := hsound.step_unheld hunheld hguard hstep
  exact ⟨hsound.step hstep, hunheld', fun e he hby => hlanded e (hlanded' e he hby) hby⟩

namespace Sound

/-- A write of an operation with a lease goes by the version of the log that runs under it. -/
theorem byLease (h : Sound b) {e : Landed} (he : e ∈ b.landed) (hcall : b.calls[e.call]? = some call)
    (hlease : call.op.lease? = some (k, leaseId)) : ByLease k leaseId e.commit := by
  obtain ⟨call', hcall', hby⟩ := h.fenced.written e he
  rw [hcall] at hcall'
  cases hcall'
  exact hby k leaseId hlease

theorem runsUnder_before (h : Sound b) {e : Landed} (he : e ∈ b.landed)
    (hby : ByLease k leaseId e.commit) :
    ∃ t, b.taskAt k (e.commit.expectedSequence - 1) = .ok (some t) ∧ RunsUnder t leaseId := by
  obtain ⟨rfl, base, mutation, horigin, hruns, -⟩ := hby
  obtain ⟨n, -, hwritten⟩ := h.recorded.landed e he
  rw [hwritten.sequence, Nat.add_sub_cancel]
  rcases hwritten.origin with ⟨init, hcreated, -⟩ | ⟨base', mutation', t, horigin', ht, halike, -⟩
  · rw [horigin] at hcreated
    cases hcreated
  · rw [horigin] at horigin'
    cases horigin'
    exact ⟨t, ht, hruns.alike halike⟩

theorem next_version (h : Sound b) {e : Landed} (he : e ∈ b.landed) :
    e.commit.next.version = e.commit.expectedSequence ∧ e.commit.next.id = e.commit.taskId := by
  obtain ⟨n, hn, hwritten⟩ := h.recorded.landed e he
  obtain ⟨u, hu, at_, rfl, -⟩ := hwritten.next
  obtain ⟨v, hv, hversion, hid⟩ := h.logged.versions _ (n + 1) (Nat.succ_pos n) hn
  rw [hu] at hv
  obtain rfl := Option.some.inj (Except.ok.inj hv)
  exact ⟨hversion.trans hwritten.sequence.symm, hid⟩

theorem written_by (h : Sound b) (hcall : b.calls[c]? = some call) (hmutates : call.op.mutates)
    (hstage : call.stage = .finished (.ok (.task t))) :
    ∃ e ∈ b.landed, e.call = c ∧ e.commit.next = t := by
  have := h.fenced.credited c call hcall
  rw [hstage] at this
  exact this hmutates

end Sound

theorem mutates_of_lease (h : op.lease? = some (k, leaseId)) : op.mutates := by
  cases op <;> first | rfl | cases h

/-- Leases fence, for every interleaving: every event of a task is one write; no two writes of a
task, and so no two mutations that succeed, are based on one version; a write by a lease is made to
a task that runs under it; and once a task does not run under a lease, operations with it write
nothing and are rejected, as long as no claim with that lease is made anew. -/
theorem lease_fencing (h : (board o).Reaches anyStep .initial b) :
    (∀ k, b.events k = (b.writesTo k).map fun e => e.commit.event) ∧
    (b.landed.map fun e => (e.commit.taskId, e.commit.expectedSequence)).Nodup ∧
    (∀ (c d : ℕ) (call call' : Call) t u, b.calls[c]? = some call → b.calls[d]? = some call' →
      call.op.mutates → call'.op.mutates → call.stage = .finished (.ok (.task t)) →
      call'.stage = .finished (.ok (.task u)) → t.id = u.id → t.version = u.version → c = d) ∧
    (∀ e ∈ b.landed, ∀ (call : Call) k leaseId, b.calls[e.call]? = some call →
      call.op.lease? = some (k, leaseId) → e.commit.taskId = k ∧
        ∃ t, b.taskAt k (e.commit.expectedSequence - 1) = .ok (some t) ∧ RunsUnder t leaseId) ∧
    ∀ k leaseId, ¬ b.Held k leaseId → ∀ b', (board o).Reaches (unclaimed k leaseId) b b' →
      (∀ e ∈ b'.landed, ∀ call : Call, b'.calls[e.call]? = some call →
        call.op.lease? = some (k, leaseId) → e ∈ b.landed) ∧
      ∀ (c : ℕ) (call : Call) result, b'.calls[c]? = some call →
        call.op.lease? = some (k, leaseId) → call.stage = .finished result →
        (∀ e ∈ b.landed, e.call ≠ c) → ∃ error, result = .error error := by
  have hsound := Sound.reaches h
  refine ⟨hsound.recorded.events, hsound.recorded.distinct, ?_, ?_, ?_⟩
  · intro c d call call' t u hcall hcall' hmutates hmutates' hstage hstage' hid hversion
    obtain ⟨e, he, rfl, rfl⟩ := hsound.written_by hcall hmutates hstage
    obtain ⟨e', he', rfl, rfl⟩ := hsound.written_by hcall' hmutates' hstage'
    have heq : e = e' := by
      refine List.inj_on_of_nodup_map hsound.recorded.distinct he he' ?_
      rw [Prod.mk.injEq, ← (hsound.next_version he).1, ← (hsound.next_version he').1,
        ← (hsound.next_version he).2, ← (hsound.next_version he').2]
      exact ⟨hid, hversion⟩
    rw [heq]
  · intro e he call k leaseId hcall hlease
    have hby := hsound.byLease he hcall hlease
    exact ⟨hby.1, hsound.runsUnder_before he hby⟩
  · intro k leaseId hheld b' hrun
    obtain ⟨hsound', -, hlanded⟩ := hsound.run_unheld hheld hrun
    refine ⟨fun e he call hcall hlease => hlanded e he (hsound'.byLease he hcall hlease), ?_⟩
    intro c call result hcall hlease hstage hnone
    have hleased := hsound'.fenced.leased c call k leaseId hcall hlease
    rw [hstage] at hleased
    rcases hleased with herror | ⟨t, rfl⟩
    · exact herror
    · obtain ⟨e, he, rfl, -⟩ := hsound'.written_by hcall (mutates_of_lease hlease) hstage
      exact absurd rfl (hnone e (hlanded e he (hsound'.byLease he hcall hlease)))

/-- A claim that is reclaimed after its lease has lapsed, and the worker that completes the task
with the old lease. -/
def staleLeaseRun : List Input :=
  let draw := sampleDraw 1
  [.call (.create { title := "task" }) draw, .resume 0 draw, .resume 0 draw,
    .call (.transition (sampleId 1) { dst := .triaged, expectedVersion := 1 }) draw,
    .resume 1 draw, .resume 1 draw,
    .call (.transition (sampleId 1) { dst := .ready, expectedVersion := 2 }) draw,
    .resume 2 draw, .resume 2 draw, .call (.claimNext "worker" (sampleTime 1)) draw] ++
  List.replicate 6 (.resume 3 (sampleDraw 5)) ++
  .call (.reclaimExpired (sampleTime 3)) draw :: List.replicate 4 (.resume 4 draw) ++
  [.call (.complete (sampleId 1) (sampleId 5) (sampleTime 4)) draw, .resume 5 draw]

theorem lease_fencing_sample : ∃ b, (board sampleOptions).Reaches anyStep .initial b ∧
    b.landed.length = 5 ∧
    (b.calls[5]?).map Call.stage =
      some (.finished (.error (.leaseLost (sampleId 1) (sampleId 5)))) ∧
    (b.landed.map fun e => (e.commit.taskId, e.commit.expectedSequence)).Nodup := by
  obtain ⟨b, hb, hcheck⟩ := exists_reaches_of_exec_map (M := board sampleOptions) (s := .initial)
    (f := fun b => decide (b.landed.length = 5) && decide ((b.calls[5]?).map Call.stage =
      some (.finished (.error (.leaseLost (sampleId 1) (sampleId 5)))))) (a := true)
    staleLeaseRun (by decide +kernel)
  rw [Bool.and_eq_true, decide_eq_true_eq, decide_eq_true_eq] at hcheck
  exact ⟨b, hb, hcheck.1, hcheck.2, (lease_fencing hb).2.1⟩

end BeeAgent.Kanban
