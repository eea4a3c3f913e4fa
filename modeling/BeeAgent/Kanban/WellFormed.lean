import BeeAgent.Kanban.History

/-! What holds of every task that a board comes to: where a claim stands, where an end stands, and
which moves between statuses are made. -/
namespace BeeAgent.Kanban
open Data Transition Machine

structure WellFormed (t : KanbanTask) : Prop where
  claim : t.claim.isSome → t.status = .running
  endedAt : isTerminal t.status → t.endedAt.isSome

/-- A move into `running` that brings no claim. -/
def Commit.entersUnclaimed (commit : Commit) : Prop :=
  ∃ base command clock, commit.origin = .mutated base (.transition command clock) ∧
    command.dst = .running ∧ command.claim = none

variable {base next t u : KanbanTask} {mutation : Mutation} {event : KanbanTaskEvent}

namespace Applied

theorem wellFormed (h : Applied base mutation event next) (hbase : WellFormed base) :
    WellFormed next := by
  cases h with
  | @transition command clock next h =>
    obtain ⟨-, -, rfl⟩ := applyTransition_ok h
    constructor
    · intro hclaim
      by_contra hrunning
      simp [show command.dst ≠ .running from hrunning] at hclaim
    · intro hterminal
      simp [show isTerminal command.dst = true from hterminal]
  | renewed hstatus hlease =>
    exact ⟨fun _ => hstatus, fun hterminal => hbase.endedAt hterminal⟩
  | updated hversion => exact ⟨hbase.claim, hbase.endedAt⟩
  | commented note => exact ⟨hbase.claim, hbase.endedAt⟩

theorem edge (h : Applied base mutation event next) :
    next.status = base.status ∨ canTransition base.status next.status := by
  cases h with
  | transition h =>
    obtain ⟨-, hedge, rfl⟩ := applyTransition_ok h
    exact .inr hedge
  | _ => exact .inl rfl

theorem endedAt (h : Applied base mutation event next) (hended : next.endedAt.isSome) :
    base.endedAt.isSome ∨ isTerminal next.status := by
  cases h with
  | @transition command clock next h =>
    obtain ⟨-, -, rfl⟩ := applyTransition_ok h
    by_cases hterminal : isTerminal command.dst
    · exact .inr hterminal
    · exact .inl (by simpa [hterminal] using hended)
  | _ => exact .inl hended

theorem running_unclaimed (h : Applied base mutation event next) (hstatus : next.status = .running)
    (hclaim : next.claim = none) :
    (base.status = .running ∧ base.claim = none) ∨ ∃ command clock,
      mutation = .transition command clock ∧ command.dst = .running ∧ command.claim = none := by
  cases h with
  | @transition command clock next h =>
    obtain ⟨-, -, rfl⟩ := applyTransition_ok h
    have hdst : command.dst = .running := hstatus
    simp only [hdst, if_pos, Option.orElse_eq_orElse, Option.orElse_eq_or,
      Option.or_eq_none_iff] at hclaim
    exact .inr ⟨command, clock, rfl, hdst, hclaim.1⟩
  | renewed hrunning hlease =>
    refine .inl ⟨hrunning, ?_⟩
    simpa [KanbanTask.renewed] using hclaim
  | updated hversion => exact .inl ⟨hstatus, hclaim⟩
  | commented note => exact .inl ⟨hstatus, hclaim⟩

end Applied

theorem WellFormed.alike (h : WellFormed t) (halike : Alike False t u) : WellFormed u := by
  obtain ⟨at_, rfl, -⟩ := halike
  exact ⟨h.claim, h.endedAt⟩

namespace Recorded
variable {b : Board} {k : KanbanTaskId} {n : ℕ}

theorem written_at (h : Recorded b) (hn : n < (b.stream k).length)
    (hu : b.taskAt k (n + 1) = .ok (some u)) :
    ∃ e ∈ b.landed, Written b k n e ∧ Alike False e.commit.next u := by
  obtain ⟨e, he, hwritten⟩ := h.written k n hn
  obtain ⟨v, hv, halike⟩ := hwritten.next
  rw [hu] at hv
  obtain rfl : u = v := Option.some.inj (Except.ok.inj hv)
  exact ⟨e, he, hwritten, halike⟩

theorem wellFormed (h : Recorded b) (hn : n ≤ (b.stream k).length)
    (ht : b.taskAt k n = .ok (some t)) : WellFormed t := by
  induction n generalizing t with
  | zero => cases ht
  | succ n ih =>
    obtain ⟨e, -, hwritten, halike⟩ := h.written_at hn ht
    refine WellFormed.alike ?_ halike
    rcases hwritten.origin with ⟨init, -, -, hnew⟩ | ⟨base, mutation, u, -, hu, hbase, happlied⟩
    · constructor
      · simp [hnew.claim]
      · rw [hnew.status]
        exact fun hterminal => absurd hterminal (by decide)
    · exact happlied.wellFormed ((ih (Nat.le_of_succ_le hn) hu).alike hbase.symm)

theorem edge (h : Recorded b) (hn : n < (b.stream k).length) (ht : b.taskAt k n = .ok (some t))
    (hu : b.taskAt k (n + 1) = .ok (some u)) :
    u.status = t.status ∨ canTransition t.status u.status := by
  obtain ⟨e, -, hwritten, at_, rfl, -⟩ := h.written_at hn hu
  rcases hwritten.origin with ⟨init, -, rfl, -⟩ | ⟨base, mutation, v, -, hv, hbase, happlied⟩
  · cases ht
  · rw [ht] at hv
    obtain rfl : t = v := Option.some.inj (Except.ok.inj hv)
    obtain ⟨at', rfl, -⟩ := hbase
    exact happlied.edge

theorem endedAt (h : Recorded b) (hn : n ≤ (b.stream k).length)
    (ht : b.taskAt k n = .ok (some t)) (hended : t.endedAt.isSome) :
    ∃ m ≤ n, ∃ u, b.taskAt k m = .ok (some u) ∧ isTerminal u.status := by
  induction n generalizing t with
  | zero => cases ht
  | succ n ih =>
    obtain ⟨e, -, hwritten, at_, rfl, -⟩ := h.written_at hn ht
    rcases hwritten.origin with ⟨init, -, -, hnew⟩ | ⟨base, mutation, v, -, hv, hbase, happlied⟩
    · simp [hnew.endedAt] at hended
    · obtain ⟨at', rfl, -⟩ := hbase
      rcases happlied.endedAt hended with hold | hterminal
      · obtain ⟨m, hm, hterminal⟩ := ih (Nat.le_of_succ_le hn) hv hold
        exact ⟨m, Nat.le_succ_of_le hm, hterminal⟩
      · exact ⟨n + 1, le_rfl, _, ht, hterminal⟩

theorem running_unclaimed (h : Recorded b) (hn : n ≤ (b.stream k).length)
    (ht : b.taskAt k n = .ok (some t)) (hstatus : t.status = .running) (hclaim : t.claim = none) :
    ∃ e ∈ b.landed, e.commit.taskId = k ∧ e.commit.entersUnclaimed := by
  induction n generalizing t with
  | zero => cases ht
  | succ n ih =>
    obtain ⟨e, he, hwritten, at_, rfl, -⟩ := h.written_at hn ht
    rcases hwritten.origin with
      ⟨init, -, -, hnew⟩ | ⟨base, mutation, v, horigin, hv, hbase, happlied⟩
    · simp [hnew.status] at hstatus
    · obtain ⟨at', rfl, -⟩ := hbase
      rcases happlied.running_unclaimed hstatus hclaim with
        ⟨hrunning, hnone⟩ | ⟨command, clock, rfl, hdst, hnone⟩
      · exact ih (Nat.le_of_succ_le hn) hv hrunning hnone
      · exact ⟨e, he, hwritten.taskId, base, command, clock, horigin, hdst, hnone⟩

/-- Between two versions of a task its status moves as the table lets it. -/
theorem walks (h : Recorded b) {m : ℕ} (ht : b.taskAt k m = .ok (some t)) (hmn : m ≤ n)
    (hn : n ≤ (b.stream k).length) (hu : b.taskAt k n = .ok (some u)) :
    Relation.ReflTransGen (canTransition · ·) t.status u.status := by
  induction n, hmn using Nat.le_induction generalizing u with
  | base =>
    obtain rfl : t = u := Option.some.inj (Except.ok.inj (ht.symm.trans hu))
    exact .refl
  | succ n hmn ih =>
    have hv : ∃ v, b.taskAt k n = .ok (some v) := by
      obtain ⟨e, -, hwritten, -⟩ := h.written_at hn hu
      rcases hwritten.origin with ⟨init, -, rfl, -⟩ | ⟨base, mutation, v, -, hv, -⟩
      · obtain rfl := Nat.le_zero.mp hmn
        cases ht
      · exact ⟨v, hv⟩
    obtain ⟨v, hv⟩ := hv
    have hwalks := ih (Nat.le_of_succ_le hn) hv
    rcases h.edge hn hv hu with hsame | hedge
    · rwa [hsame]
    · exact hwalks.tail hedge

end Recorded

theorem transition_ready {o : KanbanOptions} {tasks : Tasks} {k : KanbanTaskId}
    (ht : tasks.get k = some t) (hstatus : t.status = .running) (now clock : String) :
    ∃ commit, transition o.formats tasks k
      { dst := .ready, expectedVersion := t.version, at_ := some now } clock = .ok commit := by
  have hedge : canTransition t.status .ready = true := by
    rw [hstatus]
    decide
  simp [transition, mutate, ht, Mutation.apply, applyTransition, hedge]

/-- Every task of the log, and with it every task of the projection, in every board reached. -/
theorem reached_tasks_wellFormed {o : KanbanOptions} {b : Board}
    (h : (board o).Reaches anyStep .initial b) :
    (∀ k n t, n ≤ (b.stream k).length → b.taskAt k n = .ok (some t) →
      (t.claim.isSome → t.status = .running) ∧
      (t.status = .running → t.claim.isSome ∨
        ∃ e ∈ b.landed, e.commit.taskId = k ∧ e.commit.entersUnclaimed) ∧
      (isTerminal t.status → t.endedAt.isSome) ∧
      (t.endedAt.isSome → ∃ m ≤ n, ∃ u, b.taskAt k m = .ok (some u) ∧ isTerminal u.status) ∧
      ∀ u, n < (b.stream k).length → b.taskAt k (n + 1) = .ok (some u) →
        u.status = t.status ∨ canTransition t.status u.status) ∧
    (∀ k t, b.tasks.get k = some t → t.version ≤ (b.stream k).length ∧
      ∃ at_, b.taskAt k t.version = .ok (some { t with updatedAt := at_ })) ∧
    ∀ k t now clock, b.tasks.get k = some t → t.claim.isSome →
      ∃ commit, transition o.formats b.tasks k
        { dst := .ready, expectedVersion := t.version, at_ := some now } clock = .ok commit := by
  have hrecorded := Recorded.reaches h
  have hlogged : Logged False b := Logged.of_reaches h
  refine ⟨fun k n t hn ht => ?_, fun k t ht => ?_, fun k t now clock ht hclaim => ?_⟩
  · have hwell := hrecorded.wellFormed hn ht
    refine ⟨hwell.claim, fun hrunning => ?_, hwell.endedAt, hrecorded.endedAt hn ht,
      fun u hn' hu => hrecorded.edge hn' ht hu⟩
    cases hclaim : t.claim with
    | some claim => exact .inl rfl
    | none => exact .inr (hrecorded.running_unclaimed hn ht hrunning hclaim)
  · obtain ⟨-, -, hle, u, hu, at_, rfl, -⟩ := hlogged.projected k t ht
    exact ⟨hle, at_, hu⟩
  · obtain ⟨-, -, hle, u, hu, at_, rfl, -⟩ := hlogged.projected k t ht
    exact transition_ready ht ((hrecorded.wellFormed hle hu).claim hclaim) now clock

/-- A task that a plain transition, as the walking tools make it, takes into `running`. -/
def unclaimedRun : List Input :=
  [.call (.create { title := "task" }) (sampleDraw 1), .resume 0 (sampleDraw 1),
    .resume 0 (sampleDraw 1),
    .call (.transition (sampleId 1) { dst := .triaged, expectedVersion := 1 }) (sampleDraw 1),
    .resume 1 (sampleDraw 1), .resume 1 (sampleDraw 1),
    .call (.transition (sampleId 1) { dst := .ready, expectedVersion := 2 }) (sampleDraw 1),
    .resume 2 (sampleDraw 1), .resume 2 (sampleDraw 1),
    .call (.transition (sampleId 1) { dst := .running, expectedVersion := 3 }) (sampleDraw 1),
    .resume 3 (sampleDraw 1), .resume 3 (sampleDraw 1)]

theorem running_without_claim : ∃ b, (board sampleOptions).Reaches anyStep .initial b ∧
    ((b.tasks.get (sampleId 1)).any fun t => t.status = .running && t.claim.isNone) = true :=
  exists_reaches_of_exec_map unclaimedRun (by decide +kernel)

theorem reached_tasks_wellFormed_sample : ∃ b, (board sampleOptions).Reaches anyStep .initial b ∧
    ∀ k t now clock, b.tasks.get k = some t → t.claim.isSome →
      ∃ commit, transition sampleOptions.formats b.tasks k
        { dst := .ready, expectedVersion := t.version, at_ := some now } clock = .ok commit := by
  obtain ⟨b, hb, -⟩ := exists_reaches_of_exec_map (M := board sampleOptions) (s := .initial)
    (f := fun b => (b.tasks.get (sampleId 1)).isSome) (a := true) unclaimedRun (by decide +kernel)
  exact ⟨b, hb, (reached_tasks_wellFormed hb).2.2⟩

/-- What has no way out, or none but into the archive, stays there. -/
theorem reached_statuses_walk {o : KanbanOptions} {b : Board} {k : KanbanTaskId} {m n : ℕ}
    (h : (board o).Reaches anyStep .initial b) (ht : b.taskAt k m = .ok (some t)) (hmn : m ≤ n)
    (hn : n ≤ (b.stream k).length) (hu : b.taskAt k n = .ok (some u)) :
    Relation.ReflTransGen (canTransition · ·) t.status u.status ∧
    (t.status = .archived → u.status = .archived) ∧
    (t.status = .done ∨ t.status = .cancelled → u.status = t.status ∨ u.status = .archived) := by
  have hwalks := (Recorded.reaches h).walks ht hmn hn hu
  have hends : t.status = .done ∨ t.status = .cancelled ∨ t.status = .archived →
      u.status = t.status ∨ u.status = .archived := by
    intro hstatus
    generalize u.status = last at hwalks
    induction hwalks with
    | refl => exact .inl rfl
    | @tail src dst _ hedge ih =>
      have hsrc : src = .done ∨ src = .cancelled ∨ src = .archived := by
        rcases ih with rfl | rfl <;> simp [hstatus]
      have hdst : dst = .archived := by
        rcases hsrc with rfl | rfl | rfl <;> simp [canTransition, kanbanTransitions] at hedge
        · exact hedge
        · exact hedge
      exact .inr hdst
  refine ⟨hwalks, fun harchived => ?_, fun hstatus => hends (by tauto)⟩
  simpa [harchived] using hends (by simp [harchived])

theorem reached_statuses_walk_sample : ∃ b t u,
    (board sampleOptions).Reaches anyStep .initial b ∧
    b.taskAt (sampleId 1) 2 = .ok (some t) ∧ b.taskAt (sampleId 1) 4 = .ok (some u) ∧
    Relation.ReflTransGen (canTransition · ·) t.status u.status := by
  obtain ⟨b, hb, hlength⟩ := exists_reaches_of_exec_map (M := board sampleOptions) (s := .initial)
    (f := fun b => (b.stream (sampleId 1)).length) (a := 4) unclaimedRun (by decide +kernel)
  have hlogged : Logged False b := Logged.of_reaches hb
  obtain ⟨t, ht, -⟩ := hlogged.versions (sampleId 1) 2 (by decide) (by omega)
  obtain ⟨u, hu, -⟩ := hlogged.versions (sampleId 1) 4 (by decide) hlength.ge
  exact ⟨b, t, u, hb, ht, hu, (reached_statuses_walk hb ht (by decide) hlength.ge hu).1⟩

end BeeAgent.Kanban
