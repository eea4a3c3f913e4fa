import BeeAgent.Kanban.Logged

/-! Walks of several transitions among other calls: the moves of a walk stand in the stream of the
task one right after another, whatever else is written to the board. -/
namespace BeeAgent.Kanban
open Data Transition Machine

def Board.moves (b : Board) (c : ℕ) : List (KanbanTaskId × KanbanTaskStatus) :=
  (b.landed.filter (·.call = c)).map fun e => (e.commit.taskId, e.commit.next.status)

/-- The task has the statuses one after another from version `v` on. -/
def Board.Passes (b : Board) (k : KanbanTaskId) (v : ℕ) (walk : List KanbanTaskStatus) : Prop :=
  ∀ i status, walk[i]? = some status → v + i ≤ (b.stream k).length ∧
    ∃ t, b.taskAt k (v + i) = .ok (some t) ∧ t.status = status

/-- A call that has found the task at version `v` has made some moves of the path it goes. -/
structure Walked (b : Board) (c : ℕ) (k : KanbanTaskId) (v : ℕ) (src : KanbanTaskStatus)
    (made : List KanbanTaskStatus) : Prop where
  moves : b.moves c = made.map (k, ·)
  passes : b.Passes k v (src :: made)

/-- How a call stands that has made some moves, with the rest before it. -/
inductive Stage.Walks (k : KanbanTaskId) (v : ℕ) (src : KanbanTaskStatus)
    (made : List KanbanTaskStatus) : List KanbanTaskStatus → Stage → Prop
  | walking {current : KanbanTask} {rest : List KanbanTaskStatus}
    (hversion : current.version = v + made.length) (hstatus : current.status = made.getLastD src) :
    Walks k v src made rest (.walking current rest)
  | appending {commit : Commit} {rest : List KanbanTaskStatus} (htask : commit.taskId = k)
    (hversion : commit.next.version = v + (made.length + 1)) :
    Walks k v src made (commit.next.status :: rest) (.appending commit (.walk rest))
  | indexing {next : KanbanTask} {rest : List KanbanTaskStatus}
    (hversion : next.version = v + made.length) (hstatus : next.status = made.getLastD src) :
    Walks k v src made rest (.indexing next (.walk rest))
  | arrived {task : KanbanTask} (hversion : task.version = v + made.length)
    (hstatus : task.status = made.getLastD src) :
    Walks k v src made [] (.finished (.ok (.task task)))
  | failed {rest : List KanbanTaskStatus} {e : KanbanError} :
    Walks k v src made rest (.finished (.error e))

/-- A call to walk that has written nothing, and goes no path. -/
def Stage.Unmoved (k : KanbanTaskId) : Stage → Prop
  | .got task => ∀ t ∈ task, t.id = k
  | .finished (.error _) => True
  | _ => False

def OnPath (b : Board) (c : ℕ) (k : KanbanTaskId) (dst : KanbanTaskStatus) (stage : Stage) : Prop :=
  (b.moves c = [] ∧ stage.Unmoved k) ∨ ∃ v src made rest,
    shortestTransitionPath src dst = some (made ++ rest) ∧ Walked b c k v src made ∧
      stage.Walks k v src made rest

structure Walking (b : Board) : Prop where
  calls_lt : ∀ e ∈ b.landed, e.call < b.calls.length
  onPath : ∀ (c : ℕ) k dst reason stage,
    b.calls[c]? = some ⟨.transitionAlongPath k dst reason, stage⟩ → OnPath b c k dst stage

variable {o : KanbanOptions} {b b' : Board} {c : ℕ} {k : KanbanTaskId} {v : ℕ}
variable {src dst : KanbanTaskStatus} {made : List KanbanTaskStatus} {stage : Stage}
variable {commit : Commit} {draw : Draw} {reason : Option String}

theorem Board.Passes.mono {walk : List KanbanTaskStatus} (h : b.Passes k v walk)
    (hstream : b.stream k <+: b'.stream k) : b'.Passes k v walk := by
  intro i status hi
  obtain ⟨hle, t, ht, hstatus⟩ := h i status hi
  exact ⟨hle.trans hstream.length_le, t, taskAt_of_extends hstream hle ▸ ht, hstatus⟩

/-- The next move, when its event is the one behind those of the walk. -/
theorem Walked.land (h : Walked b c k v src made) (hland : Landing False b b' commit)
    (hlanded : b'.landed = b.landed ++ [⟨c, commit⟩]) (htask : commit.taskId = k)
    (hversion : commit.next.version = v + (made.length + 1)) :
    Walked b' c k v src (made ++ [commit.next.status]) where
  moves := by
    rw [Board.moves, hlanded, List.filter_append, List.map_append, ← Board.moves, h.moves]
    simp [htask]
  passes := by
    subst htask
    have hlast := hland.version.symm.trans hversion
    intro i status hi
    rw [← List.cons_append] at hi
    rcases Nat.lt_or_ge i (src :: made).length with hlt | hge
    · rw [List.getElem?_append_left hlt] at hi
      exact h.passes.mono (hland.prefix_stream _) i status hi
    · rw [List.getElem?_append_right hge, List.getElem?_singleton] at hi
      split at hi
      · next hzero =>
        obtain rfl : commit.next.status = status := Option.some.inj hi
        obtain rfl : i = made.length + 1 := by
          rw [List.length_cons] at hzero hge
          omega
        obtain ⟨u, hu, at_, rfl, -⟩ := hland.last
        rw [← hlast, hland.length]
        exact ⟨le_rfl, _, hu, rfl⟩
      · cases hi

theorem transition_ok {f : Formats} {tasks : Tasks} {command : KanbanTransitionCommand}
    {clock : String} (h : transition f tasks k command clock = .ok commit) :
    ∃ base, tasks.get k = some base ∧ command.expectedVersion = base.version ∧
      canTransition base.status command.dst ∧ commit.taskId = k ∧
      commit.next.status = command.dst ∧ commit.next.version = base.version + 1 := by
  obtain ⟨hcomputed, rfl, base, horigin⟩ := mutate_computed h
  rw [Commit.Computed, horigin] at hcomputed
  obtain ⟨hget, happly, -⟩ := hcomputed
  cases hnext : applyTransition base command clock with
  | error e => simp [Mutation.apply, hnext] at happly
  | ok next =>
    obtain ⟨hversion, hedge, rfl⟩ := applyTransition_ok hnext
    simp only [Mutation.apply, hnext, Except.ok.injEq, Prod.mk.injEq] at happly
    refine ⟨base, hget, hversion, hedge, rfl, ?_, ?_⟩ <;> rw [← happly.2]

namespace OnPath

theorem frame (h : OnPath b c k dst stage) (hmoves : b'.moves c = b.moves c)
    (hstream : b.stream k <+: b'.stream k) : OnPath b' c k dst stage := by
  rcases h with ⟨hnone, hunmoved⟩ | ⟨v, src, made, rest, hpath, hwalked, hstage⟩
  · exact .inl ⟨hmoves.trans hnone, hunmoved⟩
  · exact .inr ⟨v, src, made, rest, hpath,
      ⟨hmoves.trans hwalked.moves, hwalked.passes.mono hstream⟩, hstage⟩

theorem fail {e : KanbanError} (h : OnPath b c k dst stage) :
    OnPath b c k dst (.finished (.error e)) := by
  rcases h with ⟨hnone, -⟩ | ⟨v, src, made, rest, hpath, hwalked, -⟩
  · exact .inl ⟨hnone, trivial⟩
  · exact .inr ⟨v, src, made, rest, hpath, hwalked, .failed⟩

/-- A move that no walk makes is refused, of a task as it was read. -/
theorem refused (hlogged : Logged False b) {task : KanbanTask} (hseen : Seen False b task.id task)
    (hpath : shortestTransitionPath task.status dst = none) :
    ∃ e, transition o.formats b.tasks task.id
      { dst, expectedVersion := task.version, reason } draw.clock = .error e := by
  cases hok : transition o.formats b.tasks task.id
      { dst, expectedVersion := task.version, reason } draw.clock with
  | error e => exact ⟨e, rfl⟩
  | ok commit =>
    obtain ⟨base, hget, hversion, hedge, -⟩ := transition_ok hok
    obtain ⟨at_, rfl, -⟩ := Logged.seen_alike hseen (hlogged.projected _ _ hget) hversion
    have hwalk : HealthyWalk task.status dst [dst] :=
      ⟨by simpa [legalWalk] using hedge, rfl, by simp⟩
    obtain ⟨path, hsome, -⟩ := length_le_of_walk hwalk
    cases hpath.symm.trans hsome

theorem proceed (hlogged : Logged False b) (h : OnPath b c k dst stage)
    (hheld : ∀ t ∈ stage.tasks, Seen False b t.id t) :
    OnPath b c k dst (proceed o b draw (.transitionAlongPath k dst reason) stage) := by
  have hold := h
  rcases h with ⟨hnone, hunmoved⟩ | ⟨v, src, made, rest, hpath, hwalked, hstage⟩
  · cases stage with
    | got task =>
      cases task with
      | none => exact .inl ⟨hnone, trivial⟩
      | some task =>
        obtain rfl : task.id = k := hunmoved task rfl
        have hseen := hheld task List.mem_cons_self
        change OnPath b c task.id dst (target o b.tasks draw task.id dst reason (some task))
        cases hpath : shortestTransitionPath task.status dst with
        | none =>
          obtain ⟨e, he⟩ : ∃ e, transition o.formats b.tasks task.id
              { dst, expectedVersion := task.version, reason } draw.clock = .error e :=
            refused hlogged hseen hpath
          simp only [target, hpath, he, appendOf]
          exact .inl ⟨hnone, trivial⟩
        | some path =>
          simp only [target, hpath]
          obtain ⟨-, -, hle, u, hu, at_, rfl, -⟩ := hseen
          refine .inr ⟨task.version, task.status, [], path, hpath, ⟨hnone, ?_⟩, .walking rfl rfl⟩
          intro i status hi
          cases i with
          | zero => exact ⟨hle, _, hu, Option.some.inj hi⟩
          | succ i => cases hi
    | finished result => exact hold
    | _ => cases hunmoved
  · cases hstage with
    | @walking current _ hversion hstatus =>
      change OnPath b c k dst (hop o b.tasks draw k dst reason current rest)
      cases rest with
      | nil => exact .inr ⟨v, src, made, [], hpath, hwalked, .arrived hversion hstatus⟩
      | cons next rest =>
        rw [hop]
        cases hmove : transition o.formats b.tasks k
          { dst := next, expectedVersion := current.version
            reason := if next = dst then reason else none } draw.clock with
        | error e => exact .inr ⟨v, src, made, next :: rest, hpath, hwalked, .failed⟩
        | ok commit =>
          obtain ⟨base, -, hbase, -, htask, rfl, hnext⟩ := transition_ok hmove
          refine .inr ⟨v, src, made, _, hpath, hwalked, .appending htask ?_⟩
          rw [hnext, ← hbase, hversion, Nat.add_assoc]
    | _ => exact hold

theorem land {after : After} (h : OnPath b c k dst (.appending commit after))
    (hland : Landing False b b' commit) (hlanded : b'.landed = b.landed ++ [⟨c, commit⟩]) :
    OnPath b' c k dst (.indexing commit.next after) := by
  rcases h with ⟨-, hunmoved⟩ | ⟨v, src, made, rest, hpath, hwalked, hstage⟩
  · cases hunmoved
  · cases hstage with
    | @appending _ rest htask hversion =>
      refine .inr ⟨v, src, made ++ [commit.next.status], rest, ?_,
        hwalked.land hland hlanded htask hversion, .indexing ?_ ?_⟩
      · rwa [List.append_assoc]
      · rw [hversion, List.length_append, List.length_singleton]
      · simp

theorem resume {next : KanbanTask} {after : After}
    (h : OnPath b c k dst (.indexing next after)) : OnPath b c k dst (resume next after) := by
  rcases h with ⟨-, hunmoved⟩ | ⟨v, src, made, rest, hpath, hwalked, hstage⟩
  · cases hunmoved
  · cases hstage with
    | indexing hversion hstatus =>
      exact .inr ⟨v, src, made, rest, hpath, hwalked, .walking hversion hstatus⟩

end OnPath

namespace Walking

theorem restage {stage' : Stage} (h : Walking b)
    (hcalls : b'.calls = (b.withStage c stage').calls) (hlanded : b'.landed = b.landed)
    (hstreams : b'.streams = b.streams)
    (hnew : ∀ k dst reason stage, b.calls[c]? = some ⟨.transitionAlongPath k dst reason, stage⟩ →
      OnPath b c k dst stage → OnPath b c k dst stage') : Walking b' where
  calls_lt := by
    rw [hlanded, hcalls]
    simpa [Board.withStage] using h.calls_lt
  onPath := by
    intro d k dst reason stage hcall
    have hframe : ∀ {stage}, OnPath b d k dst stage → OnPath b' d k dst stage := fun hold =>
      hold.frame (by rw [Board.moves, hlanded, Board.moves])
        (by rw [Board.stream, ← hstreams]; exact List.prefix_rfl)
    rw [hcalls] at hcall
    rcases getElem?_withStage hcall with ⟨rfl, ⟨op, old⟩, hold, hop⟩ | ⟨-, hold⟩
    · obtain ⟨rfl, rfl⟩ := Call.mk.inj hop
      exact hframe (hnew k dst reason old hold (h.onPath d k dst reason old hold))
    · exact hframe (h.onPath d k dst reason stage hold)

theorem called (h : Walking b) (hlogged : Logged False b) (op : KanbanOperation) :
    Walking { b.cleared op with
      calls := (b.cleared op).calls ++ [⟨op, start o (b.cleared op) draw op⟩] } := by
  have hcalls : (b.cleared op).calls = b.calls := by cases op <;> rfl
  have hlanded : (b.cleared op).landed = b.landed := by cases op <;> rfl
  have hstream : ∀ k, (b.cleared op).stream k = b.stream k := by cases op <;> exact fun _ => rfl
  constructor
  · intro e he
    rw [hlanded] at he
    rw [hcalls, List.length_append]
    exact (h.calls_lt e he).trans (Nat.lt_succ_self _)
  · intro c k dst reason stage hcall
    simp only [hcalls] at hcall
    rcases getElem?_called hcall with hold | ⟨rfl, hnew⟩
    · exact (h.onPath c k dst reason stage hold).frame (by rw [Board.moves, hlanded, Board.moves])
        ((hstream k).symm ▸ List.prefix_rfl)
    · obtain ⟨rfl, rfl⟩ := Call.mk.inj hnew
      refine .inl ⟨?_, fun t ht => (hlogged.projected k t ht).1⟩
      rw [Board.moves, hlanded, List.filter_eq_nil_iff.mpr, List.map_nil]
      exact fun e he => by simpa using (h.calls_lt e he).ne

theorem land {call : Call} {after : After} (h : Walking b) (hcall : b.calls[c]? = some call)
    (hstage : call.stage = .appending commit after) (hland : Landing False b b' commit)
    (hlanded : b'.landed = b.landed ++ [⟨c, commit⟩])
    (hcalls : b'.calls = (b.withStage c (.indexing commit.next after)).calls) : Walking b' := by
  have hlength : b'.calls.length = b.calls.length := by simp [hcalls, Board.withStage]
  constructor
  · intro e he
    rw [hlanded] at he
    rw [hlength]
    rcases List.mem_append.mp he with he | he
    · exact h.calls_lt e he
    · obtain rfl := List.mem_singleton.mp he
      exact (List.getElem?_eq_some_iff.mp hcall).1
  · intro d k dst reason stage hcall'
    rw [hcalls] at hcall'
    rcases getElem?_withStage hcall' with ⟨rfl, ⟨op, old⟩, hold, hop⟩ | ⟨hne, hold⟩
    · obtain ⟨rfl, rfl⟩ := Call.mk.inj hop
      cases hold.symm.trans hcall
      exact (h.onPath d k dst reason _ (hstage ▸ hold)).land hland hlanded
    · refine (h.onPath d k dst reason stage hold).frame ?_ (hland.prefix_stream k)
      simp [Board.moves, hlanded, Ne.symm hne]

theorem step {input : Input} (h : Walking b) (hlogged : Logged False b)
    (hstep : boardStep o b input = some b') : Walking b' := by
  cases boardStep_moves hstep with
  | called op draw => exact h.called hlogged op
  | failed hcall hidle => exact h.restage rfl rfl rfl fun _ _ _ _ _ hold => hold.fail
  | proceeded draw hcall hidle =>
    refine h.restage rfl rfl rfl fun k dst reason stage hold hpath => ?_
    cases hold.symm.trans hcall
    exact hpath.proceed hlogged fun t ht => hlogged.held _ _ t hcall ht
  | landed hcall hstage happend =>
    exact h.land hcall hstage (hlogged.landing_of hcall hstage happend rfl) rfl rfl
  | indexed hcall hstage =>
    refine h.restage rfl rfl rfl fun k dst reason stage hold hpath => ?_
    cases hold.symm.trans hcall
    exact OnPath.resume (hstage ▸ hpath)
  | @replayed c call task rest draw hcall hstage =>
    refine h.restage (by cases task <;> rfl) (by cases task <;> rfl) (by cases task <;> rfl)
      fun k dst reason stage hold hpath => ?_
    cases hold.symm.trans hcall
    cases hstage
    rcases hpath with ⟨-, hunmoved⟩ | ⟨v, src, made, rest, -, -, hwalks⟩
    · cases hunmoved
    · cases hwalks

theorem initial : Walking .initial where
  calls_lt := by
    intro e he
    cases he
  onPath := by
    intro c k dst reason stage hcall
    cases hcall

theorem reaches {G : Board → Input → Prop} (h : (board o).Reaches G .initial b) : Walking b :=
  h.invariant₂ (fun _ hb => Logged.of_reaches hb) initial
    fun _ _ _ hlogged hb _ hstep => hb.step hlogged hstep

end Walking

/-- What a walk has come to: the moves that it has written lead along a shortest path, with nothing
else of the task in between, and when it returns the task is where it was to go. -/
structure Walk (b : Board) (c : ℕ) (k : KanbanTaskId) (dst : KanbanTaskStatus) (stage : Stage)
    (v : ℕ) (src : KanbanTaskStatus) (path made : List KanbanTaskStatus) : Prop where
  healthy : HealthyWalk src dst path
  shortest : ∀ walk, HealthyWalk src dst walk → path.length ≤ walk.length
  started : made <+: path
  moves : b.moves c = made.map (k, ·)
  passes : b.Passes k v (src :: made)
  arrives : ∀ result, stage = .finished (.ok result) → made = path ∧
    ∃ task, result = .task task ∧ task.status = dst ∧ task.version = v + path.length

/-- A walk of the tools, among any other calls: it writes a shortest walk to where it is to go as
one stretch of the stream, or the beginning of one, or nothing. -/
theorem transitionAlongPath_walks (h : (board o).Reaches anyStep .initial b)
    (hcall : b.calls[c]? = some ⟨.transitionAlongPath k dst reason, stage⟩) :
    (∃ v src path made, Walk b c k dst stage v src path made) ∨
      b.moves c = [] ∧ ∀ result, stage ≠ .finished (.ok result) := by
  rcases (Walking.reaches h).onPath c k dst reason stage hcall with
    ⟨hnone, hunmoved⟩ | ⟨v, src, made, rest, hpath, hwalked, hstage⟩
  · refine .inr ⟨hnone, ?_⟩
    rintro result rfl
    cases hunmoved
  · have hhealthy := shortestTransitionPath_walk hpath
    refine .inl ⟨v, src, made ++ rest, made, hhealthy, fun walk hwalk => ?_,
      List.prefix_append _ _, hwalked.moves, hwalked.passes, ?_⟩
    · obtain ⟨path, hsome, hle⟩ := length_le_of_walk hwalk
      cases hpath.symm.trans hsome
      exact hle
    · rintro result rfl
      cases hstage with
      | arrived hversion hstatus =>
        rw [List.append_nil] at hhealthy ⊢
        exact ⟨rfl, _, rfl, hstatus.trans hhealthy.arrives, hversion⟩

def walkRun : List Input :=
  [.call (.create { title := "task" }) (sampleDraw 1), .resume 0 (sampleDraw 1),
    .resume 0 (sampleDraw 1), .call (.transitionAlongPath (sampleId 1) .ready none) (sampleDraw 1),
    .call (.comment (sampleId 1) { author := "user", body := "note" }) (sampleDraw 2),
    .resume 1 (sampleDraw 1), .resume 1 (sampleDraw 1), .resume 1 (sampleDraw 1),
    .resume 2 (sampleDraw 1)]

theorem transitionAlongPath_walks_sample : ∃ b stage,
    (board sampleOptions).Reaches anyStep .initial b ∧
    b.calls[1]? = some ⟨.transitionAlongPath (sampleId 1) .ready none, stage⟩ ∧
    ((∃ v src path made, Walk b 1 (sampleId 1) .ready stage v src path made) ∨
      b.moves 1 = [] ∧ ∀ result, stage ≠ .finished (.ok result)) := by
  obtain ⟨b, hb, hop⟩ := exists_reaches_of_exec_map (M := board sampleOptions) (s := .initial)
    (f := fun b => b.calls[1]?.map Call.op)
    (a := some (.transitionAlongPath (sampleId 1) .ready none)) walkRun (by decide +kernel)
  obtain ⟨⟨op, stage⟩, hcall, rfl⟩ := Option.map_eq_some_iff.mp hop
  exact ⟨b, stage, hb, hcall, transitionAlongPath_walks hb hcall⟩

end BeeAgent.Kanban
