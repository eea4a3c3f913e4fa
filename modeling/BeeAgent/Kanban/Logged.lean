import BeeAgent.Kanban.Steps

/-! The log behind the board: every projected task, and every task a call still goes by, is what the
events of its stream fold to at its version, up to the time of the last update, which the fold of a
comment does not move. -/
namespace BeeAgent.Kanban
open Data Transition

/-- The four mutations, by what they need and what they make. -/
inductive Applied (base : KanbanTask) : Mutation → KanbanTaskEvent → KanbanTask → Prop where
  | transition {command : KanbanTransitionCommand} {clock : String} {next : KanbanTask}
    (h : applyTransition base command clock = .ok next) :
    Applied base (.transition command clock)
      (.statusChanged base.status next.status command.reason next) next
  | renewed {leaseId expiresAt : String} (hstatus : base.status = .running)
    (hlease : base.leaseId? = some leaseId) :
    Applied base (.renewLease leaseId expiresAt) (.leaseRenewed leaseId expiresAt)
      (base.renewed expiresAt)
  | updated {patch : KanbanTaskUpdate} {clock : String} (hversion : patch.expectedVersion = base.version) :
    Applied base (.update patch clock) (.updated (base.patched patch clock))
      (base.patched patch clock)
  | commented (note : KanbanComment) :
    Applied base (.comment note) (.commented note)
      { base.commentedWith note with updatedAt := note.at_ }

variable {f : Formats} {base next t u : KanbanTask} {mutation : Mutation} {event : KanbanTaskEvent}

theorem applied_of_apply (h : mutation.apply f base = .ok (event, next)) :
    Applied base mutation event next := by
  cases mutation with
  | transition command clock =>
    simp only [Mutation.apply] at h
    split at h
    · cases h
    · next next' hnext =>
      cases h
      exact .transition hnext
  | renewLease leaseId expiresAt =>
    simp only [Mutation.apply] at h
    split at h
    · cases h
    · next hheld =>
      rw [not_or, not_not, not_not] at hheld
      cases h
      exact .renewed hheld.1 hheld.2
  | update patch clock =>
    simp only [Mutation.apply] at h
    split at h
    · cases h
    · next hversion =>
      split at h
      · cases h
      · next next' hparse =>
        cases h
        rw [parseTask_ok hparse]
        exact .updated (not_not.mp hversion)
  | comment note =>
    cases h
    exact .commented note

namespace Applied

theorem id_eq (h : Applied base mutation event next) : next.id = base.id := by
  cases h with
  | transition h =>
    obtain ⟨-, -, rfl⟩ := applyTransition_ok h
    rfl
  | _ => rfl

theorem version_eq (h : Applied base mutation event next) : next.version = base.version + 1 := by
  cases h with
  | transition h =>
    obtain ⟨-, -, rfl⟩ := applyTransition_ok h
    rfl
  | _ => rfl

theorem idempotencyKey_eq (h : Applied base mutation event next) :
    next.idempotencyKey = base.idempotencyKey := by
  cases h with
  | transition h =>
    obtain ⟨-, -, rfl⟩ := applyTransition_ok h
    rfl
  | _ => rfl

theorem dependencies_eq (h : Applied base mutation event next) :
    next.dependencies = base.dependencies := by
  cases h with
  | transition h =>
    obtain ⟨-, -, rfl⟩ := applyTransition_ok h
    rfl
  | _ => rfl

end Applied

/-- The fields agree; the time of the last update does where `strict` asks for it. -/
def Alike (strict : Prop) (t u : KanbanTask) : Prop :=
  ∃ at_, u = { t with updatedAt := at_ } ∧ (strict → at_ = t.updatedAt)

namespace Alike
variable {strict : Prop}

theorem refl (strict : Prop) (t : KanbanTask) : Alike strict t t := ⟨t.updatedAt, rfl, fun _ => rfl⟩

theorem symm (h : Alike strict t u) : Alike strict u t := by
  obtain ⟨at_, rfl, hat⟩ := h
  exact ⟨t.updatedAt, rfl, fun hstrict => (hat hstrict).symm⟩

theorem trans {v : KanbanTask} (h : Alike strict t u) (h' : Alike strict u v) :
    Alike strict t v := by
  obtain ⟨at_, rfl, hat⟩ := h
  obtain ⟨at', rfl, hat'⟩ := h'
  exact ⟨at', rfl, fun hstrict => (hat' hstrict).trans (hat hstrict)⟩

theorem eq (h : Alike strict t u) (hstrict : strict) : t = u := by
  obtain ⟨at_, rfl, hat⟩ := h
  rw [hat hstrict]

end Alike

/-- The time that the fold gives a task is the one its mutation gives it. -/
def Mutation.keepsTime (base : KanbanTask) : Mutation → Prop
  | .comment note => note.at_ = base.updatedAt
  | _ => True

instance (base : KanbanTask) (mutation : Mutation) : Decidable (mutation.keepsTime base) := by
  cases mutation <;> unfold Mutation.keepsTime <;> infer_instance

/-- The event of a mutation does to the folded task what the mutation does to the live one. -/
theorem Applied.fold {strict : Prop} (h : Applied base mutation event next)
    (halike : Alike strict base t) (htime : strict → mutation.keepsTime base) :
    ∃ t', foldTask (some t) event = .ok t' ∧ Alike strict next t' := by
  obtain ⟨at_, rfl, hat⟩ := halike
  cases h with
  | transition h => exact ⟨next, rfl, .refl _ _⟩
  | renewed hstatus hlease =>
    refine ⟨_, if_neg ?_, at_, rfl, hat⟩
    rw [not_or, not_not, not_not]
    exact ⟨hstatus, hlease⟩
  | updated hversion => exact ⟨_, rfl, .refl _ _⟩
  | commented note =>
    refine ⟨_, rfl, at_, rfl, fun hstrict => ?_⟩
    rw [hat hstrict]
    exact (htime hstrict).symm

theorem foldStream_append (events : List KanbanTaskEvent) (event : KanbanTaskEvent) :
    foldStream (events ++ [event]) =
      match foldStream events with
      | .error e => .error e
      | .ok task => (foldTask task event).map some := by
  unfold foldStream
  rw [List.foldlM_append]
  cases List.foldlM (fun task event => (foldTask task event).map some) none events with
  | error e => rfl
  | ok task =>
    simp only [List.foldlM_cons, List.foldlM_nil, bind_pure]
    rfl

/-- The task that the first `n` events of a stream make. -/
def Board.taskAt (b : Board) (k : KanbanTaskId) (n : ℕ) : Except KanbanError (Option KanbanTask) :=
  foldStream ((b.events k).take n)

/-- The task is the one that the events of its stream make at its version. -/
def Seen (strict : Prop) (b : Board) (k : KanbanTaskId) (t : KanbanTask) : Prop :=
  t.id = k ∧ 0 < t.version ∧ t.version ≤ (b.stream k).length ∧
    ∃ u, b.taskAt k t.version = .ok (some u) ∧ Alike strict t u

/-- An append that starts a task, or goes by a task that was seen. -/
inductive Asked (strict : Prop) (b : Board) (commit : Commit) : Prop where
  | created {init : NewKanbanTaskInit} (horigin : commit.origin = .created init)
    (hnew : Newborn init commit.next) (hid : commit.next.id = commit.taskId)
    (hevent : commit.event = .created commit.next) (hsequence : commit.expectedSequence = 1)
  | mutated {base : KanbanTask} {mutation : Mutation} (horigin : commit.origin = .mutated base mutation)
    (hbase : Seen strict b commit.taskId base)
    (happlied : Applied base mutation commit.event commit.next)
    (htime : strict → mutation.keepsTime base)
    (hsequence : commit.expectedSequence = base.version + 1)

structure Logged (strict : Prop) (b : Board) : Prop where
  numbered : ∀ k, ∀ e ∈ b.stream k, e.eventId < b.nextEventId
  versions : ∀ k n, 0 < n → n ≤ (b.stream k).length →
    ∃ u, b.taskAt k n = .ok (some u) ∧ u.version = n ∧ u.id = k
  projected : ∀ k t, b.tasks.get k = some t → Seen strict b k t
  held : ∀ (c : ℕ) (call : Call) (t : KanbanTask), b.calls[c]? = some call → t ∈ call.stage.tasks → Seen strict b t.id t
  asked : ∀ (c : ℕ) (call : Call) (commit : Commit) (after : After), b.calls[c]? = some call →
    call.stage = .appending commit after → Asked strict b commit

section Frame
variable {strict : Prop} {b b' : Board} {k : KanbanTaskId} {n : ℕ}

theorem taskAt_of_extends (h : b.stream k <+: b'.stream k) (hn : n ≤ (b.stream k).length) :
    b'.taskAt k n = b.taskAt k n := by
  obtain ⟨more, hmore⟩ := h
  have hlen : n ≤ (b.events k).length := by simpa only [Board.events, List.length_map] using hn
  rw [Board.taskAt, Board.taskAt, Board.events, ← hmore, List.map_append,
    List.take_append_of_le_length (by simpa using hn)]
  rfl

theorem Seen.mono (h : Seen strict b k t) (hstream : b.stream k <+: b'.stream k) :
    Seen strict b' k t := by
  obtain ⟨hid, hpos, hle, u, hu, halike⟩ := h
  refine ⟨hid, hpos, hle.trans hstream.length_le, u, ?_, halike⟩
  rw [taskAt_of_extends hstream hle]
  exact hu

theorem Asked.mono {commit : Commit} (h : Asked strict b commit)
    (hstream : ∀ k, b.stream k <+: b'.stream k) : Asked strict b' commit := by
  cases h with
  | created horigin hnew hid hevent hsequence =>
    exact .created horigin hnew hid hevent hsequence
  | mutated horigin hbase happlied htime hsequence =>
    exact .mutated horigin (hbase.mono (hstream _)) happlied htime hsequence

theorem stream_set (b : Board) (k k' : KanbanTaskId) (s : Stream) :
    ((b.streams.set k s).get k').getD [] = if k' = k then s else b.stream k' := by
  rw [OrderedMap.get_set, Board.stream]
  split <;> rfl

theorem taskAt_length (b : Board) (k : KanbanTaskId) :
    b.taskAt k (b.stream k).length = foldStream (b.events k) := by
  rw [Board.taskAt, List.take_of_length_le (by simp [Board.events])]

/-- An append that goes through writes its event at the end of its stream. -/
structure Landing (strict : Prop) (b b' : Board) (commit : Commit) : Prop where
  asked : Asked strict b commit
  sequence : commit.expectedSequence = (b.stream commit.taskId).length + 1
  streams : ∀ k, b'.stream k = if k = commit.taskId then
    b.stream commit.taskId ++ [⟨b.nextEventId, commit.event⟩] else b.stream k
  last : ∃ u, b'.taskAt commit.taskId ((b.stream commit.taskId).length + 1) = .ok (some u) ∧
    Alike strict commit.next u
  version : commit.next.version = (b.stream commit.taskId).length + 1
  id : commit.next.id = commit.taskId

namespace Landing
variable {commit : Commit}

theorem prefix_stream (h : Landing strict b b' commit) (k : KanbanTaskId) :
    b.stream k <+: b'.stream k := by
  rw [h.streams]
  split
  · next heq => exact heq ▸ List.prefix_append _ _
  · exact List.prefix_rfl

theorem length (h : Landing strict b b' commit) :
    (b'.stream commit.taskId).length = (b.stream commit.taskId).length + 1 := by
  simp [h.streams]

theorem le_length (h : Landing strict b b' commit) (hn : n ≤ (b'.stream k).length) :
    n ≤ (b.stream k).length ∨ k = commit.taskId ∧ n = (b.stream commit.taskId).length + 1 := by
  rw [h.streams] at hn
  split at hn
  · next heq =>
    subst heq
    simp only [List.length_append, List.length_singleton] at hn
    rcases Nat.lt_or_eq_of_le hn with hlt | heq
    · exact .inl (Nat.lt_succ_iff.mp hlt)
    · exact .inr ⟨rfl, heq⟩
  · exact .inl hn

theorem events (h : Landing strict b b' commit) :
    b'.events commit.taskId = b.events commit.taskId ++ [commit.event] := by
  simp [Board.events, h.streams]

end Landing

end Frame

namespace Logged
variable {strict : Prop} {b b' : Board} {o : KanbanOptions} {k : KanbanTaskId}
variable {c : ℕ} {call : Call} {stage : Stage} {commit : Commit} {after : After} {draw : Draw}

theorem seen_alike (ht : Seen strict b k t) (hu : Seen strict b k u)
    (hversion : t.version = u.version) : Alike strict t u := by
  obtain ⟨-, -, -, v, hv, hlive⟩ := ht
  obtain ⟨-, -, -, w, hw, hlive'⟩ := hu
  rw [hversion, hw] at hv
  obtain rfl : w = v := Option.some.inj (Except.ok.inj hv)
  exact hlive.trans hlive'.symm

theorem shows (h : Logged strict b) (ht : b.Shows t) : Seen strict b t.id t := by
  rcases ht with ⟨k, hk⟩ | ⟨k, hk⟩
  · have := h.projected k t hk
    rwa [this.1]
  · rcases Nat.eq_zero_or_pos (b.stream k).length with hzero | hpos
    · rw [Board.events, List.length_eq_zero_iff.mp hzero] at hk
      cases hk
    · obtain ⟨u, hu, hversion, hid⟩ := h.versions k _ hpos le_rfl
      rw [taskAt_length, hk] at hu
      obtain rfl : t = u := by simpa using hu
      rw [hid]
      refine ⟨hid, by omega, by omega, t, ?_, .refl _ _⟩
      rw [hversion, taskAt_length, hk]

theorem withStage (h : Logged strict b) (hcall : b.calls[c]? = some call)
    (htasks : ∀ t ∈ stage.tasks, Seen strict b t.id t)
    (hasked : ∀ commit after, stage = .appending commit after → Asked strict b commit) :
    Logged strict (b.withStage c stage) where
  numbered := h.numbered
  versions := h.versions
  projected := h.projected
  held := by
    intro d call' t hcall' ht
    rcases getElem?_withStage hcall' with ⟨rfl, call, -, rfl⟩ | ⟨-, hold⟩
    · exact htasks t ht
    · exact h.held d call' t hold ht
  asked := by
    intro d call' commit after hcall' hstage
    rcases getElem?_withStage hcall' with ⟨rfl, call, -, rfl⟩ | ⟨-, hold⟩
    · exact (hasked commit after hstage).mono fun _ => List.prefix_rfl
    · exact (h.asked d call' commit after hold hstage).mono fun _ => List.prefix_rfl

theorem index (h : Logged strict b) (ht : Seen strict b t.id t) : Logged strict (b.index t) where
  numbered := h.numbered
  versions := h.versions
  projected := by
    intro k u hu
    simp only [Board.index, OrderedMap.get_set] at hu
    split at hu
    · next heq =>
      cases hu
      rwa [heq]
    · exact h.projected k u hu
  held := h.held
  asked := fun c call commit after hcall hstage =>
    (h.asked c call commit after hcall hstage).mono fun _ => List.prefix_rfl

theorem cleared (h : Logged strict b) (op : KanbanOperation) : Logged strict (b.cleared op) := by
  cases op with
  | rebuild =>
    exact ⟨h.numbered, h.versions, fun k t ht => (nomatch ht), h.held,
      fun c call commit after hcall hstage =>
        (h.asked c call commit after hcall hstage).mono fun _ => List.prefix_rfl⟩
  | _ => exact h

theorem called (h : Logged strict b) (hcall : call.stage.tasks.Forall fun t => Seen strict b t.id t)
    (hasked : ∀ commit after, call.stage = .appending commit after → Asked strict b commit) :
    Logged strict { b with calls := b.calls ++ [call] } where
  numbered := h.numbered
  versions := h.versions
  projected := h.projected
  held := by
    intro d call' t hcall' ht
    rcases getElem?_called hcall' with hold | ⟨-, rfl⟩
    · exact h.held d call' t hold ht
    · exact List.forall_iff_forall_mem.mp hcall t ht
  asked := by
    intro d call' commit after hcall' hstage
    rcases getElem?_called hcall' with hold | ⟨-, rfl⟩
    · exact (h.asked d call' commit after hold hstage).mono fun _ => List.prefix_rfl
    · exact (hasked commit after hstage).mono fun _ => List.prefix_rfl

theorem asked_of_mutate (h : Logged strict b) {taskId : KanbanTaskId} {mutation : Mutation}
    (hmutate : mutate o.formats b.tasks taskId mutation = .ok commit)
    (htime : strict → ∀ t, b.tasks.get taskId = some t → mutation.keepsTime t) :
    Asked strict b commit := by
  obtain ⟨hcomputed, rfl, base, horigin⟩ := mutate_computed hmutate
  rw [Commit.Computed, horigin] at hcomputed
  obtain ⟨hget, happly, hsequence⟩ := hcomputed
  exact .mutated horigin (h.projected _ _ hget) (applied_of_apply happly)
    (fun hstrict => htime hstrict base hget) hsequence

theorem asked_of_create {init : NewKanbanTaskInit} {uuid clock : String}
    (hcreate : create o.formats init uuid clock = .ok commit) : Asked strict b commit := by
  obtain ⟨hcomputed, horigin⟩ := create_computed .empty hcreate
  rw [Commit.Computed, horigin] at hcomputed
  obtain ⟨uuid, clock, hnew, hid, hevent, hsequence⟩ := hcomputed
  exact .created horigin (newborn_of_newKanbanTask hnew) hid.symm hevent hsequence

theorem keepsTime_of_ne (mutation : Mutation) (h : ∀ note, mutation ≠ .comment note) :
    mutation.keepsTime t := by
  cases mutation with
  | comment note => exact absurd rfl (h note)
  | _ => trivial

theorem asked_of_asks (h : Logged strict b) {op : KanbanOperation} {stage : Option Stage}
    (hasks : Asks o b draw op stage commit)
    (htime : strict → ∀ taskId input, op = .comment taskId input → stage = none →
      ∀ t, b.tasks.get taskId = some t → input.at_.getD draw.clock = t.updatedAt) :
    Asked strict b commit := by
  cases hasks with
  | created hnew hcreate => exact asked_of_create hcreate
  | commented hcomment =>
    exact h.asked_of_mutate hcomment fun hstrict t ht => htime hstrict _ _ rfl rfl t ht
  | mutated hlease hnote hother hclaim hmutate =>
    exact h.asked_of_mutate hmutate fun _ t _ => keepsTime_of_ne _ hnote
  | renewed hlease hmutate => exact h.asked_of_mutate hmutate fun _ t _ => trivial
  | settled hlease howned hversion hclaim hmutate =>
    exact h.asked_of_mutate hmutate fun _ t _ => trivial
  | claimed hversion hdst hclaim hmutate => exact h.asked_of_mutate hmutate fun _ t _ => trivial

/-- The event of an append makes the task that its call goes on to index. -/
theorem landing (hasked : Asked strict b commit)
    (hsequence : commit.expectedSequence = (b.stream commit.taskId).length + 1) :
    ∃ u, foldStream (b.events commit.taskId ++ [commit.event]) = .ok (some u) ∧
      Alike strict commit.next u ∧ commit.next.version = (b.stream commit.taskId).length + 1 ∧
      commit.next.id = commit.taskId := by
  cases hasked with
  | created horigin hnew hid hevent hone =>
    have hversion := hnew.version
    have hzero : (b.stream commit.taskId).length = 0 := by omega
    refine ⟨commit.next, ?_, .refl _ _, by omega, hid⟩
    rw [hevent, Board.events, List.length_eq_zero_iff.mp hzero]
    rfl
  | @mutated base mutation horigin hbase happlied htime hnext =>
    obtain ⟨hid, hpos, hle, u, hu, halike⟩ := hbase
    have hversion : base.version = (b.stream commit.taskId).length := by omega
    rw [hversion, taskAt_length] at hu
    obtain ⟨u', hu', halike'⟩ := happlied.fold halike htime
    refine ⟨u', ?_, halike', by rw [happlied.version_eq, hversion], happlied.id_eq.trans hid⟩
    rw [foldStream_append, hu]
    simp only [hu', Except.map]

theorem landing_of (h : Logged strict b) {stream : Stream}
    (hcall : b.calls[c]? = some call) (hstage : call.stage = .appending commit after)
    (happend : Chronicle.append (b.stream commit.taskId) [⟨b.nextEventId, commit.event⟩]
      commit.expectedSequence = .ok stream)
    (hstreams : b'.streams = b.streams.set commit.taskId stream) : Landing strict b b' commit := by
  have hfresh : ∀ e ∈ b.stream commit.taskId, e.eventId ≠ b.nextEventId := fun e he =>
    (h.numbered _ e he).ne
  obtain ⟨hsequence, rfl⟩ := Chronicle.append_fresh hfresh happend
  have hasked := h.asked c call _ _ hcall hstage
  obtain ⟨u, hu, halike, hversion, hid⟩ := landing hasked hsequence
  have hstream : ∀ k, b'.stream k = if k = commit.taskId then
      b.stream commit.taskId ++ [⟨b.nextEventId, commit.event⟩] else b.stream k := by
    intro k
    rw [Board.stream, hstreams]
    exact stream_set b _ k _
  refine ⟨hasked, hsequence, hstream, ⟨u, ?_, halike⟩, hversion, hid⟩
  have hlen : (b'.stream commit.taskId).length = (b.stream commit.taskId).length + 1 := by
    simp [hstream]
  rw [← hlen, taskAt_length, Board.events, hstream, if_pos rfl, List.map_append]
  exact hu

theorem landed (h : Logged strict b) {stream : Stream} {writes : List Landed}
    (hcall : b.calls[c]? = some call) (hstage : call.stage = .appending commit after)
    (happend : Chronicle.append (b.stream commit.taskId) [⟨b.nextEventId, commit.event⟩]
      commit.expectedSequence = .ok stream) :
    Logged strict { b.withStage c (.indexing commit.next after) with
      streams := b.streams.set commit.taskId stream
      nextEventId := b.nextEventId + 1
      landed := writes } := by
  set b' : Board := { b.withStage c (.indexing commit.next after) with
    streams := b.streams.set commit.taskId stream
    nextEventId := b.nextEventId + 1
    landed := writes } with hb'
  have hland : Landing strict b b' commit := h.landing_of hcall hstage happend rfl
  have hextends := hland.prefix_stream
  obtain ⟨u, hu, halike⟩ := hland.last
  have hnext : Seen strict b' commit.next.id commit.next := by
    rw [hland.id]
    refine ⟨hland.id, ?_, ?_, u, ?_, halike⟩
    · rw [hland.version]
      exact Nat.succ_pos _
    · rw [hland.version, hland.length]
    · rw [hland.version]
      exact hu
  constructor
  · intro k e he
    rw [hland.streams] at he
    split at he
    · rcases List.mem_append.mp he with he | he
      · exact (h.numbered _ e he).trans (Nat.lt_succ_self _)
      · obtain rfl := List.mem_singleton.mp he
        exact Nat.lt_succ_self _
    · exact (h.numbered _ e he).trans (Nat.lt_succ_self _)
  · intro k n hpos hn
    rcases hland.le_length hn with hold | ⟨rfl, rfl⟩
    · rw [taskAt_of_extends (hextends k) hold]
      exact h.versions k n hpos hold
    · obtain ⟨at_, rfl, -⟩ := halike
      exact ⟨_, hu, hland.version, hland.id⟩
  · exact fun k t ht => (h.projected k t ht).mono (hextends k)
  · intro d call' t hcall' ht
    rcases getElem?_withStage hcall' with ⟨rfl, call, -, rfl⟩ | ⟨-, hold⟩
    · rcases List.mem_cons.mp ht with rfl | ht
      · exact hnext
      · refine (h.held _ _ t hcall ?_).mono (hextends _)
        rwa [hstage]
    · exact (h.held d call' t hold ht).mono (hextends _)
  · intro d call' commit' after' hcall' hstage'
    rcases getElem?_withStage hcall' with ⟨rfl, call, -, rfl⟩ | ⟨-, hold⟩
    · cases hstage'
    · exact (h.asked d call' _ _ hold hstage').mono hextends

/-- A comment carries the time of the last update: what the fold of comments takes for granted. -/
def timely (b : Board) : Input → Prop
  | .call (.comment taskId input) draw =>
    ∀ t, b.tasks.get taskId = some t → input.at_.getD draw.clock = t.updatedAt
  | _ => True

theorem step {input : Input} (h : Logged strict b) (htime : strict → timely b input)
    (hstep : boardStep o b input = some b') : Logged strict b' := by
  cases boardStep_moves hstep with
  | called op draw =>
    refine (h.cleared op).called ?_ fun commit after hstage => ?_
    · exact List.forall_iff_forall_mem.mpr fun t ht => (h.cleared op).shows (start_tasks ht)
    · refine (h.cleared op).asked_of_asks (start_asks hstage) fun hstrict taskId input hop _ => ?_
      subst hop
      exact htime hstrict
  | failed hcall hstage =>
    exact h.withStage hcall (fun t ht => nomatch ht) fun commit after hstage => nomatch hstage
  | @proceeded c call draw hcall hidle =>
    refine h.withStage hcall (fun t ht => ?_) fun commit after hstage => ?_
    · rcases proceed_tasks ht with hold | hshows
      · exact h.held c call t hcall hold
      · exact h.shows hshows
    · rcases proceed_asks hstage with hold | hasks
      · exact h.asked c call commit after hcall hold
      · exact h.asked_of_asks hasks fun _ _ _ _ hnone => nomatch hnone
  | landed hcall hstage happend => exact h.landed hcall hstage happend
  | @indexed c call next after draw hcall hstage =>
    have htasks : ∀ t ∈ (Stage.indexing next after).tasks, Seen strict b t.id t := fun t ht =>
      h.held c call t hcall (hstage ▸ ht)
    refine (h.index (htasks next List.mem_cons_self)).withStage hcall
      (fun t ht => htasks t (resume_tasks ht)) fun commit after' hstage' => ?_
    cases after <;> cases hstage'
  | @replayed c call task rest draw hcall hstage =>
    cases task with
    | none => exact h.withStage hcall (fun t ht => nomatch ht) fun commit after hstage => nomatch hstage
    | some t =>
      have ht : Seen strict b t.id t := h.held c call t hcall (by rw [hstage]; simp [Stage.tasks])
      exact (h.index ht).withStage hcall (fun t ht => nomatch ht)
        fun commit after hstage => nomatch hstage

theorem initial : Logged strict .initial where
  numbered := fun k e he => nomatch he
  versions := by
    intro k n hpos hn
    simp [Board.stream, Board.initial] at hn
    omega
  projected := fun k t ht => nomatch ht
  held := fun c call t hcall => nomatch hcall
  asked := fun c call commit after hcall => nomatch hcall

theorem reaches {G : Board → Input → Prop} (hG : ∀ b input, G b input → strict → timely b input)
    (h : (board o).Reaches G .initial b) : Logged strict b :=
  h.invariant initial fun b input _ hb hguard hstep => hb.step (hG b input hguard) hstep

theorem of_reaches {G : Board → Input → Prop} (h : (board o).Reaches G .initial b) :
    Logged False b :=
  reaches (fun _ _ _ hfalse => hfalse.elim) h

end Logged

end BeeAgent.Kanban
