import BeeAgent.Learning.ProposalStore
import Mathlib.Data.List.Chain
import Mathlib.Data.List.Induction

/-! The proposal store moves a proposal along the edges of its lifecycle, from each version once, as
long as no call reads past a change that it has not seen. -/
namespace BeeAgent.Learning
open Data Transition
open Kanban (Formats)

variable {events : List LearningEvent} {event : LearningEvent} {id : String}

section Counts

theorem changes_append : changes (events ++ [event]) id =
    changes events id + if event.payload.changes id then 1 else 0 := by
  rw [changes, List.countP_append, List.countP_singleton]
  rfl

theorem changes_le_append (events : List LearningEvent) (event : LearningEvent) (id : String) :
    changes events id ≤ changes (events ++ [event]) id := by
  rw [changes_append]
  omega

theorem statusOf_append : statusOf (events ++ [event]) id =
    event.payload.statusAfter id (statusOf events id) := by
  rw [statusOf, List.foldl_append]
  rfl

theorem statusOf_isSome_append (h : (statusOf events id).isSome) :
    (statusOf (events ++ [event]) id).isSome := by
  rw [statusOf_append]
  cases event.payload with
  | proposalCreated | statusChanged =>
    simp only [LearningPayload.statusAfter]
    split
    · rfl
    · exact h
  | _ => exact h

end Counts

/-- How an event goes on from a log: a proposal is created once, and changed along an edge from the
status that it has. -/
def Follows (events : List LearningEvent) : LearningPayload → Prop
  | .proposalCreated proposal => statusOf events proposal.id = none ∧ proposal.version = 1
  | .statusChanged payload => canTransitionProposal payload.src payload.dst ∧
      statusOf events payload.proposalId = some payload.src
  | _ => True

inductive Legal : List LearningEvent → Prop where
  | nil : Legal []
  | snoc {events : List LearningEvent} {event : LearningEvent} (legal : Legal events)
      (follows : Follows events event.payload) : Legal (events ++ [event])

theorem Legal.follows {before after : List LearningEvent} (h : Legal (before ++ event :: after)) :
    Follows before event.payload := by
  induction after using List.reverseRecOn with
  | nil =>
    generalize hall : before ++ [event] = all at h
    cases h with
    | nil => simp at hall
    | snoc legal follows =>
      obtain ⟨rfl, rfl⟩ := List.append_singleton_inj.mp hall
      exact follows
  | append_singleton after last ih =>
    rw [← List.cons_append, ← List.append_assoc] at h
    generalize hall : before ++ event :: after ++ [last] = all at h
    cases h with
    | nil => simp at hall
    | snoc legal follows =>
      obtain ⟨rfl, rfl⟩ := List.append_singleton_inj.mp hall
      exact ih legal

/-- A proposal that the log knows: no version lies beyond the changes, and the last one has the
status of the log. -/
structure Told (events : List LearningEvent) (id : String) (version : ℤ) (status : ProposalStatus) :
    Prop where
  known : (statusOf events id).isSome
  le : version ≤ changes events id + 1
  status : version = changes events id + 1 → statusOf events id = some status

variable {version : ℤ} {status : ProposalStatus}

theorem Told.append (h : Told events id version status) (hfollows : Follows events event.payload) :
    Told (events ++ [event]) id version status := by
  refine ⟨statusOf_isSome_append h.known, ?_, ?_⟩
  · have := h.le
    have := changes_le_append events event id
    omega
  · rw [changes_append, statusOf_append]
    have hle := h.le
    cases hp : event.payload with
    | proposalCreated proposal =>
      simp only [LearningPayload.changes, LearningPayload.statusAfter, Bool.false_eq_true, if_false,
        Nat.add_zero]
      rw [hp] at hfollows
      split
      · next heq =>
        have hknown := h.known
        rw [← heq, hfollows.1] at hknown
        cases hknown
      · exact h.status
    | statusChanged payload =>
      simp only [LearningPayload.changes, LearningPayload.statusAfter, decide_eq_true_eq]
      split
      · intro heq
        omega
      · simpa using h.status
    | _ => simpa [LearningPayload.changes, LearningPayload.statusAfter] using h.status

theorem told_created {proposal : ImprovementProposal}
    (hpayload : event.payload = .proposalCreated proposal)
    (hfollows : Follows events event.payload) :
    Told (events ++ [event]) proposal.id proposal.version proposal.status := by
  rw [hpayload] at hfollows
  have hstatus : statusOf (events ++ [event]) proposal.id = some proposal.status := by
    rw [statusOf_append, hpayload, LearningPayload.statusAfter, if_pos rfl]
  refine ⟨by rw [hstatus]; rfl, ?_, fun _ => hstatus⟩
  rw [hfollows.2]
  omega

theorem told_changed {payload : StatusChanged} (hpayload : event.payload = .statusChanged payload)
    (hle : version ≤ changes events payload.proposalId + 1) :
    Told (events ++ [event]) payload.proposalId (version + 1) payload.dst := by
  have hstatus : statusOf (events ++ [event]) payload.proposalId = some payload.dst := by
    rw [statusOf_append, hpayload, LearningPayload.statusAfter, if_pos rfl]
  refine ⟨by rw [hstatus]; rfl, ?_, fun _ => hstatus⟩
  rw [changes_append, hpayload, LearningPayload.changes, decide_eq_true rfl, if_pos rfl]
  push_cast
  omega

def View (events : List LearningEvent) (proposals : Proposals) : Prop :=
  ∀ id p, proposals.get id = some p → p.id = id ∧ Told events id p.version p.status

theorem View.append {proposals : Proposals} (h : View events proposals)
    (hfollows : Follows events event.payload) : View (events ++ [event]) proposals :=
  fun id p hp => ⟨(h id p hp).1, (h id p hp).2.append hfollows⟩

theorem View.set {proposals : Proposals} (h : View events proposals) {p : ImprovementProposal}
    (hp : Told events p.id p.version p.status) : View events (proposals.set p.id p) := by
  intro id q hq
  rw [OrderedMap.get_set] at hq
  split at hq
  · next heq =>
    cases hq
    exact ⟨heq.symm, heq ▸ hp⟩
  · exact h id q hq

theorem View.fold {before after : Proposals} (h : View events before)
    (hfollows : Follows events event.payload) (hfold : foldEvent before event = .ok after) :
    View (events ++ [event]) after := by
  unfold foldEvent at hfold
  cases hpayload : event.payload with
  | proposalCreated proposal =>
    rw [hpayload] at hfold
    cases hfold
    exact (h.append hfollows).set (told_created hpayload hfollows)
  | statusChanged payload =>
    simp only [hpayload] at hfold
    cases hget : before.get payload.proposalId with
    | none =>
      rw [hget] at hfold
      cases hfold
      exact h.append hfollows
    | some p =>
      rw [hget] at hfold
      cases hfold
      obtain ⟨hid, htold⟩ := h _ p hget
      refine (h.append hfollows).set (p := { p with
        status := payload.dst, version := p.version + 1, updatedAt := event.ingestTime }) ?_
      rw [hid]
      exact told_changed hpayload htold.le
  | other eventType =>
    rw [hpayload] at hfold
    cases hfold
  | _ =>
    rw [hpayload] at hfold
    cases hfold
    exact h.append hfollows

theorem Legal.rebuild {proposals : Proposals} (hlegal : Legal events)
    (h : Learning.rebuild events = .ok proposals) : View events proposals := by
  induction hlegal generalizing proposals with
  | nil =>
    cases h
    intro id p hp
    cases hp
  | @snoc events event legal follows ih =>
    rw [Learning.rebuild, List.foldlM_append, ← Learning.rebuild] at h
    cases hbefore : Learning.rebuild events with
    | error e =>
      rw [hbefore] at h
      cases h
    | ok before =>
      simp only [hbefore, bind, Except.bind, List.foldlM_cons, List.foldlM_nil, pure,
        Except.pure] at h
      cases hfold : foldEvent before event with
      | error e =>
        rw [hfold] at h
        cases h
      | ok after =>
        rw [hfold] at h
        cases h
        exact (ih hbefore).fold follows hfold

/-- What a commit of an operation carries, when the log knew the proposal that it was made from. -/
def Planned (events : List LearningEvent) (op : Operation) (commit : Commit) : Prop :=
  (commit.event = .proposalCreated commit.next ∧ commit.next.version = 1 ∧ ∃ input, op = .create input) ∨
    ∃ payload command, op = .transition payload.proposalId command ∧
      commit.event = .statusChanged payload ∧ canTransitionProposal payload.src payload.dst ∧
      Told events payload.proposalId command.expectedVersion payload.src ∧
      commit.next.id = payload.proposalId ∧ commit.next.status = payload.dst ∧
      commit.next.version = command.expectedVersion + 1

variable {op : Operation} {commit : Commit} {proposals : Proposals} {f : Formats} {draw : Draw}

theorem Planned.append (h : Planned events op commit) (hfollows : Follows events event.payload) :
    Planned (events ++ [event]) op commit := by
  obtain h | ⟨payload, command, hop, hevent, hedge, htold, hrest⟩ := h
  · exact .inl h
  · exact .inr ⟨payload, command, hop, hevent, hedge, htold.append hfollows, hrest⟩

theorem View.planned (h : View events proposals)
    (hcommit : commitOf f proposals draw op = .ok commit) : Planned events op commit := by
  cases op with
  | create input =>
    obtain ⟨hevent, -, -, hversion⟩ := create_ok hcommit
    exact .inl ⟨hevent, hversion, input, rfl⟩
  | transition proposalId command =>
    obtain ⟨current, hget, hversion, hedge, hevent, hnext⟩ := transition_ok hcommit
    obtain ⟨hid, htold⟩ := h _ _ hget
    refine .inr ⟨_, command, rfl, hevent, hedge, hversion ▸ htold, ?_, ?_, ?_⟩
    · rw [hnext]
      exact hid
    · rw [hnext]
    · rw [hnext, ← hversion]

theorem Planned.follows (h : Planned events op commit) (hcurrent : commit.current events) :
    Follows events commit.event := by
  obtain ⟨hevent, hversion, -⟩ | ⟨payload, command, -, hevent, hedge, htold, -, -, hversion⟩ := h
  · simp only [Commit.current, hevent, decide_eq_true_eq] at hcurrent
    rw [hevent]
    exact ⟨hcurrent, hversion⟩
  · simp only [Commit.current, hevent, decide_eq_true_eq] at hcurrent
    rw [hevent]
    refine ⟨hedge, htold.status ?_⟩
    omega

theorem Planned.told (h : Planned events op commit) (hcurrent : commit.current events)
    (hpayload : event.payload = commit.event) :
    Told (events ++ [event]) commit.next.id commit.next.version commit.next.status := by
  have hfollows := hpayload ▸ h.follows hcurrent
  obtain ⟨hevent, -, -⟩ | ⟨payload, command, -, hevent, -, htold, hid, hstatus, hversion⟩ := h
  · exact told_created (hpayload.trans hevent) hfollows
  · rw [hid, hstatus, hversion]
    exact told_changed (hpayload.trans hevent) htold.le

/-- The version that a call has taken its proposal from, once its change is written. -/
def Call.takes (call : Call) : Option (String × ℤ) :=
  match call.stage, call.op with
  | .recorded _, .transition proposalId command => some (proposalId, command.expectedVersion)
  | .finished (.ok _), .transition proposalId command => some (proposalId, command.expectedVersion)
  | _, _ => none

def Call.Sound (events : List LearningEvent) (call : Call) : Prop :=
  match call.stage with
  | .latest commit => Planned events call.op commit
  | .appending commit n => Planned events call.op commit ∧ n ≤ events.length + 1 ∧
      (n = events.length + 1 → commit.current events)
  | .recorded commit => Told events commit.next.id commit.next.version commit.next.status
  | _ => True

structure Sound (s : ProposalStore) : Prop where
  fresh : ∀ e ∈ s.stream, e.eventId < s.nextEventId
  legal : Legal s.events
  view : View s.events s.proposals
  calls : ∀ call ∈ s.calls, call.Sound s.events
  taken : ∀ call ∈ s.calls, ∀ id v, call.takes = some (id, v) → v ≤ changes s.events id
  single : ∀ (i j : ℕ) k, (s.calls[i]?).bind Call.takes = some k →
    (s.calls[j]?).bind Call.takes = some k → i = j

section Steps
variable {s t : ProposalStore} {c : ℕ} {call : Call} {payload : LearningPayload} {now : String}
variable {stage : Stage}

theorem Call.Sound.append (h : call.Sound events) (hfollows : Follows events event.payload) :
    call.Sound (events ++ [event]) := by
  unfold Call.Sound at h ⊢
  cases hstage : call.stage with
  | latest commit =>
    rw [hstage] at h
    exact Planned.append h hfollows
  | appending commit n =>
    simp only [hstage] at h
    refine ⟨h.1.append hfollows, ?_, fun hn => ?_⟩
    · rw [List.length_append, List.length_singleton]
      omega
    · rw [List.length_append, List.length_singleton] at hn
      omega
  | recorded commit =>
    rw [hstage] at h
    exact Told.append h hfollows
  | finished | gone => trivial

theorem ProposalStore.events_grow :
    (s.grow payload now).events = s.events ++ [⟨payload, now⟩] := by
  simp [ProposalStore.events, ProposalStore.grow]

theorem ProposalStore.getElem?_withStage (i : ℕ) : (s.withStage c stage).calls[i]? =
    (s.calls[i]?).map fun call => if c = i then { call with stage } else call := by
  simp only [ProposalStore.withStage, List.getElem?_modify]
  rfl

theorem Sound.initial : Sound .initial where
  fresh e he := by cases he
  legal := .nil
  view id p hp := by cases hp
  calls call hcall := by cases hcall
  taken call hcall := by cases hcall
  single i j k hi := by simp [ProposalStore.initial] at hi

theorem Sound.grow (h : Sound s) (hfollows : Follows s.events payload) :
    Sound (s.grow payload now) := by
  constructor
  · intro e he
    rcases List.mem_append.mp he with hold | hnew
    · exact Nat.lt_succ_of_lt (h.fresh e hold)
    · obtain rfl := List.mem_singleton.mp hnew
      exact Nat.lt_succ_self _
  · rw [ProposalStore.events_grow]
    exact h.legal.snoc hfollows
  · rw [ProposalStore.events_grow]
    exact h.view.append hfollows
  · intro call hcall
    rw [ProposalStore.events_grow]
    exact (h.calls call hcall).append hfollows
  · intro call hcall id v htakes
    rw [ProposalStore.events_grow]
    have hle := h.taken call hcall id v htakes
    have := changes_le_append s.events ⟨payload, now⟩ id
    omega
  · exact h.single

theorem Sound.withStage (h : Sound s) (hc : s.calls[c]? = some call)
    (hstage : Call.Sound s.events { call with stage })
    (htakes : ∀ id v, Call.takes { call with stage } = some (id, v) →
      v ≤ changes s.events id ∧ ∀ j, (s.calls[j]?).bind Call.takes = some (id, v) → c = j) :
    Sound (s.withStage c stage) := by
  have hmem : ∀ {P : Call → Prop}, (∀ a ∈ s.calls, P a) → P { call with stage } →
      ∀ a ∈ (s.withStage c stage).calls, P a := by
    intro P hall hnew a ha
    obtain ⟨i, hi⟩ := List.mem_iff_getElem?.mp ha
    rw [ProposalStore.getElem?_withStage] at hi
    obtain ⟨a', ha', rfl⟩ := Option.map_eq_some_iff.mp hi
    split
    · next heq =>
      subst heq
      cases hc.symm.trans ha'
      exact hnew
    · exact hall a' (List.mem_of_getElem? ha')
  have hbind : ∀ i k, ((s.withStage c stage).calls[i]?).bind Call.takes = some k →
      (c = i ∧ Call.takes { call with stage } = some k) ∨ (s.calls[i]?).bind Call.takes = some k := by
    intro i k hi
    rw [ProposalStore.getElem?_withStage] at hi
    by_cases heq : c = i
    · subst heq
      rw [hc, Option.map_some, if_pos rfl, Option.bind_some] at hi
      exact .inl ⟨rfl, hi⟩
    · simp only [heq, if_false, Option.map_id'] at hi
      exact .inr hi
  refine ⟨h.fresh, h.legal, h.view, hmem h.calls hstage,
    hmem h.taken fun id v hv => (htakes id v hv).1, fun i j k hi hj => ?_⟩
  obtain ⟨rfl, hmine⟩ | hi := hbind i k hi
  · obtain ⟨rfl, -⟩ | hj := hbind j k hj
    · rfl
    · exact (htakes k.1 k.2 hmine).2 j hj
  · obtain ⟨rfl, hmine⟩ | hj := hbind j k hj
    · exact ((htakes k.1 k.2 hmine).2 i hi).symm
    · exact h.single i j k hi hj

theorem Sound.withStage_of_none (h : Sound s) (hc : s.calls[c]? = some call)
    (hstage : Call.Sound s.events { call with stage })
    (htakes : Call.takes { call with stage } = none) : Sound (s.withStage c stage) := by
  refine h.withStage hc hstage fun id v hv => ?_
  rw [htakes] at hv
  cases hv

variable {commit : Commit} {expectedSequence : ℕ}

theorem Sound.land (h : Sound s) (hc : s.calls[c]? = some call)
    (hstage : call.stage = .appending commit expectedSequence) :
    Sound (land s c commit expectedSequence now) := by
  have hcall := h.calls call (List.mem_of_getElem? hc)
  simp only [Call.Sound, hstage] at hcall
  obtain ⟨hplanned, -, hcurrent⟩ := hcall
  unfold Learning.land
  split
  · exact h.withStage_of_none hc trivial rfl
  · next stream happend =>
    obtain ⟨hnext, rfl⟩ := Chronicle.append_fresh (fun e he => (h.fresh e he).ne) happend
    have hnow := hcurrent (by simpa [ProposalStore.events] using hnext)
    have hgrown : Sound (s.grow commit.event now) := h.grow (hplanned.follows hnow)
    have hc' : (s.grow commit.event now).calls[c]? = some call := hc
    refine hgrown.withStage hc' ?_ fun id v hv => ?_
    · rw [Call.Sound, ProposalStore.events_grow]
      exact hplanned.told hnow rfl
    · obtain ⟨-, -, input, hop⟩ | ⟨payload, command, hop, hevent, -, -, -, -, hversion⟩ := hplanned
      · rw [Call.takes, hop] at hv
        cases hv
      · rw [Call.takes, hop] at hv
        cases hv
        simp only [Commit.current, hevent, decide_eq_true_eq] at hnow
        refine ⟨?_, fun j hj => ?_⟩
        · rw [ProposalStore.events_grow, changes_append, hevent, LearningPayload.changes,
            decide_eq_true rfl, if_pos rfl]
          push_cast
          omega
        · obtain ⟨other, hother, htakes⟩ := Option.bind_eq_some_iff.mp hj
          have hle := h.taken other (List.mem_of_getElem? hother) _ _ htakes
          omega

theorem Sound.conclude (h : Sound s) (hc : s.calls[c]? = some call)
    (hstage : call.stage = .recorded commit) : Sound (conclude s c commit) := by
  have hcall := h.calls call (List.mem_of_getElem? hc)
  rw [Call.Sound, hstage] at hcall
  have htakes : Call.takes { call with stage := .finished (.ok commit.next) } = call.takes := by
    cases hop : call.op <;> simp [Call.takes, hstage, hop]
  have hdone : Sound (s.withStage c (.finished (.ok commit.next))) :=
    h.withStage hc trivial fun id v hv => by
      rw [htakes] at hv
      exact ⟨h.taken call (List.mem_of_getElem? hc) id v hv, fun j hj =>
        h.single c j (id, v) (by rw [hc]; exact hv) hj⟩
  exact ⟨hdone.fresh, hdone.legal, h.view.set hcall, hdone.calls, hdone.taken, hdone.single⟩

theorem Sound.called (h : Sound s) (op : Operation) (draw : Draw) :
    Sound { s with calls := s.calls ++ [⟨op, start s f draw op⟩] } := by
  have hnew : Call.Sound s.events ⟨op, start s f draw op⟩ ∧
      Call.takes ⟨op, start s f draw op⟩ = none := by
    unfold start
    cases hcommit : commitOf f s.proposals draw op with
    | error e => exact ⟨trivial, rfl⟩
    | ok commit => exact ⟨h.view.planned hcommit, rfl⟩
  have hbind : ∀ (i : ℕ) k, ((s.calls ++ [⟨op, start s f draw op⟩])[i]?).bind Call.takes = some k →
      (s.calls[i]?).bind Call.takes = some k := by
    intro i k hi
    rcases lt_or_ge i s.calls.length with hlt | hge
    · rwa [List.getElem?_append_left hlt] at hi
    · rw [List.getElem?_append_right hge] at hi
      obtain ⟨a, ha, htakes⟩ := Option.bind_eq_some_iff.mp hi
      obtain rfl := List.mem_singleton.mp (List.mem_of_getElem? ha)
      rw [hnew.2] at htakes
      cases htakes
  refine ⟨h.fresh, h.legal, h.view, fun a ha => ?_, fun a ha id v hv => ?_, fun i j k hi hj =>
    h.single i j k (hbind i k hi) (hbind j k hj)⟩
  · rcases List.mem_append.mp ha with hold | hlast
    · exact h.calls a hold
    · obtain rfl := List.mem_singleton.mp hlast
      exact hnew.1
  · rcases List.mem_append.mp ha with hold | hlast
    · exact h.taken a hold id v hv
    · obtain rfl := List.mem_singleton.mp hlast
      rw [hnew.2] at hv
      cases hv

theorem Call.abandoned_takes {k : String × ℤ} (h : call.abandoned.takes = some k) :
    call.takes = some k := by
  unfold abandoned at h
  split at h
  · exact h
  · cases h

theorem Call.abandoned_sound : call.abandoned.Sound events := by
  unfold abandoned
  cases hstage : call.stage with
  | finished => simp only [Sound, hstage]
  | _ => trivial

theorem Sound.restart (h : Sound s) (hrebuild : rebuild s.events = .ok proposals) :
    Sound { s with proposals, calls := s.calls.map Call.abandoned } := by
  have hbind : ∀ (i : ℕ) k, ((s.calls.map Call.abandoned)[i]?).bind Call.takes = some k →
      (s.calls[i]?).bind Call.takes = some k := by
    intro i k hi
    rw [List.getElem?_map] at hi
    obtain ⟨a, ha, htakes⟩ := Option.bind_eq_some_iff.mp hi
    obtain ⟨b, hb, rfl⟩ := Option.map_eq_some_iff.mp ha
    rw [hb]
    exact Call.abandoned_takes htakes
  refine ⟨h.fresh, h.legal, h.legal.rebuild hrebuild, fun a ha => ?_, fun a ha id v hv => ?_,
    fun i j k hi hj => h.single i j k (hbind i k hi) (hbind j k hj)⟩
  · obtain ⟨b, -, rfl⟩ := List.mem_map.mp ha
    exact Call.abandoned_sound
  · obtain ⟨b, hb, rfl⟩ := List.mem_map.mp ha
    exact h.taken b hb id v (Call.abandoned_takes hv)

theorem Sound.step {i : Input} (h : Sound s) (hguard : Undisturbed s i)
    (hstep : (proposalStore f).step s i = some t) : Sound t := by
  cases proposalStep_moves hstep with
  | call op draw => exact h.called op draw
  | latest hc hstage =>
    have hcall := h.calls _ (List.mem_of_getElem? hc)
    rw [Call.Sound, hstage] at hcall
    have hcurrent := hguard _ hc
    rw [hstage] at hcurrent
    refine h.withStage_of_none hc ⟨hcall, ?_, fun _ => hcurrent⟩ rfl
    simp [Chronicle.getLatestSequence, ProposalStore.events]
  | append hc hstage => exact h.land hc hstage
  | conclude hc hstage => exact h.conclude hc hstage
  | fail hc => exact h.withStage_of_none hc trivial rfl
  | @observed payload now hforeign =>
    refine h.grow ?_
    cases payload with
    | proposalCreated | statusChanged => cases hforeign
    | _ => trivial
  | restart hrebuild => exact h.restart hrebuild

theorem Sound.of_reaches (h : (proposalStore f).Reaches Undisturbed .initial s) : Sound s :=
  h.invariant .initial fun _ _ _ hs hguard hstep => hs.step hguard hstep

end Steps

section Rejected
variable {s t : ProposalStore} {c : ℕ} {call : Call} {i : Input}

/-- The proposal and the version that a successful transition expected. -/
def Call.succeeded (call : Call) : Option (String × ℤ) :=
  match call.stage, call.op with
  | .finished (.ok _), .transition proposalId command => some (proposalId, command.expectedVersion)
  | _, _ => none

theorem Call.takes_of_succeeded {k : String × ℤ} (h : call.succeeded = some k) :
    call.takes = some k := by
  unfold succeeded at h
  split at h
  · next hstage hop =>
    rw [takes, hstage, hop]
    exact h
  · cases h

/-- The step is one of the call. -/
def Input.By (s : ProposalStore) (c : ℕ) : Input → Prop
  | .call _ _ => s.calls.length = c
  | .resume c' _ | .fail c' => c' = c
  | .observed _ _ | .restart => False

/-- A call that has written is not rejected any more. -/
def Stage.written : Stage → Bool
  | .recorded _ | .finished (.ok _) | .gone => true
  | _ => false

def Written (s : ProposalStore) (c : ℕ) : Prop :=
  ∃ call, s.calls[c]? = some call ∧ call.stage.written

theorem Written.withStage {stage : Stage} (h : Written s c) (d : ℕ)
    (hstage : ∀ call, s.calls[d]? = some call → call.stage.written → stage.written) :
    Written (s.withStage d stage) c := by
  obtain ⟨call, hc, hwritten⟩ := h
  refine ⟨_, by rw [ProposalStore.getElem?_withStage, hc]; rfl, ?_⟩
  split
  · next heq => exact hstage call (heq ▸ hc) hwritten
  · exact hwritten

theorem written_withStage {stage : Stage} (hc : s.calls[c]? = some call) (h : stage.written) :
    Written (s.withStage c stage) c :=
  ⟨_, by rw [ProposalStore.getElem?_withStage, hc]; rfl, by simpa using h⟩

theorem Written.step (h : Written s c) (hstep : (proposalStore f).step s i = some t) :
    Written t c := by
  cases proposalStep_moves hstep with
  | call op draw =>
    obtain ⟨call, hc, hwritten⟩ := h
    refine ⟨call, ?_, hwritten⟩
    rw [List.getElem?_append_left (List.getElem?_eq_some_iff.mp hc).1]
    exact hc
  | @latest d now call commit hd hstage =>
    refine h.withStage d fun other hother hwritten => ?_
    cases hd.symm.trans hother
    rw [hstage] at hwritten
    cases hwritten
  | @append d now call commit n hd hstage =>
    unfold land
    split
    · refine h.withStage d fun other hother hwritten => ?_
      cases hd.symm.trans hother
      rw [hstage] at hwritten
      cases hwritten
    · exact h.withStage d fun _ _ _ => rfl
  | @conclude d => exact h.withStage d fun _ _ _ => rfl
  | @fail d call commit hd hstage =>
    refine h.withStage d fun other hother hwritten => ?_
    cases hd.symm.trans hother
    obtain hstage | ⟨n, hstage⟩ := hstage
    all_goals
      rw [hstage] at hwritten
      cases hwritten
  | observed => exact h
  | restart =>
    obtain ⟨call, hc, hwritten⟩ := h
    refine ⟨call.abandoned, by simp only [List.getElem?_map, hc, Option.map_some], ?_⟩
    unfold Call.abandoned
    split
    · exact hwritten
    · rfl

theorem Written.of_reaches {G : ProposalStore → Input → Prop} (h : Written s c)
    (hreach : (proposalStore f).Reaches G s t) : Written t c :=
  hreach.invariant (P := fun s => Written s c) h fun _ _ _ hw _ hstep => hw.step hstep

/-- A step of a call changes nothing, or the call has written. -/
theorem unchanged_or_written (hstep : (proposalStore f).step s i = some t) (hby : i.By s c) :
    (t.stream = s.stream ∧ t.proposals = s.proposals) ∨ Written t c := by
  cases proposalStep_moves hstep with
  | call | latest | fail => exact .inl ⟨rfl, rfl⟩
  | append hd hstage =>
    obtain rfl := hby
    unfold land
    split
    · exact .inl ⟨rfl, rfl⟩
    · exact .inr (written_withStage hd rfl)
  | conclude hd hstage =>
    obtain rfl := hby
    exact .inr (written_withStage hd rfl)
  | observed | restart => exact hby.elim

end Rejected

/-- From each version of a proposal at most one transition succeeds, every recorded change goes
along an edge from the status that the log gives the proposal, and no step of a rejected call
changes the stream or the projection. -/
theorem versions_guarded {s : ProposalStore}
    (h : (proposalStore f).Reaches Undisturbed .initial s) :
    (∀ (i j : ℕ) k, (s.calls[i]?).bind Call.succeeded = some k →
      (s.calls[j]?).bind Call.succeeded = some k → i = j) ∧
    (∀ before event after payload, s.events = before ++ event :: after →
      event.payload = .statusChanged payload → canTransitionProposal payload.src payload.dst ∧
        statusOf before payload.proposalId = some payload.src) ∧
    ∀ (c : ℕ) call error, s.calls[c]? = some call → call.stage = .finished (.error error) →
      ∀ s₀ i s₁, (proposalStore f).step s₀ i = some s₁ → i.By s₀ c →
        (proposalStore f).Reaches Undisturbed s₁ s →
        s₁.stream = s₀.stream ∧ s₁.proposals = s₀.proposals := by
  have hsound := Sound.of_reaches h
  refine ⟨fun i j k hi hj => hsound.single i j k ?_ ?_, fun before event after payload hlog hp => ?_,
    fun c call error hc hstage s₀ i s₁ hstep hby hreach => ?_⟩
  · obtain ⟨a, ha, hsucceeded⟩ := Option.bind_eq_some_iff.mp hi
    exact Option.bind_eq_some_iff.mpr ⟨a, ha, Call.takes_of_succeeded hsucceeded⟩
  · obtain ⟨a, ha, hsucceeded⟩ := Option.bind_eq_some_iff.mp hj
    exact Option.bind_eq_some_iff.mpr ⟨a, ha, Call.takes_of_succeeded hsucceeded⟩
  · have hfollows := (hlog ▸ hsound.legal).follows
    rw [hp] at hfollows
    exact hfollows
  · obtain hsame | hwritten := unchanged_or_written hstep hby
    · exact hsame
    · obtain ⟨call', hc', hwritten'⟩ := hwritten.of_reaches hreach
      cases hc.symm.trans hc'
      rw [hstage] at hwritten'
      cases hwritten'

section Lifecycle

/-- The status that an event gives a proposal. -/
def LearningPayload.sets? (id : String) : LearningPayload → Option ProposalStatus
  | .proposalCreated proposal => if proposal.id = id then some proposal.status else none
  | .statusChanged payload => if payload.proposalId = id then some payload.dst else none
  | _ => none

def statuses (events : List LearningEvent) (id : String) : List ProposalStatus :=
  events.filterMap (·.payload.sets? id)

def Drafts (payload : LearningPayload) : Prop :=
  ∀ proposal, payload = .proposalCreated proposal → proposal.status = .draft

def Stage.unwritten? : Stage → Option Commit
  | .latest commit | .appending commit _ => some commit
  | _ => none

/-- Whatever is created is a draft. -/
structure Drafted (s : ProposalStore) : Prop where
  events : ∀ e ∈ s.events, Drafts e.payload
  calls : ∀ call ∈ s.calls, ∀ commit ∈ call.stage.unwritten?, Drafts commit.event

variable {s t : ProposalStore} {c : ℕ} {call : Call} {stage : Stage} {i : Input}

theorem Drafted.withStage (h : Drafted s)
    (hstage : ∀ commit ∈ stage.unwritten?, Drafts commit.event) : Drafted (s.withStage c stage) := by
  refine ⟨h.events, fun call hcall => ?_⟩
  obtain ⟨j, hj⟩ := List.mem_iff_getElem?.mp hcall
  rw [ProposalStore.getElem?_withStage] at hj
  obtain ⟨old, hold, rfl⟩ := Option.map_eq_some_iff.mp hj
  split
  · exact hstage
  · exact h.calls old (List.mem_of_getElem? hold)

theorem Drafted.grow {payload : LearningPayload} {now : String} (h : Drafted s)
    (hdrafts : Drafts payload) : Drafted (s.grow payload now) := by
  refine ⟨fun e he => ?_, h.calls⟩
  rw [ProposalStore.events_grow] at he
  rcases List.mem_append.mp he with hold | hnew
  · exact h.events e hold
  · rwa [List.mem_singleton.mp hnew]

theorem drafts_of_commitOf (h : commitOf f proposals draw op = .ok commit) :
    Drafts commit.event := by
  intro proposal hproposal
  cases op with
  | create input =>
    obtain ⟨hevent, -, hstatus, -⟩ := create_ok h
    cases hevent.symm.trans hproposal
    exact hstatus
  | transition proposalId command =>
    obtain ⟨current, -, -, -, hevent, -⟩ := transition_ok h
    cases hevent.symm.trans hproposal

theorem Drafted.step (h : Drafted s) (hfresh : ∀ e ∈ s.stream, e.eventId < s.nextEventId)
    (hstep : (proposalStore f).step s i = some t) : Drafted t := by
  cases proposalStep_moves hstep with
  | call op draw =>
    refine ⟨h.events, fun call hcall commit hcommit => ?_⟩
    rcases List.mem_append.mp hcall with hold | hnew
    · exact h.calls call hold commit hcommit
    · rw [List.mem_singleton.mp hnew, start] at hcommit
      cases hop : commitOf f s.proposals draw op with
      | error e => simp [hop, Stage.unwritten?] at hcommit
      | ok commit' =>
        obtain rfl : commit' = commit := by simpa [hop, Stage.unwritten?] using hcommit
        exact drafts_of_commitOf hop
  | @latest c now call commit hc hstage =>
    refine h.withStage fun commit' hcommit => h.calls call (List.mem_of_getElem? hc) commit' ?_
    rwa [hstage]
  | @append c now call commit n hc hstage =>
    unfold land
    split
    · exact h.withStage fun _ hnone => by cases hnone
    · next stream happend =>
      obtain ⟨-, rfl⟩ := Chronicle.append_fresh (fun e he => (hfresh e he).ne) happend
      have hdrafts := h.calls call (List.mem_of_getElem? hc) commit (by rw [hstage]; rfl)
      exact (h.grow hdrafts).withStage (c := c) fun _ hnone => by cases hnone
  | @conclude c now call commit hc hstage =>
    have hdone : Drafted (s.withStage c (.finished (.ok commit.next))) :=
      h.withStage fun _ hnone => by cases hnone
    exact ⟨hdone.events, hdone.calls⟩
  | fail hc hstage => exact h.withStage fun _ hnone => by cases hnone
  | @observed payload now hforeign =>
    refine h.grow fun proposal hproposal => ?_
    subst hproposal
    cases hforeign
  | restart hrebuild =>
    refine ⟨h.events, fun call hcall commit hcommit => ?_⟩
    obtain ⟨old, hold, rfl⟩ := List.mem_map.mp hcall
    unfold Call.abandoned at hcommit
    split at hcommit
    · exact h.calls old hold commit hcommit
    · cases hcommit

theorem drafted_of_reaches (h : (proposalStore f).Reaches Undisturbed .initial s) : Drafted s := by
  refine h.invariant₂ (fun _ hs => (Sound.of_reaches hs).fresh) ⟨fun e he => ?_, fun call hcall => ?_⟩
    fun _ _ _ hfresh hs _ hstep => hs.step hfresh hstep
  · cases he
  · cases hcall

theorem statuses_append : statuses (events ++ [event]) id =
    statuses events id ++ (event.payload.sets? id).toList := by
  simp [statuses, List.filterMap_append, List.filterMap_cons]
  cases event.payload.sets? id <;> rfl

theorem getLast?_statuses (events : List LearningEvent) (id : String) :
    (statuses events id).getLast? = statusOf events id := by
  induction events using List.reverseRecOn with
  | nil => rfl
  | append_singleton events event ih =>
    rw [statuses_append, statusOf_append, List.getLast?_append, ih]
    cases event.payload <;> simp [LearningPayload.sets?, LearningPayload.statusAfter]
    all_goals split <;> simp

/-- A walk of the lifecycle: it begins with a draft and goes along the edges. -/
structure Walks (walk : List ProposalStatus) : Prop where
  chain : walk.IsChain (canTransitionProposal · ·)
  draft : ∀ status ∈ walk.head?, status = .draft

theorem Legal.walks (hlegal : Legal events) (hdrafts : ∀ e ∈ events, Drafts e.payload) (id : String) :
    Walks (statuses events id) := by
  induction hlegal with
  | nil => exact ⟨.nil, fun status hstatus => by cases hstatus⟩
  | @snoc events event legal follows ih =>
    obtain ⟨hchain, hdraft⟩ := ih fun e he => hdrafts e (List.mem_append_left _ he)
    have hlast := hdrafts event (by simp)
    have hold := getLast?_statuses events id
    rw [statuses_append]
    cases hp : event.payload with
    | proposalCreated proposal =>
      rw [hp] at follows
      simp only [LearningPayload.sets?]
      split
      · next heq =>
        subst heq
        rw [follows.1, List.getLast?_eq_none_iff] at hold
        rw [hold]
        exact ⟨.singleton _, fun status hstatus => by
          obtain rfl : proposal.status = status := Option.some.inj hstatus
          exact hlast proposal hp⟩
      · simpa using ⟨hchain, hdraft⟩
    | statusChanged payload =>
      rw [hp] at follows
      simp only [LearningPayload.sets?]
      split
      · next heq =>
        subst heq
        rw [follows.2] at hold
        refine ⟨List.isChain_append.mpr ⟨hchain, .singleton _, fun x hx y hy => ?_⟩, ?_⟩
        · cases hold.symm.trans hx
          cases hy
          exact follows.1
        · intro status hstatus
          cases hall : statuses events payload.proposalId with
          | nil => simp [hall] at hold
          | cons first rest =>
            rw [hall] at hstatus hdraft
            exact hdraft status hstatus
      · simpa using ⟨hchain, hdraft⟩
    | _ => simpa [LearningPayload.sets?] using ⟨hchain, hdraft⟩

theorem Walks.entered {walk : List ProposalStatus} {status : ProposalStatus}
    (h : Walks (walk ++ [status])) (hstatus : status ≠ .draft) :
    ∃ before src, walk = before ++ [src] ∧ canTransitionProposal src status ∧ Walks walk := by
  obtain rfl | ⟨before, src, rfl⟩ := walk.eq_nil_or_concat'
  · exact absurd (h.draft status rfl) hstatus
  · refine ⟨before, src, rfl, ?_, h.chain.left_of_append, ?_⟩
    · exact (List.isChain_append.mp h.chain).2.2 src (by simp) status (by simp)
    · intro first hfirst
      exact h.draft first (by rw [List.head?_append, hfirst]; rfl)

/-- A proposal goes through its lifecycle from a draft on, and none is promoted but from its trial,
which it has entered from its review. -/
theorem lifecycle_walked (h : (proposalStore f).Reaches Undisturbed .initial s) (id : String) :
    Walks (statuses s.events id) ∧ (statusOf s.events id = some .promoted →
      ∃ before, statuses s.events id = before ++ [.review, .trial, .promoted]) := by
  have hwalks := (Sound.of_reaches h).legal.walks (drafted_of_reaches h).events id
  refine ⟨hwalks, fun hpromoted => ?_⟩
  rw [← getLast?_statuses, List.getLast?_eq_some_iff] at hpromoted
  obtain ⟨walk, hwalk⟩ := hpromoted
  rw [hwalk] at hwalks ⊢
  obtain ⟨walk, src, rfl, hedge, hwalks⟩ := hwalks.entered (by decide)
  obtain rfl : src = .trial := by cases src <;> first | rfl | cases hedge
  obtain ⟨walk, src, rfl, hedge, -⟩ := hwalks.entered (by decide)
  obtain rfl : src = .review := by cases src <;> first | rfl | cases hedge
  exact ⟨walk, by simp⟩

end Lifecycle

section Sample

def sampleFormats : Formats := ⟨fun s => s.length = 36, fun s => s.length = 24⟩

def sampleId : String := "018f5a3e-0000-7000-8000-000000000001"

def sampleTime : String := "2026-01-01T00:00:00.000Z"

def sampleInput : CreateProposalInput where
  type := .skill
  targetKey := "skill:lookup"
  basedOnTrajectoryIds := []
  hypothesis := "a lookup skill saves steps"
  proposedChange := .null
  expectedBenefits := []
  risks := []
  evaluationPlan := "count the steps"
  rollbackPlan := "retract the skill"
  autonomyLevel := ⟨1, by decide⟩

def createSample : List Input :=
  [.call (.create sampleInput) ⟨sampleTime, sampleId⟩, .resume 0 sampleTime, .resume 0 sampleTime,
    .resume 0 sampleTime]

def moveSample (dst : ProposalStatus) : Input :=
  .call (.transition sampleId { dst, expectedVersion := 1 }) ⟨sampleTime, ""⟩

def moveOn (dst : ProposalStatus) (c : ℕ) : List Input :=
  [moveSample dst, .resume c sampleTime, .resume c sampleTime, .resume c sampleTime]

theorem versions_guarded_sample : ∃ s, (proposalStore sampleFormats).Reaches Undisturbed .initial s ∧
    s.calls.map Call.succeeded = [none, some (sampleId, 1)] ∧
    ∀ (i j : ℕ) k, (s.calls[i]?).bind Call.succeeded = some k →
      (s.calls[j]?).bind Call.succeeded = some k → i = j := by
  have hcheck : ∀ s i, decide (Undisturbed s i) = true → Undisturbed s i :=
    fun s i => of_decide_eq_true
  have hguard : (proposalStore sampleFormats).Guarded Undisturbed .initial
      (createSample ++ moveOn .testing 1) :=
    Machine.guarded_of_allSteps hcheck _ (by decide +kernel)
  obtain ⟨s, hreach, hsucceeded⟩ := hguard.exists_reaches (f := fun s => s.calls.map Call.succeeded)
    (a := [none, some (sampleId, 1)]) (by decide +kernel)
  exact ⟨s, hreach, hsucceeded, (versions_guarded hreach).1⟩

/-- A proposal on its way to its promotion. -/
def promoteSample : List Input :=
  ([.review, .trial, .promoted] : List ProposalStatus).zipIdx.flatMap fun move =>
    [.call (.transition sampleId { dst := move.1, expectedVersion := move.2 + 1 }) ⟨sampleTime, ""⟩,
      .resume (move.2 + 1) sampleTime, .resume (move.2 + 1) sampleTime,
      .resume (move.2 + 1) sampleTime]

theorem lifecycle_walked_sample : ∃ s, (proposalStore sampleFormats).Reaches Undisturbed .initial s ∧
    statusOf s.events sampleId = some .promoted ∧
    ∃ before, statuses s.events sampleId = before ++ [.review, .trial, .promoted] := by
  have hcheck : ∀ s i, decide (Undisturbed s i) = true → Undisturbed s i :=
    fun s i => of_decide_eq_true
  have hguard : (proposalStore sampleFormats).Guarded Undisturbed .initial
      (createSample ++ promoteSample) :=
    Machine.guarded_of_allSteps hcheck _ (by decide +kernel)
  obtain ⟨s, hreach, hpromoted⟩ := hguard.exists_reaches (f := fun s => statusOf s.events sampleId)
    (a := some .promoted) (by decide +kernel)
  exact ⟨s, hreach, hpromoted, (lifecycle_walked hreach sampleId).2 hpromoted⟩

/-- The second transition reads the latest sequence when the change of the first is written and its
proposal not yet put into the projection: both succeed from version 1. -/
theorem both_succeed : ∃ s, (proposalStore sampleFormats).Reaches Machine.anyStep .initial s ∧
    s.calls.map Call.succeeded = [none, some (sampleId, 1), some (sampleId, 1)] :=
  Machine.exists_reaches_of_exec_map
    (createSample ++ [moveSample .testing, .resume 1 sampleTime, .resume 1 sampleTime,
      moveSample .rejected, .resume 2 sampleTime, .resume 2 sampleTime, .resume 1 sampleTime,
      .resume 2 sampleTime]) (by decide +kernel)

end Sample

end BeeAgent.Learning
