import BeeAgent.Scheduler.Planned

/-! The live map and the copies in flight go by the stream, however the calls interleave. -/
namespace BeeAgent.Scheduler
open Data Transition

namespace AgentScheduler
variable (s : AgentScheduler)

/-- What is still to be folded: by the rebuild that is on, or nothing. -/
def Replays (rest : List SchedulerEvent) : Prop :=
  (∃ (c : ℕ) (call : Call), s.calls[c]? = some call ∧ call.stage.rest? = some rest) ∨
    rest = [] ∧ ∀ (c : ℕ) (call : Call), s.calls[c]? = some call → call.stage.rest? = none

def Returns (t : SchedulerTrigger) : Prop :=
  ∃ (c : ℕ) (call : Call), s.calls[c]? = some call ∧ call.stage.written? = some (.register t)

/-- A firing of the trigger is written, and its call has not gone on yet. -/
def Writes (id : String) : Prop :=
  ∃ (c : ℕ) (call : Call) (t : SchedulerTrigger) (now : String) (run : SchedulerFiredRun)
      (next : Option String) (after : After), s.calls[c]? = some call ∧
    call.stage.written? = some (.fire t now run next after) ∧ t.id = id

def New (id : String) : Prop :=
  (∀ t, .registered t ∈ s.events → t.id ≠ id) ∧
    ∀ (c : ℕ) (call : Call) (t : SchedulerTrigger), s.calls[c]? = some call → call.stage.unwritten? = some (.register t) → t.id ≠ id

end AgentScheduler

/-- `randomUUID` draws new ids, no firing is written before the registration has returned, and no
rebuild is cut off. -/
structure Proper (s : AgentScheduler) (input : Input) : Prop where
  fresh : ∀ init draw, input = .call (.register init) draw → s.New draw.uuid
  returned : ∀ (c : ℕ) (draw : Draw) (call : Call) (t : SchedulerTrigger) (now : String)
    (run : SchedulerFiredRun) (next : Option String) (after : After) (attempt : ℕ),
    input = .resume c draw → s.calls[c]? = some call →
    call.stage = .appending (.fire t now run next after) attempt (s.stream.length + 1) →
    ∀ u, s.Returns u → u.id ≠ t.id
  replayed : ∀ c call, input = .fail c → s.calls[c]? = some call → call.stage.rest? = none

/-- The live map and the copies in flight go by the stream. -/
structure InPlan (s : AgentScheduler) : Prop where
  numbered : Numbered s
  known : ∀ e ∈ s.events, e.isKnown
  keyed : Keyed s.triggers
  distinct : Distinct s.events
  subjects : ∀ e ∈ s.events, ∀ id, e.subject? = some id → ∃ t, .registered t ∈ s.events ∧ t.id = id
  sound : ∀ t, .registered t ∈ s.events → t.Sound
  listed : ∀ id t, s.triggers.get id = some t → ∃ u, .registered u ∈ s.events ∧ u.id = id
  serial : ∀ (c : ℕ) (call : Call), s.calls[c]? = some call → call.stage.exclusive → free s c
  single : ∀ (c c' : ℕ) (call call' : Call) (t t' : SchedulerTrigger), s.calls[c]? = some call → s.calls[c']? = some call' →
    call.stage.unwritten? = some (.register t) → call'.stage.unwritten? = some (.register t') →
    t.id = t'.id → c = c'
  fits : ∀ (c : ℕ) (call : Call), s.calls[c]? = some call → call.Fits s.events
  live : ∀ rest, s.Replays rest → ∀ id t, leaves id (s.triggers.get id) rest = some t →
    planned s.events id = some t ∨ s.Writes id
  kept : ∀ rest, s.Replays rest → ∀ id t, planned s.events id = some t →
    (∀ reason, SchedulerEvent.removed id reason ∉ s.events) →
    leaves id (s.triggers.get id) rest = some t ∨ (∃ u, s.Returns u ∧ u.id = id) ∨ s.Writes id

variable {events rest : List SchedulerEvent} {id : String} {t : SchedulerTrigger}
  {o : SchedulerOptions} {s s' : AgentScheduler} {input : Input} {c c' : ℕ}
  {call call' : Call} {stage : Stage}

theorem free_withStage (hcall : s.calls[c]? = some call) (hover : call.stage.isOver = false)
    (h : free s c') : free (s.withStage c stage) c' := by
  rw [free_iff] at h ⊢
  intro i hi call' hcall' hserialized
  obtain ⟨rfl, call₀, hcall₀, rfl⟩ | ⟨-, hcall'⟩ := withStage_calls hcall'
  · cases hcall.symm.trans hcall₀
    simp [h i hi call hcall hserialized] at hover
  · exact h i hi call' hcall' hserialized

theorem AgentScheduler.Returns.mono (h : s.Returns t)
    (hcalls : ∀ (c : ℕ) (call : Call), s.calls[c]? = some call → call.stage.written?.isSome →
      s'.calls[c]? = some call) : s'.Returns t := by
  obtain ⟨c, call, hcall, hreturns⟩ := h
  exact ⟨c, call, hcalls c call hcall (by simp [hreturns]), hreturns⟩

theorem AgentScheduler.Writes.mono (h : s.Writes id)
    (hcalls : ∀ (c : ℕ) (call : Call), s.calls[c]? = some call → call.stage.written?.isSome →
      s'.calls[c]? = some call) : s'.Writes id := by
  obtain ⟨c, call, t, now, run, next, after, hcall, hwrites, hid⟩ := h
  exact ⟨c, call, t, now, run, next, after, hcalls c call hcall (by simp [hwrites]), hwrites, hid⟩

theorem written_withStage (hcall : s.calls[c]? = some call) (hnotwritten : call.stage.written? = none)
    (c' : ℕ) (call' : Call) (hcall' : s.calls[c']? = some call')
    (hwritten : call'.stage.written?.isSome) : (s.withStage c stage).calls[c']? = some call' := by
  refine (withStage_of_ne ?_).trans hcall'
  rintro rfl
  cases hcall.symm.trans hcall'
  simp [hnotwritten] at hwritten

namespace InPlan

theorem alone (h : InPlan s) (hcall : s.calls[c]? = some call) (hcall' : s.calls[c']? = some call')
    (hexclusive : call.stage.exclusive) (hexclusive' : call'.stage.exclusive) : c = c' := by
  have key : ∀ {c c' : ℕ} {call call' : Call}, s.calls[c]? = some call →
      s.calls[c']? = some call' → call.stage.exclusive → call'.stage.exclusive → ¬ c < c' := by
    intro c c' call call' hcall hcall' hexclusive hexclusive' hlt
    have hover := free_iff.mp (h.serial c' call' hcall' hexclusive') c hlt call hcall
      ((h.fits c call hcall).serialized (.inr hexclusive))
    rw [Stage.not_over_of_exclusive hexclusive] at hover
    cases hover
  exact Nat.le_antisymm (Nat.le_of_not_lt (key hcall' hcall hexclusive' hexclusive))
    (Nat.le_of_not_lt (key hcall hcall' hexclusive hexclusive'))

theorem nobody (h : InPlan s) (hcall : s.calls[c]? = some call) (hstage : call.stage = .queued)
    (hfree : free s c) (hcall' : s.calls[c']? = some call') : ¬ call'.stage.exclusive := by
  intro hexclusive
  have hserialized := (h.fits c' call' hcall').serialized (.inr hexclusive)
  obtain hlt | heq | hlt := Nat.lt_trichotomy c c'
  · have hover := free_iff.mp (h.serial c' call' hcall' hexclusive) c hlt call hcall
      ((h.fits c call hcall).serialized (.inl hstage))
    rw [hstage] at hover
    cases hover
  · subst heq
    cases hcall.symm.trans hcall'
    exact Stage.not_queued_of_exclusive hexclusive hstage
  · have hover := free_iff.mp hfree c' hlt call' hcall' hserialized
    rw [Stage.not_over_of_exclusive hexclusive] at hover
    cases hover

theorem of_calls (h : InPlan s) {calls : List Call} {history : List Happening}
    {kanban : OrderedMap String (List TaskEvent)}
    (hserial : ∀ (c : ℕ) (call : Call), calls[c]? = some call → call.stage.exclusive →
      free { s with calls } c)
    (hsingle : ∀ (c c' : ℕ) (call call' : Call) (t t' : SchedulerTrigger), calls[c]? = some call →
      calls[c']? = some call' → call.stage.unwritten? = some (.register t) →
      call'.stage.unwritten? = some (.register t') → t.id = t'.id → c = c')
    (hfits : ∀ (c : ℕ) (call : Call), calls[c]? = some call → call.Fits s.events)
    (hrest : ∀ rest, AgentScheduler.Replays { s with calls } rest → s.Replays rest)
    (hwritten : ∀ (c : ℕ) (call : Call), s.calls[c]? = some call → call.stage.written?.isSome →
      calls[c]? = some call) : InPlan { s with calls, history, kanban } where
  numbered := h.numbered
  known := h.known
  keyed := h.keyed
  distinct := h.distinct
  subjects := h.subjects
  sound := h.sound
  listed := h.listed
  serial := hserial
  single := hsingle
  fits := hfits
  live rest hreplays id t hleaves :=
    (h.live rest (hrest rest hreplays) id t hleaves).imp_right (·.mono hwritten)
  kept rest hreplays id t hplan hremoved :=
    (h.kept rest (hrest rest hreplays) id t hplan hremoved).imp_right
      (Or.imp (Exists.imp fun _ => And.imp_left (·.mono hwritten)) (·.mono hwritten))

theorem called (h : InPlan s) (op : SchedulerOperation) (draw : Draw)
    (hnew : ∀ init, op = .register init → s.New draw.uuid) (history : List Happening) :
    InPlan { s with calls := s.calls ++ [⟨op, start o s draw op⟩], history } := by
  have hstart := start_cases o s draw op
  generalize start o s draw op = stage at hstart ⊢
  have hexclusive : stage.exclusive = false := by
    obtain ⟨rfl, -⟩ | hover | ⟨init, -, rfl, -⟩ | ⟨id, reason, t, -, -, rfl⟩ := hstart
    · rfl
    · exact Bool.eq_false_iff.mpr fun hexclusive => by
        simp [Stage.not_over_of_exclusive hexclusive] at hover
    · rfl
    · rfl
  have hregister : ∀ t, stage.unwritten? = some (.register t) → s.New t.id := by
    intro t ht
    obtain ⟨rfl, -⟩ | hover | ⟨init, hop, rfl, -⟩ | ⟨id, reason, u, -, -, rfl⟩ := hstart
    · cases ht
    · cases stage with
      | finished | dropped => cases ht
      | _ => cases hover
    · cases ht
      exact hnew init hop
    · cases ht
  refine h.of_calls (fun c call hcall hstage => ?_)
    (fun c c' call call' t t' hcall hcall' ht ht' hid => ?_) (fun c call hcall => ?_)
    (fun rest hreplays => ?_) fun c call hcall _ => ?_
  · obtain hcall | ⟨-, rfl⟩ := append_calls hcall
    · have hlt := (List.getElem?_eq_some_iff.mp hcall).1
      have hfree := free_iff.mp (h.serial c call hcall hstage)
      refine free_iff.mpr fun c' hc' call' hcall' => ?_
      obtain hcall' | ⟨rfl, -⟩ := append_calls hcall'
      · exact hfree c' hc' call' hcall'
      · omega
    · simp [hexclusive] at hstage
  · obtain hcall | ⟨rfl, rfl⟩ := append_calls hcall <;>
      obtain hcall' | ⟨rfl, rfl⟩ := append_calls hcall'
    · exact h.single c c' call call' t t' hcall hcall' ht ht' hid
    · exact absurd hid ((hregister t' ht').2 c call t hcall ht)
    · exact absurd hid.symm ((hregister t ht).2 c' call' t' hcall' ht')
    · rfl
  · obtain hcall | ⟨-, rfl⟩ := append_calls hcall
    · exact h.fits c call hcall
    · obtain ⟨rfl, hserialized⟩ | hover | ⟨init, hop, rfl, hsound⟩ |
        ⟨id, reason, t, -, hget, rfl⟩ := hstart
      · exact .plain (fun _ => hserialized) rfl rfl (by simp [Stage.unwritten?])
      · exact .of_over hover
      · refine .plain (by simp) rfl rfl fun job hjob => ?_
        cases hjob
        exact ⟨hsound, (hregister _ rfl).1⟩
      · refine .plain (by simp) rfl rfl fun job hjob => ?_
        cases hjob
        obtain ⟨u, hu, hid⟩ := h.listed id t hget
        exact ⟨u, id, hu, hid, rfl⟩
  · obtain ⟨c, call, hcall, hrest⟩ | ⟨rfl, hnone⟩ := hreplays
    · obtain hcall | ⟨-, rfl⟩ := append_calls hcall
      · exact .inl ⟨c, call, hcall, hrest⟩
      · simp [Stage.exclusive_of_rest hrest] at hexclusive
    · refine .inr ⟨rfl, fun c call hcall => hnone c call ?_⟩
      rw [List.getElem?_append_left (List.getElem?_eq_some_iff.mp hcall).1]
      exact hcall
  · rw [List.getElem?_append_left (List.getElem?_eq_some_iff.mp hcall).1]
    exact hcall

theorem planned_of_get (h : InPlan s)
    (hrest : ∀ (c : ℕ) (call : Call), s.calls[c]? = some call → call.stage.rest? = none)
    (hwrites : ¬ s.Writes id) (hget : s.triggers.get id = some t) :
    planned s.events id = some t :=
  (h.live [] (.inr ⟨rfl, hrest⟩) id t hget).resolve_right hwrites

theorem turn (h : InPlan s) (hcall : s.calls[c]? = some call) (hstage : call.stage = .queued)
    (hfree : free s c) :
    (∀ (c' : ℕ) (call' : Call), s.calls[c']? = some call' → call'.stage.rest? = none) ∧
      ∀ id, ¬ s.Writes id := by
  constructor
  · intro c' call' hcall'
    by_contra hsome
    obtain ⟨rest, hrest⟩ := Option.ne_none_iff_exists'.mp hsome
    exact h.nobody hcall hstage hfree hcall' (Stage.exclusive_of_rest hrest)
  · rintro id ⟨c', call', t, now, run, next, after, hcall', hwrites, -⟩
    exact h.nobody hcall hstage hfree hcall' (Stage.exclusive_of_fire hwrites)

theorem planned_of_exclusive (h : InPlan s) (hcall : s.calls[c]? = some call)
    (hexclusive : call.stage.exclusive) (hrest : call.stage.rest? = none)
    (hwritten : call.stage.written? = none) (hget : s.triggers.get id = some t) :
    planned s.events id = some t := by
  refine h.planned_of_get (fun c' call' hcall' => ?_) ?_ hget
  · by_contra hsome
    obtain ⟨rest, hrest'⟩ := Option.ne_none_iff_exists'.mp hsome
    obtain rfl := h.alone hcall hcall' hexclusive (Stage.exclusive_of_rest hrest')
    cases hcall.symm.trans hcall'
    exact hsome hrest
  · rintro ⟨c', call', u, now, run, next, after, hcall', hwrites, -⟩
    obtain rfl := h.alone hcall hcall' hexclusive (Stage.exclusive_of_fire hwrites)
    cases hcall.symm.trans hcall'
    simp [hwritten] at hwrites

theorem serial_withStage (h : InPlan s) (hcall : s.calls[c]? = some call)
    (hover : call.stage.isOver = false) (hserial : stage.exclusive → free s c) (c' : ℕ) (call' : Call)
    (hcall' : (s.withStage c stage).calls[c']? = some call') (hstage : call'.stage.exclusive) :
    free (s.withStage c stage) c' := by
  obtain ⟨rfl, call₀, hcall₀, rfl⟩ | ⟨-, hcall'⟩ := withStage_calls hcall'
  · exact free_withStage hcall hover (hserial hstage)
  · exact free_withStage hcall hover (h.serial c' call' hcall' hstage)

theorem single_withStage (h : InPlan s) (hcall : s.calls[c]? = some call)
    (hregister : ∀ t, stage.unwritten? = some (.register t) →
      call.stage.unwritten? = some (.register t)) (c₁ c₂ : ℕ) (call₁ call₂ : Call)
    (t₁ t₂ : SchedulerTrigger) (hcall₁ : (s.withStage c stage).calls[c₁]? = some call₁)
    (hcall₂ : (s.withStage c stage).calls[c₂]? = some call₂)
    (ht₁ : call₁.stage.unwritten? = some (.register t₁))
    (ht₂ : call₂.stage.unwritten? = some (.register t₂)) (hid : t₁.id = t₂.id) : c₁ = c₂ := by
  have hold : ∀ {c' : ℕ} {call' : Call} {t : SchedulerTrigger},
      (s.withStage c stage).calls[c']? = some call' →
      call'.stage.unwritten? = some (.register t) →
      ∃ call', s.calls[c']? = some call' ∧ call'.stage.unwritten? = some (.register t) := by
    intro c' call' t hcall' ht
    obtain ⟨rfl, call₀, hcall₀, rfl⟩ | ⟨-, hcall'⟩ := withStage_calls hcall'
    · exact ⟨call, hcall, hregister t ht⟩
    · exact ⟨call', hcall', ht⟩
  obtain ⟨call₁, hcall₁, ht₁⟩ := hold hcall₁ ht₁
  obtain ⟨call₂, hcall₂, ht₂⟩ := hold hcall₂ ht₂
  exact h.single c₁ c₂ call₁ call₂ t₁ t₂ hcall₁ hcall₂ ht₁ ht₂ hid

theorem moved (h : InPlan s) (hcall : s.calls[c]? = some call) (hover : call.stage.isOver = false)
    (hnotwritten : call.stage.written? = none) (hdone : ∀ rest, call.stage.rest? = some rest → rest = [])
    (hrest : stage.rest? = none) (hserial : stage.exclusive → free s c)
    (hregister : ∀ t, stage.unwritten? = some (.register t) →
      call.stage.unwritten? = some (.register t))
    (hfits : Call.Fits s.events { call with stage }) (history : List Happening) :
    InPlan { s.withStage c stage with history } := by
  refine h.of_calls (h.serial_withStage hcall hover hserial) (h.single_withStage hcall hregister)
    (fun c' call' hcall' => ?_) (fun rest hreplays => ?_) (written_withStage hcall hnotwritten)
  · obtain ⟨rfl, call₀, hcall₀, rfl⟩ | ⟨-, hcall'⟩ := withStage_calls hcall'
    · cases hcall.symm.trans hcall₀
      exact hfits
    · exact h.fits c' call' hcall'
  · obtain ⟨c', call', hcall', hsome⟩ | ⟨rfl, hnone⟩ := hreplays
    · obtain ⟨-, call₀, -, rfl⟩ | ⟨-, hcall'⟩ := withStage_calls hcall'
      · simp [hrest] at hsome
      · exact .inl ⟨c', call', hcall', hsome⟩
    · cases hold : call.stage.rest? with
      | some rest =>
        obtain rfl := hdone rest hold
        exact .inl ⟨c, call, hcall, hold⟩
      | none =>
        refine .inr ⟨rfl, fun c' call' hcall' => ?_⟩
        by_cases heq : c' = c
        · subst heq
          cases hcall.symm.trans hcall'
          exact hold
        · exact hnone c' call' ((withStage_of_ne heq).trans hcall')

theorem advanced (h : InPlan s) (hcall : s.calls[c]? = some call)
    (hadvances : Advances o s c input call.stage stage)
    (hreplayed : ∀ (c : ℕ) (call : Call), input = .fail c → s.calls[c]? = some call →
      call.stage.rest? = none) : InPlan (s.withStage c stage) := by
  obtain ⟨hqueued, hrest, hwritten⟩ := hadvances.plain
  have hfits := h.fits c call hcall
  refine h.moved hcall hadvances.not_over hadvances.not_written (fun rest hold => ?_) hrest
    (fun hstage => h.serial c call hcall (hadvances.exclusive hstage)) (fun t ht => ?_) ?_ _
  · obtain rfl | ⟨event, hmem, e, hfold⟩ | hfail := hadvances.rest hold
    · rfl
    · obtain ⟨triggers, hok, -⟩ := foldEvent_ok h.keyed
        (h.known event (hfits.rest rest hold event hmem))
      cases hfold.symm.trans hok
    · simp [hreplayed c call hfail hcall] at hold
  · obtain ht | ⟨_, _, _, _, _, hjob, -⟩ := hadvances.unwritten ht
    · exact ht
    · cases hjob
  · refine .advance hqueued (fun hstage => hfits.serialized (.inr (hadvances.exclusive hstage)))
      hwritten hrest (fun t ht => ?_) ?_ fun job hjob => ?_
    · obtain hsub | ⟨cursor, n, u, heq, hfind⟩ := hadvances.holds.1
      · exact hfits.held t (hsub.subset ht)
      · obtain rfl : t = u := by simpa [heq] using ht
        have hreads := hadvances.holds.2.resolve_right (by simp [heq])
        exact h.planned_of_exclusive hcall (hadvances.exclusive (Stage.exclusive_of_held ht)) hreads
          hadvances.not_written (h.keyed.get_of_findFrom hfind)
    · obtain hsub | ⟨cursor, n, u, heq, -⟩ := hadvances.holds.1
      · exact hfits.apart.sublist (hsub.map _)
      · simp [heq]
    · obtain hjob | ⟨t, now, run, next, after, rfl, hstage, -⟩ := hadvances.unwritten hjob
      · exact hfits.due job hjob
      · obtain ⟨u, hu, hid⟩ := registered_of_planned (hfits.held t (by simp [hstage, Stage.held]))
        exact ⟨u, t.id, hu, hid, rfl⟩

theorem observed (h : InPlan s) (history : List Happening)
    (kanban : OrderedMap String (List TaskEvent)) : InPlan { s with history, kanban } :=
  h.of_calls h.serial h.single h.fits (fun _ => id) fun _ _ hcall _ => hcall

theorem replayed (h : InPlan s) (hcall : s.calls[c]? = some call) {event : SchedulerEvent}
    {triggers : Triggers} (hstage : call.stage = .replaying (event :: rest))
    (hfold : foldEvent s.triggers event = .ok triggers) :
    InPlan { s.withStage c (.replaying rest) with triggers } := by
  have hfits := h.fits c call hcall
  have hmem : ∀ e ∈ event :: rest, e ∈ s.events := hfits.rest _ (by rw [hstage]; rfl)
  have hexclusive : call.stage.exclusive := by rw [hstage]; rfl
  obtain ⟨triggers', hok, hkeyed, hget⟩ := foldEvent_ok h.keyed
    (h.known event (hmem event (List.mem_cons_self ..)))
  cases hfold.symm.trans hok
  have hold : ∀ rest', AgentScheduler.Replays { s.withStage c (.replaying rest) with triggers } rest' →
      rest' = rest := by
    rintro rest' (⟨c', call', hcall', hsome⟩ | ⟨-, hnone⟩)
    · obtain ⟨-, call₀, -, rfl⟩ | ⟨hne, hcall'⟩ := withStage_calls hcall'
      · exact (Option.some.inj hsome).symm
      · exact absurd (h.alone hcall' hcall (Stage.exclusive_of_rest hsome) hexclusive) hne
    · cases hnone c _ (withStage_self hcall)
  have hleaves : ∀ id, leaves id (triggers.get id) rest =
      leaves id (s.triggers.get id) (event :: rest) := fun id => by
    rw [hget]
    rfl
  have hreplays : s.Replays (event :: rest) := .inl ⟨c, call, hcall, by rw [hstage]; rfl⟩
  have hother : ∀ (c' : ℕ) (call' : Call), s.calls[c']? = some call' →
      call'.stage.written?.isSome → (s.withStage c (.replaying rest)).calls[c']? = some call' :=
    written_withStage hcall (by rw [hstage]; rfl)
  refine ⟨h.numbered, h.known, hkeyed, h.distinct, h.subjects, h.sound,
    fun id t ht => ?_,
    h.serial_withStage hcall (Stage.not_over_of_exclusive hexclusive)
      fun _ => h.serial c call hcall hexclusive,
    h.single_withStage hcall (by simp [Stage.unwritten?]), fun c' call' hcall' => ?_,
    fun rest' hrest' id t ht => ?_, fun rest' hrest' id t hplan hremoved => ?_⟩
  · rw [hget] at ht
    by_cases hsubject : event.subject? = some id
    · exact h.subjects event (hmem event (List.mem_cons_self ..)) id hsubject
    · rw [SchedulerEvent.effect_of_ne hsubject] at ht
      exact h.listed id t ht
  · obtain ⟨-, call₀, hcall₀, rfl⟩ | ⟨-, hcall'⟩ := withStage_calls hcall'
    · cases hcall.symm.trans hcall₀
      exact ⟨fun _ => hfits.serialized (.inr hexclusive), by simp [Stage.held], by simp [Stage.held],
        by simp [Stage.unwritten?], by simp [Stage.written?], by simp [Stage.written?],
        by simp [Stage.written?], fun rest' hr e he => hmem e (List.mem_cons_of_mem _ (by
          rwa [Option.some.inj hr]))⟩
    · exact h.fits c' call' hcall'
  · obtain rfl := hold rest' hrest'
    exact (h.live _ hreplays id t (hleaves id ▸ ht)).imp_right (·.mono hother)
  · obtain rfl := hold rest' hrest'
    rw [hleaves]
    exact (h.kept _ hreplays id t hplan hremoved).imp_right
      (Or.imp (Exists.imp fun _ => And.imp_left (·.mono hother)) (·.mono hother))

theorem not_about (h : InPlan s) (hnew : ∀ t, .registered t ∈ s.events → t.id ≠ id)
    {event : SchedulerEvent} (he : event ∈ s.events) : event.subject? ≠ some id := fun hsubject => by
  obtain ⟨t, ht, hid⟩ := h.subjects event he id hsubject
  exact hnew t ht hid

theorem registered_of_ids (h : InPlan s) (hcall : s.calls[c]? = some call)
    (hid : id ∈ call.stage.ids) : ∃ t, .registered t ∈ s.events ∧ t.id = id := by
  have hfits := h.fits c call hcall
  obtain hid | hid := List.mem_append.mp hid
  · obtain ⟨t, ht, rfl⟩ := List.mem_map.mp hid
    exact registered_of_planned (hfits.held t ht)
  · obtain ⟨job, hjob, hid⟩ := List.mem_flatMap.mp hid
    have hmem := hfits.written job (Option.mem_toList.mp hjob)
    cases job with
    | register t | fire t =>
      exact h.subjects _ hmem id (congrArg some (List.mem_singleton.mp hid).symm)
    | remove => cases hid

theorem landed (h : InPlan s) (hcall : s.calls[c]? = some call) {job : Job} {attempt n : ℕ}
    (hstage : call.stage = .appending job attempt n)
    (hreturned : ∀ t now run next after, job = .fire t now run next after →
      ∀ u, s.Returns u → u.id ≠ t.id) : InPlan (s.record c job) := by
  have hfits := h.fits c call hcall
  have hdue := hfits.due job (by rw [hstage]; rfl)
  have hother : ∀ (c' : ℕ) (call' : Call), s.calls[c']? = some call' →
      call'.stage.written?.isSome → (s.withStage c (.recorded job)).calls[c']? = some call' :=
    written_withStage hcall (by rw [hstage]; rfl)
  have hsubject : ∀ id, job.event.subject? = some id →
      (∃ t, .registered t ∈ s.events ∧ t.id = id) ∨ ∃ t, job = .register t ∧ t.id = id := by
    intro id hid
    cases job with
    | register t => exact .inr ⟨t, rfl, Option.some.inj hid⟩
    | remove | fire =>
      obtain ⟨t, id', ht, hid', hsubject⟩ := hdue
      exact .inl ⟨t, ht, hid'.trans (Option.some.inj (hsubject.symm.trans hid))⟩
  have hold : ∀ rest, (s.record c job).Replays rest → s.Replays rest := by
    rintro rest (⟨c', call', hcall', hsome⟩ | ⟨rfl, hnone⟩)
    · obtain ⟨-, call₀, -, rfl⟩ | ⟨-, hcall'⟩ := withStage_calls hcall'
      · cases hsome
      · exact .inl ⟨c', call', hcall', hsome⟩
    · refine .inr ⟨rfl, fun c' call' hcall' => ?_⟩
      by_cases heq : c' = c
      · subst heq
        cases hcall.symm.trans hcall'
        rw [hstage]
        rfl
      · exact hnone c' call' ((withStage_of_ne heq).trans hcall')
  -- only the plan of the trigger that the job is about changes
  have hplanned : ∀ id, (∀ t, job = .register t → t.id ≠ id) →
      (∀ t now run next after, job = .fire t now run next after → t.id ≠ id) →
      planned (s.record c job).events id = planned s.events id := by
    intro id hregister hfire
    rw [events_record, planned_append]
    cases job with
    | register t => exact SchedulerEvent.plans_of_ne fun heq => hregister t rfl (Option.some.inj heq)
    | remove => rfl
    | fire t => exact SchedulerEvent.plans_of_ne fun heq => hfire t _ _ _ _ rfl (Option.some.inj heq)
  constructor
  case numbered =>
    intro e he
    obtain he | he := List.mem_append.mp he
    · exact Nat.lt_succ_of_lt (h.numbered e he)
    · rw [List.mem_singleton.mp he]
      exact Nat.lt_succ_self _
  case known =>
    rw [events_record]
    intro e he
    obtain he | he := List.mem_append.mp he
    · exact h.known e he
    · rw [List.mem_singleton.mp he]
      cases job <;> rfl
  case keyed => exact h.keyed
  case distinct =>
    rw [Distinct, events_record, List.pairwise_append]
    refine ⟨h.distinct, List.pairwise_singleton .., fun e he e' he' t ht => ?_⟩
    rw [List.mem_singleton.mp he'] at ht
    cases job with
    | register u =>
      cases ht
      exact h.not_about hdue.2 he
    | remove | fire => cases ht
  case subjects =>
    rw [events_record]
    intro e he id hid
    have hregistered : (∃ t, .registered t ∈ s.events ∧ t.id = id) ∨ ∃ t, job = .register t ∧ t.id = id := by
      obtain he | he := List.mem_append.mp he
      · exact .inl (h.subjects e he id hid)
      · rw [List.mem_singleton.mp he] at hid
        exact hsubject id hid
    obtain ⟨t, ht, hid⟩ | ⟨t, rfl, hid⟩ := hregistered
    · exact ⟨t, List.mem_append_left _ ht, hid⟩
    · exact ⟨t, by simp [Job.event], hid⟩
  case sound =>
    rw [events_record]
    intro t ht
    obtain ht | ht := List.mem_append.mp ht
    · exact h.sound t ht
    · cases job with
      | register u =>
        cases List.mem_singleton.mp ht
        exact hdue.1
      | remove | fire => cases List.mem_singleton.mp ht
  case listed =>
    intro id t ht
    obtain ⟨u, hu, hid⟩ := h.listed id t ht
    exact ⟨u, by rw [events_record]; exact List.mem_append_left _ hu, hid⟩
  case serial =>
    exact h.serial_withStage hcall (by rw [hstage]; rfl) fun hexclusive =>
      h.serial c call hcall (by rw [hstage]; cases job <;> exact hexclusive)
  case single => exact h.single_withStage hcall (by simp [Stage.unwritten?])
  case fits =>
    intro c' call' hnow
    rw [events_record]
    obtain ⟨rfl, call₀, hcall₀, rfl⟩ | ⟨hne, hcall'⟩ := withStage_calls hnow
    · cases hcall.symm.trans hcall₀
      exact hfits.record hstage h.not_about
    · refine (h.fits c' call' hcall').append (fun id hid before => ?_) (fun t ht u hu => ?_)
        fun p hp u hu => ?_
      · cases job with
        | remove => rfl
        | register t =>
          refine SchedulerEvent.plans_of_ne fun hsubject => ?_
          obtain ⟨u, hu, heq⟩ := h.registered_of_ids hcall' hid
          exact hdue.2 u hu (heq.trans (Option.some.inj hsubject).symm)
        | fire t now run next after =>
          refine SchedulerEvent.plans_of_ne fun hsubject => ?_
          obtain hexclusive | ⟨u, hu, heq⟩ := Stage.exclusive_of_ids hid
          · exact hne (h.alone hcall' hcall hexclusive (by rw [hstage]; rfl))
          · exact hreturned t now run next after rfl u ⟨c', call', hcall', hu⟩
              (heq.trans (Option.some.inj hsubject).symm)
      · cases job with
        | register v =>
          cases ht
          exact fun hid => hne (h.single c' c call' call u t hcall' hcall hu (by rw [hstage]; rfl)
            hid.symm)
        | remove | fire => cases ht
      · cases job with
        | fire t now run next after =>
          cases hp
          exact fun hid => hreturned t now run next after rfl u ⟨c', call', hcall', hu⟩ hid.symm
        | remove | register => cases hp
  case live =>
    intro rest hrest id t ht
    have hlive := h.live rest (hold rest hrest) id t ht
    by_cases hregister : ∃ u, job = .register u ∧ u.id = id
    · -- the live map does not know it yet
      obtain ⟨u, rfl, rfl⟩ := hregister
      obtain hplan | ⟨c', call', v, now, run, next, after, hcall', hwrites, hid⟩ := hlive
      · obtain ⟨v, hv, hid⟩ := registered_of_planned hplan
        exact absurd hid (hdue.2 v hv)
      · exact absurd (congrArg some hid)
          (h.not_about hdue.2 ((h.fits c' call' hcall').written _ hwrites))
    · by_cases hfire : ∃ u now run next after, job = .fire u now run next after ∧ u.id = id
      · obtain ⟨u, now, run, next, after, rfl, hid⟩ := hfire
        exact .inr ⟨c, _, u, now, run, next, after, withStage_self hcall, rfl, hid⟩
      · rw [hplanned id (fun u hu hid => hregister ⟨u, hu, hid⟩)
          fun u now run next after hu hid => hfire ⟨u, now, run, next, after, hu, hid⟩]
        exact hlive.imp_right (·.mono hother)
  case kept =>
    intro rest hrest id t hplan hremoved
    rw [events_record] at hremoved
    by_cases hregister : ∃ u, job = .register u ∧ u.id = id
    · obtain ⟨u, rfl, hid⟩ := hregister
      exact .inr (.inl ⟨u, ⟨c, _, withStage_self hcall, rfl⟩, hid⟩)
    · by_cases hfire : ∃ u now run next after, job = .fire u now run next after ∧ u.id = id
      · obtain ⟨u, now, run, next, after, rfl, hid⟩ := hfire
        exact .inr (.inr ⟨c, _, u, now, run, next, after, withStage_self hcall, rfl, hid⟩)
      · rw [hplanned id (fun u hu hid => hregister ⟨u, hu, hid⟩)
          fun u now run next after hu hid => hfire ⟨u, now, run, next, after, hu, hid⟩] at hplan
        exact (h.kept rest (hold rest hrest) id t hplan fun reason hmem =>
          hremoved reason (List.mem_append_left _ hmem)).imp_right
            (Or.imp (Exists.imp fun _ => And.imp_left (·.mono hother)) (·.mono hother))

/-- What is written about a trigger whose registration has not returned. -/
theorem written_returning (h : InPlan s) (hcall : s.calls[c]? = some call)
    (hreturns : call.stage.written? = some (.register t)) {e : SchedulerEvent} (he : e ∈ s.events)
    (hsubject : e.subject? = some t.id) :
    e = .registered t ∨ ∃ reason, e = .removed t.id reason := by
  have hfits := h.fits c call hcall
  cases e with
  | registered u =>
    rw [h.distinct.unique he (hfits.written _ hreturns) (Option.some.inj hsubject)]
    exact .inl rfl
  | triggered p => exact absurd (Option.some.inj hsubject) ((hfits.returning t hreturns).2 p he)
  | removed id reason => exact .inr ⟨reason, by rw [Option.some.inj hsubject]⟩
  | other => cases hsubject

theorem concluded (h : InPlan s) (hcall : s.calls[c]? = some call) {job : Job}
    (hstage : call.stage = .recorded job) : InPlan (conclude s c job) := by
  have hfits := h.fits c call hcall
  have hjob : call.stage.written? = some job := by rw [hstage]; rfl
  have hplain := proceed_plain (job.apply s.triggers) job
  have hexclusive : (proceed (job.apply s.triggers) job).exclusive → call.stage.exclusive :=
    fun hexclusive => by rw [hstage]; exact proceed_exclusive hexclusive
  have hover : call.stage.isOver = false := by rw [hstage]; rfl
  have hold : ∀ rest, (conclude s c job).Replays rest → s.Replays rest := by
    rintro rest (⟨c', call', hcall', hsome⟩ | ⟨rfl, hnone⟩)
    · obtain ⟨-, call₀, -, rfl⟩ | ⟨-, hcall'⟩ := withStage_calls hcall'
      · simp [hplain.rest] at hsome
      · exact .inl ⟨c', call', hcall', hsome⟩
    · refine .inr ⟨rfl, fun c' call' hcall' => ?_⟩
      by_cases heq : c' = c
      · subst heq
        cases hcall.symm.trans hcall'
        rw [hstage]
        rfl
      · exact hnone c' call' ((withStage_of_ne heq).trans hcall')
  have hmem : ∀ rest, (conclude s c job).Replays rest → ∀ e ∈ rest, e ∈ s.events := by
    intro rest hreplays e he
    obtain ⟨c', call', hcall', hrest⟩ | ⟨rfl, -⟩ := hold rest hreplays
    · exact (h.fits c' call' hcall').rest rest hrest e he
    · cases he
  have hnothing : call.stage.exclusive → ∀ rest, (conclude s c job).Replays rest → rest = [] := by
    intro hexclusive rest hreplays
    obtain ⟨c', call', hcall', hrest⟩ | ⟨rfl, -⟩ := hold rest hreplays
    · obtain rfl := h.alone hcall hcall' hexclusive (Stage.exclusive_of_rest hrest)
      cases hcall.symm.trans hcall'
      simp [hstage, Stage.rest?] at hrest
    · rfl
  have hwrites : ∀ {id : String}, (∀ t now run next after, job = .fire t now run next after →
      t.id ≠ id) → s.Writes id → (conclude s c job).Writes id := by
    rintro id hne ⟨c', call', t, now, run, next, after, hcall', hwrites, hid⟩
    refine ⟨c', call', t, now, run, next, after, (withStage_of_ne ?_).trans hcall', hwrites, hid⟩
    rintro rfl
    cases hcall.symm.trans hcall'
    exact hne t now run next after (Option.some.inj (hjob.symm.trans hwrites)) hid
  have hreturns : ∀ {u : SchedulerTrigger}, job ≠ .register u → s.Returns u →
      (conclude s c job).Returns u := by
    rintro u hne ⟨c', call', hcall', hreturns⟩
    refine ⟨c', call', (withStage_of_ne ?_).trans hcall', hreturns⟩
    rintro rfl
    cases hcall.symm.trans hcall'
    exact hne (Option.some.inj (hjob.symm.trans hreturns))
  have hlive : ∀ rest, (conclude s c job).Replays rest → ∀ id t,
      leaves id ((job.apply s.triggers).get id) rest = some t →
      planned s.events id = some t ∨ (conclude s c job).Writes id := by
    intro rest hreplays id t ht
    by_cases hsubject : job.event.subject? = some id
    · cases job with
      | register u =>
        cases hsubject
        rw [show ((Job.register u).apply s.triggers).get u.id = some u from
          (LiveMap.get_set ..).trans (if_pos rfl)] at ht
        rw [leaves_unfired (fun e he hsubject => h.written_returning hcall hjob
          (hmem rest hreplays e he) hsubject) (fun v hv => (Option.some.inj hv).symm) t ht]
        exact .inl (hfits.returning u hjob).1
      | remove triggerId reason =>
        obtain rfl := Option.some.inj hsubject
        rw [show ((Job.remove triggerId reason).apply s.triggers).get triggerId = none from
          (LiveMap.get_delete ..).trans (if_pos rfl)] at ht
        exact (h.live rest (hold rest hreplays) triggerId t (leaves_of_none _ ht)).imp_right
          (hwrites (by simp))
      | fire u now run next after =>
        cases hsubject
        obtain rfl : rest = [] := hnothing (by rw [hstage]; rfl) rest hreplays
        exact .inl ((hfits.writing u now run next after hjob).trans
          ((Job.get_apply_fire u now run next after).symm.trans ht))
    · rw [Job.get_apply_of_ne hsubject] at ht
      refine (h.live rest (hold rest hreplays) id t ht).imp_right (hwrites ?_)
      rintro u now run next after rfl rfl
      exact hsubject rfl
  constructor
  case numbered => exact h.numbered
  case known => exact h.known
  case keyed => exact Job.keyed_apply h.keyed
  case distinct => exact h.distinct
  case subjects => exact h.subjects
  case sound => exact h.sound
  case listed =>
    intro id t ht
    by_cases hsubject : job.event.subject? = some id
    · exact h.subjects _ (hfits.written job hjob) id hsubject
    · exact h.listed id t ((Job.get_apply_of_ne hsubject).symm.trans ht)
  case serial =>
    exact h.serial_withStage hcall hover fun hstage' => h.serial c call hcall (hexclusive hstage')
  case single => exact h.single_withStage hcall (by simp [hplain.unwritten])
  case fits =>
    intro c' call' hcall'
    obtain ⟨rfl, call₀, hcall₀, rfl⟩ | ⟨-, hcall'⟩ := withStage_calls hcall'
    · cases hcall.symm.trans hcall₀
      have hholds := proceed_holds (job.apply s.triggers) job
      rw [← hstage] at hholds
      refine .advance hplain.queued (fun hstage' => hfits.serialized (.inr (hexclusive hstage')))
        hplain.written hplain.rest (fun t ht => ?_) ?_ (by simp [hplain.unwritten])
      · obtain hsub | ⟨cursor, n, u, heq, hfind⟩ := hholds
        · exact hfits.held t (hsub.subset ht)
        · obtain rfl : t = u := by simpa [heq] using ht
          have halone := hexclusive (Stage.exclusive_of_held ht)
          refine (hlive [] (.inr ⟨rfl, fun c' call' hcall' => ?_⟩) t.id t
            ((Job.keyed_apply h.keyed).get_of_findFrom hfind)).resolve_right ?_
          · obtain ⟨rfl, call₁, hcall₁, rfl⟩ | ⟨hne, hcall'⟩ := withStage_calls hcall'
            · exact hplain.rest
            · by_contra hsome
              obtain ⟨rest, hrest⟩ := Option.ne_none_iff_exists'.mp hsome
              exact hne (h.alone hcall' hcall (Stage.exclusive_of_rest hrest) halone)
          · rintro ⟨c', call', v, now, run, next, after, hcall', hwrites, -⟩
            obtain ⟨rfl, call₁, hcall₁, rfl⟩ | ⟨hne, hcall'⟩ := withStage_calls hcall'
            · simp [hplain.written] at hwrites
            · exact hne (h.alone hcall' hcall (Stage.exclusive_of_fire hwrites) halone)
      · obtain hsub | ⟨cursor, n, u, heq, -⟩ := hholds
        · exact hfits.apart.sublist (hsub.map _)
        · simp [heq]
    · exact h.fits c' call' hcall'
  case live => exact hlive
  case kept =>
    intro rest hreplays id t hplan hremoved
    show leaves id ((job.apply s.triggers).get id) rest = some t ∨ _
    by_cases hsubject : job.event.subject? = some id
    · left
      cases job with
      | register u =>
        cases hsubject
        obtain rfl : t = u :=
          Option.some.inj (hplan.symm.trans (hfits.returning u hjob).1)
        rw [show ((Job.register t).apply s.triggers).get t.id = some t from
          (LiveMap.get_set ..).trans (if_pos rfl)]
        refine leaves_registered fun e he hsubject => ?_
        refine (h.written_returning hcall hjob (hmem rest hreplays e he) hsubject).resolve_right ?_
        rintro ⟨reason, rfl⟩
        exact hremoved reason (hmem rest hreplays _ he)
      | remove triggerId reason =>
        obtain rfl := Option.some.inj hsubject
        exact absurd (hfits.written _ hjob) (hremoved reason)
      | fire u now run next after =>
        cases hsubject
        obtain rfl : rest = [] := hnothing (by rw [hstage]; rfl) rest hreplays
        exact (Job.get_apply_fire u now run next after).trans
          ((hfits.writing u now run next after hjob).symm.trans hplan)
    · rw [Job.get_apply_of_ne hsubject]
      refine (h.kept rest (hold rest hreplays) id t hplan hremoved).imp_right (Or.imp ?_ ?_)
      · rintro ⟨u, hu, rfl⟩
        refine ⟨u, hreturns ?_ hu, rfl⟩
        rintro rfl
        exact hsubject rfl
      · refine hwrites ?_
        rintro u now run next after rfl rfl
        exact hsubject rfl

theorem entered (h : InPlan s) (hcall : s.calls[c]? = some call) (hstage : call.stage = .queued)
    (hfree : free s c) (now : String) :
    InPlan (((cleared s call.op).happens (.began c call.op)).withStage c
      (enter o s.triggers s.events now call.op)) := by
  have hfits := h.fits c call hcall
  have hserialized := hfits.serialized (.inl hstage)
  have hover : call.stage.isOver = false := by rw [hstage]; rfl
  have hnotwritten : call.stage.written? = none := by rw [hstage]; rfl
  obtain ⟨hnorest, hnowrites⟩ := h.turn hcall hstage hfree
  have hplanned : ∀ t ∈ s.triggers.values, planned s.events t.id = some t := by
    intro t ht
    obtain ⟨id, hget⟩ := LiveMap.mem_values_iff.mp ht
    rw [h.keyed id t hget]
    exact h.planned_of_get hnorest (hnowrites id) hget
  by_cases hop : call.op = .rebuild
  · rw [hop]
    have hother : ∀ (c' : ℕ) (call' : Call), s.calls[c']? = some call' →
        call'.stage.written?.isSome → (s.withStage c (.replaying s.events)).calls[c']? = some call' :=
      written_withStage hcall hnotwritten
    have hold : ∀ rest, AgentScheduler.Replays (((cleared s .rebuild).happens (.began c .rebuild)).withStage c
        (.replaying s.events)) rest → rest = s.events := by
      rintro rest (⟨c', call', hcall', hsome⟩ | ⟨-, hnone⟩)
      · obtain ⟨-, call₀, -, rfl⟩ | ⟨-, hcall'⟩ := withStage_calls hcall'
        · exact (Option.some.inj hsome).symm
        · exact absurd hsome (by simp [hnorest c' call' hcall'])
      · cases hnone c _ (withStage_self hcall)
    constructor
    case numbered => exact h.numbered
    case known => exact h.known
    case keyed =>
      intro id t ht
      cases ht
    case distinct => exact h.distinct
    case subjects => exact h.subjects
    case sound => exact h.sound
    case listed =>
      intro id t ht
      cases ht
    case serial => exact h.serial_withStage hcall hover fun _ => hfree
    case single => exact h.single_withStage hcall (by simp [enter, Stage.unwritten?])
    case fits =>
      intro c' call' hcall'
      obtain ⟨-, call₀, hcall₀, rfl⟩ | ⟨-, hcall'⟩ := withStage_calls hcall'
      · cases hcall.symm.trans hcall₀
        exact ⟨fun _ => hserialized, by simp [enter, Stage.held], by simp [enter, Stage.held],
          by simp [enter, Stage.unwritten?], by simp [enter, Stage.written?],
          by simp [enter, Stage.written?], by simp [enter, Stage.written?],
          fun rest hrest e he => Option.some.inj hrest ▸ he⟩
      · exact h.fits c' call' hcall'
    case live =>
      intro rest hreplays id t ht
      obtain rfl := hold rest hreplays
      exact .inl (planned_of_recorded ht)
    case kept =>
      intro rest hreplays id t hplan hremoved
      obtain rfl := hold rest hreplays
      exact .inl ((recorded_eq_planned hremoved).trans hplan)
  · obtain ⟨hplain, hheld, hapart⟩ := enter_plain (o := o) h.keyed hserialized hop s.events now
    rw [cleared_of_ne s hop]
    refine h.moved hcall hover hnotwritten (fun rest hrest => ?_) hplain.rest (fun _ => hfree)
      (by simp [hplain.unwritten]) ?_ _
    · simp [hstage, Stage.rest?] at hrest
    · exact .advance hplain.queued (fun _ => hserialized) hplain.written hplain.rest
        (fun t ht => hplanned t (hheld t ht)) hapart (by simp [hplain.unwritten])

theorem restarted (h : InPlan s) {triggers : Triggers} (hrebuild : rebuild s.events = .ok triggers) :
    InPlan { s with
      triggers
      calls := s.calls.map fun call => { call with stage := call.stage.drop } } := by
  obtain ⟨triggers', hok, hkeyed, hget⟩ := rebuild_ok h.known
  cases hrebuild.symm.trans hok
  have hcalls : ∀ (c : ℕ) (call : Call), (s.calls.map fun call : Call =>
      { call with stage := call.stage.drop })[c]? = some call → call.stage.isOver := by
    intro c call hcall
    rw [List.getElem?_map] at hcall
    obtain ⟨call₀, -, rfl⟩ := Option.map_eq_some_iff.mp hcall
    cases call₀.stage <;> rfl
  have hover : ∀ {stage : Stage}, stage.isOver → stage.exclusive = false ∧ stage.unwritten? = none ∧
      stage.rest? = none := by
    intro stage hover
    cases stage with
    | finished | dropped => exact ⟨rfl, rfl, rfl⟩
    | _ => cases hover
  have hold : ∀ rest, AgentScheduler.Replays { s with
      triggers
      calls := s.calls.map fun call => { call with stage := call.stage.drop } } rest → rest = [] := by
    rintro rest (⟨c, call, hcall, hsome⟩ | ⟨rfl, -⟩)
    · simp [(hover (hcalls c call hcall)).2.2] at hsome
    · rfl
  constructor
  case numbered => exact h.numbered
  case known => exact h.known
  case keyed => exact hkeyed
  case distinct => exact h.distinct
  case subjects => exact h.subjects
  case sound => exact h.sound
  case listed =>
    intro id t ht
    exact registered_of_planned (planned_of_recorded ((hget id).symm.trans ht))
  case serial =>
    intro c call hcall hexclusive
    simp [(hover (hcalls c call hcall)).1] at hexclusive
  case single =>
    intro c c' call call' t t' hcall hcall' ht
    simp [(hover (hcalls c call hcall)).2.1] at ht
  case fits => exact fun c call hcall => .of_over (hcalls c call hcall)
  case live =>
    intro rest hreplays id t ht
    obtain rfl := hold rest hreplays
    exact .inl (planned_of_recorded ((hget id).symm.trans ht))
  case kept =>
    intro rest hreplays id t hplan hremoved
    obtain rfl := hold rest hreplays
    exact .inl ((hget id).trans ((recorded_eq_planned hremoved).trans hplan))

theorem step (h : InPlan s) (hproper : Proper s input) (hs : schedulerStep o s input = some s') :
    InPlan s' := by
  cases schedulerStep_moves h.numbered hs with
  | called op draw => exact h.called op draw (fun init hop => hproper.fresh init draw (by rw [hop])) _
  | entered hcall hstage hfree => exact h.entered hcall hstage hfree _
  | replayed hcall hstage hfold => exact h.replayed hcall hstage hfold
  | advanced hcall hadvances => exact h.advanced hcall hadvances hproper.replayed
  | landed hcall hstage =>
    refine h.landed hcall hstage ?_
    rintro t now run next after rfl
    exact hproper.returned _ _ _ t now run next after _ rfl hcall hstage
  | concluded hcall hstage => exact h.concluded hcall hstage
  | observed => exact h.observed _ _
  | restarted hrebuild => exact h.restarted hrebuild

theorem initial : InPlan .initial where
  numbered e he := by cases he
  known e he := by cases he
  keyed id t ht := by cases ht
  distinct := List.Pairwise.nil
  subjects e he := by cases he
  sound t ht := by cases ht
  listed id t ht := by cases ht
  serial c call hcall := by cases hcall
  single c c' call call' t t' hcall := by cases hcall
  fits c call hcall := by cases hcall
  live rest hreplays id t ht := by
    obtain ⟨c, call, hcall, -⟩ | ⟨rfl, -⟩ := hreplays
    · cases hcall
    · cases ht
  kept rest hreplays id t hplan := by cases hplan

end InPlan

/-! ### Checks -/

/-- A check of a step that only proper steps pass. -/
def properStep (s : AgentScheduler) : Input → Bool
  | .call (.register _) draw =>
    (s.events.all fun
      | .registered trigger => trigger.id ≠ draw.uuid
      | _ => true) &&
    s.calls.all fun call =>
      match call.stage.unwritten? with
      | some (.register trigger) => trigger.id ≠ draw.uuid
      | _ => true
  | .resume c _ =>
    (s.calls[c]?).all fun call =>
      match call.stage with
      | .appending (.fire ..) _ _ => s.calls.all fun call =>
        match call.stage.written? with
        | some (.register _) => false
        | _ => true
      | _ => true
  | .fail c => (s.calls[c]?).all fun call => call.stage.rest?.isNone
  | _ => true

theorem proper_of_properStep (h : properStep s input) : Proper s input := by
  refine ⟨?_, ?_, ?_⟩
  · rintro init draw rfl
    simp only [properStep, Bool.and_eq_true, List.all_eq_true] at h
    refine ⟨fun t ht => by simpa using h.1 _ ht, fun c call t hcall ht => ?_⟩
    have hall := h.2 call (List.mem_of_getElem? hcall)
    rw [ht] at hall
    simpa using hall
  · rintro c draw call t now run next after attempt rfl hcall hstage u ⟨c', call', hcall', hu⟩
    simp only [properStep, hcall, Option.all_some, hstage, List.all_eq_true] at h
    have hall := h call' (List.mem_of_getElem? hcall')
    rw [hu] at hall
    cases hall
  · rintro c call rfl hcall
    simpa [properStep, hcall] using h

end BeeAgent.Scheduler
