import BeeAgent.Scheduler.Copies
import BeeAgent.Scheduler.EventTriggers

/-! Removals beside ticks and notifications: when the live map is what the stream leaves, and when a
removed trigger stays removed. -/
namespace BeeAgent.Scheduler
open Data Transition

/-- `register`, `remove`, `tick` and `notify` are called, and `randomUUID` draws new ids. -/
structure Asked (s : AgentScheduler) (input : Input) : Prop where
  called : ∀ draw, input ≠ .call .rebuild draw
  fresh : ∀ init draw, input = .call (.register init) draw → s.New draw.uuid

/-- When a removal is written, no tick in flight is still to start a copy of the trigger; until it
has returned, none is taken from the live map; and when it returns, no copy is still to be put
back. -/
structure Orderly (o : SchedulerOptions) (s : AgentScheduler) (input : Input) : Prop
    extends Asked s input where
  written : ∀ (c : ℕ) (draw : Draw) (call : Call) (id : String) (reason : Option String)
    (attempt : ℕ), input = .resume c draw → s.calls[c]? = some call →
    call.stage = .appending (.remove id reason) attempt (s.stream.length + 1) →
    ∀ (c' : ℕ) (call' : Call), s.calls[c']? = some call' → ∀ t ∈ call'.stage.waiting, t.id ≠ id
  leaving : ∀ t ∈ taken o s input, ¬ s.Leaving t.id
  returned : ∀ (c : ℕ) (draw : Draw) (call : Call) (id : String) (reason : Option String),
    input = .resume c draw → s.calls[c]? = some call → call.stage = .recorded (.remove id reason) →
    ∀ (c' : ℕ) (call' : Call) (t : SchedulerTrigger), s.calls[c']? = some call' →
      call'.stage.putting? = some t → t.when = none → t.id ≠ id

/-- What holds of the live map and of the runs, whatever is removed. -/
structure Consistent (s : AgentScheduler) : Prop where
  /-- With no step in flight, a rebuild gives the live map. -/
  rebuilt : s.Idle → ∃ triggers, rebuild s.events = .ok triggers ∧
    ∀ id, s.triggers.get id = triggers.get id
  /-- What is removed does not come back. -/
  gone : ∀ id reason, .removed id reason ∈ s.events → ¬ s.Leaving id → s.triggers.get id = none
  /-- What is removed is not fired. -/
  silent : Justified (fun before x => ∀ c t, x = .started c t →
    ∀ reason, .recorded (.removed t.id reason) ∉ before) s.history

/-- A trigger that nothing but its registration knows of. -/
structure Unseen (s : AgentScheduler) (id : String) : Prop where
  live : s.triggers.get id = none
  copies : ∀ (c : ℕ) (call : Call), s.calls[c]? = some call → ∀ t ∈ call.stage.copies, t.id ≠ id
  removes : ∀ (c : ℕ) (call : Call) (reason : Option String), s.calls[c]? = some call →
    call.stage.unwritten? ≠ some (.remove id reason)
  kept : ∀ reason, .removed id reason ∉ s.events

/-- What orderly runs keep beside the plan. -/
structure Parted (s : AgentScheduler) : Prop where
  inPlan : InPlan s
  logged : Logged s
  unread : ∀ (c : ℕ) (call : Call), s.calls[c]? = some call →
    call.op ≠ .rebuild ∧ call.stage.rest? = none
  once : ∀ (c c' : ℕ) (call call' : Call) (t t' : SchedulerTrigger), s.calls[c]? = some call →
    s.calls[c']? = some call' → call.stage.written? = some (.register t) →
    call'.stage.written? = some (.register t') → t.id = t'.id → c = c'
  returning : ∀ t, s.Returns t → Unseen s t.id
  gone : ∀ id reason, .removed id reason ∈ s.events → s.Leaving id ∨ s.triggers.get id = none
  waiting : ∀ (c : ℕ) (call : Call), s.calls[c]? = some call → ∀ t ∈ call.stage.waiting,
    ∀ reason, .removed t.id reason ∉ s.events
  putting : ∀ (c : ℕ) (call : Call) (t : SchedulerTrigger), s.calls[c]? = some call →
    call.stage.putting? = some t → t.when = none →
    ∀ reason, .removed t.id reason ∈ s.events → s.Leaving t.id
  silent : Justified (fun before x => ∀ c t, x = .started c t →
    ∀ reason, .recorded (.removed t.id reason) ∉ before) s.history

variable {o : SchedulerOptions} {s s' : AgentScheduler} {input : Input} {c c' : ℕ}
  {call call' : Call} {stage stage' : Stage} {t u : SchedulerTrigger} {id : String}
  {events : List SchedulerEvent}

theorem recorded_removed (hdistinct : Distinct events) {reason : Option String}
    (h : .removed id reason ∈ events) : recorded events id = none := by
  induction events using List.reverseRecOn with
  | nil => cases h
  | append_singleton events event ih =>
    rw [recorded_append]
    obtain ⟨hbefore, -, hlast⟩ := List.pairwise_append.mp hdistinct
    obtain hmem | hmem := List.mem_append.mp h
    · rw [ih hbefore hmem]
      cases event with
      | registered t =>
        refine if_neg fun heq => ?_
        exact hlast _ hmem _ List.mem_cons_self t rfl (congrArg some heq)
      | triggered payload => exact ite_self none
      | removed | other => simp [SchedulerEvent.effect]
    · rw [← List.mem_singleton.mp hmem]
      exact if_pos rfl

/-! ### Steps -/

theorem InPlan.registered_of_copy (h : InPlan s) (hcall : s.calls[c]? = some call)
    (ht : t ∈ call.stage.copies) : ∃ u, .registered u ∈ s.events ∧ u.id = t.id := by
  have hfits := h.fits c call hcall
  obtain hheld | ⟨now, run, next, after, hwritten⟩ := Stage.held_or_recorded ht
  · obtain ⟨u, hu, hid, -⟩ := planned_same (hfits.held t hheld)
    exact ⟨u, hu, hid⟩
  · exact h.subjects _ (hfits.written _ hwritten) t.id rfl

namespace Parted

theorem proper (h : Parted s) (horderly : Orderly o s input) : Proper s input where
  fresh := horderly.fresh
  returned c draw call t now run next after attempt _ hcall hstage u hreturns hid := by
    refine (h.returning u hreturns).copies c call hcall t ?_ hid.symm
    rw [hstage]
    exact Stage.mem_copies_of_held List.mem_cons_self
  replayed c call _ hcall := (h.unread c call hcall).2

theorem unread_step (h : Parted s) (horderly : Orderly o s input) (hmoves : Moves o s input s')
    (hcall : s'.calls[c]? = some call) : call.op ≠ .rebuild ∧ call.stage.rest? = none := by
  cases hmoves with
  | called op draw =>
    obtain hcall | ⟨-, rfl⟩ := append_calls hcall
    · exact h.unread c call hcall
    · refine ⟨?_, (start_idle o s draw op).1⟩
      rintro rfl
      exact horderly.called draw rfl
  | @entered c₀ call₁ draw hcall₀ hstage =>
    obtain ⟨rfl, call₀, hcall₁, rfl⟩ | ⟨-, hcall⟩ := withStage_calls hcall
    · have hop := (h.unread c call₁ hcall₀).1
      have hserialized := (h.inPlan.fits c call₁ hcall₀).serialized (.inl hstage)
      have hcall₁ : s.calls[c]? = some call₀ := by rw [← cleared_calls s]; exact hcall₁
      cases hcall₀.symm.trans hcall₁
      exact ⟨hop, (enter_plain h.inPlan.keyed hserialized hop s.events draw.now).1.rest⟩
    · exact h.unread c call (by rw [← cleared_calls s]; exact hcall)
  | replayed hcall₀ hstage =>
    have hrest := (h.unread _ _ hcall₀).2
    rw [hstage] at hrest
    cases hrest
  | advanced hcall₀ hadvances =>
    obtain ⟨rfl, call₀, hcall₁, rfl⟩ | ⟨-, hcall⟩ := withStage_calls hcall
    · exact ⟨(h.unread c call₀ hcall₁).1, hadvances.plain.2.1⟩
    · exact h.unread c call hcall
  | landed =>
    obtain ⟨rfl, call₀, hcall₁, rfl⟩ | ⟨-, hcall⟩ := withStage_calls hcall
    · exact ⟨(h.unread c call₀ hcall₁).1, rfl⟩
    · exact h.unread c call hcall
  | concluded =>
    obtain ⟨rfl, call₀, hcall₁, rfl⟩ | ⟨-, hcall⟩ := withStage_calls hcall
    · exact ⟨(h.unread c call₀ hcall₁).1, (proceed_plain ..).rest⟩
    · exact h.unread c call hcall
  | observed => exact h.unread c call hcall
  | restarted =>
    rw [List.getElem?_map] at hcall
    obtain ⟨call₀, hcall₀, rfl⟩ := Option.map_eq_some_iff.mp hcall
    exact ⟨(h.unread c call₀ hcall₀).1, (drop_idle _).1⟩

theorem once_step (h : Parted s) (hplan : InPlan s') (hmoves : Moves o s input s')
    (hcall : s'.calls[c]? = some call) (hcall' : s'.calls[c']? = some call')
    (ht : call.stage.written? = some (.register t))
    (hu : call'.stage.written? = some (.register u)) (hid : t.id = u.id) : c = c' := by
  have hlanded : ∀ {c c' : ℕ} {call' : Call} {t u : SchedulerTrigger},
      s' = s.record c (.register t) → s.calls[c']? = some call' →
      call'.stage.written? = some (.register u) → t.id ≠ u.id := by
    rintro c c' call' t u rfl hcall' hu hid
    have hdistinct := hplan.distinct
    rw [events_record] at hdistinct
    have hbefore := (h.inPlan.fits c' call' hcall').written _ hu
    exact (List.pairwise_append.mp hdistinct).2.2 _ hbefore _ List.mem_cons_self t rfl
      (congrArg some hid.symm)
  obtain hold | ⟨draw, call₀, attempt, hinput, -, -, heq⟩ := hmoves.written hcall ht
  · obtain hold' | ⟨draw, call₀, attempt, -, -, -, heq⟩ := hmoves.written hcall' hu
    · exact h.once c c' call call' t u hold hold' ht hu hid
    · exact absurd hid.symm (hlanded heq hold ht)
  · obtain hold' | ⟨draw', call₀', attempt', hinput', -, -, -⟩ := hmoves.written hcall' hu
    · exact absurd hid (hlanded heq hold' hu)
    · cases hinput.symm.trans hinput'
      rfl

theorem unseen_step (h : Parted s) (hmoves : Moves o s input s') (hunseen : Unseen s id)
    (hlive : s'.triggers.get id = none) : Unseen s' id where
  live := hlive
  copies c call hcall t ht hid := by
    have hop : ∀ (c : ℕ) (call : Call), s.calls[c]? = some call → call.op ≠ .rebuild :=
      fun c call hcall => (h.unread c call hcall).1
    have hnot : ¬ (t ∈ taken o s input ∧ s'.triggers.get t.id = some t) := by
      rintro ⟨-, hget⟩
      rw [hid, hlive] at hget
      cases hget
    obtain ht | ht := Stage.mem_copies.mp ht
    · obtain ⟨call₀, hcall₀, ht₀, -⟩ :=
        (hmoves.putting h.inPlan hop hcall ht).resolve_right hnot
      exact hunseen.copies c call₀ hcall₀ t ht₀ hid
    · obtain ⟨call₀, hcall₀, ht₀⟩ := (hmoves.waiting h.inPlan hop hcall ht).resolve_right hnot
      exact hunseen.copies c call₀ hcall₀ t (Stage.mem_copies.mpr (.inr ht₀)) hid
  removes c call reason hcall hjob := by
    obtain ⟨call₀, hcall₀, hjob₀⟩ :=
      (hmoves.removing hcall hjob).resolve_right (not_not_intro hunseen.live)
    exact hunseen.removes c call₀ reason hcall₀ hjob₀
  kept reason hremoved := by
    obtain heq | ⟨c, call, job, attempt, hcall, hstage, rfl⟩ := hmoves.events
    · exact hunseen.kept reason (heq ▸ hremoved)
    · rw [events_record] at hremoved
      obtain hremoved | hremoved := List.mem_append.mp hremoved
      · exact hunseen.kept reason hremoved
      · cases job with
        | register | fire => cases List.mem_singleton.mp hremoved
        | remove =>
          cases List.mem_singleton.mp hremoved
          exact hunseen.removes c call reason hcall (by rw [hstage]; rfl)

theorem live_step (h : Parted s) (hmoves : Moves o s input s') (hreturns : s.Returns t)
    (hreturns' : s'.Returns t) : s'.triggers.get t.id = none := by
  have hunseen := h.returning t hreturns
  cases hmoves with
  | called | advanced | landed | observed => exact hunseen.live
  | entered hcall =>
    rw [cleared_of_ne s (h.unread _ _ hcall).1]
    exact hunseen.live
  | replayed hcall hstage =>
    have hrest := (h.unread _ _ hcall).2
    rw [hstage] at hrest
    cases hrest
  | @concluded c call draw job hcall hstage =>
    have hjob : call.stage.written? = some job := by rw [hstage]; rfl
    by_cases hsubject : job.event.subject? = some t.id
    · exfalso
      cases job with
      | register u =>
        -- The call that returns is the one that is still to return.
        obtain ⟨c', call', hcall', hwritten⟩ := hreturns'
        obtain ⟨rfl, call₀, -, rfl⟩ | ⟨hne, hcall'⟩ := withStage_calls hcall'
        · simp [(proceed_plain ..).written] at hwritten
        · exact hne (h.once c' c call' call t u hcall' hcall hwritten hjob
            (Option.some.inj hsubject).symm)
      | remove triggerId reason =>
        cases hsubject
        exact hunseen.kept reason ((h.inPlan.fits c call hcall).written _ hjob)
      | fire u now run next after =>
        refine hunseen.copies c call hcall u (Stage.mem_copies.mpr (.inl ?_))
          (Option.some.inj hsubject)
        rw [hstage]
        rfl
    · exact (Job.get_apply_of_ne hsubject).trans hunseen.live
  | restarted =>
    obtain ⟨c, call, hcall, hwritten⟩ := hreturns'
    rw [List.getElem?_map] at hcall
    obtain ⟨call₀, -, rfl⟩ := Option.map_eq_some_iff.mp hcall
    simp [(drop_idle _).2.1] at hwritten

/-- A registration that has just been written is of a trigger that nothing knows of. -/
theorem unseen_of_landed (h : Parted s) (hcall : s.calls[c]? = some call) {attempt n : ℕ}
    (hstage : call.stage = .appending (.register t) attempt n) :
    Unseen (s.record c (.register t)) t.id := by
  have hnew : ∀ u, .registered u ∈ s.events → u.id ≠ t.id :=
    ((h.inPlan.fits c call hcall).due (.register t) (by rw [hstage]; rfl)).2
  constructor
  case live =>
    refine Option.eq_none_iff_forall_ne_some.mpr fun u hu => ?_
    obtain ⟨v, hv, hid⟩ := h.inPlan.listed t.id u hu
    exact hnew v hv hid
  case copies =>
    intro c' call' hcall' u hu hid
    obtain ⟨rfl, call₀, -, rfl⟩ | ⟨-, hcall'⟩ := withStage_calls hcall'
    · cases hu
    · obtain ⟨v, hv, hvid⟩ := h.inPlan.registered_of_copy hcall' hu
      exact hnew v hv (hvid.trans hid)
  case removes =>
    intro c' call' reason hcall' hjob
    obtain ⟨rfl, call₀, -, rfl⟩ | ⟨-, hcall'⟩ := withStage_calls hcall'
    · cases hjob
    · obtain ⟨u, id, hu, hid, hsubject⟩ := (h.inPlan.fits c' call' hcall').due _ hjob
      exact hnew u hu (hid.trans (Option.some.inj hsubject).symm)
  case kept =>
    intro reason hremoved
    rw [events_record] at hremoved
    obtain hremoved | hremoved := List.mem_append.mp hremoved
    · obtain ⟨u, hu, hid⟩ := h.inPlan.subjects _ hremoved t.id rfl
      exact hnew u hu hid
    · cases List.mem_singleton.mp hremoved

theorem returning_step (h : Parted s) (hmoves : Moves o s input s') (hreturns : s'.Returns t) :
    Unseen s' t.id := by
  obtain ⟨c, call, hcall, hwritten⟩ := id hreturns
  obtain hold | ⟨draw, call₀, attempt, -, hcall₀, hstage, rfl⟩ := hmoves.written hcall hwritten
  · have hbefore : s.Returns t := ⟨c, call, hold, hwritten⟩
    exact h.unseen_step hmoves (h.returning t hbefore) (h.live_step hmoves hbefore hreturns)
  · exact h.unseen_of_landed hcall₀ hstage

theorem gone_step (h : Parted s) (hmoves : Moves o s input s') {reason : Option String}
    (hremoved : .removed id reason ∈ s'.events) :
    s'.Leaving id ∨ s'.triggers.get id = none := by
  cases hmoves with
  | called op draw =>
    refine (h.gone id reason hremoved).imp_left (·.mono fun c call hcall _ => ?_)
    exact (List.getElem?_append_left (List.getElem?_eq_some_iff.mp hcall).1).trans hcall
  | entered hcall hstage =>
    rw [cleared_of_ne s (h.unread _ _ hcall).1] at hremoved ⊢
    exact (h.gone id reason hremoved).imp_left
      (·.mono (written_withStage hcall (by rw [hstage]; rfl)))
  | replayed hcall hstage =>
    have hrest := (h.unread _ _ hcall).2
    rw [hstage] at hrest
    cases hrest
  | advanced hcall hadvances =>
    exact (h.gone id reason hremoved).imp_left
      (·.mono (written_withStage hcall hadvances.not_written))
  | @landed c call draw job attempt hcall hstage =>
    rw [events_record] at hremoved
    obtain hremoved | hremoved := List.mem_append.mp hremoved
    · exact (h.gone id reason hremoved).imp_left
        (·.mono (written_withStage hcall (by rw [hstage]; rfl)))
    · cases job with
      | register | fire => cases List.mem_singleton.mp hremoved
      | remove =>
        cases List.mem_singleton.mp hremoved
        exact .inl ⟨_, _, reason, withStage_self hcall, rfl⟩
  | @concluded c call draw job hcall hstage =>
    have hjob : call.stage.written? = some job := by rw [hstage]; rfl
    have hkept : .removed id reason ∈ s.events := hremoved
    -- The removals of other calls stay under way.
    have hother : job.event.subject? ≠ some id ∨ (∀ reason, job ≠ .remove id reason) →
        s.Leaving id → (conclude s c job).Leaving id := by
      rintro hne ⟨c', call', reason', hcall', hleaving⟩
      refine ⟨c', call', reason', (withStage_of_ne ?_).trans hcall', hleaving⟩
      rintro rfl
      cases hcall.symm.trans hcall'
      cases hjob.symm.trans hleaving
      exact hne.elim (fun hne => hne rfl) fun hne => hne _ rfl
    by_cases hsubject : job.event.subject? = some id
    · cases job with
      | register t =>
        cases hsubject
        exact absurd hkept ((h.returning t ⟨c, call, hcall, hjob⟩).kept reason)
      | remove triggerId _ =>
        obtain rfl := Option.some.inj hsubject
        exact .inr ((LiveMap.get_delete ..).trans (if_pos rfl))
      | fire t now run next after =>
        cases hsubject
        by_cases hwhen : t.when = none
        · have hleaving := h.putting c call t hcall (by rw [hstage]; rfl) hwhen reason hkept
          exact .inl (hother (.inr fun reason => by simp) hleaving)
        · refine .inr ?_
          change (if t.when.isSome then s.triggers.delete t.id else _).get t.id = none
          rw [if_pos (Option.isSome_iff_ne_none.mpr hwhen)]
          exact (LiveMap.get_delete ..).trans (if_pos rfl)
    · exact (h.gone id reason hkept).imp (hother (.inl hsubject)) fun hnone =>
        (Job.get_apply_of_ne hsubject).trans hnone
  | observed => exact h.gone id reason hremoved
  | restarted hrebuild =>
    obtain ⟨triggers, hok, -, hget⟩ := rebuild_ok h.inPlan.known
    cases hrebuild.symm.trans hok
    exact .inr ((hget id).trans (recorded_removed h.inPlan.distinct hremoved))

theorem kept_of_taken (h : Parted s) (horderly : Orderly o s input) (hmoves : Moves o s input s')
    (htaken : t ∈ taken o s input) (hlive : s'.triggers.get t.id = some t)
    (reason : Option String) : .removed t.id reason ∉ s'.events := by
  intro hremoved
  obtain ⟨c, call, reason', hcall, hwritten⟩ | hnone := h.gone_step hmoves hremoved
  · obtain hcall | ⟨draw, call₀, attempt, rfl, hcall₀, hstage, -⟩ := hmoves.written hcall hwritten
    · exact horderly.leaving t htaken ⟨c, call, reason', hcall, hwritten⟩
    · simp [taken, hcall₀, hstage] at htaken
  · rw [hlive] at hnone
    cases hnone

/-- The removals of a step: those before it, or one that has just been written. -/
theorem removed_cases (hmoves : Moves o s input s') {reason : Option String}
    (hremoved : .removed id reason ∈ s'.events) : .removed id reason ∈ s.events ∨
      ∃ c draw call attempt, input = .resume c draw ∧ s.calls[c]? = some call ∧
        call.stage = .appending (.remove id reason) attempt (s.stream.length + 1) ∧
        s'.Leaving id := by
  obtain heq | ⟨c, call, job, attempt, hcall, hstage, rfl⟩ := hmoves.events
  · exact .inl (heq ▸ hremoved)
  · rw [events_record] at hremoved
    obtain hremoved | hremoved := List.mem_append.mp hremoved
    · exact .inl hremoved
    · cases job with
      | register | fire => cases List.mem_singleton.mp hremoved
      | remove =>
        cases List.mem_singleton.mp hremoved
        have hself : (s.record c (.remove id reason)).calls[c]? = _ := withStage_self hcall
        obtain hold | ⟨draw, call₀, attempt', hinput, hcall₀, hstage₀, -⟩ :=
          hmoves.written hself rfl
        · have hstage' := congrArg Call.stage (Option.some.inj (hcall.symm.trans hold))
          rw [hstage] at hstage'
          cases hstage'
        · exact .inr ⟨c, draw, call₀, attempt', hinput, hcall₀, hstage₀,
            c, _, reason, hself, rfl⟩

theorem op_ne (h : Parted s) (c : ℕ) (call : Call) (hcall : s.calls[c]? = some call) :
    call.op ≠ .rebuild := (h.unread c call hcall).1

theorem waiting_step (h : Parted s) (horderly : Orderly o s input) (hmoves : Moves o s input s')
    (hcall : s'.calls[c]? = some call) (ht : t ∈ call.stage.waiting) (reason : Option String) :
    .removed t.id reason ∉ s'.events := by
  obtain ⟨call₀, hcall₀, ht₀⟩ | ⟨htaken, hlive⟩ := hmoves.waiting h.inPlan h.op_ne hcall ht
  · intro hremoved
    obtain hold | ⟨c', draw, call', attempt, hinput, hcall', hstage, -⟩ :=
      removed_cases hmoves hremoved
    · exact h.waiting c call₀ hcall₀ t ht₀ reason hold
    · exact horderly.written c' draw call' t.id reason attempt hinput hcall' hstage c call₀ hcall₀
        t ht₀ rfl
  · exact h.kept_of_taken horderly hmoves htaken hlive reason

theorem putting_step (h : Parted s) (horderly : Orderly o s input) (hmoves : Moves o s input s')
    (hcall : s'.calls[c]? = some call) (ht : call.stage.putting? = some t) (hwhen : t.when = none)
    {reason : Option String} (hremoved : .removed t.id reason ∈ s'.events) : s'.Leaving t.id := by
  obtain hold | ⟨-, -, -, -, -, -, -, hleaving⟩ := removed_cases hmoves hremoved
  · obtain ⟨call₀, hcall₀, -, ht₀ | ht₀⟩ | ⟨htaken, hlive⟩ :=
      hmoves.putting h.inPlan h.op_ne hcall ht
    · have hbefore := h.putting c call₀ t hcall₀ ht₀ hwhen reason hold
      obtain hleaving | ⟨c', draw, call', reason', hinput, hcall', hstage⟩ | hdropped :=
        hmoves.leaving hbefore
      · exact hleaving
      · exact absurd rfl (horderly.returned c' draw call' t.id reason' hinput hcall' hstage c call₀
          t hcall₀ ht₀ hwhen)
      · have hmem := Stage.mem_copies.mpr (.inl ht)
        rw [hdropped c call hcall] at hmem
        cases hmem
    · exact absurd hold (h.waiting c call₀ hcall₀ t ht₀ reason)
    · exact absurd hremoved (h.kept_of_taken horderly hmoves htaken hlive reason)
  · exact hleaving

theorem silent_step (h : Parted s) (horderly : Orderly o s input) (hmoves : Moves o s input s') :
    Justified (fun before x => ∀ c t, x = .started c t →
      ∀ reason, .recorded (.removed t.id reason) ∉ before) s'.history := by
  obtain ⟨new, heq, hnews⟩ := hmoves.news
  rw [heq]
  refine h.silent.append fun before x after hnew c t hx reason hmem => ?_
  subst hx
  have hlogged : .recorded (.removed t.id reason) ∉ before → .removed t.id reason ∈ s.events :=
    fun hnot => (h.logged _).mp ((List.mem_append.mp hmem).resolve_right hnot)
  have hstarted : .started c t ∈ new := by simp [hnew]
  cases hnews with
  | nothing => cases hstarted
  | ended | recorded | changed => simp at hstarted
  | @started c' call u hcall hstarts =>
    obtain ⟨rfl, hsingle⟩ := List.append_eq_singleton_iff.mp hnew.symm |>.resolve_right (by simp)
    have hremoved := hlogged (by simp)
    cases hsingle
    refine h.waiting c call hcall t ?_ reason hremoved
    generalize call.stage = stage at hstarts
    cases hstarts <;> exact List.mem_cons_self
  | @began c' call draw hinput hcall hstage =>
    obtain ⟨rfl, now, after', hrunning⟩ := mem_happening.mp
      ((List.mem_cons.mp hstarted).resolve_left (by simp))
    have hnot : .recorded (.removed t.id reason) ∉ before := by
      intro hbefore
      have hmem' : Happening.recorded (.removed t.id reason) ∈ Happening.began c call.op ::
          (enter o s.triggers s.events draw.now call.op).happening c := by
        rw [hnew]
        exact List.mem_append_left _ hbefore
      rw [hrunning] at hmem'
      simp [Stage.happening] at hmem'
    have ht : t ∈ (enter o s.triggers s.events draw.now call.op).copies := by
      rw [hrunning]
      exact Stage.mem_copies.mpr (.inl rfl)
    obtain ⟨htaken, hlive⟩ := live_of_entered h.inPlan hcall hstage (h.op_ne c call hcall) ht
    obtain hleaving | hnone := h.gone t.id reason (hlogged hnot)
    · exact horderly.leaving t (hinput ▸ htaken) hleaving
    · rw [hlive] at hnone
      cases hnone

theorem step (h : Parted s) (horderly : Orderly o s input)
    (hs : schedulerStep o s input = some s') : Parted s' := by
  have hmoves := schedulerStep_moves h.inPlan.numbered hs
  have hplan := h.inPlan.step (h.proper horderly) hs
  exact {
    inPlan := hplan
    logged := hmoves.logged h.logged
    unread := fun c call hcall => h.unread_step horderly hmoves hcall
    once := fun c c' call call' t u hcall hcall' ht hu hid =>
      h.once_step hplan hmoves hcall hcall' ht hu hid
    returning := fun t hreturns => h.returning_step hmoves hreturns
    gone := fun id reason hremoved => h.gone_step hmoves hremoved
    waiting := fun c call hcall t ht reason => h.waiting_step horderly hmoves hcall ht reason
    putting := fun c call t hcall ht hwhen reason hremoved =>
      h.putting_step horderly hmoves hcall ht hwhen hremoved
    silent := h.silent_step horderly hmoves }

theorem initial : Parted .initial where
  inPlan := .initial
  logged event := by simp [AgentScheduler.initial, AgentScheduler.events]
  unread c call hcall := by cases hcall
  once c c' call call' t u hcall := by cases hcall
  returning t hreturns := by
    obtain ⟨c, call, hcall, -⟩ := hreturns
    cases hcall
  gone id reason hremoved := by cases hremoved
  waiting c call hcall := by cases hcall
  putting c call t hcall := by cases hcall
  silent := justified_nil

theorem get_of_idle (h : Parted s) (hidle : s.Idle) (id : String) :
    s.triggers.get id = recorded s.events id := by
  have hnowritten : ∀ (c : ℕ) (call : Call) (job : Job), s.calls[c]? = some call →
      call.stage.written? ≠ some job := by
    intro c call job hcall hwritten
    have hover := hidle c call hcall
    cases hstage : call.stage <;> simp [hstage, Stage.isOver, Stage.written?] at hover hwritten
  have hreplays : s.Replays [] := .inr ⟨rfl, fun c call hcall => (h.unread c call hcall).2⟩
  have hnowrites : ¬ s.Writes id := by
    rintro ⟨c, call, _, _, _, _, _, hcall, hwritten, _⟩
    exact hnowritten c call _ hcall hwritten
  have hnoreturns : ¬ ∃ u, s.Returns u ∧ u.id = id := by
    rintro ⟨_, ⟨c, call, hcall, hwritten⟩, _⟩
    exact hnowritten c call _ hcall hwritten
  by_cases hremoved : ∃ reason, .removed id reason ∈ s.events
  · obtain ⟨reason, hremoved⟩ := hremoved
    rw [recorded_removed h.inPlan.distinct hremoved]
    refine (h.gone id reason hremoved).resolve_left ?_
    rintro ⟨c, call, reason', hcall, hwritten⟩
    exact hnowritten c call _ hcall hwritten
  · have hkept : ∀ reason, .removed id reason ∉ s.events := not_exists.mp hremoved
    rw [recorded_eq_planned hkept]
    cases hplanned : planned s.events id with
    | some t =>
      exact (h.inPlan.kept [] hreplays id t hplanned hkept).resolve_right
        (not_or.mpr ⟨hnoreturns, hnowrites⟩)
    | none =>
      refine Option.eq_none_iff_forall_ne_some.mpr fun t ht => ?_
      have hlive := (h.inPlan.live [] hreplays id t ht).resolve_right hnowrites
      rw [hplanned] at hlive
      cases hlive

theorem consistent (h : Parted s) : Consistent s where
  rebuilt hidle := by
    obtain ⟨triggers, hok, -, hget⟩ := rebuild_ok h.inPlan.known
    exact ⟨triggers, hok, fun id => (h.get_of_idle hidle id).trans (hget id).symm⟩
  gone id reason hremoved hleaving := (h.gone id reason hremoved).resolve_left hleaving
  silent := h.silent

end Parted

/-- In every orderly run the live map is what a rebuild derives from the stream, and what is removed
stays removed. -/
theorem reaches_consistent (h : (scheduler o).Reaches (Orderly o) .initial s) : Consistent s :=
  (h.invariant Parted.initial fun _ _ _ hparted horderly hs => hparted.step horderly hs).consistent

/-! ### Checks -/

/-- A check of a step that only steps pass that are asked for. -/
def askedStep (s : AgentScheduler) : Input → Bool
  | .call .rebuild _ => false
  | .call (.register init) draw => properStep s (.call (.register init) draw)
  | _ => true

theorem asked_of_askedStep (h : askedStep s input) : Asked s input where
  called draw heq := by
    subst heq
    cases h
  fresh init draw heq := by
    subst heq
    have hproper : properStep s (.call (.register init) draw) = true := h
    exact (proper_of_properStep hproper).fresh init draw rfl

/-- A check of a step that only orderly steps pass. -/
def orderlyStep (o : SchedulerOptions) (s : AgentScheduler) (input : Input) : Bool :=
  askedStep s input &&
    ((taken o s input).all fun t => s.calls.all fun call =>
      match call.stage.written? with
      | some (.remove id _) => id ≠ t.id
      | _ => true) &&
    match input with
    | .resume c _ => (s.calls[c]?).all fun call =>
      match call.stage with
      | .appending (.remove id _) _ _ =>
        s.calls.all fun call => call.stage.waiting.all fun t => t.id ≠ id
      | .recorded (.remove id _) =>
        s.calls.all fun call => call.stage.putting?.all fun t => t.when.isSome || t.id ≠ id
      | _ => true
    | _ => true

theorem orderly_of_orderlyStep (h : orderlyStep o s input) : Orderly o s input := by
  simp only [orderlyStep, Bool.and_eq_true, List.all_eq_true] at h
  obtain ⟨⟨hasked, hleaving⟩, hremove⟩ := h
  refine { asked_of_askedStep hasked with written := ?_, leaving := ?_, returned := ?_ }
  · rintro c draw call id reason attempt rfl hcall hstage c' call' hcall' t ht
    simp only [hcall, Option.all_some, hstage, List.all_eq_true, decide_eq_true_eq] at hremove
    exact hremove call' (List.mem_of_getElem? hcall') t ht
  · rintro t ht ⟨c, call, reason, hcall, hwritten⟩
    have hall := hleaving t ht call (List.mem_of_getElem? hcall)
    simp [hwritten] at hall
  · rintro c draw call id reason rfl hcall hstage c' call' t hcall' ht hwhen
    simp only [hcall, Option.all_some, hstage, List.all_eq_true] at hremove
    have hall := hremove call' (List.mem_of_getElem? hcall')
    simpa [ht, hwhen] using hall

/-- A tick, once its run has settled. -/
def ticking (c : ℕ) : List Input :=
  [.call .tick sampleDraw, .resume c sampleDraw, .ran c sampleId .completed,
    .resume c sampleDraw, .resume c sampleDraw, .resume c sampleDraw]

/-- A removal that goes through. -/
def removing (c : ℕ) : List Input :=
  [.call (.remove sampleId none) sampleDraw, .resume c sampleDraw, .resume c sampleDraw,
    .resume c sampleDraw]

/-- A trigger is fired and then removed. -/
theorem reaches_consistent_fired : ∃ s, (scheduler sampleOptions).Reaches (Orderly sampleOptions)
    .initial s ∧ .removed sampleId none ∈ s.events ∧ Consistent s := by
  have hguarded : (scheduler sampleOptions).Guarded (Orderly sampleOptions) .initial
      (registering 0 everyMinute sampleDraw ++ ticking 1 ++ removing 2) :=
    Machine.guarded_of_allSteps (fun _ _ => orderly_of_orderlyStep) _ (by decide +kernel)
  obtain ⟨s, hreaches, hremoved⟩ := hguarded.exists_reaches
    (f := fun (s : AgentScheduler) => decide (SchedulerEvent.removed sampleId none ∈ s.events))
    (a := true) (by decide +kernel)
  exact ⟨s, hreaches, of_decide_eq_true hremoved, reaches_consistent hreaches⟩

/-- A trigger is removed while it is fired: then the firing puts it back. -/
theorem removed_trigger_put_back : ∃ s, (scheduler sampleOptions).Reaches Asked .initial s ∧
    ¬ Consistent s := by
  have hguarded : (scheduler sampleOptions).Guarded Asked .initial
      (registering 0 everyMinute sampleDraw ++ (ticking 1).take 2 ++ removing 2 ++
        (ticking 1).drop 2) :=
    Machine.guarded_of_allSteps (fun _ _ => asked_of_askedStep) _ (by decide +kernel)
  obtain ⟨s, hreaches, hend⟩ := hguarded.exists_reaches
    (f := fun (s : AgentScheduler) => (decide (SchedulerEvent.removed sampleId none ∈ s.events),
      s.calls.all (·.stage.isOver), (s.triggers.get sampleId).isSome))
    (a := (true, true, true)) (by decide +kernel)
  simp only [Prod.mk.injEq, decide_eq_true_eq, List.all_eq_true] at hend
  refine ⟨s, hreaches, fun hconsistent => ?_⟩
  have hnone := hconsistent.gone sampleId none hend.1 ?_
  · rw [hnone] at hend
    cases hend.2.2
  · rintro ⟨c, call, reason, hcall, hwritten⟩
    have hover := hend.2.1 call (List.mem_of_getElem? hcall)
    cases hstage : call.stage <;> simp [hstage, Stage.isOver, Stage.written?] at hover hwritten

end BeeAgent.Scheduler
