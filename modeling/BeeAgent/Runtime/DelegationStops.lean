import BeeAgent.Runtime.Delegation
import BeeAgent.Transition.History

/-! What stops a delegation: after it no child is started, and the call rejects. -/
namespace BeeAgent.Runtime.Delegation
open Transition

section Stopping
variable {I O ε : Type} {d : DelegationSupervisor} {requests : List (DelegationRequest I)}
  {s s' : Run O ε} {w index : ℕ}

def Run.Stopped (s : Run O ε) : Prop := ∃ m ∈ s.log, m.stops

/-- A step of the workers, or of the call itself, is enabled. -/
def CanGoOn (d : DelegationSupervisor) (requests : List (DelegationRequest I)) (s : Run O ε) :
    Prop :=
  (∃ w, (step d requests s (.begin w)).isSome) ∨ (∃ w, (step d requests s (.resume w)).isSome) ∨
    (step d requests s .conclude).isSome

/-- What has to hold once something has happened that is to stop the delegation. -/
structure Stops (d : DelegationSupervisor) (requests : List (DelegationRequest I)) (s : Run O ε) :
    Prop where
  noStart : ∀ before index after, s.log = before ++ .started index :: after →
    ∀ m ∈ before, ¬ m.stops
  signalled : 0 < s.running → s.status ≠ .pending → s.aborted.isSome
  rejects : s.Stopped → ∀ results, s.status ≠ .resolved results
  settles : s.Stopped → s.running = 0 → ¬ CanGoOn d requests s → ∃ error, s.status = .rejected error

def Run.ChildFailed (s : Run O ε) : Prop := ∃ index, .failed index ∈ s.log

/-- No request is taken after a child has failed, and nothing happens to the parent's signal once
all workers have returned. -/
def Heeds (d : DelegationSupervisor) (requests : List (DelegationRequest I)) (s : Run O ε) :
    Input O ε → Prop
  | .begin _ => s.ChildFailed → s.aborted.isSome ∨ requests.length ≤ s.cursor
  | .resume w => s.ChildFailed → s.aborted.isSome ∨ requests.length ≤ s.cursor ∨
    ∀ (index : ℕ) (outcome : DelegationOutcome O),
      s.workers[w]? = some (.awaiting index (.fulfilled outcome)) →
        exceeded d (s.usage.add outcome.usage) ≠ none
  | .parentAbort _ => ∃ worker ∈ s.workers, worker ≠ .returned
  | _ => True

/-- A worker that has yet to come to an end. -/
def Worker.Live : Worker O ε → Prop
  | .fresh | .awaiting .. => True
  | .returned | .threw => False

/-- What makes sure that the call rejects. -/
inductive Doomed (s : Run O ε) : Prop where
  | rejected {error : DelegationError ε} (h : s.status = .rejected error)
  | threw {error : DelegationError ε} (h : s.failure = some error)
  | failed {w index : ℕ} {error : ε} (h : s.workers[w]? = some (.awaiting index (.rejected error)))
  | aborted {w : ℕ} {worker : Worker O ε} (h : s.aborted.isSome) (hw : s.workers[w]? = some worker)
    (hlive : worker.Live)

def StartsFreely (before : List (Moment O)) (m : Moment O) : Prop :=
  ∀ index, m = .started index → ∀ m' ∈ before, ¬ m'.stops

structure Halting (s : Run O ε) : Prop where
  noStart : Justified StartsFreely s.log
  signal : s.workers ≠ [] → s.aborted = none → ∀ m ∈ s.log, m.stops → ∃ index, m = .failed index
  doomed : s.Stopped → Doomed s
  settled : s.status ≠ .pending → s.aborted.isSome ∨ s.workers = []

theorem justified_noted {log : List (Moment O)} (h : Justified StartsFreely log) {m : Moment O}
    (hm : m.startedIndex = none) : Justified StartsFreely (log ++ [m]) :=
  h.concat fun index hstarted => by
    subst hstarted
    cases hm

theorem Halting.throw (h : Halting s) (w : ℕ) (error : DelegationError ε) :
    Halting (s.throw w error) where
  noStart := h.noStart
  signal hworkers := h.signal fun hnil => hworkers (by simp [Run.throw, hnil])
  doomed _ := by
    cases hfailure : s.failure with
    | none => exact @Doomed.threw O ε _ error (by simp [Run.throw, hfailure])
    | some first => exact @Doomed.threw O ε _ first (by simp [Run.throw, hfailure])
  settled hstatus := (h.settled hstatus).imp_right fun hworkers => by simp [Run.throw, hworkers]

theorem doomed_of_abort (hsound : Sound d requests s) (haborted : s.aborted.isSome)
    {worker : Worker O ε} (hworker : worker ∈ s.workers) (hne : worker ≠ .returned) : Doomed s := by
  obtain ⟨w, hw⟩ := List.getElem?_of_mem hworker
  cases worker with
  | fresh | awaiting => exact .aborted haborted hw trivial
  | returned => exact absurd rfl hne
  | threw =>
    obtain ⟨error, herror⟩ := Option.ne_none_iff_exists'.mp (hsound.threw w hw)
    exact .threw herror

theorem Halting.aborted (h : Halting s) (hsound : Sound d requests s) {m : Moment O}
    (hm : m.startedIndex = none) (reason : DelegationError ε) (parentAborted : Bool)
    {worker : Worker O ε} (hworker : worker ∈ s.workers) (hne : worker ≠ .returned) :
    Halting (({ s with parentAborted, log := s.log ++ [m] } : Run O ε).abort reason) := by
  have haborted : (s.aborted.or (some reason)).isSome := by simp
  refine ⟨justified_noted h.noStart hm, fun _ hnone => ?_, fun _ => ?_, fun _ => .inl haborted⟩
  · rw [Run.abort, ← Option.not_isSome_iff_eq_none] at hnone
    exact absurd haborted hnone
  · exact doomed_of_abort (hsound.noted hm _ parentAborted) haborted hworker hne

theorem Halting.next (h : Halting s) (hw : s.workers[w]? = some .fresh)
    (hfree : s.ChildFailed → s.aborted.isSome ∨ requests.length ≤ s.cursor) :
    Halting (s.next requests w) := by
  have hset : ∀ worker : Worker O ε, s.workers = [] → s.workers.set w worker = [] := by
    rintro worker hworkers
    simp [hworkers]
  have hpeopled : s.workers ≠ [] := by
    rintro hnil
    simp [hnil] at hw
  unfold Run.next
  split
  · exact h.throw w _
  next haborted =>
  split
  · next hmore =>
    have hnone : ∀ m ∈ s.log, ¬ m.stops := by
      intro m hm hstops
      obtain ⟨index, rfl⟩ := h.signal hpeopled haborted m hm hstops
      obtain hsome | hle := hfree ⟨index, hm⟩
      · rw [haborted] at hsome
        cases hsome
      · omega
    have hnone' : ∀ m ∈ s.log ++ [.started s.cursor], ¬ m.stops := by
      intro m hm
      obtain hm | hm := List.mem_append.mp hm
      · exact hnone m hm
      · cases List.mem_singleton.mp hm
        exact Bool.false_ne_true
    refine ⟨h.noStart.concat fun _ _ => hnone, fun _ _ m hm hstops => absurd hstops (hnone' m hm),
      fun ⟨m, hm, hstops⟩ => absurd hstops (hnone' m hm), fun hstatus => ?_⟩
    exact (h.settled hstatus).imp_right (hset _)
  · refine ⟨h.noStart, fun _ => h.signal hpeopled, fun hstopped => ?_, fun hstatus =>
      (h.settled hstatus).imp_right (hset _)⟩
    cases h.doomed hstopped with
    | rejected hrejected => exact .rejected hrejected
    | threw hthrew => exact .threw hthrew
    | failed hfailed =>
      refine .failed (getElem?_set_eq.mpr (.inr ⟨?_, hfailed⟩))
      rintro rfl
      rw [hw] at hfailed
      cases hfailed
    | aborted hsome =>
      rw [haborted] at hsome
      cases hsome

/-- A worker whose child is fulfilled may as well not have begun. -/
theorem Halting.taken (h : Halting s) {outcome : DelegationOutcome O}
    (hw : s.workers[w]? = some (.awaiting index (.fulfilled outcome))) (usage : DelegationUsage)
    (results : List (Option (DelegationOutcome O))) :
    Halting { s with usage, results, workers := s.workers.set w .fresh } where
  noStart := h.noStart
  signal hworkers := h.signal fun hnil => hworkers (by simp [hnil])
  doomed hstopped := by
    cases h.doomed hstopped with
    | rejected hrejected => exact .rejected hrejected
    | threw hthrew => exact .threw hthrew
    | failed hfailed =>
      refine .failed (getElem?_set_eq.mpr (.inr ⟨?_, hfailed⟩))
      rintro rfl
      rw [hw] at hfailed
      cases hfailed
    | aborted hsome hworker hlive =>
      exact @Doomed.aborted O ε _ w .fresh hsome
        (List.getElem?_set_self (List.getElem?_eq_some_iff.mp hw).1) trivial
  settled hstatus := (h.settled hstatus).imp_right fun hworkers => by simp [hworkers]

theorem Halting.settle (h : Halting s) (hw : s.workers[w]? = some (.awaiting index .running))
    {child : Child O ε} {m : Moment O} (hm : m.startedIndex = none)
    (hfailed : m.stops → (∃ error, child = .rejected error) ∧ ∃ index, m = .failed index) :
    Halting { s with
      workers := s.workers.set w (.awaiting index child), log := s.log ++ [m] } where
  noStart := justified_noted h.noStart hm
  signal hworkers hnone m' hm' hstops := by
    obtain hm' | hm' := List.mem_append.mp hm'
    · exact h.signal (fun hnil => hworkers (by simp [hnil])) hnone m' hm' hstops
    · cases List.mem_singleton.mp hm'
      exact (hfailed hstops).2
  doomed := by
    have hself : (s.workers.set w (.awaiting index child))[w]? = some (.awaiting index child) :=
      List.getElem?_set_self (List.getElem?_eq_some_iff.mp hw).1
    rintro ⟨m', hm', hstops⟩
    obtain hm' | hm' := List.mem_append.mp hm'
    · cases h.doomed ⟨m', hm', hstops⟩ with
      | rejected hrejected => exact .rejected hrejected
      | threw hthrew => exact .threw hthrew
      | failed hother =>
        refine .failed (getElem?_set_eq.mpr (.inr ⟨?_, hother⟩))
        rintro rfl
        rw [hw] at hother
        cases hother
      | aborted hsome hworker hlive => exact .aborted hsome hself trivial
    · cases List.mem_singleton.mp hm'
      obtain ⟨⟨error, rfl⟩, -⟩ := hfailed hstops
      exact .failed hself
  settled hstatus := (h.settled hstatus).imp_right fun hworkers => by simp [hworkers]

theorem Halting.consume (h : Halting s) {outcome : DelegationOutcome O}
    (hw : s.workers[w]? = some (.awaiting index (.fulfilled outcome)))
    (hfree : s.ChildFailed → s.aborted.isSome ∨ requests.length ≤ s.cursor ∨
      exceeded d (s.usage.add outcome.usage) ≠ none) :
    Halting (s.consume d requests w index outcome) := by
  unfold Run.consume
  simp only
  split
  · next limit _ =>
    have haborted : (s.aborted.or (some (.limit limit))).isSome := by simp
    refine ⟨justified_noted h.noStart rfl, fun _ hnone => ?_, fun _ => ?_, fun _ => .inl haborted⟩
    · rw [Run.throw, Run.abort, ← Option.not_isSome_iff_eq_none] at hnone
      exact absurd haborted hnone
    · cases hfailure : s.failure with
      | none => exact @Doomed.threw O ε _ (.limit limit) (by simp [Run.throw, Run.abort])
      | some first => exact @Doomed.threw O ε _ first (by simp [Run.throw, Run.abort])
  · next hwithin =>
    rw [← next_set _ .fresh]
    refine (h.taken hw _ _).next (List.getElem?_set_self (List.getElem?_eq_some_iff.mp hw).1)
      fun hfailed => ?_
    obtain hsome | hle | hexceeded := hfree hfailed
    · exact .inl hsome
    · exact .inr hle
    · exact absurd hwithin hexceeded

theorem Doomed.settlement (h : Doomed s) (hpending : s.status = .pending) {status : Status O ε}
    (hsettlement : s.settlement = some status) : ∃ error, status = .rejected error := by
  unfold Run.settlement at hsettlement
  split at hsettlement
  · next error _ =>
    cases hsettlement
    exact ⟨error, rfl⟩
  · next hfailure =>
    split at hsettlement
    · next hall =>
      have hreturned : ∀ (w : ℕ) (worker : Worker O ε), s.workers[w]? = some worker →
          worker = .returned := by
        intro w worker hw
        have hmatch := List.all_eq_true.mp hall worker (List.mem_of_getElem? hw)
        cases worker with
        | returned => rfl
        | fresh | awaiting | threw => cases hmatch
      cases h with
      | rejected hrejected =>
        rw [hpending] at hrejected
        cases hrejected
      | threw hthrew =>
        rw [hfailure] at hthrew
        cases hthrew
      | failed hfailed => cases hreturned _ _ hfailed
      | aborted _ hw hlive =>
        obtain rfl := hreturned _ _ hw
        cases hlive
    · cases hsettlement

theorem unreturned_of_idle (h : s.idle) : ∃ worker ∈ s.workers, worker ≠ .returned := by
  obtain ⟨hsettlement, -⟩ := Bool.and_eq_true_iff.mp h
  by_contra hall
  unfold Run.settlement at hsettlement
  split at hsettlement
  · cases hsettlement
  · rw [if_pos] at hsettlement
    · cases hsettlement
    · refine List.all_eq_true.mpr fun worker hworker => ?_
      obtain rfl : worker = .returned := by_contra fun hne => hall ⟨worker, hworker, hne⟩
      rfl

theorem Halting.step (h : Halting s) (hsound : Sound d requests s) {input : Input O ε}
    (hheeds : Heeds d requests s input) (hstep : step d requests s input = some s') :
    Halting s' := by
  unfold Delegation.step at hstep
  cases input with
  | begin w =>
    simp only at hstep
    split at hstep
    · next hw =>
      split at hstep
      · cases hstep
        exact h.next hw hheeds
      · cases hstep
    · cases hstep
  | settle w result =>
    simp only at hstep
    split at hstep
    · next index hw =>
      cases result with
      | ok outcome =>
        cases hstep
        exact h.settle hw rfl fun hstops => absurd hstops Bool.false_ne_true
      | error error =>
        cases hstep
        exact h.settle hw rfl fun _ => ⟨⟨error, rfl⟩, index, rfl⟩
    · cases hstep
  | resume w =>
    simp only at hstep
    split at hstep
    · split at hstep
      · next index outcome hw =>
        cases hstep
        exact h.consume hw fun hfailed =>
          (hheeds hfailed).imp_right fun hrest => hrest.imp_right fun hexceeds =>
            hexceeds index outcome hw
      · next index error hw =>
        cases hstep
        exact h.throw w _
      · cases hstep
    · cases hstep
  | parentAbort reason =>
    simp only at hstep
    split at hstep
    · split at hstep
      · cases hstep
      · cases hstep
        obtain ⟨worker, hworker, hne⟩ := hheeds
        exact h.aborted hsound rfl _ _ hworker hne
    · cases hstep
  | timeout =>
    simp only at hstep
    split at hstep
    · split at hstep
      · next hidle =>
        cases hstep
        obtain ⟨worker, hworker, hne⟩ := unreturned_of_idle hidle
        exact h.aborted hsound rfl _ _ hworker hne
      · cases hstep
    · cases hstep
  | conclude =>
    simp only at hstep
    split at hstep
    · next hpending =>
      split at hstep
      · obtain ⟨status, hsettlement, rfl⟩ := Option.map_eq_some_iff.mp hstep
        refine ⟨h.noStart, fun _ hnone => by simp [Run.abort] at hnone, fun hstopped => ?_,
          fun _ => .inl (by simp [Run.abort])⟩
        obtain ⟨error, rfl⟩ := (h.doomed hstopped).settlement hpending hsettlement
        exact .rejected rfl
      · cases hstep
    · cases hstep

theorem halting_initial {aborted : Bool}
    (hheard : aborted → (refusal (ε := Unit) d requests).isSome) :
    Halting (initial d requests aborted : Run O ε) := by
  unfold initial
  simp only
  split
  · next error _ =>
    have hlog : Justified StartsFreely (if aborted then [Moment.aborted (O := O)] else []) := by
      cases aborted
      · exact justified_nil
      · exact @justified_noted O [] justified_nil _ rfl
    exact ⟨hlog, fun hworkers => absurd rfl hworkers, fun _ => @Doomed.rejected O ε _ error rfl,
      fun _ => .inr rfl⟩
  · next hrefusal =>
    have hunheard : aborted = false := by
      by_contra hne
      have hsome := hheard (by simpa using hne)
      rw [← refusal_isSome (ε := ε), hrefusal] at hsome
      cases hsome
    subst hunheard
    exact ⟨justified_nil, fun _ _ m hm => by simp at hm, fun ⟨m, hm, _⟩ => by simp at hm,
      fun hstatus => absurd rfl hstatus⟩

theorem begin_of_not_begun (h : ¬ s.begun) : ∃ w, (step d requests s (.begin w)).isSome := by
  have hexists : ∃ worker ∈ s.workers, worker.isFresh := by
    by_contra hnone
    refine h (List.all_eq_true.mpr fun worker hworker => ?_)
    have hnot : ¬ worker.isFresh := fun hfresh => hnone ⟨worker, hworker, hfresh⟩
    simpa using hnot
  have hlt := List.findIdx_lt_length.mpr hexists
  have hfirst : s.workers[s.workers.findIdx Worker.isFresh]? = some .fresh := by
    have hfound := List.findIdx_getElem (w := hlt)
    rw [List.getElem?_eq_getElem hlt]
    cases hworker : s.workers[s.workers.findIdx Worker.isFresh] with
    | fresh => rfl
    | awaiting | returned | threw => simp [hworker, Worker.isFresh] at hfound
  have hbefore : (s.workers.take (s.workers.findIdx Worker.isFresh)).all
      fun worker => !worker.isFresh := by
    refine List.all_eq_true.mpr fun worker hworker => ?_
    obtain ⟨v, hv, rfl⟩ := List.getElem_of_mem hworker
    rw [List.length_take] at hv
    have hnot := @List.not_of_lt_findIdx _ Worker.isFresh s.workers v (by omega)
    rw [List.getElem_take]
    simpa using hnot
  refine ⟨s.workers.findIdx Worker.isFresh, ?_⟩
  simp [step, hfirst, hbefore]

/-- A call that is doomed and cannot go on, with no child running, is rejected. -/
theorem Doomed.rejected_of_stuck (h : Doomed s) (hsound : Sound d requests s)
    (hrunning : s.running = 0) (hstuck : ¬ CanGoOn d requests s) :
    ∃ error, s.status = .rejected error := by
  have hbegun : s.begun := by
    by_contra hfresh
    exact hstuck (.inl (begin_of_not_begun hfresh))
  have hresume : ∀ (w index : ℕ) (child : Child O ε),
      s.workers[w]? ≠ some (.awaiting index child) := by
    intro w index child hw
    cases child with
    | running =>
      have hpos : 0 < s.running := List.countP_pos_iff.mpr ⟨_, List.mem_of_getElem? hw, rfl⟩
      omega
    | fulfilled outcome => exact hstuck (.inr (.inl ⟨w, by simp [step, hbegun, hw]⟩))
    | rejected error => exact hstuck (.inr (.inl ⟨w, by simp [step, hbegun, hw]⟩))
  have hconclude : ∀ error, s.failure = some error → s.status ≠ .pending := by
    intro error herror hpending
    exact hstuck (.inr (.inr (by simp [step, hpending, hbegun, Run.settlement, herror])))
  cases h with
  | rejected hrejected => exact ⟨_, hrejected⟩
  | threw hthrew =>
    cases hstatus : s.status with
    | pending => exact absurd hstatus (hconclude _ hthrew)
    | resolved results =>
      rw [(hsound.resolved results hstatus).2.1] at hthrew
      cases hthrew
    | rejected error => exact ⟨error, rfl⟩
  | failed hfailed => exact absurd hfailed (hresume _ _ _)
  | @aborted w worker _ hw hlive =>
    cases worker with
    | fresh =>
      have hnot := List.all_eq_true.mp hbegun _ (List.mem_of_getElem? hw)
      cases hnot
    | awaiting index child => exact absurd hw (hresume _ _ _)
    | returned | threw => cases hlive

theorem Halting.stops (h : Halting s) (hsound : Sound d requests s) : Stops d requests s := by
  refine ⟨?_, ?_, ?_, ?_⟩
  · exact fun before index after hlog m hm => h.noStart before _ after hlog index rfl m hm
  · intro hrunning hstatus
    refine (h.settled hstatus).resolve_right fun hworkers => ?_
    simp [Run.running, hworkers] at hrunning
  · intro hstopped results hresolved
    obtain ⟨-, hfailure, hreturned⟩ := hsound.resolved results hresolved
    cases h.doomed hstopped with
    | rejected hrejected =>
      rw [hresolved] at hrejected
      cases hrejected
    | threw hthrew =>
      rw [hfailure] at hthrew
      cases hthrew
    | failed hfailed => cases hreturned _ (List.mem_of_getElem? hfailed)
    | aborted _ hw hlive =>
      obtain rfl := hreturned _ (List.mem_of_getElem? hw)
      cases hlive
  · intro hstopped hrunning hstuck
    exact (h.doomed hstopped).rejected_of_stuck hsound hrunning hstuck

/-- Delegation stops in every run that heeds the condition, if the parent's signal is not aborted
before the call. -/
theorem delegation_stops (d : DelegationSupervisor) (requests : List (DelegationRequest I))
    {aborted : Bool} (hheard : aborted → (refusal (ε := Unit) d requests).isSome)
    (h : (delegation d requests).Reaches (Heeds d requests) (initial d requests aborted) s) :
    Stops d requests s := by
  have hany : ∀ {s : Run O ε}, (delegation d requests).Reaches (Heeds d requests)
      (initial d requests aborted) s → Sound d requests s :=
    fun hr => sound_of_reaches (hr.mono fun _ _ _ => trivial)
  have hhalting : Halting s := h.invariant₂ (fun _ hr => hany hr) (halting_initial hheard)
    fun _ _ _ hsound hs hheeds hstep => hs.step hsound hheeds hstep
  exact hhalting.stops (hany h)

end Stopping

def oneWorker : DelegationSupervisor where
  limits := ⟨1, 1, 3, 100, 2000, 1, 3⟩
  positive := by decide +kernel

theorem initial_oneWorker (aborted : Bool) :
    (initial oneWorker [workRequest] aborted : Run String String) =
      { workers := [.fresh], parentAborted := aborted,
        log := if aborted then [.aborted] else [] } := by
  have hrefusal : (refusal oneWorker [workRequest] : Option (DelegationError String)) = none := by
    rw [← Option.not_isSome_iff_eq_none, refusal_isSome]
    decide +kernel
  have hcount : workerCount oneWorker [workRequest] = 1 := by decide +kernel
  simp [initial, hrefusal, hcount]

theorem delegation_stops_sample : ∃ s : Run String String,
    (delegation oneWorker [workRequest]).Reaches (Heeds oneWorker [workRequest])
      (initial oneWorker [workRequest] false) s ∧
    (s.status = .rejected (.child "interrupted") ∧ s.Stopped) ∧
    Stops oneWorker [workRequest] s := by
  have hreaches : ∃ s : Run String String,
      (delegation oneWorker [workRequest]).Reaches (Heeds oneWorker [workRequest])
        (initial oneWorker [workRequest] false) s ∧
      s.status = .rejected (.child "interrupted") ∧ s.Stopped := by
    rw [initial_oneWorker]
    refine ⟨_, .tail (.tail (.tail (.tail (.tail .refl (i := .begin 0) ?_ rfl)
      (i := .parentAbort "bye") ?_ rfl) (i := .settle 0 (.error "interrupted")) trivial rfl)
      (i := .resume 0) ?_ rfl) (i := .conclude) trivial rfl, rfl, .aborted, ?_, rfl⟩
    · rintro ⟨index, hindex⟩
      cases hindex
    · exact ⟨.awaiting 0 .running, .head _, by simp⟩
    · exact fun _ => .inl rfl
    · exact .tail _ (.head _)
  obtain ⟨s, hs, hrejected, hstopped⟩ := hreaches
  exact ⟨s, hs, ⟨hrejected, hstopped⟩,
    delegation_stops oneWorker [workRequest] (fun h => by cases h) hs⟩

/-- The parent's signal is aborted already, and a child is started. -/
theorem started_after_abort : ∃ s : Run String String,
    (delegation oneWorker [workRequest]).Reaches Machine.anyStep
      (initial oneWorker [workRequest] true) s ∧
    s.log = [.aborted, .started 0] ∧ ¬ Stops oneWorker [workRequest] s := by
  rw [initial_oneWorker]
  refine ⟨_, .tail .refl trivial (i := .begin 0) rfl, rfl, fun hstops => ?_⟩
  exact hstops.noStart [.aborted] 0 [] rfl .aborted (.head _) rfl

end BeeAgent.Runtime.Delegation
