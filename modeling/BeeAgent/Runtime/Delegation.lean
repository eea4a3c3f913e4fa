import BeeAgent.Data.Sparse
import BeeAgent.Transition.Machine
import Mathlib.Algebra.Order.Ring.Rat
import Mathlib.Data.Nat.Cast.Order.Ring

/-! Bounded delegation: the workers of one call of `run` with the children that they wait for, step
by step, and what can stop them. -/
namespace BeeAgent.Runtime.Delegation
open Transition

structure DelegationLimits where
  maxDepth : ℚ
  maxConcurrency : ℚ
  maxChildren : ℚ
  maxTokens : ℚ
  maxDurationMs : ℚ
  maxCostUsd : ℚ
  maxWorldActions : ℚ

/-- `keyof DelegationLimits` -/
inductive Limit where
  | maxDepth
  | maxConcurrency
  | maxChildren
  | maxTokens
  | maxDurationMs
  | maxCostUsd
  | maxWorldActions
  deriving DecidableEq, Repr

def Limit.text : Limit → String
  | .maxDepth => "maxDepth"
  | .maxConcurrency => "maxConcurrency"
  | .maxChildren => "maxChildren"
  | .maxTokens => "maxTokens"
  | .maxDurationMs => "maxDurationMs"
  | .maxCostUsd => "maxCostUsd"
  | .maxWorldActions => "maxWorldActions"

def DelegationLimits.entries (limits : DelegationLimits) : List (Limit × ℚ) :=
  [(.maxDepth, limits.maxDepth), (.maxConcurrency, limits.maxConcurrency),
    (.maxChildren, limits.maxChildren), (.maxTokens, limits.maxTokens),
    (.maxDurationMs, limits.maxDurationMs), (.maxCostUsd, limits.maxCostUsd),
    (.maxWorldActions, limits.maxWorldActions)]

structure DelegationUsage where
  tokens : ℚ
  costUsd : ℚ
  worldActions : ℚ

structure DelegationRequest (I : Type) where
  id : String
  parentEpisodeId : String
  depth : ℚ
  input : I

structure DelegationOutcome (O : Type) where
  id : String
  parentEpisodeId : String
  childEpisodeId : String
  trajectoryId : String
  output : O
  usage : DelegationUsage

/-- What `run` rejects with, where `ε` is what children and the parent's signal give. -/
inductive DelegationError (ε : Type) where
  | limit (limit : Limit)
  | uniqueIds
  | child (error : ε)
  | parent (reason : ε)
  /-- `controller.abort()` without a reason. -/
  | abort

def DelegationError.message {ε : Type} : DelegationError ε → Option String
  | .limit key => some ("Delegation exceeded " ++ key.text)
  | .uniqueIds => some "Delegation request ids must be unique"
  | _ => none

/-- A supervisor has limits that the constructor accepts. -/
structure DelegationSupervisor where
  limits : DelegationLimits
  positive : ∀ e ∈ limits.entries, 0 < e.2

/-- The constructor; numbers that are not finite are refused as well. -/
def DelegationSupervisor.new (limits : DelegationLimits) : Except String DelegationSupervisor :=
  match h : limits.entries.find? fun e => e.2 ≤ 0 with
  | some (limit, _) => .error ("Delegation limit '" ++ limit.text ++ "' must be positive")
  | none => .ok ⟨limits, by simpa using h⟩

/-- The promise of a child that runs, or how it was settled. -/
inductive Child (O ε : Type) where
  | running
  | fulfilled (outcome : DelegationOutcome O)
  | rejected (error : ε)

inductive Worker (O ε : Type) where
  /-- Not called yet. -/
  | fresh
  | awaiting (index : ℕ) (child : Child O ε)
  | returned
  | threw

section Worker
variable {O ε : Type}

def Worker.isFresh : Worker O ε → Bool
  | .fresh => true
  | _ => false

def Worker.isReturned : Worker O ε → Bool
  | .returned => true
  | _ => false

/-- The worker waits for a child that runs. -/
def Worker.isWaiting : Worker O ε → Bool
  | .awaiting _ .running => true
  | _ => false

end Worker

/-- What has happened, in order. -/
inductive Moment (O : Type) where
  | started (index : ℕ)
  | finished (index : ℕ) (outcome : DelegationOutcome O)
  | failed (index : ℕ)
  | exceeded
  | aborted
  | timedOut

/-- What is to stop the delegation. -/
def Moment.stops {O : Type} : Moment O → Bool
  | .started _ | .finished .. => false
  | .failed _ | .exceeded | .aborted | .timedOut => true

inductive Status (O ε : Type) where
  | pending
  | resolved (results : List (Option (DelegationOutcome O)))
  | rejected (error : DelegationError ε)

/-- One call of `run`. -/
structure Run (O ε : Type) where
  status : Status O ε := .pending
  workers : List (Worker O ε) := []
  cursor : ℕ := 0
  results : List (Option (DelegationOutcome O)) := []
  usage : DelegationUsage := ⟨0, 0, 0⟩
  /-- The reason of the controller's signal, once it is aborted. -/
  aborted : Option (DelegationError ε) := none
  /-- What the first worker threw. -/
  failure : Option (DelegationError ε) := none
  parentAborted : Bool := false
  log : List (Moment O) := []

section Step
variable {I O ε : Type} (d : DelegationSupervisor) (requests : List (DelegationRequest I))

/-- What is checked before anything is started. -/
def refusal : Option (DelegationError ε) :=
  if d.limits.maxChildren < requests.length then some (.limit .maxChildren)
  else if requests.any fun request => d.limits.maxDepth < request.depth then
    some (.limit .maxDepth)
  else if ¬ (requests.map (·.id)).Nodup then some .uniqueIds
  else none

/-- The length of an array is an integer: it is cut down to one. -/
def workerCount : ℕ := (min (requests.length : ℚ) d.limits.maxConcurrency).floor.toNat

/-- `run` is called; the parent's signal may be aborted already, which its listener is not told. -/
def initial (aborted : Bool) : Run O ε :=
  let log := if aborted then [.aborted] else []
  match refusal d requests with
  | some error => { status := .rejected error, parentAborted := aborted, log }
  | none =>
    { workers := List.replicate (workerCount d requests) .fresh, parentAborted := aborted, log }

variable (s : Run O ε)

def Run.throw (w : ℕ) (error : DelegationError ε) : Run O ε :=
  { s with workers := s.workers.set w .threw, failure := s.failure.or (some error) }

/-- The signal keeps the reason that it was aborted with first. -/
def Run.abort (reason : DelegationError ε) : Run O ε :=
  { s with aborted := s.aborted.or (some reason) }

/-- The head of a worker's loop, up to its next await. -/
def Run.next (w : ℕ) : Run O ε :=
  match s.aborted with
  | some reason => s.throw w reason
  | none =>
    if s.cursor < requests.length then
      { s with
        cursor := s.cursor + 1
        workers := s.workers.set w (.awaiting s.cursor .running)
        log := s.log ++ [.started s.cursor] }
    else { s with cursor := s.cursor + 1, workers := s.workers.set w .returned }

def DelegationUsage.add (u v : DelegationUsage) : DelegationUsage :=
  ⟨u.tokens + v.tokens, u.costUsd + v.costUsd, u.worldActions + v.worldActions⟩

/-- The first limit that the usage exceeds. -/
def exceeded (u : DelegationUsage) : Option Limit :=
  if d.limits.maxTokens < u.tokens then some .maxTokens
  else if d.limits.maxCostUsd < u.costUsd then some .maxCostUsd
  else if d.limits.maxWorldActions < u.worldActions then some .maxWorldActions
  else none

/-- A worker goes on with the outcome of its child. -/
def Run.consume (w index : ℕ) (outcome : DelegationOutcome O) : Run O ε :=
  let usage := s.usage.add outcome.usage
  match exceeded d usage with
  | some limit =>
    let s := { s with usage, log := s.log ++ [Moment.exceeded] }.abort (.limit limit)
    s.throw w (.limit limit)
  | none => Run.next requests { s with usage, results := Sparse.assign outcome s.results index } w

/-- `Promise.all` is settled: a worker threw, or all have returned. -/
def Run.settlement : Option (Status O ε) :=
  match s.failure with
  | some error => some (.rejected error)
  | none =>
    if s.workers.all Worker.isReturned then some (.resolved s.results) else none

def Run.begun : Bool := s.workers.all fun worker => !worker.isFresh

/-- Nothing is left to do before something happens outside: children run, and each worker that has
not returned waits for one. -/
def Run.idle : Bool :=
  s.settlement.isNone && s.workers.all fun worker =>
    worker.isWaiting || worker.isReturned

inductive Input (O ε : Type) where
  /-- The next worker is called, up to its first await. -/
  | begin (w : ℕ)
  | settle (w : ℕ) (result : Except ε (DelegationOutcome O))
  /-- A worker goes on after the promise of its child was settled. -/
  | resume (w : ℕ)
  | parentAbort (reason : ε)
  | timeout
  /-- `run` goes on after `Promise.all`, through its `finally`. -/
  | conclude

def step : Input O ε → Option (Run O ε)
  | .begin w =>
    match s.workers[w]? with
    | some .fresh =>
      if (s.workers.take w).all fun worker => !worker.isFresh then
        some (s.next requests w)
      else none
    | _ => none
  | .settle w result =>
    match s.workers[w]? with
    | some (.awaiting index .running) =>
      match result with
      | .ok outcome => some { s with
          workers := s.workers.set w (.awaiting index (.fulfilled outcome))
          log := s.log ++ [.finished index outcome] }
      | .error error => some { s with
          workers := s.workers.set w (.awaiting index (.rejected error))
          log := s.log ++ [.failed index] }
    | _ => none
  | .resume w =>
    if s.begun then
      match s.workers[w]? with
      | some (.awaiting index (.fulfilled outcome)) => some (s.consume d requests w index outcome)
      | some (.awaiting _ (.rejected error)) => some (s.throw w (.child error))
      | _ => none
    else none
  | .parentAbort reason =>
    match s.status with
    | .pending =>
      if s.parentAborted then none
      else
        some ({ s with parentAborted := true, log := s.log ++ [Moment.aborted] }.abort
          (.parent reason))
    | _ => none
  | .timeout =>
    match s.status with
    | .pending =>
      if s.idle then
        some ({ s with log := s.log ++ [Moment.timedOut] }.abort (.limit .maxDurationMs))
      else none
    | _ => none
  | .conclude =>
    match s.status with
    | .pending =>
      if s.begun then s.settlement.map fun status => { s with status }.abort .abort else none
    | _ => none

end Step

def delegation {I O ε : Type} (d : DelegationSupervisor) (requests : List (DelegationRequest I)) :
    Machine (Run O ε) (Input O ε) := ⟨step d requests⟩

/-! ### Bounds -/

namespace Moment
variable {O : Type}

def startedIndex : Moment O → Option ℕ
  | .started index => some index
  | _ => none

end Moment

def startedIn {O : Type} (log : List (Moment O)) : List ℕ := log.filterMap Moment.startedIndex

def Run.running {O ε : Type} (s : Run O ε) : ℕ := s.workers.countP Worker.isWaiting

section Bounds
variable {I O ε : Type} {d : DelegationSupervisor} {requests : List (DelegationRequest I)}
  {s s' : Run O ε} {w index : ℕ}

/-- What a run keeps and what it has done when it resolves. -/
structure Bounded (d : DelegationSupervisor) (requests : List (DelegationRequest I))
    (s : Run O ε) : Prop where
  concurrency : (s.running : ℚ) ≤ d.limits.maxConcurrency
  once : (startedIn s.log).Nodup
  executed : ∀ results, s.status = .resolved results → ∀ i < requests.length, .started i ∈ s.log
  outcomes : ∀ results, s.status = .resolved results → results.length = requests.length ∧
    ∀ i < requests.length, ∃ outcome, results[i]? = some (some outcome) ∧
      .finished i outcome ∈ s.log
  within : ∀ results, s.status = .resolved results →
    Sparse.total (·.usage.tokens) results ≤ d.limits.maxTokens ∧
    Sparse.total (·.usage.costUsd) results ≤ d.limits.maxCostUsd ∧
    Sparse.total (·.usage.worldActions) results ≤ d.limits.maxWorldActions

/-- The usage is what the results amount to. -/
def Accounted (usage : DelegationUsage) (results : List (Option (DelegationOutcome O))) : Prop :=
  usage.tokens = Sparse.total (·.usage.tokens) results ∧
  usage.costUsd = Sparse.total (·.usage.costUsd) results ∧
  usage.worldActions = Sparse.total (·.usage.worldActions) results

structure Sound (d : DelegationSupervisor) (requests : List (DelegationRequest I)) (s : Run O ε) :
    Prop where
  size : s.workers.length ≤ workerCount d requests
  peopled : (∃ error, s.status = .rejected error) ∨ s.workers.length = workerCount d requests
  started : startedIn s.log = List.range (min s.cursor requests.length)
  awaiting : ∀ (w i : ℕ) (c : Child O ε), s.workers[w]? = some (.awaiting i c) →
    i < min s.cursor requests.length ∧ Sparse.slot s.results i = none
  apart : ∀ (w w' i : ℕ) (c c' : Child O ε), s.workers[w]? = some (.awaiting i c) →
    s.workers[w']? = some (.awaiting i c') → w = w'
  fulfilled : ∀ (w i : ℕ) (o : DelegationOutcome O), s.workers[w]? =
    some (.awaiting i (.fulfilled o)) → .finished i o ∈ s.log
  slots : ∀ i o, Sparse.slot s.results i = some o →
    .finished i o ∈ s.log ∧ i < min s.cursor requests.length
  short : s.results.length ≤ requests.length
  returned : ∀ w : ℕ, s.workers[w]? = some .returned → requests.length ≤ s.cursor
  covered : s.failure = none → ∀ i < min s.cursor requests.length,
    Sparse.slot s.results i ≠ none ∨ 
      ∃ (w : ℕ) (c : Child O ε), s.workers[w]? = some (.awaiting i c)
  accounted : s.failure = none → Accounted s.usage s.results ∧ exceeded d s.usage = none
  threw : ∀ w : ℕ, s.workers[w]? = some .threw → s.failure ≠ none
  resolved : ∀ results, s.status = .resolved results → results = s.results ∧ s.failure = none ∧
    ∀ worker ∈ s.workers, worker = .returned

theorem Sound.unresolved (h : Sound d requests s) {worker : Worker O ε}
    (hworker : s.workers[w]? = some worker) (hne : worker ≠ .returned) (results) :
    s.status ≠ .resolved results := fun hstatus =>
  hne ((h.resolved results hstatus).2.2 worker (List.mem_of_getElem? hworker))

theorem getElem?_set_eq {α : Type} {l : List α} {w v : ℕ} {a b : α} :
    (l.set w a)[v]? = some b ↔ w = v ∧ v < l.length ∧ b = a ∨ w ≠ v ∧ l[v]? = some b := by
  rw [List.getElem?_set]
  by_cases hv : w = v
  · subst hv
    by_cases hw : w < l.length
    · simp [hw, eq_comm]
    · simp [hw]
  · simp [hv]

@[simp] theorem startedIn_append (log : List (Moment O)) (m : Moment O) :
    startedIn (log ++ [m]) = startedIn log ++ m.startedIndex.toList := by
  rw [startedIn, List.filterMap_append]
  cases h : m.startedIndex <;> simp [startedIn, h]

theorem range_min_succ {m n : ℕ} (h : m < n) :
    List.range (min (m + 1) n) = List.range (min m n) ++ [m] := by
  rw [min_eq_left (by omega), min_eq_left (by omega), List.range_succ]

theorem Sound.noted (h : Sound d requests s) {m : Moment O} (hm : m.startedIndex = none)
    (aborted : Option (DelegationError ε)) (parentAborted : Bool) :
    Sound d requests { s with aborted, parentAborted, log := s.log ++ [m] } where
  size := h.size
  peopled := h.peopled
  started := by simpa [hm] using h.started
  awaiting := h.awaiting
  apart := h.apart
  fulfilled w i o hw := List.mem_append_left _ (h.fulfilled w i o hw)
  slots i o hi := ⟨List.mem_append_left _ (h.slots i o hi).1, (h.slots i o hi).2⟩
  short := h.short
  returned := h.returned
  covered := h.covered
  accounted := h.accounted
  threw := h.threw
  resolved := h.resolved

theorem Sound.throw (h : Sound d requests s) {worker : Worker O ε}
    (hworker : s.workers[w]? = some worker) (hne : worker ≠ .returned) (error : DelegationError ε) :
    Sound d requests (s.throw w error) := by
  have hfailed : (s.throw w error).failure ≠ none := by
    cases hfailure : s.failure <;> simp [Run.throw, hfailure]
  have hother : ∀ {v : ℕ} {worker : Worker O ε}, worker ≠ .threw →
      (s.throw w error).workers[v]? = some worker → s.workers[v]? = some worker := by
    intro v worker hthrew hv
    obtain ⟨-, -, rfl⟩ | ⟨-, hv⟩ := getElem?_set_eq.mp hv
    · exact absurd rfl hthrew
    · exact hv
  refine ⟨?_, ?_, h.started, ?_, ?_, ?_, h.slots, h.short, ?_, ?_, ?_, fun _ _ => hfailed, ?_⟩
  · simpa [Run.throw] using h.size
  · simpa [Run.throw] using h.peopled
  · exact fun v i c hv => h.awaiting v i c (hother (by simp) hv)
  · exact fun v v' i c c' hv hv' =>
      h.apart v v' i c c' (hother (by simp) hv) (hother (by simp) hv')
  · exact fun v i o hv => h.fulfilled v i o (hother (by simp) hv)
  · exact fun v hv => h.returned v (hother (by simp) hv)
  · exact fun hnone => absurd hnone hfailed
  · exact fun hnone => absurd hnone hfailed
  · exact fun results hstatus => absurd hstatus (h.unresolved hworker hne results)

theorem Sound.next (h : Sound d requests s) (hw : s.workers[w]? = some .fresh) :
    Sound d requests (s.next requests w) := by
  unfold Run.next
  split
  · exact h.throw hw (by simp) _
  have hunresolved := h.unresolved hw (by simp)
  split
  · next hmore =>
    have hold : ∀ {v i : ℕ} {c : Child O ε},
        (s.workers.set w (.awaiting s.cursor .running))[v]? = some (.awaiting i c) →
        v = w ∧ i = s.cursor ∧ c = .running ∨ v ≠ w ∧ s.workers[v]? = some (.awaiting i c) := by
      intro v i c hv
      obtain ⟨rfl, -, hworker⟩ | ⟨hne, hv⟩ := getElem?_set_eq.mp hv
      · cases hworker
        exact .inl ⟨rfl, rfl, rfl⟩
      · exact .inr ⟨hne.symm, hv⟩
    refine ⟨?_, ?_, ?_, ?_, ?_, ?_, ?_, h.short, ?_, ?_, h.accounted, ?_, ?_⟩
    · simpa using h.size
    · simpa using h.peopled
    · simp only [startedIn_append, Moment.startedIndex, Option.toList_some, h.started]
      exact (range_min_succ hmore).symm
    · intro v i c hv
      obtain ⟨rfl, rfl, rfl⟩ | ⟨-, hv⟩ := hold hv
      · refine ⟨by simp only; omega, ?_⟩
        by_contra hslot
        obtain ⟨o, ho⟩ := Option.ne_none_iff_exists'.mp hslot
        have hlt := (h.slots _ _ ho).2
        omega
      · have hi := h.awaiting v i c hv
        exact ⟨by simp only; omega, hi.2⟩
    · intro v v' i c c' hv hv'
      obtain ⟨hvw, hi, -⟩ | ⟨-, hvold⟩ := hold hv
      · obtain ⟨hvw', -⟩ | ⟨-, hvold'⟩ := hold hv'
        · exact hvw.trans hvw'.symm
        · have hlt := (h.awaiting v' i c' hvold').1
          omega
      · obtain ⟨-, hi, -⟩ | ⟨-, hvold'⟩ := hold hv'
        · have hlt := (h.awaiting v i c hvold).1
          omega
        · exact h.apart v v' i c c' hvold hvold'
    · intro v i o hv
      obtain ⟨-, -, hc⟩ | ⟨-, hv⟩ := hold hv
      · cases hc
      · exact List.mem_append_left _ (h.fulfilled v i o hv)
    · intro i o hi
      have hslot := h.slots i o hi
      exact ⟨List.mem_append_left _ hslot.1, by simp only; omega⟩
    · intro v hv
      obtain ⟨-, -, hworker⟩ | ⟨-, hv⟩ := getElem?_set_eq.mp hv
      · cases hworker
      · have hle := h.returned v hv
        omega
    · intro hnone i hi
      by_cases hlast : i = s.cursor
      · exact .inr ⟨w, .running, getElem?_set_eq.mpr
          (.inl ⟨rfl, (List.getElem?_eq_some_iff.mp hw).1, by rw [hlast]⟩)⟩
      · obtain hslot | ⟨v, c, hv⟩ := h.covered hnone i (by simp only at hi; omega)
        · exact .inl hslot
        · refine .inr ⟨v, c, getElem?_set_eq.mpr (.inr ⟨?_, hv⟩)⟩
          rintro rfl
          rw [hw] at hv
          cases hv
    · intro v hv
      obtain ⟨-, -, hworker⟩ | ⟨-, hv⟩ := getElem?_set_eq.mp hv
      · cases hworker
      · exact h.threw v hv
    · exact fun results hstatus => absurd hstatus (hunresolved results)
  · next hdone =>
    have hcursor : min (s.cursor + 1) requests.length = min s.cursor requests.length := by omega
    have hold : ∀ {v : ℕ} {worker : Worker O ε}, worker ≠ .returned →
        (s.workers.set w .returned)[v]? = some worker → s.workers[v]? = some worker := by
      intro v worker hne hv
      obtain ⟨-, -, rfl⟩ | ⟨-, hv⟩ := getElem?_set_eq.mp hv
      · exact absurd rfl hne
      · exact hv
    refine ⟨by simpa using h.size, by simpa using h.peopled, hcursor ▸ h.started, ?_, ?_, ?_,
      hcursor ▸ h.slots, h.short, fun _ _ => by simp only; omega, ?_, h.accounted, ?_, ?_⟩
    · rw [hcursor]
      exact fun v i c hv => h.awaiting v i c (hold (by simp) hv)
    · exact fun v v' i c c' hv hv' => h.apart v v' i c c' (hold (by simp) hv) (hold (by simp) hv')
    · exact fun v i o hv => h.fulfilled v i o (hold (by simp) hv)
    · intro hnone i hi
      rw [hcursor] at hi
      obtain hslot | ⟨v, c, hv⟩ := h.covered hnone i hi
      · exact .inl hslot
      · refine .inr ⟨v, c, getElem?_set_eq.mpr (.inr ⟨?_, hv⟩)⟩
        rintro rfl
        rw [hw] at hv
        cases hv
    · exact fun v hv => h.threw v (hold (by simp) hv)
    · exact fun results hstatus => absurd hstatus (hunresolved results)

theorem next_set (s : Run O ε) (worker : Worker O ε) :
    Run.next requests { s with workers := s.workers.set w worker } w = s.next requests w := by
  unfold Run.next Run.throw
  simp only [List.set_set]

theorem Sound.taken (h : Sound d requests s) {outcome : DelegationOutcome O}
    (hw : s.workers[w]? = some (.awaiting index (.fulfilled outcome)))
    (hwithin : exceeded d (s.usage.add outcome.usage) = none) :
    Sound d requests { s with
      usage := s.usage.add outcome.usage
      results := Sparse.assign outcome s.results index
      workers := s.workers.set w .fresh } := by
  obtain ⟨hindex, hslot⟩ := h.awaiting w index _ hw
  have hold : ∀ {v i : ℕ} {c : Child O ε},
      (s.workers.set w .fresh)[v]? = some (.awaiting i c) →
      s.workers[v]? = some (.awaiting i c) ∧ i ≠ index := by
    intro v i c hv
    obtain ⟨-, -, hworker⟩ | ⟨hne, hv⟩ := getElem?_set_eq.mp hv
    · cases hworker
    · refine ⟨hv, ?_⟩
      rintro rfl
      exact hne (h.apart w v i _ c hw hv)
  refine ⟨by simpa using h.size, by simpa using h.peopled, h.started, ?_, ?_, ?_, ?_, ?_, ?_, ?_,
    ?_, ?_, ?_⟩
  · intro v i c hv
    obtain ⟨hv, hne⟩ := hold hv
    exact ⟨(h.awaiting v i c hv).1, (Sparse.slot_assign_of_ne hne).trans (h.awaiting v i c hv).2⟩
  · exact fun v v' i c c' hv hv' => h.apart v v' i c c' (hold hv).1 (hold hv').1
  · exact fun v i o hv => h.fulfilled v i o (hold hv).1
  · intro i o hi
    simp only [Sparse.slot_assign] at hi
    split at hi
    · next heq =>
      cases hi
      exact ⟨heq ▸ h.fulfilled w index outcome hw, heq ▸ hindex⟩
    · exact h.slots i o hi
  · have hshort := h.short
    simp only [Sparse.length_assign]
    omega
  · intro v hv
    obtain ⟨-, -, hworker⟩ | ⟨-, hv⟩ := getElem?_set_eq.mp hv
    · cases hworker
    · exact h.returned v hv
  · intro hnone i hi
    by_cases heq : i = index
    · exact .inl (by simp [heq])
    · obtain hold | ⟨v, c, hv⟩ := h.covered hnone i hi
      · exact .inl (by rwa [Sparse.slot_assign_of_ne heq])
      · refine .inr ⟨v, c, getElem?_set_eq.mpr (.inr ⟨?_, hv⟩)⟩
        rintro rfl
        rw [hw] at hv
        cases hv
        exact heq rfl
  · intro hnone
    obtain ⟨⟨htokens, hcost, hactions⟩, -⟩ := h.accounted hnone
    refine ⟨⟨?_, ?_, ?_⟩, hwithin⟩
    · simp only [Sparse.total_assign hslot, DelegationUsage.add, htokens]
    · simp only [Sparse.total_assign hslot, DelegationUsage.add, hcost]
    · simp only [Sparse.total_assign hslot, DelegationUsage.add, hactions]
  · intro v hv
    obtain ⟨-, -, hworker⟩ | ⟨-, hv⟩ := getElem?_set_eq.mp hv
    · cases hworker
    · exact h.threw v hv
  · exact fun results hstatus => absurd hstatus (h.unresolved hw (by simp) results)

theorem Sound.consume (h : Sound d requests s) {outcome : DelegationOutcome O}
    (hw : s.workers[w]? = some (.awaiting index (.fulfilled outcome))) :
    Sound d requests (s.consume d requests w index outcome) := by
  unfold Run.consume
  simp only
  split
  · next limit _ =>
    have hthrew := h.throw hw (by simp) (.limit limit)
    have hspent : Sound d requests
        { s.throw w (.limit limit) with usage := s.usage.add outcome.usage } :=
      { hthrew with
        accounted := fun hnone => by
          cases hfailure : s.failure <;> simp [Run.throw, hfailure] at hnone }
    exact hspent.noted (m := .exceeded) rfl (s.aborted.or (some (.limit limit))) s.parentAborted
  · next hwithin =>
    rw [← next_set _ .fresh]
    exact (h.taken hw hwithin).next
      (List.getElem?_set_self (List.getElem?_eq_some_iff.mp hw).1)

theorem Sound.settle (h : Sound d requests s) (hw : s.workers[w]? = some (.awaiting index .running))
    {child : Child O ε} {m : Moment O} (hm : m.startedIndex = none)
    (hchild : ∀ outcome, child = .fulfilled outcome → m = .finished index outcome) :
    Sound d requests { s with
      workers := s.workers.set w (.awaiting index child), log := s.log ++ [m] } := by
  have hold : ∀ {v i : ℕ} {c : Child O ε},
      (s.workers.set w (.awaiting index child))[v]? = some (.awaiting i c) →
      ∃ c₀, s.workers[v]? = some (.awaiting i c₀) ∧ (c = c₀ ∨ i = index ∧ c = child) := by
    intro v i c hv
    obtain ⟨rfl, -, hworker⟩ | ⟨-, hv⟩ := getElem?_set_eq.mp hv
    · cases hworker
      exact ⟨.running, hw, .inr ⟨rfl, rfl⟩⟩
    · exact ⟨c, hv, .inl rfl⟩
  have hother : ∀ {v : ℕ} {worker : Worker O ε}, (∀ i c, worker ≠ .awaiting i c) →
      (s.workers.set w (.awaiting index child))[v]? = some worker →
      s.workers[v]? = some worker := by
    intro v worker hne hv
    obtain ⟨-, -, rfl⟩ | ⟨-, hv⟩ := getElem?_set_eq.mp hv
    · exact absurd rfl (hne index child)
    · exact hv
  refine ⟨by simpa using h.size, by simpa using h.peopled, by simpa [hm] using h.started, ?_, ?_,
    ?_, ?_, h.short, ?_, ?_, h.accounted, ?_, ?_⟩
  · intro v i c hv
    obtain ⟨c₀, hv, -⟩ := hold hv
    exact h.awaiting v i c₀ hv
  · intro v v' i c c' hv hv'
    obtain ⟨c₀, hv, -⟩ := hold hv
    obtain ⟨c₁, hv', -⟩ := hold hv'
    exact h.apart v v' i c₀ c₁ hv hv'
  · intro v i o hv
    obtain ⟨c₀, hv, rfl | ⟨rfl, hc⟩⟩ := hold hv
    · exact List.mem_append_left _ (h.fulfilled v i o hv)
    · exact List.mem_append_right _ (List.mem_singleton.mpr (hchild o hc.symm).symm)
  · exact fun i o hi => ⟨List.mem_append_left _ (h.slots i o hi).1, (h.slots i o hi).2⟩
  · exact fun v hv => h.returned v (hother (by simp) hv)
  · intro hnone i hi
    obtain hslot | ⟨v, c, hv⟩ := h.covered hnone i hi
    · exact .inl hslot
    · by_cases hvw : w = v
      · subst hvw
        rw [hw] at hv
        cases hv
        exact .inr ⟨w, child, List.getElem?_set_self (List.getElem?_eq_some_iff.mp hw).1⟩
      · exact .inr ⟨v, c, getElem?_set_eq.mpr (.inr ⟨hvw, hv⟩)⟩
  · exact fun v hv => h.threw v (hother (by simp) hv)
  · exact fun results hstatus => absurd hstatus (h.unresolved hw (by simp) results)

theorem settlement_resolved {results : List (Option (DelegationOutcome O))}
    (h : s.settlement = some (.resolved results)) :
    results = s.results ∧ s.failure = none ∧ ∀ worker ∈ s.workers, worker = .returned := by
  unfold Run.settlement at h
  split at h
  · cases h
  · next hfailure =>
    split at h
    · next hall =>
      cases h
      refine ⟨rfl, hfailure, fun worker hmem => ?_⟩
      have hreturned := List.all_eq_true.mp hall worker hmem
      cases worker with
      | returned => rfl
      | fresh | awaiting | threw => cases hreturned
    · cases h

theorem Sound.step (h : Sound d requests s) {input : Input O ε}
    (hstep : step d requests s input = some s') : Sound d requests s' := by
  unfold Delegation.step at hstep
  cases input with
  | begin w =>
    simp only at hstep
    split at hstep
    · next hw =>
      split at hstep
      · cases hstep
        exact h.next hw
      · cases hstep
    · cases hstep
  | settle w result =>
    simp only at hstep
    split at hstep
    · next index hw =>
      cases result with
      | ok outcome =>
        cases hstep
        exact h.settle hw rfl fun outcome' houtcome => by cases houtcome; rfl
      | error error =>
        cases hstep
        exact h.settle hw rfl fun outcome' houtcome => by cases houtcome
    · cases hstep
  | resume w =>
    simp only at hstep
    split at hstep
    · split at hstep
      · next index outcome hw =>
        cases hstep
        exact h.consume hw
      · next index error hw =>
        cases hstep
        exact h.throw hw (by simp) _
      · cases hstep
    · cases hstep
  | parentAbort reason =>
    simp only at hstep
    split at hstep
    · split at hstep
      · cases hstep
      · cases hstep
        exact h.noted rfl _ _
    · cases hstep
  | timeout =>
    simp only at hstep
    split at hstep
    · split at hstep
      · cases hstep
        exact h.noted rfl _ _
      · cases hstep
    · cases hstep
  | conclude =>
    simp only at hstep
    split at hstep
    · next hpending =>
      split at hstep
      · obtain ⟨status, hsettlement, rfl⟩ := Option.map_eq_some_iff.mp hstep
        have hpeopled : s.workers.length = workerCount d requests :=
          h.peopled.resolve_left fun ⟨error, herror⟩ => by simp [hpending] at herror
        exact ⟨h.size, .inr hpeopled, h.started, h.awaiting, h.apart, h.fulfilled, h.slots, h.short,
          h.returned, h.covered, h.accounted, h.threw, fun results hresolved => by
            cases hresolved
            exact settlement_resolved hsettlement⟩
      · cases hstep
    · cases hstep

end Bounds

section Status
variable {I O ε : Type} {d : DelegationSupervisor} {requests : List (DelegationRequest I)}
  {s s' : Run O ε} {w index : ℕ}

@[simp] theorem throw_status (error : DelegationError ε) :
    (s.throw w error).status = s.status := rfl

@[simp] theorem next_status : (s.next requests w).status = s.status := by
  unfold Run.next
  split
  · rfl
  split <;> rfl

@[simp] theorem consume_status (outcome : DelegationOutcome O) :
    (s.consume d requests w index outcome).status = s.status := by
  unfold Run.consume
  simp only
  split
  · rfl
  · rw [next_status]

theorem status_step {input : Input O ε} (hstep : step d requests s input = some s') :
    s'.status = s.status ∨ s.status = .pending ∧ s.begun ∧ s.settlement = some s'.status ∧
      s'.workers = s.workers ∧ s'.aborted.isSome ∧ s'.log = s.log := by
  unfold step at hstep
  cases input with
  | begin w =>
    simp only at hstep
    split at hstep
    · split at hstep
      · cases hstep
        exact .inl next_status
      · cases hstep
    · cases hstep
  | settle w result =>
    simp only at hstep
    split at hstep
    · cases result <;> cases hstep <;> exact .inl rfl
    · cases hstep
  | resume w =>
    simp only at hstep
    split at hstep
    · split at hstep
      · cases hstep
        exact .inl (consume_status _)
      · cases hstep
        exact .inl rfl
      · cases hstep
    · cases hstep
  | parentAbort reason =>
    simp only at hstep
    split at hstep
    · split at hstep
      · cases hstep
      · cases hstep
        exact .inl rfl
    · cases hstep
  | timeout =>
    simp only at hstep
    split at hstep
    · split at hstep
      · cases hstep
        exact .inl rfl
      · cases hstep
    · cases hstep
  | conclude =>
    simp only at hstep
    split at hstep
    · next hpending =>
      split at hstep
      · next hbegun =>
        obtain ⟨status, hsettlement, rfl⟩ := Option.map_eq_some_iff.mp hstep
        refine .inr ⟨hpending, hbegun, hsettlement, rfl, ?_, rfl⟩
        simp [Run.abort]
      · cases hstep
    · cases hstep

end Status

section Claim
variable {I O ε : Type} {d : DelegationSupervisor} {requests : List (DelegationRequest I)}
  {s : Run O ε}

theorem exceeded_zero (d : DelegationSupervisor) : exceeded d ⟨0, 0, 0⟩ = none := by
  have htokens := d.positive (.maxTokens, d.limits.maxTokens) (by simp [DelegationLimits.entries])
  have hcost := d.positive (.maxCostUsd, d.limits.maxCostUsd) (by simp [DelegationLimits.entries])
  have hactions := d.positive (.maxWorldActions, d.limits.maxWorldActions)
    (by simp [DelegationLimits.entries])
  unfold exceeded
  rw [if_neg (not_lt.mpr htokens.le), if_neg (not_lt.mpr hcost.le),
    if_neg (not_lt.mpr hactions.le)]

theorem exceeded_eq_none {u : DelegationUsage} (h : exceeded d u = none) :
    u.tokens ≤ d.limits.maxTokens ∧ u.costUsd ≤ d.limits.maxCostUsd ∧
      u.worldActions ≤ d.limits.maxWorldActions := by
  unfold exceeded at h
  split at h
  · cases h
  · next htokens =>
    split at h
    · cases h
    · next hcost =>
      split at h
      · cases h
      · next hactions => exact ⟨not_lt.mp htokens, not_lt.mp hcost, not_lt.mp hactions⟩

theorem sound_initial (aborted : Bool) :
    Sound d requests (initial d requests aborted : Run O ε) := by
  have hlog : startedIn (O := O) (if aborted then [.aborted] else []) = [] := by
    cases aborted <;> rfl
  unfold initial
  simp only
  split
  · next error _ =>
    exact ⟨Nat.zero_le _, .inl ⟨error, rfl⟩, by simpa using hlog, by simp, by simp, by simp,
      by simp, Nat.zero_le _, by simp, by simp, fun _ => ⟨⟨rfl, rfl, rfl⟩, exceeded_zero d⟩,
      by simp, by simp⟩
  · refine ⟨by simp, .inr (by simp), by simpa using hlog, ?_, ?_, ?_, by simp, Nat.zero_le _, ?_,
      by simp, fun _ => ⟨⟨rfl, rfl, rfl⟩, exceeded_zero d⟩, ?_, by simp⟩
    all_goals
      intros
      simp_all [List.getElem?_replicate]

theorem sound_of_reaches {aborted : Bool}
    (h : (delegation d requests).Reaches Machine.anyStep (initial d requests aborted) s) :
    Sound d requests s :=
  h.invariant (sound_initial aborted) fun _ _ _ hs _ hstep => hs.step hstep

theorem rejected_of_refused {aborted : Bool} {error : DelegationError ε}
    (hrefused : refusal d requests = some error)
    (h : (delegation d requests).Reaches Machine.anyStep (initial d requests aborted) s) :
    s.status = .rejected error := by
  refine h.invariant (P := fun s => s.status = .rejected error) ?_ fun s input s' hs _ hstep => ?_
  · simp [initial, hrefused]
  · obtain hsame | ⟨hpending, -⟩ := status_step hstep
    · exact hsame.trans hs
    · rw [hs] at hpending
      cases hpending

theorem workerCount_le : (workerCount d requests : ℚ) ≤ d.limits.maxConcurrency := by
  have hpositive := d.positive (.maxConcurrency, d.limits.maxConcurrency)
    (by simp [DelegationLimits.entries])
  have hmin : (0 : ℚ) ≤ min (requests.length : ℚ) d.limits.maxConcurrency :=
    le_min (Nat.cast_nonneg _) hpositive.le
  have hfloor : 0 ≤ (min (requests.length : ℚ) d.limits.maxConcurrency).floor :=
    Rat.le_floor_iff.mpr (by simpa using hmin)
  have hcast : ((workerCount d requests : ℤ) : ℚ) ≤
      min (requests.length : ℚ) d.limits.maxConcurrency := by
    rw [workerCount, Int.toNat_of_nonneg hfloor]
    exact Rat.floor_le _
  calc (workerCount d requests : ℚ)
      = ((workerCount d requests : ℤ) : ℚ) := by simp
    _ ≤ min (requests.length : ℚ) d.limits.maxConcurrency := hcast
    _ ≤ d.limits.maxConcurrency := min_le_right _ _

theorem workerCount_pos_iff :
    0 < workerCount d requests ↔ requests ≠ [] ∧ 1 ≤ d.limits.maxConcurrency := by
  have hone : 1 ≤ (min (requests.length : ℚ) d.limits.maxConcurrency).floor ↔
      (1 : ℚ) ≤ requests.length ∧ 1 ≤ d.limits.maxConcurrency := by
    rw [Rat.le_floor_iff, Int.cast_one, le_min_iff]
  have hlength : (1 : ℚ) ≤ requests.length ↔ requests ≠ [] := by
    rw [Nat.one_le_cast, Nat.one_le_iff_ne_zero, ne_eq, List.length_eq_zero_iff]
  rw [workerCount, ← hlength, ← hone]
  omega

/-- A worker is called where there is something to do, or the call is refused. -/
def Workable (d : DelegationSupervisor) (requests : List (DelegationRequest I)) : Prop :=
  requests = [] ∨ 1 ≤ d.limits.maxConcurrency ∨ (refusal (ε := Unit) d requests).isSome

theorem refusal_isSome : (refusal d requests : Option (DelegationError ε)).isSome =
    (refusal d requests : Option (DelegationError Unit)).isSome := by
  unfold refusal
  split
  · rfl
  split
  · rfl
  split <;> rfl

theorem cursor_of_resolved {aborted : Bool} (hworkable : Workable d requests)
    (h : (delegation d requests).Reaches Machine.anyStep (initial d requests aborted) s)
    {results : List (Option (DelegationOutcome O))} (hresolved : s.status = .resolved results) :
    requests.length ≤ s.cursor := by
  have hsound := sound_of_reaches h
  obtain hempty | hone | hrefused := hworkable
  · simp [hempty]
  · by_cases hrequests : requests = []
    · simp [hrequests]
    · have hpos : 0 < s.workers.length := by
        obtain ⟨error, herror⟩ | hlength := hsound.peopled
        · rw [hresolved] at herror
          cases herror
        · rw [hlength]
          exact workerCount_pos_iff.mpr ⟨hrequests, hone⟩
      refine hsound.returned 0 ?_
      rw [List.getElem?_eq_getElem hpos,
        (hsound.resolved results hresolved).2.2 _ (List.getElem_mem hpos)]
  · rw [← refusal_isSome (ε := ε)] at hrefused
    obtain ⟨error, herror⟩ := Option.isSome_iff_exists.mp hrefused
    rw [rejected_of_refused herror h] at hresolved
    cases hresolved

theorem mem_log_of_startedIn {log : List (Moment O)} {i : ℕ} (h : i ∈ startedIn log) :
    .started i ∈ log := by
  obtain ⟨m, hm, hi⟩ := List.mem_filterMap.mp h
  cases m with
  | started => cases hi; exact hm
  | finished | failed | exceeded | aborted | timedOut => cases hi

theorem Sound.bounded (h : Sound d requests s)
    (hcursor : ∀ results, s.status = .resolved results → requests.length ≤ s.cursor) :
    Bounded d requests s := by
  have hfull : ∀ results, s.status = .resolved results →
      min s.cursor requests.length = requests.length := fun results hresolved =>
    min_eq_right (hcursor results hresolved)
  refine ⟨?_, ?_, fun results hresolved i hi => ?_, fun results hresolved => ?_,
    fun results hresolved => ?_⟩
  · calc (s.running : ℚ) ≤ s.workers.length := Nat.cast_le.mpr List.countP_le_length
      _ ≤ workerCount d requests := Nat.cast_le.mpr h.size
      _ ≤ d.limits.maxConcurrency := workerCount_le
  · rw [h.started]
    exact List.nodup_range
  · refine mem_log_of_startedIn ?_
    rw [h.started, hfull results hresolved]
    exact List.mem_range.mpr hi
  · obtain ⟨rfl, hfailure, hreturned⟩ := h.resolved results hresolved
    have hslots : ∀ i < requests.length, ∃ o, Sparse.slot s.results i = some o := by
      intro i hi
      obtain hslot | ⟨w, c, hw⟩ := h.covered hfailure i (by rwa [hfull _ hresolved])
      · exact Option.ne_none_iff_exists'.mp hslot
      · cases hreturned _ (List.mem_of_getElem? hw)
    have hentry : ∀ i < requests.length, ∃ o, s.results[i]? = some (some o) ∧
        .finished i o ∈ s.log := by
      intro i hi
      obtain ⟨o, ho⟩ := hslots i hi
      exact ⟨o, Option.join_eq_some_iff.mp ho, (h.slots i o ho).1⟩
    refine ⟨le_antisymm h.short ?_, hentry⟩
    by_contra hshort
    obtain ⟨o, ho, -⟩ := hentry s.results.length (by omega)
    simp at ho
  · obtain ⟨rfl, hfailure, -⟩ := h.resolved results hresolved
    obtain ⟨⟨htokens, hcost, hactions⟩, hwithin⟩ := h.accounted hfailure
    rw [← htokens, ← hcost, ← hactions]
    exact exceeded_eq_none hwithin

theorem resolves_unworked (hunworkable : ¬ Workable d requests) (aborted : Bool) :
    ∃ s : Run O ε, (delegation d requests).Reaches Machine.anyStep (initial d requests aborted) s ∧
      s.status = .resolved [] := by
  obtain ⟨hrequests, hone, hrefused⟩ : requests ≠ [] ∧ ¬ 1 ≤ d.limits.maxConcurrency ∧
      ¬ (refusal (ε := Unit) d requests).isSome := by
    simpa [Workable] using hunworkable
  have hcount : workerCount d requests = 0 := by
    by_contra hne
    exact hone (workerCount_pos_iff.mp (Nat.pos_of_ne_zero hne)).2
  rw [← refusal_isSome (ε := ε), Option.not_isSome_iff_eq_none] at hrefused
  have hinitial : (initial d requests aborted : Run O ε) =
      { parentAborted := aborted, log := if aborted then [.aborted] else [] } := by
    simp [initial, hrefused, hcount]
  rw [hinitial]
  exact ⟨_, .tail .refl trivial (i := .conclude) rfl, rfl⟩

/-- Delegation is bounded, and complete when it resolves, exactly where a worker is called for what
there is to do. -/
theorem delegation_bounded_iff (d : DelegationSupervisor) (requests : List (DelegationRequest I))
    (aborted : Bool) :
    (∀ s : Run O ε,
      (delegation d requests).Reaches Machine.anyStep (initial d requests aborted) s →
        Bounded d requests s) ↔ Workable d requests := by
  constructor
  · intro hbounded
    by_contra hunworkable
    obtain ⟨s, hreaches, hresolved⟩ := resolves_unworked (O := O) (ε := ε) hunworkable aborted
    have hlength := ((hbounded s hreaches).outcomes [] hresolved).1
    exact hunworkable (.inl (List.length_eq_zero_iff.mp hlength.symm))
  · exact fun hworkable s hreaches => (sound_of_reaches hreaches).bounded fun results hresolved =>
      cursor_of_resolved hworkable hreaches hresolved

end Claim

/-! ### Half a worker -/

def halfWorker : DelegationSupervisor where
  limits := ⟨1, mkRat 1 2, 3, 100, 2000, 1, 3⟩
  positive := by decide +kernel

def workRequest : DelegationRequest String := ⟨"1", "parent", 1, "work"⟩

/-- One request is accepted, and the call resolves without having executed it. -/
theorem nothing_executed : ∃ s : Run String String,
    (delegation halfWorker [workRequest]).Reaches Machine.anyStep
      (initial halfWorker [workRequest] false) s ∧
    s.status = .resolved [] ∧ s.log = [] ∧ ¬ Bounded halfWorker [workRequest] s := by
  have hinitial : (initial halfWorker [workRequest] false : Run String String) = {} := by
    have hrefusal :
        (refusal halfWorker [workRequest] : Option (DelegationError String)) = none := by
      rw [← Option.not_isSome_iff_eq_none, refusal_isSome]
      decide +kernel
    have hcount : workerCount halfWorker [workRequest] = 0 := by decide +kernel
    simp [initial, hrefusal, hcount]
  rw [hinitial]
  refine ⟨_, .tail .refl trivial (i := .conclude) rfl, rfl, rfl, fun hbounded => ?_⟩
  have hlength := (hbounded.outcomes [] rfl).1
  cases hlength

end BeeAgent.Runtime.Delegation
