import BeeAgent.Kernel.Reconcile
import BeeAgent.Transition.Machine
import Mathlib.Order.Nat

/-! The pump that keeps the runtime at its desired structure: requests are coalesced through a flag,
and each one puts a drain behind those that the chain of promises already holds. -/
namespace BeeAgent.ConfigSource
open Transition Machine
open Structure (ReconcileResult)

/-- One `#drain` of the chain. A drain that refreshes awaits the source, then the reconciler. -/
inductive Drain where
  | waiting
  | loading
  | reconciling (structureVersion : String)
  | settled
  deriving DecidableEq, Repr

def Drain.refreshes : Drain → Bool
  | .loading | .reconciling _ => true
  | _ => false

/-- `clock` counts the steps; `requestedAt` and `loadedAt` are the last steps that called
`requestRefresh` and that began a load. -/
structure Controller where
  running : Bool
  queued : Bool
  refreshing : Bool
  drains : List Drain
  successfulRefreshes : ℕ
  lastStructureVersion : Option String
  lastResult : Option ReconcileResult
  lastError : Option String
  clock : ℕ
  requestedAt : Option ℕ
  loadedAt : Option ℕ

namespace Controller

def initial : Controller := ⟨false, false, false, [], 0, none, none, none, 0, none, none⟩

def requestRefresh (s : Controller) : Controller :=
  let s := { s with requestedAt := some s.clock }
  if s.running = false then s
  else { s with queued := true, drains := s.drains ++ [.waiting] }

def start (s : Controller) : Controller :=
  if s.running then s else { s with running := true }.requestRefresh

def stop (s : Controller) : Controller := { s with running := false, queued := false }

/-- The head of the loop of a drain. -/
def next (s : Controller) (i : ℕ) : Controller :=
  if s.running && s.queued then
    { s with queued := false, drains := s.drains.set i .loading, loadedAt := some s.clock }
  else { s with refreshing := false, drains := s.drains.set i .settled }

def drain (s : Controller) (i : ℕ) : Controller :=
  if s.refreshing then { s with drains := s.drains.set i .settled }
  else { s with refreshing := true }.next i

/-- A refresh that throws. The loop goes on, unless the error has no text either. -/
def caught (s : Controller) (i : ℕ) : Option String → Controller
  | some message => { s with lastError := some message }.next i
  | none => { s with refreshing := false, drains := s.drains.set i .settled }

def refreshed (s : Controller) (i : ℕ) (structureVersion : String) (result : ReconcileResult) :
    Controller :=
  { s with
    successfulRefreshes := s.successfulRefreshes + 1
    lastStructureVersion := some structureVersion
    lastResult := some result
    lastError := none }.next i

end Controller

inductive Input where
  | start
  | requestRefresh
  | stop
  /-- The promises before the drain have settled. -/
  | drain (i : ℕ)
  | loaded (i : ℕ) (structureVersion : String)
  | reconciled (i : ℕ) (result : ReconcileResult)
  | failed (i : ℕ) (message : Option String)

/-- The inputs that are not calls. -/
def Input.settles : Input → Bool
  | .start | .requestRefresh | .stop => false
  | _ => true

def controllerStep (s : Controller) (input : Input) : Option Controller :=
  let s : Controller := { s with clock := s.clock + 1 }
  match input with
  | .start => some s.start
  | .requestRefresh => some s.requestRefresh
  | .stop => some s.stop
  | .drain i =>
    if s.drains[i]? = some .waiting && (s.drains.take i).all (· = .settled) then some (s.drain i)
    else none
  | .loaded i structureVersion =>
    if s.drains[i]? = some .loading then
      some { s with drains := s.drains.set i (.reconciling structureVersion) }
    else none
  | .reconciled i result =>
    match s.drains[i]? with
    | some (.reconciling structureVersion) => some (s.refreshed i structureVersion result)
    | _ => none
  | .failed i message =>
    if (s.drains[i]?).any Drain.refreshes then some (s.caught i message) else none

def controller : Machine Controller Input := ⟨controllerStep⟩

def Drain.weight : Drain → ℕ
  | .waiting => 3
  | .loading => 2
  | .reconciling _ => 1
  | .settled => 0

def weights : List Drain → ℕ
  | [] => 0
  | d :: ds => d.weight + weights ds

namespace Controller

def Idle (s : Controller) : Prop := ∀ d ∈ s.drains, d = .settled

/-- A bound on the steps that are left when nothing is asked of the controller. -/
def left (s : Controller) : ℕ := weights s.drains + if s.queued then 2 else 0

/-- The drains settle in their order, one refreshes while the flag says so, a request that is queued
has a drain to take it up, and one that is not has been taken up by a load. -/
structure Sound (s : Controller) : Prop where
  ordered : ∀ (i : ℕ) d, s.drains[i]? = some d → d ≠ .waiting →
    ∀ (j : ℕ) d', j < i → s.drains[j]? = some d' → d' = .settled
  refreshing : s.refreshing → ∃ (i : ℕ) (d : Drain), s.drains[i]? = some d ∧ d.refreshes
  flagged : ∀ (i : ℕ) d, s.drains[i]? = some d → d.refreshes → s.refreshing
  queued : s.queued → s.running ∧ ∃ i : ℕ, s.drains[i]? = some .waiting
  clocked : ∀ r, s.requestedAt = some r → r ≤ s.clock
  taken : s.running → ∀ r, s.requestedAt = some r →
    s.queued ∨ ∃ l, s.loadedAt = some l ∧ r ≤ l

variable {s t : Controller} {i j : ℕ} {d : Drain} {input : Input}

theorem Sound.after (h : Sound s) (hi : s.drains[i]? = some d) (hd : d ≠ .settled) (hj : i < j)
    {d' : Drain} (hd' : s.drains[j]? = some d') : d' = .waiting := by
  by_contra hne
  exact hd (h.ordered j d' hd' hne i d hj hi)

/-- The drain whose turn it is, whether it has begun or not. -/
structure Current (s : Controller) (i : ℕ) : Prop where
  there : ∃ d, s.drains[i]? = some d
  before : ∀ (j : ℕ) d, j < i → s.drains[j]? = some d → d = .settled
  after : ∀ (j : ℕ) d, i < j → s.drains[j]? = some d → d = .waiting

theorem Current.ordered_set (h : Current s i) (x : Drain) :
    ∀ (j : ℕ) d, (s.drains.set i x)[j]? = some d → d ≠ .waiting →
      ∀ (k : ℕ) d', k < j → (s.drains.set i x)[k]? = some d' → d' = .settled := by
  intro j d hj hd k d' hk hd'
  have hle : j ≤ i := by
    by_contra hlt
    rw [List.getElem?_set_ne (by omega)] at hj
    exact hd (h.after j d (by omega) hj)
  rw [List.getElem?_set_ne (by omega)] at hd'
  exact h.before k d' (by omega) hd'

theorem Current.refreshes_set (h : Current s i) {x : Drain} (hj : (s.drains.set i x)[j]? = some d)
    (hd : d.refreshes) : j = i ∧ d = x := by
  by_cases hji : j = i
  · subst hji
    rw [List.getElem?_set_self'] at hj
    obtain ⟨d₀, -, rfl⟩ := Option.map_eq_some_iff.mp hj
    exact ⟨rfl, rfl⟩
  · rw [List.getElem?_set_ne (Ne.symm hji)] at hj
    rcases Nat.lt_or_gt_of_ne hji with hlt | hgt
    · rw [h.before j d hlt hj] at hd
      cases hd
    · rw [h.after j d hgt hj] at hd
      cases hd

theorem getElem?_set_of_there (h : ∃ d, s.drains[i]? = some d) (x : Drain) :
    (s.drains.set i x)[i]? = some x := by
  obtain ⟨d, hd⟩ := h
  rw [List.getElem?_set_self', hd]
  rfl

theorem Current.next (h : Current s i) (hqueued : s.queued → s.running) (hflag : s.refreshing)
    (hclocked : ∀ r, s.requestedAt = some r → r ≤ s.clock)
    (htaken : s.running → ∀ r, s.requestedAt = some r →
      s.queued ∨ ∃ l, s.loadedAt = some l ∧ r ≤ l) : Sound (s.next i) := by
  unfold Controller.next
  split
  · next hloads =>
    constructor
    · exact h.ordered_set _
    · exact fun _ => ⟨i, .loading, getElem?_set_of_there h.there _, rfl⟩
    · exact fun _ _ _ _ => hflag
    · exact fun hnot => nomatch hnot
    · exact hclocked
    · exact fun _ r hr => .inr ⟨s.clock, rfl, hclocked r hr⟩
  · next hrests =>
    have hnot : s.queued = false := by
      by_contra hq
      rw [Bool.not_eq_false] at hq
      exact hrests (by rw [hqueued hq, hq]; rfl)
    constructor
    · exact h.ordered_set _
    · exact fun hfalse => nomatch hfalse
    · intro j d hj hd
      rw [(h.refreshes_set hj hd).2] at hd
      cases hd
    · intro hq
      exact nomatch hnot.symm.trans hq
    · exact hclocked
    · intro hrunning r hr
      rcases htaken hrunning r hr with hq | hl
      · exact nomatch hnot.symm.trans hq
      · exact .inr hl

theorem Sound.current (h : Sound s) (hi : s.drains[i]? = some d) (hd : d ≠ .settled)
    (hbefore : ∀ (j : ℕ) d', j < i → s.drains[j]? = some d' → d' = .settled) : Current s i :=
  ⟨⟨d, hi⟩, hbefore, fun _ _ hj hd' => h.after hi hd hj hd'⟩

theorem Sound.current_of_refreshes (h : Sound s) (hi : s.drains[i]? = some d) (hd : d.refreshes) :
    Current s i := by
  refine h.current hi ?_ (fun j d' hj => h.ordered i d hi ?_ j d' hj) <;>
    (rintro rfl; cases hd)

theorem requestRefresh_running (h : s.running) : s.requestRefresh =
    { s with requestedAt := some s.clock, queued := true, drains := s.drains ++ [.waiting] } := by
  simp [requestRefresh, h]

theorem Sound.request (h : Sound s) (hrunning : t.running) (hdrains : t.drains = s.drains)
    (hrefreshing : t.refreshing = s.refreshing) : Sound t.requestRefresh := by
  have hget : ∀ {j : ℕ} {d}, (t.drains ++ [Drain.waiting])[j]? = some d → d ≠ .waiting →
      s.drains[j]? = some d := by
    intro j d hj hd
    rw [hdrains] at hj
    rw [List.getElem?_append] at hj
    split at hj
    · exact hj
    · exact absurd (List.mem_singleton.mp (List.mem_of_getElem? hj)) hd
  have hold : ∀ {j : ℕ} {d}, s.drains[j]? = some d → (t.drains ++ [Drain.waiting])[j]? = some d := by
    intro j d hj
    rw [hdrains, List.getElem?_append_left (List.getElem?_eq_some_iff.mp hj).1]
    exact hj
  rw [requestRefresh_running hrunning]
  constructor
  · intro j d hj hd k d' hk hd'
    have hj' := hget hj hd
    have hlt := (List.getElem?_eq_some_iff.mp hj').1
    rw [hdrains, List.getElem?_append_left (by omega)] at hd'
    exact h.ordered j d hj' hd k d' hk hd'
  · intro hflag
    rw [hrefreshing] at hflag
    obtain ⟨j, d, hj, hd⟩ := h.refreshing hflag
    exact ⟨j, d, hold hj, hd⟩
  · intro j d hj hd
    have hne : d ≠ .waiting := by
      rintro rfl
      cases hd
    rw [hrefreshing]
    exact h.flagged j d (hget hj hne) hd
  · exact fun _ => ⟨hrunning, t.drains.length, by simp⟩
  · intro r hr
    cases hr
    exact le_rfl
  · exact fun _ _ _ => .inl rfl

theorem Sound.tick (h : Sound s) : Sound { s with clock := s.clock + 1 } :=
  ⟨h.ordered, h.refreshing, h.flagged, h.queued, fun r hr => (h.clocked r hr).trans (Nat.le_succ _),
    h.taken⟩

theorem Sound.drain (h : Sound s) (hi : s.drains[i]? = some .waiting)
    (hbefore : ∀ (j : ℕ) d, j < i → s.drains[j]? = some d → d = .settled) : Sound (s.drain i) := by
  have hcurrent := h.current hi (by decide) hbefore
  have hidle : s.refreshing = false := by
    by_contra hflag
    rw [Bool.not_eq_false] at hflag
    obtain ⟨j, d, hj, hd⟩ := h.refreshing hflag
    rcases Nat.lt_trichotomy j i with hlt | rfl | hgt
    · rw [hbefore j d hlt hj] at hd
      cases hd
    · rw [hi] at hj
      cases hj
      cases hd
    · rw [hcurrent.after j d hgt hj] at hd
      cases hd
  rw [Controller.drain, if_neg (by rw [hidle]; decide)]
  exact Current.next ⟨hcurrent.there, hcurrent.before, hcurrent.after⟩ (fun hq => (h.queued hq).1) rfl
    h.clocked h.taken

theorem Sound.caught (h : Sound s) (hi : s.drains[i]? = some d) (hd : d.refreshes)
    (message : Option String) : Sound (s.caught i message) := by
  have hcurrent := h.current_of_refreshes hi hd
  cases message with
  | some message =>
    exact Current.next ⟨hcurrent.there, hcurrent.before, hcurrent.after⟩
      (fun hq => (h.queued hq).1) (h.flagged i d hi hd) h.clocked h.taken
  | none =>
    constructor
    · exact hcurrent.ordered_set _
    · exact fun hfalse => nomatch hfalse
    · intro j d' hj hd'
      rw [(hcurrent.refreshes_set hj hd').2] at hd'
      cases hd'
    · intro hq
      obtain ⟨hrunning, j, hj⟩ := h.queued hq
      refine ⟨hrunning, j, ?_⟩
      have hne : i ≠ j := by
        rintro rfl
        rw [hi] at hj
        cases hj
        cases hd
      exact (List.getElem?_set_ne hne).trans hj
    · exact h.clocked
    · exact h.taken

theorem Sound.step (h : Sound s) (hstep : controllerStep s input = some t) : Sound t := by
  replace h := h.tick
  unfold controllerStep at hstep
  cases input with
  | start =>
    cases hstep
    simp only [Controller.start]
    split
    · exact h
    · exact h.request rfl rfl rfl
  | requestRefresh =>
    cases hstep
    by_cases hrunning : s.running
    · exact h.request hrunning rfl rfl
    · have hoff : s.running = false := by simpa using hrunning
      simp only [requestRefresh, hoff, if_true]
      refine ⟨h.ordered, h.refreshing, h.flagged, fun hq => ?_, fun r hr => ?_, fun hon => ?_⟩
      · exact absurd (h.queued hq).1 hrunning
      · cases hr
        exact le_rfl
      · exact absurd hon (by simp)
  | stop =>
    cases hstep
    exact ⟨h.ordered, h.refreshing, h.flagged, (nomatch ·), h.clocked, (nomatch ·)⟩
  | drain i =>
    simp only at hstep
    split at hstep
    · next hturn =>
      cases hstep
      rw [Bool.and_eq_true, decide_eq_true_eq, List.all_eq_true] at hturn
      refine h.drain hturn.1 fun j d hj hd => ?_
      have hmem : d ∈ s.drains.take i :=
        List.mem_of_getElem? ((List.getElem?_take_of_lt hj).trans hd)
      simpa using hturn.2 d hmem
    · cases hstep
  | loaded i structureVersion =>
    simp only at hstep
    split at hstep
    · next hi =>
      cases hstep
      have hcurrent := h.current_of_refreshes hi rfl
      constructor
      · exact hcurrent.ordered_set _
      · exact fun _ => ⟨i, _, getElem?_set_of_there hcurrent.there _, rfl⟩
      · exact fun _ _ _ _ => h.flagged i _ hi rfl
      · intro hq
        obtain ⟨hrunning, j, hj⟩ := h.queued hq
        refine ⟨hrunning, j, ?_⟩
        have hne : i ≠ j := by
          rintro rfl
          rw [hi] at hj
          cases hj
        exact (List.getElem?_set_ne hne).trans hj
      · exact h.clocked
      · exact h.taken
    · cases hstep
  | reconciled i result =>
    simp only at hstep
    split at hstep
    · next structureVersion hi =>
      cases hstep
      have hcurrent := h.current_of_refreshes hi rfl
      exact Current.next ⟨hcurrent.there, hcurrent.before, hcurrent.after⟩
        (fun hq => (h.queued hq).1) (h.flagged i _ hi rfl) h.clocked h.taken
    · cases hstep
  | failed i message =>
    simp only at hstep
    split at hstep
    · next hany =>
      cases hstep
      obtain ⟨d, hi, hd⟩ := Option.any_eq_true _ _ |>.mp hany
      exact h.caught hi hd message
    · cases hstep

theorem Sound.initial : Sound .initial where
  ordered := fun _ _ hi => nomatch hi
  refreshing := fun hflag => nomatch hflag
  flagged := fun _ _ hi => nomatch hi
  queued := fun hq => nomatch hq
  clocked := fun _ hr => nomatch hr
  taken := fun hon => nomatch hon

theorem Sound.reaches {G : Controller → Input → Prop} (h : controller.Reaches G .initial s) :
    Sound s :=
  h.invariant .initial fun _ _ _ hb _ hstep => hb.step hstep

theorem weights_set {ds : List Drain} (hi : ds[i]? = some d) (x : Drain) :
    weights (ds.set i x) + d.weight = weights ds + x.weight := by
  induction ds generalizing i with
  | nil => cases hi
  | cons d' ds ih =>
    cases i with
    | zero =>
      cases hi
      simp only [List.set_cons_zero, weights]
      omega
    | succ i =>
      have hrest := ih hi
      simp only [List.set_cons_succ, weights]
      omega

theorem left_next (hi : s.drains[i]? = some d) (hd : 0 < d.weight) : (s.next i).left < s.left := by
  unfold Controller.next left
  have hloading := weights_set hi .loading
  have hsettled := weights_set hi .settled
  rw [show Drain.loading.weight = 2 from rfl] at hloading
  rw [show Drain.settled.weight = 0 from rfl] at hsettled
  split
  · next hloads =>
    rw [Bool.and_eq_true] at hloads
    simp only [hloads.2, if_true, Bool.false_eq_true, if_false]
    omega
  · simp only
    omega

/-- Whatever settles brings the controller nearer to its rest, a refresh that fails no less than one
that succeeds. -/
theorem Sound.left_lt (h : Sound s) (hsettles : input.settles)
    (hstep : controllerStep s input = some t) : t.left < s.left := by
  replace h := h.tick
  unfold controllerStep at hstep
  cases input with
  | start => cases hsettles
  | requestRefresh => cases hsettles
  | stop => cases hsettles
  | drain i =>
    simp only at hstep
    split at hstep
    · next hturn =>
      cases hstep
      rw [Bool.and_eq_true, decide_eq_true_eq] at hturn
      unfold Controller.drain
      split
      · have hset := weights_set hturn.1 .settled
        simp only [Drain.weight] at hset
        simp only [left]
        omega
      · exact left_next (s := { s with clock := s.clock + 1, refreshing := true }) hturn.1 (by decide)
    · cases hstep
  | loaded i structureVersion =>
    simp only at hstep
    split at hstep
    · next hi =>
      cases hstep
      have hset := weights_set hi (.reconciling structureVersion)
      simp only [Drain.weight] at hset
      simp only [left]
      omega
    · cases hstep
  | reconciled i result =>
    simp only at hstep
    split at hstep
    · next structureVersion hi =>
      cases hstep
      exact left_next (s := { s with
        clock := s.clock + 1
        successfulRefreshes := s.successfulRefreshes + 1
        lastStructureVersion := some structureVersion
        lastResult := some result
        lastError := none }) hi Nat.one_pos
    · cases hstep
  | failed i message =>
    simp only at hstep
    split at hstep
    · next hany =>
      cases hstep
      obtain ⟨d, hi, hd⟩ := (Option.any_eq_true _ _).mp hany
      have hweight : 0 < d.weight := by cases d <;> first | exact Nat.succ_pos _ | cases hd
      cases message with
      | some message =>
        exact left_next (s := { s with clock := s.clock + 1, lastError := some message }) hi hweight
      | none =>
        have hset := weights_set hi .settled
        rw [show Drain.settled.weight = 0 from rfl] at hset
        change weights (s.drains.set i .settled) + (if s.queued then 2 else 0) <
          weights s.drains + if s.queued then 2 else 0
        omega
    · cases hstep

/-- A controller that is not at rest waits for something: for a drain to begin, or for a refresh to
end in one way or the other. -/
theorem awaits_of_busy (hbusy : ¬ s.Idle) :
    (∃ i, (controllerStep s (.drain i)).isSome) ∨
    ∃ i, (∀ message, (controllerStep s (.failed i message)).isSome) ∧
      ((∀ structureVersion, (controllerStep s (.loaded i structureVersion)).isSome) ∨
        ∀ result, (controllerStep s (.reconciled i result)).isSome) := by
  obtain ⟨i, hi, hunsettled, hbefore⟩ : ∃ (i : ℕ) (hi : i < s.drains.length),
      s.drains[i] ≠ .settled ∧ ∀ (j : ℕ) (hj : j < i), s.drains[j] = .settled := by
    have hexists : ∃ i, ∃ hi : i < s.drains.length, s.drains[i] ≠ .settled := by
      by_contra hnone
      refine hbusy fun d hd => ?_
      obtain ⟨i, hi, rfl⟩ := List.mem_iff_getElem.mp hd
      by_contra hne
      exact hnone ⟨i, hi, hne⟩
    classical
    obtain ⟨hi, hne⟩ := Nat.find_spec hexists
    refine ⟨Nat.find hexists, hi, hne, fun j hj => ?_⟩
    by_contra hnot
    exact Nat.find_min hexists hj ⟨hj.trans hi, hnot⟩
  have hget : s.drains[i]? = some s.drains[i] := List.getElem?_eq_getElem hi
  cases hdrain : s.drains[i] with
  | waiting =>
    refine .inl ⟨i, ?_⟩
    have hall : (s.drains.take i).all (· = .settled) := by
      rw [List.all_eq_true]
      intro d hd
      obtain ⟨j, hj, rfl⟩ := List.mem_take_iff_getElem.mp hd
      simpa using hbefore j (by omega)
    simp [controllerStep, hget, hdrain, hall]
  | loading =>
    refine .inr ⟨i, fun message => ?_, .inl fun structureVersion => ?_⟩ <;>
      simp [controllerStep, hget, hdrain, Drain.refreshes]
  | reconciling structureVersion =>
    refine .inr ⟨i, fun message => ?_, .inr fun result => ?_⟩ <;>
      simp [controllerStep, hget, hdrain, Drain.refreshes]
  | settled => exact absurd hdrain hunsettled

/-- One refresh at a time; a controller at rest that is not stopped has loaded since the last
request; and it comes to rest however the refreshes end. -/
theorem refresh_pump (h : controller.Reaches anyStep .initial s) :
    (∀ (i j : ℕ) d d', s.drains[i]? = some d → s.drains[j]? = some d' → d.refreshes → d'.refreshes →
      i = j) ∧
    (s.Idle → s.running → ∀ r, s.requestedAt = some r → ∃ l, s.loadedAt = some l ∧ r ≤ l) ∧
    (¬ s.Idle → (∃ i, (controller.step s (.drain i)).isSome) ∨
      ∃ i, (∀ message, (controller.step s (.failed i message)).isSome) ∧
        ((∀ structureVersion, (controller.step s (.loaded i structureVersion)).isSome) ∨
          ∀ result, (controller.step s (.reconciled i result)).isSome)) ∧
    ∀ input t, input.settles → controller.step s input = some t → t.left < s.left := by
  have hsound := Sound.reaches h
  refine ⟨fun i j d d' hi hj hd hd' => ?_, fun hidle hrunning r hr => ?_, awaits_of_busy,
    fun input t hsettles hstep => hsound.left_lt hsettles hstep⟩
  · have hcurrent := hsound.current_of_refreshes hi hd
    rcases Nat.lt_trichotomy i j with hlt | rfl | hgt
    · rw [hcurrent.after j d' hlt hj] at hd'
      cases hd'
    · rfl
    · rw [hcurrent.before j d' hgt hj] at hd'
      cases hd'
  · rcases hsound.taken hrunning r hr with hq | hl
    · obtain ⟨-, i, hi⟩ := hsound.queued hq
      exact nomatch hidle _ (List.mem_of_getElem? hi)
    · exact hl

/-- A request that comes while a refresh is under way, which fails. -/
def overlappingRequests : List Input :=
  [.start, .drain 0, .requestRefresh, .failed 0 (some "no such file"), .loaded 0 "digest",
    .reconciled 0 (.activated 1 none), .drain 1]

theorem refresh_pump_sample : ∃ s, controller.Reaches anyStep .initial s ∧ s.Idle ∧ s.running ∧
    s.requestedAt = some 3 ∧ s.loadedAt = some 4 ∧ s.successfulRefreshes = 1 ∧
    ∃ l, s.loadedAt = some l ∧ 3 ≤ l := by
  obtain ⟨s, hs, hcheck⟩ := exists_reaches_of_exec_map (M := controller) (s := .initial)
    (f := fun s => (s.drains, s.running, s.requestedAt, s.loadedAt, s.successfulRefreshes))
    (a := ([.settled, .settled], true, some 3, some 4, 1)) overlappingRequests (by decide)
  simp only [Prod.mk.injEq] at hcheck
  obtain ⟨hdrains, hrunning, hrequested, hloaded, hcount⟩ := hcheck
  have hidle : s.Idle := by
    intro d hd
    simpa [hdrains] using hd
  exact ⟨s, hs, hidle, hrunning, hrequested, hloaded, hcount,
    (refresh_pump hs).2.1 hidle hrunning 3 hrequested⟩

end Controller
end BeeAgent.ConfigSource
