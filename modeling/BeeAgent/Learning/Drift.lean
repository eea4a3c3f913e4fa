import BeeAgent.Learning.Activation
import BeeAgent.Learning.Selection
import Mathlib.Algebra.Order.Ring.Rat

/-! The drift monitor with any number of checks in flight: the rollbacks of a check one by one, the
report behind them, and what the caller reverts from it. -/
namespace BeeAgent.Learning.Drift
open Data Transition Chronicle.Stores
open Kanban (Formats)
open Kanban.Schema (uuid datetime nonempty each)
open Activation (ProposalActivated ActivationReverted Claims revertedIssues)

structure DriftBudget where
  minMonitorTurns : ℚ := 2
  failureRateMargin : ℚ := mkRat 1 4
  minMonitorFailures : ℚ := 2
  checkpointMargin : ℚ := 2
  maxTrajectories : ℤ := 20

inductive DriftVerdict where
  | ok | regression | insufficientSamples
  deriving DecidableEq, Repr

structure DriftCheck where
  proposalId : String
  metric : String
  baseline : ℚ
  monitor : ℚ
  monitorTurns : ℕ
  verdict : DriftVerdict
  rolledBack : Bool := false
  deriving DecidableEq, Repr

structure DriftReport where
  ranAt : String
  checked : List DriftCheck
  deriving DecidableEq, Repr

/-- What the monitor and the activation service read and write of the learning stream. -/
inductive DriftPayload where
  | activated (payload : ProposalActivated)
  | activationReverted (payload : ActivationReverted)
  | driftChecked (report : DriftReport)
  | other

structure DriftOptions where
  formats : Formats
  budget : DriftBudget := {}
  /-- `toFixed(2)` -/
  toFixed : ℚ → String
  /-- Whether there is an activation service. -/
  activation : Bool := true

/-! ### One proposal -/

/-- How many calls of a tool there are, and how many of them failed. -/
def callCounts (target : Value) (turns : List DerivedTurn) : ℕ × ℕ :=
  let calls := (turns.flatMap DerivedTurn.toolCalls).filter fun call => match target with
    | .string toolId => call.toolId = toolId
    | _ => false
  (calls.length, (calls.filter ToolCall.isError).length)

def averageCheckpoints (turns : List DerivedTurn) : ℚ :=
  mkRat (turns.foldl (fun sum turn => sum + turn.checkpoints) 0 : ℕ) turns.length

structure Measure where
  metric : String
  baseline : ℚ
  monitor : ℚ
  regressed : Bool

def measure (budget : DriftBudget) (target : Value) (baseline monitor : List DerivedTurn) :
    Measure :=
  match target with
  | .undefined =>
    let before := averageCheckpoints baseline
    let after := averageCheckpoints monitor
    { metric := "average-checkpoints"
      baseline := before
      monitor := after
      regressed := 0 < monitor.length && before + budget.checkpointMargin < after }
  | target =>
    let before := callCounts target baseline
    let after := callCounts target monitor
    let rate (counts : ℕ × ℕ) := mkRat counts.2 counts.1
    { metric := "failure-rate:" ++ target.interpolated
      baseline := rate before
      monitor := rate after
      regressed := 0 < after.1 && budget.minMonitorFailures ≤ after.2 &&
        rate before + budget.failureRateMargin < rate after }

def checkOf (proposal : ImprovementProposal) (m : Measure) (monitorTurns : ℕ)
    (verdict : DriftVerdict) : DriftCheck :=
  { proposalId := proposal.id, metric := m.metric, baseline := m.baseline, monitor := m.monitor,
    monitorTurns, verdict }

def rollback (o : DriftOptions) (proposal : ImprovementProposal) (check : DriftCheck) :
    TransitionCommand where
  dst := .rolledBack
  expectedVersion := proposal.version
  reason := some ("drift monitor: " ++ check.metric ++ " regressed from " ++
    o.toFixed check.baseline ++ " to " ++ o.toFixed check.monitor)

def activeActivations (stream : List DriftPayload) : OrderedMap String ProposalActivated :=
  stream.foldl (fun active payload => match payload with
    | .activated payload => active.set payload.proposalId payload
    | .activationReverted payload => active.delete payload.proposalId
    | .driftChecked _ | .other => active) .empty

def driftCheckedIssues (f : Formats) (report : DriftReport) : List String :=
  datetime f "ranAt" report.ranAt ++
    each "checked" report.checked (fun path check =>
      uuid f (path ++ ".proposalId") check.proposalId ++
        nonempty (path ++ ".metric") check.metric) ++
    Kanban.Schema.check "checked" (report.checked.length ≤ 64)

/-! ### Calls -/

/-- What is left of the loop over the activations, of which there were `total`. -/
structure Walk where
  rest : List ProposalActivated
  total : ℕ
  checks : List DriftCheck

def Walk.push (w : Walk) (check : DriftCheck) : Walk := { w with checks := w.checks ++ [check] }

/-- Where a call of the caller stands: `check` up to `appending`, then what is reverted. -/
inductive Stage where
  | reading
  | getting (activation : ProposalActivated) (w : Walk)
  | measuring (proposal : ImprovementProposal) (activation : ProposalActivated) (w : Walk)
  | transitioning (proposal : ImprovementProposal) (activation : ProposalActivated)
      (check : DriftCheck) (w : Walk)
  | reporting (w : Walk)
  | appending (report : DriftReport)
  | reverting (remaining : List DriftCheck)
  | retracting (proposalId claimId : String) (remaining : List DriftCheck)
  | finished
  | failed
  /-- The process went down before the call came to an end. -/
  | gone

/-- A proposal that was rolled back, with the claim of its activation. -/
structure Moved where
  proposalId : String
  claimId : String
  deriving DecidableEq, Repr

structure Call where
  stage : Stage
  /-- What the call has rolled back. -/
  moved : List Moved := []

structure DriftState where
  proposals : Proposals
  stream : List DriftPayload
  /-- The map of the activation service. -/
  claims : Claims
  calls : List Call

/-- How an await settles. The turns are derived from the store as it is at either derivation. -/
inductive Await where
  | ok (draw : Draw)
  | derived (before after : Memory.Store)
  | failed

inductive Input where
  /-- The caller asks for a check. -/
  | monitor
  | advance (call : ℕ) (await : Await)
  /-- Others write to the learning stream, move proposals, apply and revert activations. -/
  | observed (payload : DriftPayload)
  | transitioned (proposals : Proposals)
  | activations (claims : Claims)
  /-- The process goes down and a new one comes up. -/
  | restart

def Stage.ended : Stage → Bool
  | .finished | .failed | .gone => true
  | _ => false

def Walk.next (w : Walk) : Stage :=
  match w.rest with
  | [] => .reporting w
  | activation :: rest => .getting activation { w with rest }

section Steps
variable (o : DriftOptions) (s : DriftState)

def DriftState.withCall (c : ℕ) (call : Call) : DriftState := { s with calls := s.calls.set c call }

def startCheck : Stage :=
  let active := (activeActivations s.stream).values
  Walk.next ⟨active, active.length, []⟩

def get (activation : ProposalActivated) (w : Walk) : Stage :=
  match s.proposals.get activation.proposalId with
  | none => w.next
  | some proposal =>
    if proposal.status = .promoted then .measuring proposal activation w else w.next

/-- A change that is no object to read from throws. -/
def derive (proposal : ImprovementProposal) (activation : ProposalActivated) (w : Walk)
    (before after : Memory.Store) : Stage :=
  let baseline := deriveTurnsById before proposal.basedOnTrajectoryIds
  let monitor := selectAndDerive after ⟨o.budget.maxTrajectories⟩ (some activation.activatedAt)
  match proposal.proposedChange.property? "toolId" with
  | none => .failed
  | some target =>
    let m := measure o.budget target baseline monitor
    let check := checkOf proposal m monitor.length
    if (monitor.length : ℚ) < o.budget.minMonitorTurns then
      (w.push (check .insufficientSamples)).next
    else if m.regressed then .transitioning proposal activation (check .regression) w
    else (w.push (check .ok)).next

def transitionTo (proposal : ImprovementProposal) (check : DriftCheck) (draw : Draw) :
    Except LearningError Commit :=
  transition o.formats s.proposals proposal.id (rollback o proposal check) draw

def rollBack (c : ℕ) (call : Call) (proposal : ImprovementProposal)
    (activation : ProposalActivated) (check : DriftCheck) (w : Walk) (draw : Draw) : DriftState :=
  match transitionTo o s proposal check draw with
  | .error _ => s.withCall c { call with stage := .failed }
  | .ok commit =>
    { s.withCall c
        { stage := (w.push { check with rolledBack := true }).next
          moved := call.moved ++ [⟨proposal.id, activation.claimId⟩] } with
      proposals := s.proposals.set commit.next.id commit.next }

/-- There is no report of a check that found no activations. -/
def report (w : Walk) (draw : Draw) : Stage :=
  if w.total = 0 then .reverting w.checks
  else match driftCheckedIssues o.formats ⟨draw.now, w.checks⟩ with
    | [] => .appending ⟨draw.now, w.checks⟩
    | _ :: _ => .failed

def revertCheck (check : DriftCheck) (rest : List DriftCheck) : Stage :=
  if check.rolledBack && o.activation then
    match s.claims.get check.proposalId with
    | none => .reverting rest
    | some claimId => .retracting check.proposalId claimId rest
  else .reverting rest

def revertNext : List DriftCheck → Stage
  | [] => .finished
  | check :: rest => revertCheck o s check rest

def revertedPayload (proposalId claimId : String) (draw : Draw) : ActivationReverted :=
  ⟨proposalId, claimId, some ("drift monitor rolled back " ++ proposalId), draw.now⟩

def retract (c : ℕ) (call : Call) (proposalId claimId : String) (remaining : List DriftCheck)
    (draw : Draw) : DriftState :=
  let payload := revertedPayload proposalId claimId draw
  match revertedIssues o.formats payload with
  | [] =>
    { s.withCall c { call with stage := .reverting remaining } with
      stream := s.stream ++ [.activationReverted payload]
      claims := s.claims.delete proposalId }
  | _ :: _ => s.withCall c { call with stage := .failed }

def advance (c : ℕ) (call : Call) (await : Await) : Option DriftState :=
  let goto (stage : Stage) := some (s.withCall c { call with stage })
  match call.stage, await with
  | .finished, _ | .failed, _ | .gone, _ => none
  | _, .failed => goto .failed
  | .reading, .ok _ => goto (startCheck s)
  | .getting activation w, .ok _ => goto (get s activation w)
  | .measuring proposal activation w, .derived before after =>
    goto (derive o proposal activation w before after)
  | .transitioning proposal activation check w, .ok draw =>
    some (rollBack o s c call proposal activation check w draw)
  | .reporting w, .ok draw => goto (report o w draw)
  | .appending report, .ok _ =>
    some { s.withCall c { call with stage := .reverting report.checked } with
      stream := s.stream ++ [.driftChecked report] }
  | .reverting remaining, .ok _ => goto (revertNext o s remaining)
  | .retracting proposalId claimId remaining, .ok draw =>
    some (retract o s c call proposalId claimId remaining draw)
  | _, _ => none

def Call.abandoned (call : Call) : Call :=
  if call.stage.ended then call else { call with stage := .gone }

def step : Input → Option DriftState
  | .monitor => some { s with calls := s.calls ++ [{ stage := .reading }] }
  | .advance c await => (s.calls[c]?).bind fun call => advance o s c call await
  | .observed payload => some { s with stream := s.stream ++ [payload] }
  | .transitioned proposals => some { s with proposals }
  | .activations claims => some { s with claims }
  | .restart => some { s with calls := s.calls.map Call.abandoned }

end Steps

def drift (o : DriftOptions) : Machine DriftState Input := ⟨step o⟩

/-! ### What a check leaves -/

/-- A drift check lists the proposal as rolled back. -/
def Listed (stream : List DriftPayload) (m : Moved) : Prop :=
  ∃ report, .driftChecked report ∈ stream ∧
    ∃ check ∈ report.checked, check.proposalId = m.proposalId ∧ check.rolledBack

/-- The activation is reverted. -/
def Reverted (stream : List DriftPayload) (m : Moved) : Prop :=
  ∃ payload, .activationReverted payload ∈ stream ∧ payload.proposalId = m.proposalId ∧
    payload.claimId = m.claimId

/-- Whatever a call has rolled back is listed and reverted once the call is over. -/
def Audited (s : DriftState) : Prop :=
  ∀ call ∈ s.calls, call.stage.ended → ∀ m ∈ call.moved, Listed s.stream m ∧ Reverted s.stream m

/-- An await of a call that has rolled something back does not fail the call. -/
def Unfailing (o : DriftOptions) (s : DriftState) (call : Call) : Await → Prop
  | .failed => False
  | .derived .. => match call.stage with
    | .measuring proposal _ _ => proposal.proposedChange.property? "toolId" ≠ none
    | _ => True
  | .ok draw => match call.stage with
    | .transitioning proposal _ check _ =>
      ∃ commit, transitionTo o s proposal check draw = .ok commit
    | .reporting w => driftCheckedIssues o.formats ⟨draw.now, w.checks⟩ = []
    | .reverting (check :: _) => check.rolledBack → ∀ m ∈ call.moved,
      m.proposalId = check.proposalId → Reverted s.stream m ∨
        o.activation ∧ s.claims.get check.proposalId = some m.claimId
    | .retracting proposalId claimId _ =>
      revertedIssues o.formats (revertedPayload proposalId claimId draw) = []
    | _ => True

def Heeded (o : DriftOptions) (s : DriftState) : Input → Prop
  | .advance c await => ∀ call, s.calls[c]? = some call → call.moved ≠ [] → Unfailing o s call await
  | .restart => ∀ call ∈ s.calls, call.moved ≠ [] → call.stage.ended
  | _ => True

/-! ### What a call keeps -/

section Kept
variable {o : DriftOptions} {s s' : DriftState} {stream stream' : List DriftPayload} {m : Moved}
  {w : Walk} {checks : List DriftCheck}

theorem Listed.mono (h : Listed stream m) (hsub : stream ⊆ stream') : Listed stream' m := by
  obtain ⟨report, hreport, hcheck⟩ := h
  exact ⟨report, hsub hreport, hcheck⟩

theorem Reverted.mono (h : Reverted stream m) (hsub : stream ⊆ stream') : Reverted stream' m := by
  obtain ⟨payload, hpayload, hof⟩ := h
  exact ⟨payload, hsub hpayload, hof⟩

/-- The checks have the proposal as rolled back. -/
def Noted (checks : List DriftCheck) (m : Moved) : Prop :=
  ∃ check ∈ checks, check.proposalId = m.proposalId ∧ check.rolledBack

theorem Noted.push (h : Noted checks m) (check : DriftCheck) : Noted (checks ++ [check]) m := by
  obtain ⟨noted, hmem, hof⟩ := h
  exact ⟨noted, List.mem_append_left _ hmem, hof⟩

/-- What holds of a proposal that a call has rolled back, by the stage of the call. -/
def Stage.Keeps (stream : List DriftPayload) (m : Moved) : Stage → Prop
  | .reading => False
  | .getting _ w | .measuring _ _ w | .transitioning _ _ _ w | .reporting w =>
    Noted w.checks m ∧ 0 < w.total
  | .appending report => Noted report.checked m
  | .reverting remaining => Listed stream m ∧ (Reverted stream m ∨ Noted remaining m)
  | .retracting proposalId claimId remaining => Listed stream m ∧
    (Reverted stream m ∨ m = ⟨proposalId, claimId⟩ ∨ Noted remaining m)
  | .finished | .failed | .gone => Listed stream m ∧ Reverted stream m

theorem Stage.Keeps.mono {stage : Stage} (h : stage.Keeps stream m) (hsub : stream ⊆ stream') :
    stage.Keeps stream' m := by
  cases stage with
  | reading | getting | measuring | transitioning | reporting | appending => exact h
  | reverting remaining => exact ⟨h.1.mono hsub, h.2.imp_left (Reverted.mono · hsub)⟩
  | retracting => exact ⟨h.1.mono hsub, h.2.imp_left (Reverted.mono · hsub)⟩
  | finished | failed | gone => exact ⟨h.1.mono hsub, h.2.mono hsub⟩

theorem Walk.next_keeps (hnoted : Noted w.checks m) (htotal : 0 < w.total) :
    w.next.Keeps stream m := by
  unfold Walk.next
  split <;> exact ⟨hnoted, htotal⟩

theorem Walk.push_keeps (hnoted : Noted w.checks m) (htotal : 0 < w.total) (check : DriftCheck) :
    (w.push check).next.Keeps stream m :=
  Walk.next_keeps (hnoted.push check) htotal

/-- The loop has gone through an activation, and the check is that of the proposal. -/
def Stage.Counts : Stage → Prop
  | .getting _ w | .measuring _ _ w => 0 < w.total
  | .transitioning proposal _ check w => 0 < w.total ∧ check.proposalId = proposal.id
  | .reporting w => w.total = 0 → w.checks = []
  | _ => True

theorem Walk.next_counts (h : 0 < w.total) : w.next.Counts := by
  unfold Walk.next
  split
  · exact fun hzero => absurd hzero (Nat.ne_of_gt h)
  · exact h

theorem startCheck_counts (s : DriftState) : (startCheck s).Counts := by
  unfold startCheck
  generalize (activeActivations s.stream).values = active
  cases active with
  | nil => exact fun _ => rfl
  | cons activation rest => exact Nat.succ_pos _

/-- What holds of a call. -/
structure Call.Sound (stream : List DriftPayload) (call : Call) : Prop where
  counts : call.stage.Counts
  keeps : ∀ m ∈ call.moved, call.stage.Keeps stream m

theorem Call.Sound.mono {call : Call} (h : call.Sound stream) (hsub : stream ⊆ stream') :
    call.Sound stream' :=
  ⟨h.counts, fun m hm => (h.keeps m hm).mono hsub⟩

theorem report_sound (htotal : 0 < w.total) (hnoted : Noted w.checks m) {draw : Draw}
    (hissues : driftCheckedIssues o.formats ⟨draw.now, w.checks⟩ = []) :
    (report o w draw).Keeps stream m := by
  rw [report, if_neg (Nat.ne_of_gt htotal), hissues]
  exact hnoted

theorem report_counts (w : Walk) (draw : Draw) : (report o w draw).Counts := by
  unfold report
  split
  · trivial
  · split <;> trivial

theorem revertCheck_cases (check : DriftCheck) (rest : List DriftCheck) :
    revertCheck o s check rest = .reverting rest ∨
      ∃ claimId, revertCheck o s check rest = .retracting check.proposalId claimId rest := by
  unfold revertCheck
  split
  · split
    · exact .inl rfl
    · exact .inr ⟨_, rfl⟩
  · exact .inl rfl

theorem revertNext_counts (checks : List DriftCheck) : (revertNext o s checks).Counts := by
  cases checks with
  | nil => trivial
  | cons check rest =>
    obtain heq | ⟨claimId, heq⟩ := @revertCheck_cases o s check rest
    · rw [revertNext, heq]
      trivial
    · rw [revertNext, heq]
      trivial

/-- The caller goes over the next check: the activation of one that is rolled back is reverted, or
is about to be. -/
theorem revertNext_keeps (hlisted : Listed s.stream m)
    (hleft : Reverted s.stream m ∨ Noted checks m)
    (hknown : ∀ check ∈ checks.head?, check.rolledBack → m.proposalId = check.proposalId →
      Reverted s.stream m ∨ o.activation ∧ s.claims.get check.proposalId = some m.claimId) :
    (revertNext o s checks).Keeps s.stream m := by
  cases checks with
  | nil =>
    refine ⟨hlisted, hleft.resolve_right ?_⟩
    rintro ⟨_, hmem, -⟩
    cases hmem
  | cons check rest =>
    have hkept : Reverted s.stream m ∨ Noted rest m →
        (revertCheck o s check rest).Keeps s.stream m := by
      intro hrest
      obtain heq | ⟨claimId, heq⟩ := @revertCheck_cases o s check rest
      · rw [heq]
        exact ⟨hlisted, hrest⟩
      · rw [heq]
        exact ⟨hlisted, hrest.imp_right .inr⟩
    obtain hreverted | ⟨noted, hmem, hid, hback⟩ := hleft
    · exact hkept (.inl hreverted)
    obtain rfl | hmem := List.mem_cons.mp hmem
    · obtain hreverted | ⟨hactivation, hget⟩ := hknown _ rfl hback hid.symm
      · exact hkept (.inl hreverted)
      · show (revertCheck o s noted rest).Keeps s.stream m
        simp only [revertCheck, hback, hactivation, Bool.and_self, if_true, hget]
        refine ⟨hlisted, .inr (.inl ?_)⟩
        rw [hid]
    · exact hkept (.inr ⟨noted, hmem, hid, hback⟩)

theorem get_sound (activation : ProposalActivated) (w : Walk) (htotal : 0 < w.total) :
    (get s activation w).Counts ∧ ∀ m, Noted w.checks m → (get s activation w).Keeps stream m := by
  unfold Drift.get
  split
  · exact ⟨Walk.next_counts htotal, fun m hnoted => Walk.next_keeps hnoted htotal⟩
  · split
    · exact ⟨htotal, fun m hnoted => ⟨hnoted, htotal⟩⟩
    · exact ⟨Walk.next_counts htotal, fun m hnoted => Walk.next_keeps hnoted htotal⟩

theorem derive_sound {proposal : ImprovementProposal} (activation : ProposalActivated) (w : Walk)
    (before after : Memory.Store) (htotal : 0 < w.total) :
    (derive o proposal activation w before after).Counts ∧
      (proposal.proposedChange.property? "toolId" ≠ none → ∀ m, Noted w.checks m →
        (derive o proposal activation w before after).Keeps stream m) := by
  unfold derive
  split
  · next hnone => exact ⟨trivial, fun hsome => absurd hnone hsome⟩
  · simp only
    split
    · exact ⟨Walk.next_counts htotal, fun _ m hnoted => Walk.push_keeps hnoted htotal _⟩
    split
    · exact ⟨⟨htotal, rfl⟩, fun _ m hnoted => ⟨hnoted, htotal⟩⟩
    · exact ⟨Walk.next_counts htotal, fun _ m hnoted => Walk.push_keeps hnoted htotal _⟩

/-- What one step of a call leaves of it. -/
structure Advances (s : DriftState) (c : ℕ) (s' : DriftState) (call' : Call) : Prop where
  calls : s'.calls = s.calls.set c call'
  stream : s.stream ⊆ s'.stream
  sound : call'.Sound s'.stream

theorem Advances.goto {c : ℕ} {call : Call} {stage : Stage} (hcounts : stage.Counts)
    (hkeeps : ∀ m ∈ call.moved, stage.Keeps s.stream m) :
    Advances s c (s.withCall c { call with stage }) { call with stage } :=
  ⟨rfl, fun _ h => h, hcounts, hkeeps⟩

theorem Advances.failed {c : ℕ} {call : Call} (h : call.moved = []) :
    Advances s c (s.withCall c { call with stage := .failed }) { call with stage := .failed } :=
  .goto trivial (by simp [h])

/-- The rollback is noted before anything else can fail. -/
theorem rollBack_advances {c : ℕ} {call : Call} {proposal : ImprovementProposal}
    {activation : ProposalActivated} {check : DriftCheck} {draw : Draw}
    (hid : check.proposalId = proposal.id) (htotal : 0 < w.total)
    (hnoted : ∀ m ∈ call.moved, Noted w.checks m)
    (hheeded : call.moved ≠ [] → ∃ commit, transitionTo o s proposal check draw = .ok commit) :
    ∃ call', Advances s c (rollBack o s c call proposal activation check w draw) call' := by
  unfold rollBack
  split
  · next error herror =>
    refine ⟨_, .failed ?_⟩
    by_contra hmoved
    obtain ⟨commit, hcommit⟩ := hheeded hmoved
    rw [herror] at hcommit
    cases hcommit
  · refine ⟨_, rfl, fun _ h => h, Walk.next_counts htotal, fun m hm => ?_⟩
    obtain hm | hm := List.mem_append.mp hm
    · exact Walk.push_keeps (hnoted m hm) htotal _
    · obtain rfl := List.mem_singleton.mp hm
      exact Walk.next_keeps
        ⟨_, List.mem_append_right _ (List.mem_singleton_self _), hid, rfl⟩ htotal

theorem retract_advances {c : ℕ} {call : Call} {proposalId claimId : String} {draw : Draw}
    (hkeeps : ∀ m ∈ call.moved, (Stage.retracting proposalId claimId checks).Keeps s.stream m)
    (hheeded : call.moved ≠ [] →
      revertedIssues o.formats (revertedPayload proposalId claimId draw) = []) :
    ∃ call', Advances s c (retract o s c call proposalId claimId checks draw) call' := by
  unfold retract
  simp only
  split
  · refine ⟨_, rfl, List.subset_append_left _ _, trivial, fun m hm => ?_⟩
    obtain ⟨hlisted, hleft⟩ := hkeeps m hm
    have hsub := List.subset_append_left s.stream
      [.activationReverted (revertedPayload proposalId claimId draw)]
    refine ⟨hlisted.mono hsub, ?_⟩
    obtain hreverted | rfl | hnoted := hleft
    · exact .inl (hreverted.mono hsub)
    · exact .inl ⟨_, List.mem_append_right _ (List.mem_singleton_self _), rfl, rfl⟩
    · exact .inr hnoted
  · next hissues =>
    refine ⟨_, .failed ?_⟩
    by_contra hmoved
    rw [hheeded hmoved] at hissues
    cases hissues

theorem advance_advances {c : ℕ} {call : Call} {await : Await} (hsound : call.Sound s.stream)
    (hheeded : call.moved ≠ [] → Unfailing o s call await)
    (hstep : advance o s c call await = some s') : ∃ call', Advances s c s' call' := by
  obtain ⟨stage, moved⟩ := call
  obtain ⟨hcounts, hkeeps⟩ := hsound
  simp only at hcounts hkeeps hheeded
  cases await with
  | failed =>
    have hmoved : moved = [] := by
      by_contra hmoved
      exact hheeded hmoved
    cases stage with
    | finished | failed | gone => cases hstep
    | reading | getting | measuring | transitioning | reporting | appending | reverting
    | retracting =>
      cases hstep
      exact ⟨_, .failed hmoved⟩
  | derived before after =>
    cases stage with
    | measuring proposal activation w =>
      cases hstep
      have hderive := @derive_sound o s.stream proposal activation w before after hcounts
      refine ⟨_, .goto hderive.1 fun m hm => ?_⟩
      exact hderive.2 (hheeded (List.ne_nil_of_mem hm)) m (hkeeps m hm).1
    | reading | getting | transitioning | reporting | appending | reverting | retracting | finished
    | failed | gone => cases hstep
  | ok draw =>
    cases stage with
    | measuring | finished | failed | gone => cases hstep
    | reading =>
      cases hstep
      exact ⟨_, .goto (startCheck_counts s) fun m hm => (hkeeps m hm).elim⟩
    | getting activation w =>
      cases hstep
      have hget := @get_sound s s.stream activation w hcounts
      exact ⟨_, .goto hget.1 fun m hm => hget.2 m (hkeeps m hm).1⟩
    | transitioning proposal activation check w =>
      cases hstep
      exact rollBack_advances hcounts.2 hcounts.1 (fun m hm => (hkeeps m hm).1) hheeded
    | reporting w =>
      cases hstep
      refine ⟨_, .goto (report_counts w draw) fun m hm => ?_⟩
      exact report_sound (hkeeps m hm).2 (hkeeps m hm).1 (hheeded (List.ne_nil_of_mem hm))
    | appending report =>
      cases hstep
      refine ⟨_, rfl, List.subset_append_left _ _, trivial, fun m hm => ?_⟩
      exact ⟨⟨report, List.mem_append_right _ (List.mem_singleton_self _), hkeeps m hm⟩,
        .inr (hkeeps m hm)⟩
    | reverting remaining =>
      cases hstep
      refine ⟨_, .goto (revertNext_counts remaining) fun m hm => ?_⟩
      obtain ⟨hlisted, hleft⟩ := hkeeps m hm
      refine revertNext_keeps hlisted hleft fun check hcheck hback hid => ?_
      have hknown := hheeded (List.ne_nil_of_mem hm)
      cases remaining with
      | nil => cases hcheck
      | cons first rest =>
        cases hcheck
        exact hknown hback m hm hid
    | retracting proposalId claimId remaining =>
      cases hstep
      exact retract_advances hkeeps hheeded

theorem sound_step {input : Input} (h : ∀ call ∈ s.calls, call.Sound s.stream)
    (hheeded : Heeded o s input) (hstep : step o s input = some s') :
    ∀ call ∈ s'.calls, call.Sound s'.stream := by
  cases input with
  | monitor =>
    cases hstep
    intro call hcall
    obtain hcall | hcall := List.mem_append.mp hcall
    · exact h call hcall
    · obtain rfl := List.mem_singleton.mp hcall
      exact ⟨trivial, nofun⟩
  | advance c await =>
    obtain ⟨call, hcall, hadvance⟩ := Option.bind_eq_some_iff.mp hstep
    obtain ⟨call', hcalls, hsub, hsound⟩ := advance_advances
      (h call (List.mem_of_getElem? hcall)) (hheeded call hcall) hadvance
    intro other hother
    rw [hcalls] at hother
    obtain hother | rfl := List.mem_or_eq_of_mem_set hother
    · exact (h other hother).mono hsub
    · exact hsound
  | observed payload =>
    cases hstep
    exact fun call hcall => (h call hcall).mono (List.subset_append_left _ _)
  | transitioned | activations =>
    cases hstep
    exact h
  | restart =>
    cases hstep
    intro call hcall
    obtain ⟨before, hbefore, rfl⟩ := List.mem_map.mp hcall
    unfold Call.abandoned
    split
    · exact h before hbefore
    · next hended =>
      have hmoved : before.moved = [] := by
        by_contra hmoved
        exact hended (hheeded before hbefore hmoved)
      exact ⟨trivial, by simp [hmoved]⟩

theorem audited_of_sound (h : ∀ call ∈ s.calls, call.Sound s.stream) : Audited s := by
  intro call hcall hended m hm
  have hkeeps := (h call hcall).keeps m hm
  obtain ⟨stage, moved⟩ := call
  cases stage with
  | finished | failed | gone => exact hkeeps
  | reading | getting | measuring | transitioning | reporting | appending | reverting
  | retracting => cases hended

end Kept

/-- As long as no check fails once it has rolled a proposal back, every rollback is listed and its
activation is reverted. -/
theorem rollbacks_audited (o : DriftOptions) {s₀ s : DriftState} (hstart : s₀.calls = [])
    (hruns : (drift o).Reaches (Heeded o) s₀ s) : Audited s :=
  audited_of_sound (hruns.invariant (by simp [hstart]) fun _ _ _ h hheeded hstep =>
    sound_step h hheeded hstep)

/-! ### Samples -/

def sampleOptions : DriftOptions where
  formats := ⟨fun _ => true, fun _ => true⟩
  toFixed _ := "1.00"

/-- A thread with a turn in which a tool fails. -/
def failingThread (threadId : String) : List StoredEvent :=
  [sampleStored "turn.started" "2026-01-02T00:00:00Z" 1 (.object [("turn", .object
      [("id", .string "turn"), ("threadId", .string threadId), ("status", .string "active")])]),
    sampleStored "item.completed" "2026-01-02T00:00:01Z" 2 (.object [("item", .object
      [("id", .string "item"), ("type", .string "tool_call"), ("payload", .object
        [("toolId", .string "lookup"), ("isError", .boolean true)])])])]

def failingStore : Memory.Store :=
  (OrderedMap.empty.set "thread:a" (failingThread "a")).set "thread:b" (failingThread "b")

def promotedProposal (id : String) : ImprovementProposal where
  id
  type := .guardrail
  targetKey := "tool-failure:lookup"
  basedOnTrajectoryIds := []
  hypothesis := "h"
  proposedChange := .object [("toolId", .string "lookup")]
  expectedBenefits := []
  risks := []
  evaluationPlan := "e"
  rollbackPlan := "r"
  autonomyLevel := (Fin.last 1).castAdd 2
  status := .promoted
  origin := .loop
  version := 5
  createdAt := "2026-01-01T00:00:00Z"
  updatedAt := "2026-01-01T00:00:00Z"

/-- Proposals that are promoted, and applied. -/
def appliedState (ids : List String) : DriftState where
  proposals := .setAll .empty (ids.map fun id => (id, promotedProposal id))
  stream := ids.map fun id => .activated ⟨id, .memoryClaim, id ++ "-claim", "2026-01-01T12:00:00Z"⟩
  claims := .setAll .empty (ids.map fun id => (id, id ++ "-claim"))
  calls := []

def okDraw : Await := .ok ⟨"2026-01-03T00:00:00Z", "u"⟩

/-- A check of `Unfailing` where no one else reverts. -/
def unfailing (o : DriftOptions) (s : DriftState) (call : Call) : Await → Bool
  | .failed => false
  | .derived .. => match call.stage with
    | .measuring proposal _ _ => (proposal.proposedChange.property? "toolId").isSome
    | _ => true
  | .ok draw => match call.stage with
    | .transitioning proposal _ check _ => (transitionTo o s proposal check draw).toBool
    | .reporting w => driftCheckedIssues o.formats ⟨draw.now, w.checks⟩ = []
    | .reverting (check :: _) => !check.rolledBack || call.moved.all fun m =>
      o.activation && s.claims.get check.proposalId = some m.claimId
    | .retracting proposalId claimId _ =>
      revertedIssues o.formats (revertedPayload proposalId claimId draw) = []
    | _ => true

def heeded (o : DriftOptions) (s : DriftState) : Input → Bool
  | .advance c await => (s.calls[c]?).all fun call => call.moved = [] || unfailing o s call await
  | .restart => s.calls.all fun call => call.moved = [] || call.stage.ended
  | _ => true

theorem Unfailing.of_check {o : DriftOptions} {s : DriftState} {call : Call} {await : Await}
    (h : unfailing o s call await) : Unfailing o s call await := by
  obtain ⟨stage, moved⟩ := call
  cases await with
  | failed => cases h
  | derived before after =>
    cases stage with
    | measuring proposal activation w => exact Option.isSome_iff_ne_none.mp h
    | _ => trivial
  | ok draw =>
    cases stage with
    | transitioning proposal activation check w =>
      change (transitionTo o s proposal check draw).toBool = true at h
      show ∃ commit, transitionTo o s proposal check draw = .ok commit
      cases hcommit : transitionTo o s proposal check draw with
      | error => simp [hcommit, Except.toBool] at h
      | ok commit => exact ⟨commit, rfl⟩
    | reporting w =>
      show driftCheckedIssues o.formats ⟨draw.now, w.checks⟩ = []
      exact of_decide_eq_true h
    | reverting remaining =>
      cases remaining with
      | nil => trivial
      | cons check rest =>
        intro hback m hm hid
        simp only [unfailing, hback, Bool.not_true, Bool.false_or] at h
        have hknown := List.all_eq_true.mp h m hm
        simp only [Bool.and_eq_true, decide_eq_true_eq] at hknown
        exact .inr hknown
    | retracting proposalId claimId remaining =>
      show revertedIssues o.formats (revertedPayload proposalId claimId draw) = []
      exact of_decide_eq_true h
    | _ => trivial

theorem Heeded.of_check (o : DriftOptions) (s : DriftState) (input : Input)
    (h : heeded o s input) : Heeded o s input := by
  cases input with
  | advance c await =>
    intro call hcall hmoved
    simp only [heeded, hcall, Option.all_some, Bool.or_eq_true, decide_eq_true_eq] at h
    exact .of_check (h.resolve_left hmoved)
  | restart =>
    intro call hcall hmoved
    have hended := List.all_eq_true.mp h call hcall
    simp only [Bool.or_eq_true, decide_eq_true_eq] at hended
    exact hended.resolve_left hmoved
  | _ => trivial

/-- A proposal is rolled back, listed and reverted. -/
def checkFirst : List Input :=
  [.monitor, .advance 0 okDraw, .advance 0 okDraw, .advance 0 (.derived failingStore failingStore),
    .advance 0 okDraw, .advance 0 okDraw, .advance 0 okDraw, .advance 0 okDraw, .advance 0 okDraw,
    .advance 0 okDraw]

theorem rollbacks_audited_sample : ∃ s,
    (drift sampleOptions).Reaches (Heeded sampleOptions) (appliedState ["p"]) s ∧
      s.calls.map (fun call => (call.stage.ended, call.moved)) = [(true, [⟨"p", "p-claim"⟩])] ∧
      Audited s := by
  have hguard : (drift sampleOptions).Guarded (Heeded sampleOptions) (appliedState ["p"])
      checkFirst :=
    Machine.guarded_of_allSteps (Heeded.of_check sampleOptions) _ (by decide +kernel)
  obtain ⟨s, hruns, hmoved⟩ := hguard.exists_reaches
    (f := fun s => s.calls.map fun call => (call.stage.ended, call.moved))
    (a := [(true, [⟨"p", "p-claim"⟩])]) (by decide +kernel)
  exact ⟨s, hruns, hmoved, rollbacks_audited sampleOptions rfl hruns⟩

/-! ### A rollback that is never listed -/

/-- The steps that checks take by themselves. -/
def OwnSteps (_ : DriftState) : Input → Prop
  | .monitor | .advance .. => True
  | _ => False

section Overlooked
variable {o : DriftOptions} {s s' : DriftState} {proposalId : String} {w : Walk}

def Unnoted (checks : List DriftCheck) (proposalId : String) : Prop :=
  ∀ check ∈ checks, check.proposalId = proposalId → check.rolledBack = false

/-- A call does not have the proposal in hand. -/
def Stage.Ignores (proposalId : String) : Stage → Prop
  | .getting _ w | .reporting w => Unnoted w.checks proposalId
  | .measuring proposal _ w => proposal.id ≠ proposalId ∧ Unnoted w.checks proposalId
  | .transitioning proposal _ check w =>
    proposal.id ≠ proposalId ∧ check.proposalId ≠ proposalId ∧ Unnoted w.checks proposalId
  | .appending report => Unnoted report.checked proposalId
  | _ => True

/-- A proposal is rolled back, the call that did it is over, and nothing tells of it. -/
structure Overlooked (proposalId : String) (s : DriftState) : Prop where
  keyed : ∀ id proposal, s.proposals.get id = some proposal → proposal.id = id
  rolledBack : ∃ proposal, s.proposals.get proposalId = some proposal ∧
    proposal.status = .rolledBack
  ended : ∃ call ∈ s.calls, call.stage.ended ∧ ∃ m ∈ call.moved, m.proposalId = proposalId
  unlisted : ∀ report, .driftChecked report ∈ s.stream → Unnoted report.checked proposalId
  ignored : ∀ call ∈ s.calls, call.stage.Ignores proposalId

theorem Overlooked.not_audited (h : Overlooked proposalId s) : ¬ Audited s := by
  intro haudited
  obtain ⟨call, hcall, hended, m, hm, hid⟩ := h.ended
  obtain ⟨report, hreport, check, hcheck, hof, hback⟩ := (haudited call hcall hended m hm).1
  rw [h.unlisted report hreport check hcheck (hof.trans hid)] at hback
  cases hback

theorem Unnoted.push {checks : List DriftCheck} (h : Unnoted checks proposalId)
    {check : DriftCheck} (hcheck : check.proposalId = proposalId → check.rolledBack = false) :
    Unnoted (checks ++ [check]) proposalId := by
  intro other hother hid
  obtain hother | hother := List.mem_append.mp hother
  · exact h other hother hid
  · obtain rfl := List.mem_singleton.mp hother
    exact hcheck hid

theorem Walk.next_ignores (h : Unnoted w.checks proposalId) : w.next.Ignores proposalId := by
  unfold Walk.next
  split <;> exact h

theorem Walk.push_ignores (h : Unnoted w.checks proposalId) {check : DriftCheck}
    (hcheck : check.proposalId = proposalId → check.rolledBack = false) :
    (w.push check).next.Ignores proposalId :=
  Walk.next_ignores (h.push hcheck)

theorem get_ignores (h : Overlooked proposalId s) (activation : ProposalActivated)
    (hw : Unnoted w.checks proposalId) : (get s activation w).Ignores proposalId := by
  unfold Drift.get
  split
  · exact Walk.next_ignores hw
  · next proposal hget =>
    split
    · next hpromoted =>
      refine ⟨fun hid => ?_, hw⟩
      obtain ⟨back, hback, hstatus⟩ := h.rolledBack
      rw [← hid, h.keyed _ _ hget, hget] at hback
      obtain rfl := Option.some.inj hback
      rw [hpromoted] at hstatus
      cases hstatus
    · exact Walk.next_ignores hw

theorem derive_ignores {proposal : ImprovementProposal} (hid : proposal.id ≠ proposalId)
    (hw : Unnoted w.checks proposalId) (activation : ProposalActivated)
    (before after : Memory.Store) :
    (derive o proposal activation w before after).Ignores proposalId := by
  unfold derive
  split
  · trivial
  · simp only
    split
    · exact Walk.push_ignores hw fun _ => rfl
    split
    · exact ⟨hid, hid, hw⟩
    · exact Walk.push_ignores hw fun _ => rfl

theorem Overlooked.goto (h : Overlooked proposalId s) {c : ℕ} {call : Call}
    (hcall : s.calls[c]? = some call) (hended : call.stage.ended = false) {call' : Call}
    (hignores : call'.stage.Ignores proposalId) (hcalls : s'.calls = s.calls.set c call')
    (hkeyed : ∀ id proposal, s'.proposals.get id = some proposal → proposal.id = id)
    (hback : s'.proposals.get proposalId = s.proposals.get proposalId)
    (hstream : ∀ report, .driftChecked report ∈ s'.stream → Unnoted report.checked proposalId) :
    Overlooked proposalId s' := by
  refine ⟨hkeyed, hback ▸ h.rolledBack, ?_, hstream, ?_⟩
  · obtain ⟨done, hdone, hdoneEnded, hm⟩ := h.ended
    obtain ⟨i, hi⟩ := List.getElem?_of_mem hdone
    have hne : c ≠ i := by
      rintro rfl
      rw [hcall] at hi
      obtain rfl := Option.some.inj hi
      rw [hended] at hdoneEnded
      cases hdoneEnded
    refine ⟨done, ?_, hdoneEnded, hm⟩
    rw [hcalls]
    exact List.mem_of_getElem? ((List.getElem?_set_ne hne).trans hi)
  · intro other hother
    rw [hcalls] at hother
    obtain hother | rfl := List.mem_or_eq_of_mem_set hother
    · exact h.ignored other hother
    · exact hignores

theorem Overlooked.withCall (h : Overlooked proposalId s) {c : ℕ} {call : Call}
    (hcall : s.calls[c]? = some call) (hended : call.stage.ended = false) {call' : Call}
    (hignores : call'.stage.Ignores proposalId) : Overlooked proposalId (s.withCall c call') :=
  h.goto hcall hended hignores rfl h.keyed rfl h.unlisted

theorem Overlooked.rollBack (h : Overlooked proposalId s) {c : ℕ} {call : Call}
    (hcall : s.calls[c]? = some call) (hended : call.stage.ended = false)
    {proposal : ImprovementProposal} (hid : proposal.id ≠ proposalId) {check : DriftCheck}
    (hcheck : check.proposalId ≠ proposalId) (hw : Unnoted w.checks proposalId)
    (activation : ProposalActivated) (draw : Draw) :
    Overlooked proposalId (rollBack o s c call proposal activation check w draw) := by
  unfold Drift.rollBack
  split
  · refine h.withCall hcall hended ?_
    trivial
  · next commit hcommit =>
    obtain ⟨current, hget, -, -, -, hnext⟩ := transition_ok hcommit
    have hnextId : commit.next.id = proposal.id := by
      rw [hnext]
      exact h.keyed _ current hget
    refine h.goto hcall hended ?_ rfl ?_ ?_ h.unlisted
    · exact Walk.push_ignores hw fun heq => absurd heq hcheck
    · intro id other hother
      by_cases heq : id = commit.next.id
      · subst heq
        simp only [OrderedMap.get_set, if_true] at hother
        obtain rfl := Option.some.inj hother
        rfl
      · rw [OrderedMap.get_set_of_ne heq] at hother
        exact h.keyed id other hother
    · exact OrderedMap.get_set_of_ne (fun heq => hid (hnextId.symm.trans heq.symm)) _ _

theorem Overlooked.retract (h : Overlooked proposalId s) {c : ℕ} {call : Call}
    (hcall : s.calls[c]? = some call) (hended : call.stage.ended = false) (id claimId : String)
    (remaining : List DriftCheck) (draw : Draw) :
    Overlooked proposalId (retract o s c call id claimId remaining draw) := by
  unfold Drift.retract
  simp only
  split
  · refine h.goto hcall hended ?_ rfl h.keyed rfl fun report hreport => ?_
    · trivial
    · obtain hreport | hreport := List.mem_append.mp hreport
      · exact h.unlisted report hreport
      · cases List.mem_singleton.mp hreport
  · refine h.withCall hcall hended ?_
    trivial

theorem Overlooked.advance (h : Overlooked proposalId s) {c : ℕ} {call : Call}
    (hcall : s.calls[c]? = some call) {await : Await}
    (hstep : Drift.advance o s c call await = some s') : Overlooked proposalId s' := by
  have hignored := h.ignored call (List.mem_of_getElem? hcall)
  obtain ⟨stage, moved⟩ := call
  simp only at hignored
  cases await with
  | failed =>
    cases stage with
    | finished | failed | gone => cases hstep
    | reading | getting | measuring | transitioning | reporting | appending | reverting
    | retracting =>
      cases hstep
      refine h.withCall hcall rfl ?_
      trivial
  | derived before after =>
    cases stage with
    | measuring proposal activation w =>
      cases hstep
      exact h.withCall hcall rfl (derive_ignores hignored.1 hignored.2 activation before after)
    | reading | getting | transitioning | reporting | appending | reverting | retracting | finished
    | failed | gone => cases hstep
  | ok draw =>
    cases stage with
    | measuring | finished | failed | gone => cases hstep
    | reading =>
      cases hstep
      refine h.withCall hcall rfl (Walk.next_ignores ?_)
      exact nofun
    | getting activation w =>
      cases hstep
      exact h.withCall hcall rfl (get_ignores h activation hignored)
    | transitioning proposal activation check w =>
      cases hstep
      exact h.rollBack hcall rfl hignored.1 hignored.2.1 hignored.2.2 activation draw
    | reporting w =>
      cases hstep
      refine h.withCall hcall rfl ?_
      unfold report
      split
      · trivial
      · split
        · exact hignored
        · trivial
    | appending report =>
      cases hstep
      refine h.goto hcall rfl ?_ rfl h.keyed rfl fun other hother => ?_
      · trivial
      · obtain hother | hother := List.mem_append.mp hother
        · exact h.unlisted other hother
        · cases List.mem_singleton.mp hother
          exact hignored
    | reverting remaining =>
      cases hstep
      refine h.withCall hcall rfl ?_
      cases remaining with
      | nil => trivial
      | cons check rest =>
        obtain heq | ⟨claimId, heq⟩ := @revertCheck_cases o s check rest
        · rw [revertNext, heq]
          trivial
        · rw [revertNext, heq]
          trivial
    | retracting id claimId remaining =>
      cases hstep
      exact h.retract hcall rfl id claimId remaining draw

theorem Overlooked.stays (h : Overlooked proposalId s) (hruns : (drift o).Reaches OwnSteps s s') :
    Overlooked proposalId s' := by
  refine hruns.invariant h fun s input s' h hown hstep => ?_
  cases input with
  | monitor =>
    cases hstep
    refine ⟨h.keyed, h.rolledBack, ?_, h.unlisted, fun call hcall => ?_⟩
    · obtain ⟨done, hdone, hrest⟩ := h.ended
      exact ⟨done, List.mem_append_left _ hdone, hrest⟩
    · obtain hcall | hcall := List.mem_append.mp hcall
      · exact h.ignored call hcall
      · obtain rfl := List.mem_singleton.mp hcall
        trivial
  | advance c await =>
    obtain ⟨call, hcall, hadvance⟩ := Option.bind_eq_some_iff.mp hstep
    exact h.advance hcall hadvance
  | observed | transitioned | activations | restart => exact hown.elim

end Overlooked

/-- The first of two proposals is rolled back; the derivation of the second one fails. -/
def failSecond : List Input :=
  [.monitor, .advance 0 okDraw, .advance 0 okDraw, .advance 0 (.derived failingStore failingStore),
    .advance 0 okDraw, .advance 0 okDraw, .advance 0 .failed]

def secondFailed : DriftState :=
  ((drift sampleOptions).exec (appliedState ["p", "q"]) failSecond).getD (appliedState [])

theorem reaches_secondFailed :
    (drift sampleOptions).Reaches Machine.anyStep (appliedState ["p", "q"]) secondFailed := by
  have hsome : ((drift sampleOptions).exec (appliedState ["p", "q"]) failSecond).isSome := by
    decide +kernel
  obtain ⟨s, hs⟩ := Option.isSome_iff_exists.mp hsome
  rw [secondFailed, hs]
  exact Machine.exec_reaches failSecond (Machine.guarded_anyStep _) hs

theorem overlooked_secondFailed : Overlooked "p" secondFailed := by
  have hkeyed : secondFailed.proposals.entries.all (fun e => e.2.id = e.1) := by decide +kernel
  have hback : (secondFailed.proposals.get "p").map ImprovementProposal.status =
      some .rolledBack := by decide +kernel
  have hmoved : secondFailed.calls.map (fun call => (call.stage.ended, call.moved)) =
      [(true, [⟨"p", "p-claim"⟩])] := by decide +kernel
  have hstream : secondFailed.stream.all (fun payload => match payload with
      | .driftChecked _ => false
      | _ => true) := by decide +kernel
  obtain ⟨call, hcalls, hcall⟩ := List.map_eq_singleton_iff.mp hmoved
  have hended : call.stage.ended := congrArg Prod.fst hcall
  refine ⟨fun id proposal hget => ?_, Option.map_eq_some_iff.mp hback, ?_, ?_, ?_⟩
  · have hentry := List.all_eq_true.mp hkeyed _ (OrderedMap.mem_entries_iff.mpr hget)
    simpa using hentry
  · refine ⟨call, by simp [hcalls], hended, ⟨"p", "p-claim"⟩, ?_, rfl⟩
    have hm : call.moved = [⟨"p", "p-claim"⟩] := congrArg Prod.snd hcall
    simp [hm]
  · intro report hreport
    exact absurd (List.all_eq_true.mp hstream _ hreport) (by simp)
  · intro other hother
    rw [hcalls, List.mem_singleton] at hother
    subst hother
    obtain ⟨stage, moved⟩ := other
    cases stage with
    | finished | failed | gone => trivial
    | reading | getting | measuring | transitioning | reporting | appending | reverting
    | retracting => cases hended

/-- A proposal stays rolled back with its change active, whatever checks follow. -/
theorem rollback_overlooked : ∃ s,
    (drift sampleOptions).Reaches Machine.anyStep (appliedState ["p", "q"]) s ∧
      ∀ s', (drift sampleOptions).Reaches OwnSteps s s' → ¬ Audited s' :=
  ⟨secondFailed, reaches_secondFailed, fun _ hruns =>
    (overlooked_secondFailed.stays hruns).not_audited⟩

end BeeAgent.Learning.Drift
