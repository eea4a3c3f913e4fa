import BeeAgent.Learning.Proposals
import BeeAgent.Transition.Machine

/-! The learning subsystem, one call after another: proposals are created and moved, experiments are
run for them, and a rebuild reads proposals and reports back from the log. -/
namespace BeeAgent.Learning
open Data Transition
open Kanban (Formats)
open Kanban.Schema

/-- What the experiments take from outside. `digest` is the pattern of a digest. -/
structure LearningOptions where
  formats : Formats
  digest : String → Bool
  localeCompare : String → String → ℤ
  sha256 : String → String
  evaluatorId : String

/-- A report. One that is read back is what the event carries, seen as a report: it has an
`experimentId` and no `id`. -/
structure ExperimentReport where
  id : Option String
  experimentId : Option String := none
  proposalId : String
  datasetDigest : String
  evaluatorId : String
  verdict : ExperimentVerdict
  metrics : List (String × Number)
  notes : Option String
  changesetDigest : Option String
  rollback : RollbackPackage
  startedAt : String
  completedAt : String
  deriving DecidableEq, Repr

structure EvaluatorOutput where
  verdict : ExperimentVerdict
  metrics : List (String × Number)
  notes : Option String := none
  deriving DecidableEq, Repr

/-- The reports by their `id`; a key may be `undefined`. -/
abbrev Reports := OrderedMap (Option String) ExperimentReport

structure LearningWorld where
  events : List LearningEvent
  proposals : Proposals
  reports : Reports

/-- What the clock reads and what comes from outside in an experiment: the times at which its four
events are written, the digest of the frozen dataset, and what the evaluator gives or throws. -/
structure Trial where
  experimentId : String
  startedAt : String
  datasetDigest : String
  startedIngest : String
  entered : Draw
  enteredIngest : String
  outcome : Except String EvaluatorOutput
  settledAt : String
  settledIngest : String
  gated : Draw
  gatedIngest : String

namespace ProposalType

def text : ProposalType → String
  | memory => "memory"
  | knowledge => "knowledge"
  | skill => "skill"
  | prompt => "prompt"
  | contextPolicy => "context-policy"
  | planningPolicy => "planning-policy"
  | tool => "tool"
  | runtimeStructure => "runtime-structure"
  | worldSchema => "world-schema"
  | evaluation => "evaluation"
  | guardrail => "guardrail"

end ProposalType

def changesetDigestOf (sha256 : String → String) (proposal : ImprovementProposal) : String :=
  "sha256:" ++ sha256 (canonicalJson (.object
    [("type", .string proposal.type.text), ("targetKey", .string proposal.targetKey),
      ("proposedChange", proposal.proposedChange),
      ("basedOn", .array (proposal.basedOnTrajectoryIds.map fun ref =>
        .object [("threadId", .string ref.threadId), ("turnId", .string ref.turnId)]))]))

def rollbackFor (proposal : ImprovementProposal) : RollbackPackage :=
  match proposal.type with
  | .skill =>
    ⟨.retractSkill, "Retract the skill candidate for '" ++ proposal.targetKey ++
      "' and remove it from the active bundle."⟩
  | .guardrail =>
    ⟨.removeGuardrail, "Remove the guidance entry; no persistent state changes."⟩
  | .planningPolicy => ⟨.restorePlannerConfig, "Restore the previous planner configuration."⟩
  | _ => ⟨.noOp, "Proposal-only change; nothing to roll back."⟩

section Payloads
variable (o : LearningOptions)

def parsePayload (payload : LearningPayload) : List String → Except LearningError LearningPayload
  | [] => .ok payload
  | issues => .error (.zod issues)

def learningExperimentStartedEvent (p : ExperimentStarted) : Except LearningError LearningPayload :=
  parsePayload (.experimentStarted p) <|
    uuid o.formats "experimentId" p.experimentId ++ uuid o.formats "proposalId" p.proposalId ++
      check "datasetDigest" (o.digest p.datasetDigest) ++ nonempty "evaluatorId" p.evaluatorId ++
      datetime o.formats "startedAt" p.startedAt

def learningExperimentCompletedEvent (p : ExperimentCompleted) :
    Except LearningError LearningPayload :=
  parsePayload (.experimentCompleted p) <|
    uuid o.formats "experimentId" p.experimentId ++ uuid o.formats "proposalId" p.proposalId ++
      check "datasetDigest" (o.digest p.datasetDigest) ++ nonempty "evaluatorId" p.evaluatorId ++
      optional p.notes (nonempty "notes") ++
      optional p.changesetDigest (fun digest => check "changesetDigest" (o.digest digest)) ++
      nonempty "rollback.description" p.rollback.description ++
      datetime o.formats "startedAt" p.startedAt ++ datetime o.formats "completedAt" p.completedAt

def learningExperimentFailedEvent (p : ExperimentFailed) : Except LearningError LearningPayload :=
  parsePayload (.experimentFailed p) <|
    uuid o.formats "experimentId" p.experimentId ++ uuid o.formats "proposalId" p.proposalId ++
      nonempty "evaluatorId" p.evaluatorId ++ nonempty "message" p.message ++
      datetime o.formats "failedAt" p.failedAt

end Payloads

namespace LearningWorld

def initial : LearningWorld := ⟨[], .empty, .empty⟩

variable (w : LearningWorld)

def append (payload : LearningPayload) (ingestTime : String) : LearningWorld :=
  { w with events := w.events ++ [⟨payload, ingestTime⟩] }

/-- `#commit` -/
def commit (commit : Commit) (ingestTime : String) : LearningWorld :=
  { w.append commit.event ingestTime with
    proposals := w.proposals.set commit.next.id commit.next }

end LearningWorld

/-- How an experiment ends for its caller. -/
inductive ExperimentError where
  | learning (error : LearningError)
  | notAllowed (proposalId : String) (status : ProposalStatus)
  /-- What the evaluator throws. -/
  | evaluator (message : String)
  deriving DecidableEq, Repr

section Experiment
variable (o : LearningOptions)

def completedOf (proposalId : String) (proposal : ImprovementProposal) (t : Trial) (output : EvaluatorOutput) :
    ExperimentCompleted where
  experimentId := t.experimentId
  proposalId
  datasetDigest := t.datasetDigest
  evaluatorId := o.evaluatorId
  verdict := output.verdict
  metrics := output.metrics
  notes := output.notes
  changesetDigest := some (changesetDigestOf o.sha256 proposal)
  rollback := rollbackFor proposal
  startedAt := t.startedAt
  completedAt := t.settledAt

def reportOf (proposalId : String) (proposal : ImprovementProposal) (t : Trial) (output : EvaluatorOutput) :
    ExperimentReport where
  id := some t.experimentId
  proposalId
  datasetDigest := t.datasetDigest
  evaluatorId := o.evaluatorId
  verdict := output.verdict
  metrics := output.metrics
  notes := output.notes
  changesetDigest := some (changesetDigestOf o.sha256 proposal)
  rollback := rollbackFor proposal
  startedAt := t.startedAt
  completedAt := t.settledAt

def verdictText : ExperimentVerdict → String
  | .accept => "accept"
  | .reject => "reject"
  | .inconclusive => "inconclusive"

/-- Failed evidence archives; passing evidence waits for the user. -/
def gate (output : EvaluatorOutput) (expectedVersion : ℤ) : TransitionCommand :=
  match output.verdict with
  | .reject =>
    { dst := .rejected, expectedVersion
      reason := some "evidence gate: claims not supported by the frozen dataset" }
  | verdict =>
    { dst := .review, expectedVersion
      reason := some ("experiment " ++ verdictText verdict ++ "ed; awaiting user decision") }

def complete (w : LearningWorld) (proposalId : String) (proposal entered : ImprovementProposal)
    (t : Trial) (output : EvaluatorOutput) :
    Except ExperimentError ExperimentReport × LearningWorld :=
  let report := reportOf o proposalId proposal t output
  match learningExperimentCompletedEvent o (completedOf o proposalId proposal t output) with
  | .error e => (.error (.learning e), w)
  | .ok event =>
    let w := w.append event t.settledIngest
    match transition o.formats w.proposals proposalId (gate output entered.version) t.gated with
    | .error e => (.error (.learning e), w)
    | .ok gated =>
      let w := w.commit gated t.gatedIngest
      (.ok report, { w with reports := w.reports.set report.id report })

def evaluate (w : LearningWorld) (proposalId : String) (proposal entered : ImprovementProposal)
    (t : Trial) : Except ExperimentError ExperimentReport × LearningWorld :=
  match t.outcome with
  | .ok output => complete o w proposalId proposal entered t output
  | .error message =>
    match learningExperimentFailedEvent o
        { experimentId := t.experimentId, proposalId, evaluatorId := o.evaluatorId
          message, failedAt := t.settledAt } with
    | .error e => (.error (.learning e), w)
    | .ok event => (.error (.evaluator message), w.append event t.settledIngest)

/-- Experiments start from draft or review. -/
def ProposalStatus.allowsExperiment (status : ProposalStatus) : Bool :=
  status = .draft || status = .review

def runForProposal (w : LearningWorld) (proposalId : String) (t : Trial) :
    Except ExperimentError ExperimentReport × LearningWorld :=
  match w.proposals.get proposalId with
  | none => (.error (.learning (.notFound proposalId)), w)
  | some proposal =>
    if !proposal.status.allowsExperiment then
      (.error (.notAllowed proposalId proposal.status), w)
    else
      match learningExperimentStartedEvent o
          { experimentId := t.experimentId, proposalId, datasetDigest := t.datasetDigest
            evaluatorId := o.evaluatorId, startedAt := t.startedAt } with
      | .error e => (.error (.learning e), w)
      | .ok event =>
        let w := w.append event t.startedIngest
        match transition o.formats w.proposals proposalId
            { dst := .testing, expectedVersion := proposal.version
              reason := some ("experiment " ++ t.experimentId ++ " started") } t.entered with
        | .error e => (.error (.learning e), w)
        | .ok entered => evaluate o (w.commit entered t.enteredIngest) proposalId proposal entered.next t

/-- The reports for a proposal, by the time they were started. -/
def reportsFor (reports : Reports) (proposalId : String) : List ExperimentReport :=
  (reports.values.filter fun report => report.proposalId = proposalId).insertionSort fun a b =>
    o.localeCompare a.startedAt b.startedAt ≤ 0

end Experiment

/-- The payload of an event as a report. -/
def ExperimentCompleted.asReport (p : ExperimentCompleted) : ExperimentReport where
  id := none
  experimentId := some p.experimentId
  proposalId := p.proposalId
  datasetDigest := p.datasetDigest
  evaluatorId := p.evaluatorId
  verdict := p.verdict
  metrics := p.metrics
  notes := p.notes
  changesetDigest := p.changesetDigest
  rollback := p.rollback
  startedAt := p.startedAt
  completedAt := p.completedAt

def foldReport (reports : Reports) (event : LearningEvent) : Reports :=
  match event.payload with
  | .experimentCompleted payload => reports.set payload.asReport.id payload.asReport
  | _ => reports

/-- `ExperimentWorld.rebuild`, after that of the proposals. -/
def rebuildReports (events : List LearningEvent) : Reports := events.foldl foldReport .empty

inductive LearningCommand where
  | create (input : CreateProposalInput) (draw : Draw) (ingestTime : String)
  | transition (proposalId : String) (command : TransitionCommand) (draw : Draw)
      (ingestTime : String)
  | runForProposal (proposalId : String) (trial : Trial)

/-- A call that is rejected leaves what it has written. -/
def learningStep (o : LearningOptions) (w : LearningWorld) : LearningCommand → LearningWorld
  | .create input draw ingestTime =>
    match create o.formats input draw with
    | .ok commit => w.commit commit ingestTime
    | .error _ => w
  | .transition proposalId command draw ingestTime =>
    match transition o.formats w.proposals proposalId command draw with
    | .ok commit => w.commit commit ingestTime
    | .error _ => w
  | .runForProposal proposalId trial => (runForProposal o w proposalId trial).2

def learning (o : LearningOptions) : Machine LearningWorld LearningCommand :=
  ⟨fun w command => some (learningStep o w command)⟩

section Recovered
variable {o : LearningOptions} {w w' : LearningWorld}

/-- A transition is stamped with the time at which its event is written, and no experiment gets as
far as its completed event. -/
def Plain (o : LearningOptions) (w : LearningWorld) : LearningCommand → Prop
  | .create _ _ _ => True
  | .transition _ command draw ingestTime => command.at_.getD draw.now = ingestTime
  | .runForProposal proposalId trial => ∀ proposal ∈ w.proposals.get proposalId,
      proposal.status.allowsExperiment → trial.entered.now = trial.enteredIngest ∧
        match trial.outcome with
        | .error _ => True
        | .ok output => (learningExperimentCompletedEvent o
            (completedOf o proposalId proposal trial output)).isOk = false

structure Recovered (w : LearningWorld) : Prop where
  keyed : ∀ id p, w.proposals.get id = some p → p.id = id
  proposals : rebuild w.events = .ok w.proposals
  live : w.reports = .empty
  reports : rebuildReports w.events = .empty

theorem rebuild_append {events : List LearningEvent} {event : LearningEvent}
    {proposals : Proposals} (h : rebuild events = .ok proposals) :
    rebuild (events ++ [event]) = foldEvent proposals event := by
  rw [rebuild, List.foldlM_append, ← rebuild, h]
  simp [bind, Except.bind, pure, Except.pure]
  cases foldEvent proposals event <;> rfl

theorem rebuildReports_append {events : List LearningEvent} {event : LearningEvent} :
    rebuildReports (events ++ [event]) = foldReport (rebuildReports events) event := by
  rw [rebuildReports, List.foldl_append]
  rfl

theorem Recovered.initial : Recovered .initial := by
  refine ⟨?_, rfl, rfl, rfl⟩
  intro id p hp
  cases hp

theorem Recovered.append (h : Recovered w) {payload : LearningPayload} {ingestTime : String}
    (hfold : foldEvent w.proposals ⟨payload, ingestTime⟩ = .ok w.proposals)
    (hreport : foldReport .empty ⟨payload, ingestTime⟩ = .empty) :
    Recovered (w.append payload ingestTime) := by
  refine ⟨h.keyed, ?_, h.live, ?_⟩
  · rw [LearningWorld.append, rebuild_append h.proposals, hfold]
  · rw [LearningWorld.append, rebuildReports_append, h.reports, hreport]

theorem Recovered.commit (h : Recovered w) {commit : Commit} {ingestTime : String}
    (hfold : foldEvent w.proposals ⟨commit.event, ingestTime⟩ =
      .ok (w.proposals.set commit.next.id commit.next))
    (hreport : foldReport .empty ⟨commit.event, ingestTime⟩ = .empty) :
    Recovered (w.commit commit ingestTime) := by
  refine ⟨fun id p hp => ?_, ?_, h.live, ?_⟩
  · simp only [LearningWorld.commit, OrderedMap.get_set] at hp
    split at hp
    · next heq =>
      cases hp
      exact heq.symm
    · exact h.keyed id p hp
  · rw [LearningWorld.commit, LearningWorld.append, rebuild_append h.proposals, hfold]
  · rw [LearningWorld.commit, LearningWorld.append, rebuildReports_append, h.reports, hreport]

theorem Recovered.transition (h : Recovered w) {proposalId ingestTime : String}
    {command : TransitionCommand} {draw : Draw} {commit : Commit}
    (hcommit : transition o.formats w.proposals proposalId command draw = .ok commit)
    (htime : command.at_.getD draw.now = ingestTime) : Recovered (w.commit commit ingestTime) := by
  obtain ⟨current, hget, -, -, hevent, hnext⟩ := transition_ok hcommit
  refine h.commit ?_ ?_
  · simp only [foldEvent, hevent, hget, hnext, htime]
  · rw [foldReport, hevent]

theorem parsePayload_ok {payload event : LearningPayload} {issues : List String}
    (h : parsePayload payload issues = .ok event) : event = payload := by
  cases issues with
  | nil => exact (Except.ok.inj h).symm
  | cons => cases h

theorem Recovered.evaluate (h : Recovered w) {proposalId : String}
    {proposal entered : ImprovementProposal} {t : Trial}
    (hplain : match t.outcome with
      | .error _ => True
      | .ok output => (learningExperimentCompletedEvent o
          (completedOf o proposalId proposal t output)).isOk = false) :
    Recovered (evaluate o w proposalId proposal entered t).2 := by
  rw [Learning.evaluate]
  cases houtcome : t.outcome with
  | ok output =>
    rw [houtcome] at hplain
    simp only [complete]
    cases hevent : learningExperimentCompletedEvent o (completedOf o proposalId proposal t output) with
    | error e => exact h
    | ok event =>
      simp only [hevent] at hplain
      cases hplain
  | error message =>
    simp only
    split
    · exact h
    · next event hevent =>
      obtain rfl := parsePayload_ok hevent
      exact h.append rfl rfl

theorem Recovered.runForProposal (h : Recovered w) {proposalId : String} {trial : Trial}
    (hplain : Plain o w (.runForProposal proposalId trial)) :
    Recovered (runForProposal o w proposalId trial).2 := by
  rw [Learning.runForProposal]
  cases hget : w.proposals.get proposalId with
  | none => exact h
  | some proposal =>
    simp only
    split
    · exact h
    · next hallowed =>
      obtain ⟨htime, houtcome⟩ := hplain proposal hget (by simpa using hallowed)
      split
      · exact h
      · next event hevent =>
        obtain rfl := parsePayload_ok hevent
        have hstarted : ∀ p, Recovered (w.append (.experimentStarted p) trial.startedIngest) :=
          fun p => h.append rfl rfl
        split
        · exact hstarted _
        · next entered hentered =>
          exact ((hstarted _).transition hentered htime).evaluate houtcome

theorem Recovered.step (h : Recovered w) {command : LearningCommand} (hplain : Plain o w command) :
    Recovered (learningStep o w command) := by
  cases command with
  | create input draw ingestTime =>
    rw [learningStep]
    cases hcreate : create o.formats input draw with
    | error e => exact h
    | ok commit =>
      obtain ⟨hevent, -⟩ := create_ok hcreate
      refine h.commit ?_ ?_
      · rw [foldEvent, hevent]
      · rw [foldReport, hevent]
  | transition proposalId command draw ingestTime =>
    rw [learningStep]
    cases hcommit : Learning.transition o.formats w.proposals proposalId command draw with
    | error e => exact h
    | ok commit => exact h.transition hcommit hplain
  | runForProposal proposalId trial =>
    rw [learningStep]
    exact h.runForProposal hplain

/-- In a run of plain calls a rebuild of the log gives the proposals and the reports that there are
before it. -/
theorem rebuild_recovers (h : (learning o).Reaches (Plain o) .initial w) :
    rebuild w.events = .ok w.proposals ∧
      ∀ proposalId, reportsFor o (rebuildReports w.events) proposalId =
        reportsFor o w.reports proposalId := by
  have hrecovered : Recovered w := h.invariant .initial fun w command w' hw hplain hstep => by
    cases hstep
    exact hw.step hplain
  refine ⟨hrecovered.proposals, fun proposalId => ?_⟩
  rw [hrecovered.reports, hrecovered.live]

def trialOptions : LearningOptions where
  formats := ⟨fun s => s.length = 36, fun s => s.length = 24⟩
  digest := fun s => s.length = 71
  localeCompare := fun a b => if a = b then 0 else if a < b then -1 else 1
  sha256 := fun _ => "e3b0c44298fc1c149afbf4c8996fb92427ae41e4649b934ca495991b7852b855"
  evaluatorId := "evidence-verify@1"

def trialProposal : String := "018f5a3e-0000-7000-8000-000000000001"

def createTrial : LearningCommand :=
  .create
    { type := .skill, targetKey := "skill:lookup", basedOnTrajectoryIds := []
      hypothesis := "a lookup skill saves steps", proposedChange := .null, expectedBenefits := []
      risks := [], evaluationPlan := "count the steps", rollbackPlan := "retract the skill"
      autonomyLevel := (Fin.last 1).castAdd 2 }
    ⟨"2026-01-01T00:00:00.000Z", trialProposal⟩ "2026-01-01T00:00:00.001Z"

def runTrial (outcome : Except String EvaluatorOutput) : LearningCommand :=
  .runForProposal trialProposal
    { experimentId := "018f5a3e-0000-7000-8000-000000000002"
      startedAt := "2026-01-01T00:00:01.000Z"
      datasetDigest := "sha256:e3b0c44298fc1c149afbf4c8996fb92427ae41e4649b934ca495991b7852b855"
      startedIngest := "2026-01-01T00:00:01.000Z", entered := ⟨"2026-01-01T00:00:01.000Z", ""⟩
      enteredIngest := "2026-01-01T00:00:01.000Z", outcome, settledAt := "2026-01-01T00:00:02.000Z"
      settledIngest := "2026-01-01T00:00:02.000Z", gated := ⟨"2026-01-01T00:00:02.000Z", ""⟩
      gatedIngest := "2026-01-01T00:00:02.000Z" }

/-- An experiment whose evaluator throws. -/
theorem rebuild_recovers_sample : ∃ w, (learning trialOptions).Reaches (Plain trialOptions) .initial w ∧
    w.events.length = 4 ∧ rebuild w.events = .ok w.proposals := by
  have hguard : (learning trialOptions).Guarded (Plain trialOptions) .initial
      [createTrial, runTrial (.error "no evidence")] :=
    ⟨trivial, fun _ _ _ => ⟨rfl, trivial⟩, trivial⟩
  obtain ⟨w, hreach, hlength⟩ := hguard.exists_reaches (f := fun w => w.events.length) (a := 4)
    (by decide +kernel)
  exact ⟨w, hreach, hlength, (rebuild_recovers hreach).1⟩

/-- The ids of the reports for the proposal, and those that a rebuild of the log gives. -/
def reportIds (w : LearningWorld) : List (Option String) × List (Option String) :=
  ((reportsFor trialOptions w.reports trialProposal).map (·.id),
    (reportsFor trialOptions (rebuildReports w.events) trialProposal).map (·.id))

/-- The event of a completed experiment carries an `experimentId`, and a rebuild reads the report
under `id`. -/
theorem report_id_lost : ∃ w, (learning trialOptions).Reaches Machine.anyStep .initial w ∧
    reportIds w = ([some "018f5a3e-0000-7000-8000-000000000002"], [none]) :=
  Machine.exists_reaches_of_exec_map
    [createTrial, runTrial (.ok { verdict := .accept, metrics := [] })] (by decide +kernel)

end Recovered

end BeeAgent.Learning
