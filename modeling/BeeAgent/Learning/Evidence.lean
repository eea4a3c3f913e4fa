import BeeAgent.Data.NumberValue
import BeeAgent.Learning.Selection
import Mathlib.Tactic.NormNum.Basic

/-! The evidence of a proposal: the patterns that the learning loop finds in the derived turns, and
the evaluator that counts them again in the frozen dataset. -/
namespace BeeAgent.Learning
open Data

/-! ### Pattern discovery -/

/-- The budget of a run, with the thresholds of the patterns. -/
structure PatternBudget extends LearningLoopBudget where
  toolUsageSkillThreshold : Number := .ofNat 3
  toolFailureThreshold : Number := .ofNat 2
  longTurnSteps : Number := .ofNat 6

structure Seen where
  count : ℕ := 0
  refs : List DerivedTurn := []

abbrev Counts := OrderedMap String Seen

def Counts.add (counts : Counts) (toolId : String) (turn : DerivedTurn) : Counts :=
  let seen := (counts.get toolId).getD {}
  counts.set toolId ⟨seen.count + 1, seen.refs ++ [turn]⟩

/-- What `discoverPatterns` has collected. -/
structure Signals where
  usage : Counts := .empty
  failures : Counts := .empty
  longTurns : List DerivedTurn := []

def scanCall (turn : DerivedTurn) (s : Signals) (call : ToolCall) : Signals :=
  { s with usage := s.usage.add call.toolId turn
           failures := if call.isError then s.failures.add call.toolId turn else s.failures }

def scanTurn (budget : PatternBudget) (s : Signals) (turn : DerivedTurn) : Signals :=
  turn.toolCalls.foldl (scanCall turn)
    (if budget.longTurnSteps.value ≤ turn.checkpoints then
      { s with longTurns := s.longTurns ++ [turn] }
    else s)

/-- The turns by their ids; of two with one id the last one, in the place of the first. -/
def refsOf (refs : List DerivedTurn) : List TrajectoryRef :=
  ((OrderedMap.empty.setAll (refs.map fun turn => (turn.turnId, turn))).values).map DerivedTurn.ref

def READ_ONLY_TOOLS : List String := ["kanban_list", "kanban_show", "time_now", "web_search"]

def skillCandidate (toolId : String) (seen : Seen) : CreateProposalInput where
  type := .skill
  targetKey := "skill:" ++ toolId
  basedOnTrajectoryIds := refsOf seen.refs
  hypothesis := "Tool '" ++ toolId ++ "' was used " ++ toString seen.count ++
    " times across recent turns; packaging its typical invocation as a Skill candidate would " ++
    "reduce per-turn tool discovery cost."
  proposedChange := .object [("kind", .string "skill-candidate"), ("toolId", .string toolId),
    ("usageCount", .number (.ofNat seen.count))]
  expectedBenefits := ["Fewer tokens spent re-describing '" ++ toolId ++ "' usage each turn"]
  risks := ["A stale skill could encode an outdated invocation pattern"]
  evaluationPlan := "Replay recorded trajectories with and without the skill candidate and " ++
    "compare tool-selection accuracy and token cost."
  rollbackPlan := "Retract the skill and remove it from the active bundle."
  autonomyLevel := 2

def failureCandidate (toolId : String) (seen : Seen) : CreateProposalInput where
  type := .guardrail
  targetKey := "tool-failure:" ++ toolId
  basedOnTrajectoryIds := refsOf seen.refs
  hypothesis := "Tool '" ++ toolId ++ "' failed " ++ toString seen.count ++
    " times recently; a usage guardrail or clearer invocation guidance may prevent repeats."
  proposedChange := .object [("kind", .string "failure-observation"), ("toolId", .string toolId),
    ("failureCount", .number (.ofNat seen.count))]
  expectedBenefits := ["Fewer repeated failing invocations"]
  risks := ["Over-restricting a tool that fails for benign reasons"]
  evaluationPlan := "Compare failure rates for the tool before and after the guidance change on " ++
    "held-out trajectories."
  rollbackPlan := "Remove the guidance entry; no persistent state changes."
  autonomyLevel := 0

def longTurnCandidate (budget : PatternBudget) (longTurns : List DerivedTurn) :
    CreateProposalInput where
  type := .planningPolicy
  targetKey := "long-turns"
  basedOnTrajectoryIds := refsOf longTurns
  hypothesis := toString longTurns.length ++ " recent turns ran past " ++
    budget.longTurnSteps.text ++ " steps; earlier decomposition or tighter plans may cut cost."
  proposedChange := .object [("kind", .string "long-turn-observation"),
    ("turns", .number (.ofNat longTurns.length))]
  expectedBenefits := ["Shorter average turns", "Lower token cost per task"]
  risks := ["Over-decomposition of genuinely complex tasks"]
  evaluationPlan := "Measure step counts on held-out tasks with the adjusted planner thresholds."
  rollbackPlan := "Restore the previous planner configuration."
  autonomyLevel := 0

def discoverPatterns (turns : List DerivedTurn) (budget : PatternBudget) :
    List CreateProposalInput :=
  let signals := turns.foldl (scanTurn budget) {}
  (signals.usage.entries.filterMap fun e =>
      if (e.2.count : ℚ) < budget.toolUsageSkillThreshold.value then none
      else if e.1 ∈ READ_ONLY_TOOLS then none
      else some (skillCandidate e.1 e.2)) ++
    (signals.failures.entries.filterMap fun e =>
      if (e.2.count : ℚ) < budget.toolFailureThreshold.value then none
      else some (failureCandidate e.1 e.2)) ++
    if signals.longTurns = [] then [] else [longTurnCandidate budget signals.longTurns]

/-! ### The evaluator -/

structure FrozenTrajectory where
  threadId : String
  turnId : String
  derived : DerivedTurn

structure FrozenDataset where
  trajectories : List FrozenTrajectory
  digest : String
  frozenAt : String

def freezeDataset (sha256 : String → String) (trajectories : List DerivedTurn)
    (frozenAt : String) : FrozenDataset where
  trajectories := trajectories.map fun turn => ⟨turn.threadId, turn.turnId, turn⟩
  digest := "sha256:" ++ sha256 (canonicalJson (.array (trajectories.map fun turn =>
    .array [.string turn.threadId, .string turn.turnId, .string turn.status,
      .number (.ofNat turn.checkpoints),
      .array (turn.toolCalls.map fun call =>
        .object [("toolId", .string call.toolId), ("isError", .boolean call.isError)])])))
  frozenAt

structure Verified where
  usage : ℕ := 0
  failures : ℕ := 0
  longTurns : ℕ := 0

/-- `===` with a string. -/
def isText (value : Value) (text : String) : Bool :=
  match value with
  | .string s => s = text
  | _ => false

def isTool (toolId : Value) (call : ToolCall) : Bool := isText toolId call.toolId

def verifyCall (toolId : Value) (v : Verified) (call : ToolCall) : Verified :=
  if isTool toolId call then
    { v with usage := v.usage + 1
             failures := if call.isError then v.failures + 1 else v.failures }
  else v

def verifyTurn (toolId : Value) (v : Verified) (frozen : FrozenTrajectory) : Verified :=
  frozen.derived.toolCalls.foldl (verifyCall toolId)
    (if 6 ≤ frozen.derived.checkpoints then { v with longTurns := v.longTurns + 1 } else v)

/-- What an evaluator returns; a claim that is not a number is a metric as it is. -/
structure EvidenceOutput where
  verdict : ExperimentVerdict
  metrics : List (String × Value)
  notes : Option String

/-- The number that a claim counts as in a comparison: none for `NaN`. `toNumber` converts what is
neither missing nor a number. -/
def claimedCount (toNumber : Value → Option ℚ) : Value → Option ℚ
  | .undefined | .null => some 0
  | .number n => some n.value
  | claim => toNumber claim

/-- `verified >= claim && verified > 0` -/
def holds (toNumber : Value → Option ℚ) (verified : ℕ) (claim : Value) : Bool :=
  match claimedCount toNumber claim with
  | some claimed => claimed ≤ verified && 0 < verified
  | none => false

def claimMetric : Value → Value
  | .undefined | .null => .number ⟨true, 1, 0⟩
  | claim => claim

/-- The verdict on one claim. -/
def judged (toNumber : Value → Option ℚ) (metrics : List (String × Value)) (metric : String)
    (claim : Value) (verified : ℕ) (what : String) : EvidenceOutput :=
  let accepted := holds toNumber verified claim
  { verdict := if accepted then .accept else .reject
    metrics := metrics ++ [(metric, claimMetric claim)]
    notes := if accepted then none else some ("Claimed " ++ claim.interpolated ++ what ++
      ", the frozen data shows " ++ toString verified ++ ".") }

def verdictOn (toNumber : Value → Option ℚ) (change : Value) (total : ℕ) (v : Verified) :
    EvidenceOutput :=
  let tool := (field "toolId" change).interpolated
  let metrics := [("trajectoryCount", .number (.ofNat total)),
    ("verifiedUsage", .number (.ofNat v.usage)),
    ("verifiedFailures", .number (.ofNat v.failures)),
    ("verifiedLongTurns", .number (.ofNat v.longTurns))]
  let kind := field "kind" change
  if isText kind "skill-candidate" then
    judged toNumber metrics "claimedUsage" (field "usageCount" change) v.usage
      (" usages of '" ++ tool ++ "'")
  else if isText kind "failure-observation" then
    judged toNumber metrics "claimedFailures" (field "failureCount" change) v.failures
      (" failures of '" ++ tool ++ "'")
  else if isText kind "long-turn-observation" then
    judged toNumber metrics "claimedLongTurns" (field "turns" change) v.longTurns " long turns"
  else
    { verdict := .inconclusive
      metrics
      notes := some ("No deterministic verification for change kind '" ++ kind.interpolated ++
        "'; awaiting a dedicated evaluator.") }

/-- `EvidenceVerifyEvaluator.evaluate`; it throws where the change is not there. -/
def EvidenceVerifyEvaluator.evaluate (toNumber : Value → Option ℚ) (proposal : ImprovementProposal)
    (dataset : FrozenDataset) : Option EvidenceOutput :=
  let change := proposal.proposedChange
  match change with
  | .undefined | .null => none
  | _ => some (verdictOn toNumber change dataset.trajectories.length
      (dataset.trajectories.foldl (verifyTurn (field "toolId" change)) {}))

/-! ### What the turns show -/

def callsOf (turns : List DerivedTurn) : List ToolCall := turns.flatMap DerivedTurn.toolCalls

def isUse (toolId : Value) (call : ToolCall) : Bool := isTool toolId call

def isFailure (toolId : Value) (call : ToolCall) : Bool := isTool toolId call && call.isError

/-- The claim of a change of the kinds that are verified, and the count that the turns show. -/
def claimOf (turns : List DerivedTurn) (change : Value) : Option (Value × ℕ) :=
  let kind := field "kind" change
  if isText kind "skill-candidate" then
    some (field "usageCount" change, (callsOf turns).countP (isUse (field "toolId" change)))
  else if isText kind "failure-observation" then
    some (field "failureCount" change, (callsOf turns).countP (isFailure (field "toolId" change)))
  else if isText kind "long-turn-observation" then
    some (field "turns" change, turns.countP fun turn => 6 ≤ turn.checkpoints)
  else none

section Verify
variable {toolId : Value} {turns : List DerivedTurn} {v : Verified}

theorem foldl_verifyCall (calls : List ToolCall) (v : Verified) :
    calls.foldl (verifyCall toolId) v =
      ⟨v.usage + calls.countP (isUse toolId), v.failures + calls.countP (isFailure toolId),
        v.longTurns⟩ := by
  induction calls generalizing v with
  | nil => rfl
  | cons call calls ih =>
    rw [List.foldl_cons, ih]
    unfold verifyCall isUse isFailure
    cases htool : isTool toolId call <;> cases herror : call.isError <;>
      simp [htool, herror, Nat.add_assoc, Nat.add_comm 1]

theorem foldl_verifyTurn (turns : List DerivedTurn) (v : Verified) :
    (turns.map fun turn => ⟨turn.threadId, turn.turnId, turn⟩).foldl (verifyTurn toolId) v =
      ⟨v.usage + (callsOf turns).countP (isUse toolId),
        v.failures + (callsOf turns).countP (isFailure toolId),
        v.longTurns + turns.countP fun turn => 6 ≤ turn.checkpoints⟩ := by
  induction turns generalizing v with
  | nil => rfl
  | cons turn turns ih =>
    rw [List.map_cons, List.foldl_cons, ih, verifyTurn, foldl_verifyCall]
    by_cases hlong : 6 ≤ turn.checkpoints <;>
      simp [callsOf, hlong, Nat.add_assoc, Nat.add_comm 1]

end Verify

section Judge
variable {toNumber : Value → Option ℚ} {sha256 : String → String} {turns : List DerivedTurn}
  {proposal : ImprovementProposal} {claim : Value} {shown : ℕ}

theorem verdictOn_of_claimOf {change : Value} (h : claimOf turns change = some (claim, shown))
    (total : ℕ) : (verdictOn toNumber change total
      ⟨(callsOf turns).countP (isUse (field "toolId" change)),
        (callsOf turns).countP (isFailure (field "toolId" change)),
        turns.countP fun turn => 6 ≤ turn.checkpoints⟩).verdict =
      if holds toNumber shown claim then .accept else .reject := by
  unfold claimOf at h
  unfold verdictOn
  simp only at h ⊢
  by_cases hskill : isText (field "kind" change) "skill-candidate"
  · rw [if_pos hskill] at h ⊢
    cases h
    rfl
  rw [if_neg hskill] at h ⊢
  by_cases hfailure : isText (field "kind" change) "failure-observation"
  · rw [if_pos hfailure] at h ⊢
    cases h
    rfl
  rw [if_neg hfailure] at h ⊢
  by_cases hlong : isText (field "kind" change) "long-turn-observation"
  · rw [if_pos hlong] at h ⊢
    cases h
    rfl
  · rw [if_neg hlong] at h
    cases h

theorem evaluate_of_claimOf (h : claimOf turns proposal.proposedChange = some (claim, shown))
    (frozenAt : String) : ∃ output,
      EvidenceVerifyEvaluator.evaluate toNumber proposal
        (freezeDataset sha256 turns frozenAt) = some output ∧
      output.verdict = if holds toNumber shown claim then .accept else .reject := by
  have hverdict := @verdictOn_of_claimOf toNumber turns claim shown _ h turns.length
  simp only [EvidenceVerifyEvaluator.evaluate, freezeDataset, foldl_verifyTurn, List.length_map,
    Nat.zero_add]
  cases hchange : proposal.proposedChange with
  | undefined | null =>
    rw [hchange] at h
    cases h
  | boolean | number | string | array | object =>
    rw [hchange] at hverdict
    exact ⟨_, rfl, hverdict⟩

end Judge

/-! ### What is discovered -/

section Discover
variable {toNumber : Value → Option ℚ} {budget : PatternBudget} {turns : List DerivedTurn}
  {counts : Counts} {p : ToolCall → Bool} {calls : List ToolCall} {toolId : String} {s : Signals}

/-- A map holds how many of the calls are of each tool and meet a condition. -/
def Tallies (counts : Counts) (p : ToolCall → Bool) (calls : List ToolCall) : Prop :=
  ∀ toolId, (counts.get toolId = none →
      calls.countP (fun c => isTool (.string toolId) c && p c) = 0) ∧
    ∀ seen, counts.get toolId = some seen →
      seen.count = calls.countP (fun c => isTool (.string toolId) c && p c) ∧ 0 < seen.count

theorem tallies_empty (p : ToolCall → Bool) : Tallies .empty p [] :=
  fun _ => ⟨fun _ => rfl, fun _ h => by cases h⟩

theorem Tallies.skip (h : Tallies counts p calls) {call : ToolCall} (hp : p call = false) :
    Tallies counts p (calls ++ [call]) := by
  intro toolId
  simpa [hp] using h toolId

theorem Tallies.add (h : Tallies counts p calls) {call : ToolCall} (hp : p call)
    (turn : DerivedTurn) : Tallies (counts.add call.toolId turn) p (calls ++ [call]) := by
  intro toolId
  obtain ⟨hnone, hsome⟩ := h toolId
  unfold Counts.add
  by_cases htool : toolId = call.toolId
  · subst htool
    have hadd : (calls ++ [call]).countP (fun c => isTool (.string call.toolId) c && p c) =
        calls.countP (fun c => isTool (.string call.toolId) c && p c) + 1 := by
      simp [isTool, isText, hp]
    rw [hadd]
    simp only [OrderedMap.get_set, if_true]
    refine ⟨nofun, fun seen hseen => ?_⟩
    cases hseen
    cases hget : counts.get call.toolId with
    | none => simp [hnone hget]
    | some seen => simp [(hsome seen hget).1]
  · have hkeep : (calls ++ [call]).countP (fun c => isTool (.string toolId) c && p c) =
        calls.countP (fun c => isTool (.string toolId) c && p c) := by
      simp [isTool, isText, htool]
    rw [hkeep, OrderedMap.get_set_of_ne htool]
    exact ⟨hnone, hsome⟩

/-- The signals are those of the turns that are read. -/
structure Signals.Of (budget : PatternBudget) (turns : List DerivedTurn) (calls : List ToolCall)
    (s : Signals) : Prop where
  usage : Tallies s.usage (fun _ => true) calls
  failures : Tallies s.failures ToolCall.isError calls
  longTurns : s.longTurns =
    turns.filter fun turn => budget.longTurnSteps.value ≤ turn.checkpoints

theorem Signals.Of.scanCall (h : s.Of budget turns calls) (turn : DerivedTurn) (call : ToolCall) :
    (scanCall turn s call).Of budget turns (calls ++ [call]) := by
  refine ⟨h.usage.add rfl turn, ?_, h.longTurns⟩
  unfold Learning.scanCall
  cases herror : call.isError with
  | false => exact h.failures.skip herror
  | true => exact h.failures.add herror turn

theorem Signals.Of.scanCalls (h : s.Of budget turns calls) (turn : DerivedTurn)
    (more : List ToolCall) :
    (more.foldl (Learning.scanCall turn) s).Of budget turns (calls ++ more) := by
  induction more generalizing s calls with
  | nil => simpa using h
  | cons call more ih =>
    rw [List.foldl_cons, List.append_cons]
    exact ih (h.scanCall turn call)

theorem signals_of (budget : PatternBudget) (turns : List DerivedTurn) :
    (turns.foldl (scanTurn budget) {}).Of budget turns (callsOf turns) := by
  induction turns using List.reverseRecOn with
  | nil => exact ⟨tallies_empty _, tallies_empty _, rfl⟩
  | append_singleton turns turn ih =>
    rw [List.foldl_append, callsOf, List.flatMap_append, List.flatMap_singleton]
    refine Signals.Of.scanCalls ?_ turn turn.toolCalls
    have hlong := ih.longTurns
    constructor
    · split <;> exact ih.usage
    · split <;> exact ih.failures
    · rw [List.filter_append]
      split
      · next h => simp [h, hlong]
      · next h => simp [h, hlong]

theorem mem_discoverPatterns {candidate : CreateProposalInput}
    (h : candidate ∈ discoverPatterns turns budget) :
    (∃ toolId seen, candidate = skillCandidate toolId seen ∧ 0 < seen.count ∧
      seen.count = (callsOf turns).countP (isUse (.string toolId))) ∨
    (∃ toolId seen, candidate = failureCandidate toolId seen ∧ 0 < seen.count ∧
      seen.count = (callsOf turns).countP (isFailure (.string toolId))) ∨
    ∃ longTurns, candidate = longTurnCandidate budget longTurns ∧ longTurns ≠ [] ∧
      longTurns =
        turns.filter fun turn => budget.longTurnSteps.value ≤ turn.checkpoints := by
  obtain ⟨husage, hfailures, hlong⟩ := signals_of budget turns
  unfold discoverPatterns at h
  simp only at h
  obtain h | h := List.mem_append.mp h
  · obtain h | h := List.mem_append.mp h
    · obtain ⟨⟨toolId, seen⟩, hmem, heq⟩ := List.mem_filterMap.mp h
      obtain ⟨hcount, hpositive⟩ := (husage toolId).2 seen (OrderedMap.mem_entries_iff.mp hmem)
      split_ifs at heq
      cases heq
      simp only [Bool.and_true] at hcount
      exact .inl ⟨toolId, seen, rfl, hpositive, hcount⟩
    · obtain ⟨⟨toolId, seen⟩, hmem, heq⟩ := List.mem_filterMap.mp h
      obtain ⟨hcount, hpositive⟩ := (hfailures toolId).2 seen (OrderedMap.mem_entries_iff.mp hmem)
      split_ifs at heq
      cases heq
      exact .inr (.inl ⟨toolId, seen, rfl, hpositive, hcount⟩)
  · split_ifs at h with hnone
    · cases h
    · exact .inr (.inr ⟨_, List.mem_singleton.mp h, hnone, hlong⟩)

theorem longTurnCandidate_mem (h : ∃ turn ∈ turns,
    budget.longTurnSteps.value ≤ turn.checkpoints) :
    longTurnCandidate budget (turns.filter fun turn =>
      budget.longTurnSteps.value ≤ turn.checkpoints) ∈ discoverPatterns turns budget := by
  obtain ⟨turn, hmem, hlong⟩ := h
  have hsome : (turns.filter fun turn =>
      budget.longTurnSteps.value ≤ turn.checkpoints) ≠ [] :=
    List.ne_nil_of_mem (List.mem_filter.mpr ⟨hmem, decide_eq_true hlong⟩)
  unfold discoverPatterns
  simp only [(signals_of budget turns).longTurns, if_neg hsome]
  exact List.mem_append_right _ (List.mem_singleton_self _)

end Discover

/-! ### The gate -/

section Gate
variable (sha256 : String → String) (toNumber : Value → Option ℚ) (turns : List DerivedTurn)
  (frozenAt : String)

/-- The evaluator's verdict on any proposal with a change, over the dataset frozen of the turns. -/
def Judges (change : Value) (verdict : ExperimentVerdict) : Prop :=
  ∀ proposal : ImprovementProposal, proposal.proposedChange = change → ∃ output,
    EvidenceVerifyEvaluator.evaluate toNumber proposal
        (freezeDataset sha256 turns frozenAt) = some output ∧
      output.verdict = verdict

variable {sha256 toNumber turns frozenAt}
variable {budget : PatternBudget} {change : Value} {claim : Value} {n shown : ℕ}

theorem holds_ofNat : holds toNumber shown (.number (.ofNat n)) ↔ n ≤ shown ∧ 0 < shown := by
  simp only [holds, claimedCount, Number.value_ofNat, Bool.and_eq_true, decide_eq_true_eq]
  norm_cast

/-- A proposal with a change. -/
def proposing (change : Value) : ImprovementProposal where
  id := "p"
  type := .skill
  targetKey := "skill"
  basedOnTrajectoryIds := []
  hypothesis := "h"
  proposedChange := change
  expectedBenefits := []
  risks := []
  evaluationPlan := "e"
  rollbackPlan := "r"
  autonomyLevel := 0
  status := .draft
  origin := .loop
  version := 1
  createdAt := ""
  updatedAt := ""

theorem judges_accept_iff (h : claimOf turns change = some (.number (.ofNat n), shown)) :
    Judges sha256 toNumber turns frozenAt change .accept ↔ n ≤ shown ∧ 0 < shown := by
  rw [← @holds_ofNat toNumber]
  constructor
  · intro hjudges
    obtain ⟨output, houtput, haccept⟩ := hjudges (proposing change) rfl
    obtain ⟨output', houtput', hverdict⟩ :=
      @evaluate_of_claimOf toNumber sha256 turns (proposing change) _ _ h frozenAt
    obtain rfl := Option.some.inj (houtput.symm.trans houtput')
    rw [hverdict] at haccept
    split_ifs at haccept with hholds
    exact hholds
  · rintro hholds proposal rfl
    obtain ⟨output, houtput, hverdict⟩ :=
      @evaluate_of_claimOf toNumber sha256 turns proposal _ _ h frozenAt
    exact ⟨output, houtput, by rw [hverdict, if_pos hholds]⟩

theorem countP_lt {α : Type*} {p q : α → Bool} {xs : List α} (h : ∀ x ∈ xs, p x → q x) {x : α}
    (hx : x ∈ xs) (hp : p x = false) (hq : q x) : xs.countP p < xs.countP q := by
  obtain ⟨before, after, rfl⟩ := List.append_of_mem hx
  have hbefore : before.countP p ≤ before.countP q :=
    List.countP_mono_left fun y hy => h y (List.mem_append_left _ hy)
  have hafter : after.countP p ≤ after.countP q :=
    List.countP_mono_left fun y hy => h y (List.mem_append_right _ (List.mem_cons_of_mem _ hy))
  rw [List.countP_append, List.countP_append, List.countP_cons_of_neg (by simp [hp]),
    List.countP_cons_of_pos hq]
  omega

/-- As many turns reach six steps as reach the budget's, if those that do are the same. -/
theorem countP_le_iff (turns : List DerivedTurn) (steps : ℚ) :
    (turns.countP fun turn => steps ≤ turn.checkpoints) ≤
        (turns.countP fun turn => 6 ≤ turn.checkpoints) ↔
      ∀ turn ∈ turns, steps ≤ turn.checkpoints → 6 ≤ turn.checkpoints := by
  constructor
  · intro hle turn hmem hlong
    by_contra hshort
    have hsteps : steps ≤ 6 := hlong.trans (by exact_mod_cast (Nat.not_le.mp hshort).le)
    refine absurd hle (Nat.not_le.mpr (countP_lt (fun other _ hsix => ?_) hmem ?_ ?_))
    · have hcast : (6 : ℚ) ≤ other.checkpoints := by exact_mod_cast of_decide_eq_true hsix
      exact decide_eq_true (hsteps.trans hcast)
    · simpa using hshort
    · exact decide_eq_true hlong
  · intro h
    refine List.countP_mono_left fun turn hmem hlong => ?_
    simpa using h turn hmem (by simpa using hlong)

theorem judges_longTurns_iff (turns : List DerivedTurn) (budget : PatternBudget) :
    let longTurns := turns.filter fun turn =>
      budget.longTurnSteps.value ≤ turn.checkpoints
    longTurns ≠ [] →
    (Judges sha256 toNumber turns frozenAt (longTurnCandidate budget longTurns).proposedChange
        .accept ↔
      ∀ turn ∈ turns, budget.longTurnSteps.value ≤ turn.checkpoints →
        6 ≤ turn.checkpoints) := by
  intro longTurns hsome
  have hlength : longTurns.length = turns.countP fun turn =>
      budget.longTurnSteps.value ≤ turn.checkpoints := List.countP_eq_length_filter.symm
  have hclaim : claimOf turns (longTurnCandidate budget longTurns).proposedChange =
      some (.number (.ofNat longTurns.length),
        turns.countP fun turn => 6 ≤ turn.checkpoints) := rfl
  rw [judges_accept_iff hclaim, ← countP_le_iff, hlength]
  refine and_iff_left_of_imp fun hle => ?_
  have hpositive := List.length_pos_of_ne_nil hsome
  omega

/-- The evaluator accepts what is discovered exactly when no turn reaches the budget's steps with
fewer than six checkpoints; a claim above what the dataset shows it always rejects. -/
theorem evidence_gate_iff (sha256 : String → String) (toNumber : Value → Option ℚ)
    (turns : List DerivedTurn) (budget : PatternBudget) (frozenAt : String) :
    ((∀ candidate ∈ discoverPatterns turns budget,
      Judges sha256 toNumber turns frozenAt candidate.proposedChange .accept) ↔
      ∀ turn ∈ turns, budget.longTurnSteps.value ≤ turn.checkpoints →
        6 ≤ turn.checkpoints) ∧
    ∀ change claim shown claimed, claimOf turns change = some (claim, shown) →
      claimedCount toNumber claim = some claimed → (shown : ℚ) < claimed →
      Judges sha256 toNumber turns frozenAt change .reject := by
  refine ⟨⟨fun h => ?_, fun h candidate hmem => ?_⟩, ?_⟩
  · by_cases hsome : ∃ turn ∈ turns, budget.longTurnSteps.value ≤ turn.checkpoints
    · refine (judges_longTurns_iff turns budget ?_).mp (h _ (longTurnCandidate_mem hsome))
      obtain ⟨turn, hmem, hlong⟩ := hsome
      exact List.ne_nil_of_mem (List.mem_filter.mpr ⟨hmem, decide_eq_true hlong⟩)
    · exact fun turn hmem hlong => absurd ⟨turn, hmem, hlong⟩ hsome
  · obtain ⟨toolId, seen, rfl, hpositive, hcount⟩ | ⟨toolId, seen, rfl, hpositive, hcount⟩ |
      ⟨longTurns, rfl, hsome, rfl⟩ := mem_discoverPatterns hmem
    · have hclaim : claimOf turns (skillCandidate toolId seen).proposedChange =
          some (.number (.ofNat seen.count), (callsOf turns).countP (isUse (.string toolId))) := rfl
      exact (judges_accept_iff hclaim).mpr ⟨hcount.le, hcount ▸ hpositive⟩
    · have hclaim : claimOf turns (failureCandidate toolId seen).proposedChange =
          some (.number (.ofNat seen.count),
            (callsOf turns).countP (isFailure (.string toolId))) := rfl
      exact (judges_accept_iff hclaim).mpr ⟨hcount.le, hcount ▸ hpositive⟩
    · exact (judges_longTurns_iff turns budget hsome).mpr h
  · rintro change claim shown claimed hclaim hclaimed hexceeds proposal rfl
    obtain ⟨output, houtput, hverdict⟩ := evaluate_of_claimOf hclaim frozenAt
    refine ⟨output, houtput, ?_⟩
    rw [hverdict, if_neg]
    simp [holds, hclaimed, not_le.mpr hexceeds]

def fiveSteps : DerivedTurn := ⟨"t", "u", "completed", 5, []⟩

def fiveStepBudget : PatternBudget := { longTurnSteps := .ofNat 5 }

/-- A turn of five steps is long for a budget of five, and the evaluator does not see it. -/
theorem five_steps_rejected : ¬ ∀ candidate ∈ discoverPatterns [fiveSteps] fiveStepBudget,
    Judges id (fun _ => none) [fiveSteps] "" candidate.proposedChange .accept := by
  intro h
  have hlong : fiveStepBudget.longTurnSteps.value ≤ fiveSteps.checkpoints :=
    (Number.value_ofNat 5).le
  have hsome : ∃ turn ∈ [fiveSteps], fiveStepBudget.longTurnSteps.value ≤ turn.checkpoints :=
    ⟨fiveSteps, List.mem_singleton_self _, hlong⟩
  have haccept := h _ (longTurnCandidate_mem hsome)
  have hsix := (judges_longTurns_iff _ _ (List.ne_nil_of_mem (List.mem_filter.mpr
    ⟨List.mem_singleton_self _, decide_eq_true hlong⟩))).mp haccept _
      (List.mem_singleton_self fiveSteps) hlong
  exact absurd hsix (by decide)

end Gate

end BeeAgent.Learning
