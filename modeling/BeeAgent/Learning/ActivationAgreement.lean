import BeeAgent.Learning.ActivationInvariant
import Mathlib.Data.List.Perm.Subperm

/-! Undisturbed runs of the activation service keep the bound, activate no proposal twice, and leave
the log, the map and the memory agreed whenever no call is in flight. -/
namespace BeeAgent.Learning.Activation
open Data Chronicle Transition
open Memory (NewMemoryClaimInput MemoryClaimStatus)

section
variable {s : LearningActivation} {o : LearningActivationOptions} {claim : NewMemoryClaimInput}

namespace LearningActivation

theorem mem_activeClaims {claimId : String} :
    claimId ∈ s.activeClaims ↔ s.statusOf claimId = some .active := by
  simp only [activeClaims, List.mem_map, List.mem_filter, decide_eq_true_eq, statusOf,
    Option.map_eq_some_iff]
  constructor
  · rintro ⟨⟨id, claim', status⟩, ⟨hmem, rfl⟩, rfl⟩
    exact ⟨_, OrderedMap.mem_entries_iff.mp hmem, rfl⟩
  · rintro ⟨⟨claim', status⟩, hget, rfl⟩
    exact ⟨_, ⟨OrderedMap.mem_entries_iff.mpr hget, rfl⟩, rfl⟩

theorem Logged.inForce_of_active (h : s.Logged o) {claimId : String} {a : ProposalActivated}
    (hget : s.memory.get claimId = some (claim, .active)) (hcited : s.activationOf claim = some a) :
    s.inForce.get a.proposalId = some claimId := by
  obtain ⟨a', hcited', rfl⟩ := h.cited claimId claim .active hget
  obtain rfl := Option.some.inj (hcited.symm.trans hcited')
  refine h.active a.proposalId a.claimId ?_ (recorded_of_activationOf hcited)
  rw [statusOf, hget]
  rfl

theorem Logged.inForce_of_mem (h : s.Logged o) {claimId : String} (hmem : claimId ∈ s.activeClaims) :
    ∃ p, s.inForce.get p = some claimId := by
  obtain ⟨⟨claim', status⟩, hget, rfl⟩ := Option.map_eq_some_iff.mp (mem_activeClaims.mp hmem)
  obtain ⟨a, hcited, -⟩ := h.cited claimId claim' .active hget
  exact ⟨a.proposalId, h.inForce_of_active hget hcited⟩

theorem Logged.activeBounded (h : s.Logged o) : s.activeClaims.length ≤ o.maxActive := by
  have hnodup : s.activeClaims.Nodup :=
    s.memory.nodup.sublist (List.filter_sublist.map Prod.fst)
  have hsub : s.activeClaims ⊆ s.inForce.values := fun claimId hmem =>
    OrderedMap.mem_values_iff.mpr (h.inForce_of_mem hmem)
  calc s.activeClaims.length ≤ s.inForce.values.length := (List.subperm_of_subset hnodup hsub).length_le
    _ = s.inForce.size := List.length_map ..
    _ ≤ o.maxActive := h.bounded

theorem Keeps.agreed (h : s.Keeps o) (hquiet : s.Quiet) : s.Agreed := by
  have hnone : ∀ {f : Stage → Option (String × String)} {a}, (∀ outcome, f (.finished outcome) = none) →
      f .gone = none → ¬∃ stage ∈ s.calls, f stage = some a := by
    rintro f a hfinished hgone ⟨st, hst, heq⟩
    rcases hquiet st hst with ⟨outcome, rfl⟩ | rfl
    · rw [hfinished] at heq
      cases heq
    · rw [hgone] at heq
      cases heq
  refine ⟨fun p => Option.ext fun claimId => ⟨fun hget => ?_, fun hget => ?_⟩, fun claimId => ?_⟩
  · exact (h.linked.left p claimId hget).resolve_right (hnone (fun _ => rfl) rfl)
  · exact (h.linked.entered p claimId hget).resolve_right (hnone (fun _ => rfl) rfl)
  · refine ⟨fun hmem => h.logged.inForce_of_mem hmem, fun ⟨p, hget⟩ => ?_⟩
    exact mem_activeClaims.mpr
      ((h.linked.held p claimId hget).resolve_right (hnone (fun _ => rfl) rfl))

theorem Keeps.inOrder (h : s.Keeps o) : s.InOrder o where
  logBounded := h.logged.bounded
  activeBounded := h.logged.activeBounded
  cited := fun claimId claim' hget => h.logged.cited claimId claim' .active hget
  single := by
    intro claimId claimId' claim' claim'' a a' hget hget' hcited hcited' hsame
    have hforce := h.logged.inForce_of_active hget hcited
    rw [hsame, h.logged.inForce_of_active hget' hcited'] at hforce
    exact (Option.some.inj hforce).symm
  agreed := h.agreed

end LearningActivation

end

/-- How the calls have ended, as far as they have. -/
def LearningActivation.outcomes (s : LearningActivation) : List (Option Outcome) :=
  s.calls.map fun stage => match stage with
    | .finished outcome => some outcome
    | _ => none

theorem LearningActivation.quiet_of_outcomes {s : LearningActivation}
    (h : s.outcomes.all Option.isSome) : s.Quiet := by
  intro stage hstage
  rw [outcomes, List.all_map, List.all_eq_true] at h
  have hsome := h stage hstage
  cases stage with
  | finished outcome => exact .inl ⟨outcome, rfl⟩
  | latest | appending | ingesting | ingested | registering | retracting | latestAfter | reverting
  | reverted | gone => cases hsome

def heedsCheck (o : LearningActivationOptions) (s : LearningActivation) : Input → Bool
  | .resume c draw =>
    match s.calls[c]? with
    | some (.appending proposal payload _) => (s.inForce.get payload.proposalId).isNone &&
        decide (s.inForce.size < o.maxActive) && (claimStatementFor proposal).isSome
    | some (.retracting proposalId claimId reason) =>
      (revertedIssues o.formats ⟨proposalId, claimId, reason, draw.now⟩).isEmpty
    | some (.reverting payload n) => decide (n = s.stream.length + 1) &&
        s.inForce.get payload.proposalId == some payload.claimId
    | some (.reverted payload) => s.claims.get payload.proposalId == some payload.claimId
    | _ => true
  | .fail _ => false
  | .restart => s.calls.all fun stage => stage.owes.isNone
  | .call .. | .observed => true

theorem heeds_of_check (o : LearningActivationOptions) (s : LearningActivation) (i : Input)
    (h : heedsCheck o s i) : s.Heeds o i := by
  cases i with
  | resume c draw =>
    intro stage hstage
    rw [heedsCheck, Option.mem_def.mp hstage] at h
    cases stage with
    | appending proposal payload n =>
      simp only [Bool.and_eq_true, Option.isNone_iff_eq_none, decide_eq_true_eq] at h
      exact fun _ => ⟨h.1.1, h.1.2, h.2⟩
    | retracting proposalId claimId reason => exact .inl (List.isEmpty_iff.mp h)
    | reverting payload n =>
      simp only [Bool.and_eq_true, decide_eq_true_eq, beq_iff_eq] at h
      simp [LearningActivation.StageHeeds, h.1, h.2]
    | reverted payload =>
      simp only [beq_iff_eq] at h
      simp [LearningActivation.StageHeeds, h]
    | latest | ingesting | ingested | registering | latestAfter | finished | gone => trivial
  | fail => cases h
  | restart =>
    rintro stage hstage ⟨a, howes, -⟩
    have hnone := List.all_eq_true.mp h stage hstage
    rw [Option.mem_def.mp howes] at hnone
    cases hnone
  | call | observed => trivial

def sampleOptions : LearningActivationOptions where
  formats := ⟨fun _ => true, fun _ => true⟩
  maxActiveActivations := some 1

def sampleProposal (id : String) : ImprovementProposal where
  id
  type := .skill
  targetKey := "tool:web_search"
  basedOnTrajectoryIds := []
  hypothesis := "the tool is used often"
  proposedChange := .object [("toolId", .string "web_search"), ("usageCount", .number (.ofNat 12))]
  expectedBenefits := ["fewer steps"]
  risks := ["none"]
  evaluationPlan := "compare"
  rollbackPlan := "retract"
  autonomyLevel := (Fin.last 2).castAdd 1
  status := .promoted
  origin := .loop
  version := 4
  createdAt := "2026-01-01T00:00:00Z"
  updatedAt := "2026-01-02T00:00:00Z"

def goOn (call : ℕ) (uuid : String) : Input := .resume call ⟨"2026-01-03T00:00:00Z", uuid⟩

def applyCall (id : String) : Input := .call (.apply (sampleProposal id)) "2026-01-03T00:00:00Z"

/-- A proposal is activated and rolled back, a new process comes up, and another one is activated. -/
def turnover : List Input :=
  [applyCall "p", goOn 0 "c1", goOn 0 "", goOn 0 "", goOn 0 "",
    .call (.revertByProposalId "p" none) "", goOn 1 "", .observed, goOn 1 "", goOn 1 "", .restart,
    applyCall "q", goOn 2 "c2", goOn 2 "", goOn 2 "", goOn 2 ""]

/-- Two calls that both found room in the budget. -/
def overlapping : List Input :=
  [applyCall "p", applyCall "q", goOn 0 "c1", goOn 0 "", goOn 1 "c2", goOn 1 "", goOn 0 "",
    goOn 0 "", goOn 1 "", goOn 1 ""]

def orphaned : List Input := [applyCall "p", goOn 0 "c1", goOn 0 "", .fail 0]

end BeeAgent.Learning.Activation
