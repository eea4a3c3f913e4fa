import BeeAgent.Learning.Activation

/-! When the log, the map and the memory agree on the activations in force, what an undisturbed step
does, and that it keeps them together. -/
namespace BeeAgent.Learning.Activation
open Data Chronicle Transition
open Memory (NewMemoryClaimInput MemoryClaimStatus)

/-! ### The activations in force -/

namespace LearningActivation
variable (s : LearningActivation)

def statusOf (claimId : String) : Option MemoryClaimStatus := (s.memory.get claimId).map Prod.snd

def activeClaims : List String :=
  (s.memory.entries.filter fun e => e.2.2 = .active).map Prod.fst

/-- The activation that a claim cites as its provenance. -/
def activationOf (claim : NewMemoryClaimInput) : Option ProposalActivated :=
  match s.stream[claim.provenance.sequence.toNat - 1]? with
  | some ⟨_, .activated payload⟩ => some payload
  | _ => none

def Quiet : Prop := ∀ stage ∈ s.calls, (∃ outcome, stage = .finished outcome) ∨ stage = .gone

/-- The map, the log and the memory hold the same activations. -/
structure Agreed : Prop where
  claims : ∀ proposalId, s.claims.get proposalId = s.inForce.get proposalId
  memory : ∀ claimId, claimId ∈ s.activeClaims ↔
    ∃ proposalId, s.inForce.get proposalId = some claimId

structure InOrder (o : LearningActivationOptions) : Prop where
  logBounded : s.inForce.size ≤ o.maxActive
  activeBounded : s.activeClaims.length ≤ o.maxActive
  /-- Each active claim cites the activation that adopted it. -/
  cited : ∀ claimId claim, s.memory.get claimId = some (claim, .active) →
    ∃ payload, s.activationOf claim = some payload ∧ payload.claimId = claimId
  /-- No two active claims come from one proposal. -/
  single : ∀ claimId claimId' claim claim' payload payload',
    s.memory.get claimId = some (claim, .active) → s.memory.get claimId' = some (claim', .active) →
    s.activationOf claim = some payload → s.activationOf claim' = some payload' →
    payload.proposalId = payload'.proposalId → claimId = claimId'
  agreed : s.Quiet → s.Agreed

/-! ### Undisturbed steps -/

end LearningActivation

/-- The activation that the log and the memory differ on until the call has gone on. -/
def Stage.owes : Stage → Option (String × String)
  | .ingesting _ payload _ => some (payload.proposalId, payload.claimId)
  | .latestAfter payload | .reverting payload _ => some (payload.proposalId, payload.claimId)
  | _ => none

namespace LearningActivation
variable (s : LearningActivation)

/-- The log has an activation in force that the call has still to give to the memory, or that it
has taken from the memory already. -/
def Owing (stage : Stage) : Prop := ∃ a ∈ stage.owes, s.inForce.get a.1 = some a.2

def StageHeeds (o : LearningActivationOptions) (draw : Draw) : Stage → Prop
  -- what `apply` checked when it started holds of the log still
  | .appending proposal payload expectedSequence =>
    expectedSequence = s.stream.length + 1 → s.inForce.get payload.proposalId = none ∧
      s.inForce.size < o.maxActive ∧ (claimStatementFor proposal).isSome
  | .retracting proposalId claimId reason =>
    revertedIssues o.formats ⟨proposalId, claimId, reason, draw.now⟩ = [] ∨
      s.inForce.get proposalId ≠ some claimId
  | .reverting payload expectedSequence =>
    if expectedSequence = s.stream.length + 1 then
      ∀ claimId ∈ s.inForce.get payload.proposalId, claimId = payload.claimId
    else s.inForce.get payload.proposalId ≠ some payload.claimId
  | .reverted payload => ∀ claimId ∈ s.claims.get payload.proposalId, claimId = payload.claimId
  | _ => True

/-- An append or a deletion of a call meets what the call found when it started, and nothing fails
between the steps of a call that belong together. -/
def Heeds (o : LearningActivationOptions) : Input → Prop
  | .resume c draw => ∀ stage ∈ s.calls[c]?, s.StageHeeds o draw stage
  | .fail c => ∀ stage ∈ s.calls[c]?, ¬s.Owing stage
  | .restart => ∀ stage ∈ s.calls, ¬s.Owing stage
  | .call .. | .observed => True

end LearningActivation

/-- What an undisturbed step does. -/
inductive Move (o : LearningActivationOptions) (s : LearningActivation) :
    LearningActivation → Prop where
  | start (op : Operation) (now : String) :
      Move o s { s with calls := s.calls ++ [start o s now op] }
  | quit {c stage outcome} (hc : s.calls[c]? = some stage) (hfails : stage.failure.isSome)
      (hsafe : ¬s.Owing stage) : Move o s (s.withStage c (.finished outcome))
  | prepare {c proposal activatedAt uuid stage} (hc : s.calls[c]? = some (.latest proposal activatedAt))
      (hfresh : uuid ∉ s.drawn)
      (hstage : stage = .appending proposal ⟨proposal.id, .memoryClaim, uuid, activatedAt⟩
          (getLatestSequence s.stream + 1) ∨ ∃ error, stage = failed error) :
      Move o s { s.withStage c stage with drawn := uuid :: s.drawn }
  | land {c proposal payload n claim} (hc : s.calls[c]? = some (.appending proposal payload n))
      (hnone : s.inForce.get payload.proposalId = none) (hsize : s.inForce.size < o.maxActive)
      (hclaim : adoptedClaim proposal payload (s.stream.length + 1) = some claim) :
      Move o s ((s.grow (.activated payload)).withStage c (.ingesting proposal payload claim))
  | ingest {c proposal payload claim}
      (hc : s.calls[c]? = some (.ingesting proposal payload claim)) :
      Move o s (ingest s c proposal payload claim)
  | adopt {c proposal payload stage} (hc : s.calls[c]? = some (.ingested proposal payload))
      (hstage : stage = .registering payload ∨ stage = applied payload) :
      Move o s { s.withStage c stage with
        claims := s.claims.set payload.proposalId payload.claimId }
  | retract {c proposalId claimId claim status stage} (reason : Option String) (now : String)
      (hc : s.calls[c]? = some (.retracting proposalId claimId reason))
      (hclaim : s.memory.get claimId = some (claim, status))
      (hstage : stage = .latestAfter ⟨proposalId, claimId, reason, now⟩ ∨
        (∃ error, stage = failed error) ∧ s.inForce.get proposalId ≠ some claimId) :
      Move o s { s.withStage c stage with memory := s.memory.set claimId (claim, .retracted) }
  | latestAfter {c payload n} (hc : s.calls[c]? = some (.latestAfter payload)) :
      Move o s (s.withStage c (.reverting payload n))
  | landReverted {c payload n} (hc : s.calls[c]? = some (.reverting payload n))
      (hown : ∀ claimId ∈ s.inForce.get payload.proposalId, claimId = payload.claimId) :
      Move o s ((s.grow (.activationReverted payload)).withStage c (.reverted payload))
  | release {c payload} (hc : s.calls[c]? = some (.reverted payload))
      (hown : ∀ claimId ∈ s.claims.get payload.proposalId, claimId = payload.claimId) :
      Move o s (release s c payload)
  | observed : Move o s (s.grow .other)
  | restart (hsafe : ∀ stage ∈ s.calls, ¬s.Owing stage) :
      Move o s { s with claims := rebuild s.payloads, calls := s.calls.map Stage.abandoned }

section Moves
variable {o : LearningActivationOptions} {s t : LearningActivation}

def LearningActivation.Numbered (s : LearningActivation) : Prop :=
  ∀ event ∈ s.stream, event.eventId < s.nextEventId

theorem LearningActivation.Numbered.append {payload : ActivationPayload} {n : ℕ}
    {stream : List (ChronicleEvent ActivationPayload)} (h : s.Numbered)
    (happend : append s.stream [⟨s.nextEventId, payload⟩] n = .ok stream) :
    n = s.stream.length + 1 ∧ stream = s.stream ++ [⟨s.nextEventId, payload⟩] :=
  append_fresh (fun event hevent => Nat.ne_of_lt (h event hevent)) happend

theorem conflict_of_error {π : Type} {stream events : List (ChronicleEvent π)} {n : ℕ}
    {e : ChronicleSequenceConflictError} (h : append stream events n = .error e) :
    n ≠ stream.length + 1 := by
  rintro rfl
  have hok := append_next stream events
  rw [getLatestSequence, h] at hok
  cases hok

theorem move_land {c n : ℕ} {proposal : ImprovementProposal} {payload : ProposalActivated}
    (hnumbered : s.Numbered) (hc : s.calls[c]? = some (.appending proposal payload n))
    (hheeds : n = s.stream.length + 1 → s.inForce.get payload.proposalId = none ∧
      s.inForce.size < o.maxActive ∧ (claimStatementFor proposal).isSome) :
    Move o s (land s c proposal payload n) := by
  unfold land
  split
  · exact .quit hc rfl (by simp [LearningActivation.Owing, Stage.owes])
  · next stream happend =>
    obtain ⟨rfl, rfl⟩ := hnumbered.append happend
    obtain ⟨hnone, hsize, hstatement⟩ := hheeds rfl
    obtain ⟨statement, hstatement⟩ := Option.isSome_iff_exists.mp hstatement
    obtain ⟨claim, hclaim⟩ : ∃ claim, adoptedClaim proposal payload (s.stream.length + 1) =
        some claim := ⟨_, by rw [adoptedClaim, hstatement, Option.map_some]⟩
    rw [hclaim]
    exact .land hc hnone hsize hclaim

theorem move_landReverted {c n : ℕ} {payload : ActivationReverted} (hnumbered : s.Numbered)
    (hc : s.calls[c]? = some (.reverting payload n))
    (hheeds : if n = s.stream.length + 1 then
        ∀ claimId ∈ s.inForce.get payload.proposalId, claimId = payload.claimId
      else s.inForce.get payload.proposalId ≠ some payload.claimId) :
    Move o s (landReverted s c payload n) := by
  unfold landReverted
  split
  · next e happend =>
    rw [if_neg (conflict_of_error happend)] at hheeds
    refine .quit hc rfl ?_
    rintro ⟨a, ha, hforce⟩
    cases ha
    exact hheeds hforce
  · next stream happend =>
    obtain ⟨rfl, rfl⟩ := hnumbered.append happend
    rw [if_pos rfl] at hheeds
    exact .landReverted hc hheeds

theorem move_retract {c : ℕ} {proposalId claimId now : String} {reason : Option String}
    (hc : s.calls[c]? = some (.retracting proposalId claimId reason))
    (hheeds : revertedIssues o.formats ⟨proposalId, claimId, reason, now⟩ = [] ∨
      s.inForce.get proposalId ≠ some claimId) :
    Move o s (retract o s c proposalId claimId reason now) := by
  unfold retract
  split
  · exact .quit hc rfl (by simp [LearningActivation.Owing, Stage.owes])
  · next claim status hclaim =>
    refine .retract reason now hc hclaim ?_
    split
    · exact .inl rfl
    · next hissues => exact .inr ⟨⟨_, rfl⟩, hheeds.resolve_left hissues⟩

theorem move_of_step {i : Input} (hnumbered : s.Numbered) (hheeds : s.Heeds o i)
    (h : (learningActivation o).step s i = some t) : Move o s t := by
  cases i with
  | call op now =>
    cases h
    exact .start op now
  | resume c draw =>
    obtain ⟨stage, hc, h⟩ := Option.bind_eq_some_iff.mp h
    have hheeds := hheeds stage hc
    cases stage with
    | latest proposal activatedAt =>
      simp only [resume, prepare] at h
      split at h
      · cases h
      · next hfresh =>
        cases h
        refine .prepare hc hfresh ?_
        split
        · exact .inl rfl
        · exact .inr ⟨_, rfl⟩
    | appending proposal payload n =>
      cases h
      exact move_land hnumbered hc hheeds
    | ingesting proposal payload claim =>
      cases h
      exact .ingest hc
    | ingested proposal payload =>
      cases h
      refine .adopt hc ?_
      split
      · exact .inl rfl
      · exact .inr rfl
    | registering payload =>
      cases h
      exact .quit hc rfl (by simp [LearningActivation.Owing, Stage.owes])
    | retracting proposalId claimId reason =>
      cases h
      exact move_retract hc hheeds
    | latestAfter payload =>
      cases h
      exact .latestAfter hc
    | reverting payload n =>
      cases h
      exact move_landReverted hnumbered hc hheeds
    | reverted payload =>
      cases h
      exact .release hc hheeds
    | finished | gone => cases h
  | fail c =>
    obtain ⟨stage, hc, h⟩ := Option.bind_eq_some_iff.mp h
    obtain ⟨error, herror, h⟩ := Option.map_eq_some_iff.mp h
    cases h
    exact .quit hc (by rw [herror]; rfl) (hheeds stage hc)
  | observed =>
    cases h
    exact .observed
  | restart =>
    cases h
    exact .restart hheeds

end Moves

end BeeAgent.Learning.Activation
