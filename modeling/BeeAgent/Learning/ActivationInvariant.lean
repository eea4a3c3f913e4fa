import BeeAgent.Learning.ActivationSteps
import Mathlib.Data.List.Induction

/-! What the log, the map and the memory differ on is owed by a call in flight, and every
undisturbed move keeps it so. -/
namespace BeeAgent.Learning.Activation
open Data Chronicle Transition
open Memory (NewMemoryClaimInput MemoryClaimStatus)

/-! ### The calls of a state -/

/-- The claim is in force, but the map does not have it yet. -/
def Stage.entering : Stage → Option (String × String)
  | .ingesting _ payload _ | .ingested _ payload => some (payload.proposalId, payload.claimId)
  | _ => none

/-- The claim is out of force, but the map may have it yet. -/
def Stage.leaving : Stage → Option (String × String)
  | .reverted payload => some (payload.proposalId, payload.claimId)
  | _ => none

/-- The claim that a call of `apply` has drawn and not given to the map. -/
def Stage.adopting : Stage → Option String
  | .appending _ payload _ | .ingesting _ payload _ | .ingested _ payload => some payload.claimId
  | _ => none

/-- The activation that a call of `revert` has taken from the map. -/
def Stage.withdrawing : Stage → Option (String × String)
  | .retracting proposalId claimId _ => some (proposalId, claimId)
  | .latestAfter payload | .reverting payload _ | .reverted payload =>
    some (payload.proposalId, payload.claimId)
  | _ => none

namespace LearningActivation
variable (s : LearningActivation)

/-- The log has an activation of the proposal by the claim, in force or not. -/
def Recorded (proposalId claimId : String) : Prop :=
  ∃ payload, .activated payload ∈ s.payloads ∧ payload.proposalId = proposalId ∧
    payload.claimId = claimId

def Fits : Stage → Prop
  | .appending _ payload _ =>
    (∀ proposalId, ¬s.Recorded proposalId payload.claimId) ∧ payload.claimId ∈ s.drawn
  | .ingesting _ payload claim => s.statusOf payload.claimId = none ∧
    s.inForce.get payload.proposalId = some payload.claimId ∧ s.activationOf claim = some payload
  | .ingested _ payload => s.statusOf payload.claimId ≠ none ∧
    s.inForce.get payload.proposalId = some payload.claimId ∧
    ∀ proposalId, s.claims.get proposalId ≠ some payload.claimId
  | .retracting proposalId claimId _ =>
    s.Recorded proposalId claimId ∧ s.statusOf claimId ≠ none
  | .latestAfter payload | .reverting payload _ =>
    s.Recorded payload.proposalId payload.claimId ∧ s.statusOf payload.claimId = some .retracted
  | .reverted payload =>
    s.Recorded payload.proposalId payload.claimId ∧
    s.statusOf payload.claimId = some .retracted ∧
    s.inForce.get payload.proposalId ≠ some payload.claimId
  | .latest .. | .registering _ | .finished _ | .gone => True

/-- What the log and the memory say of each other. -/
structure Logged (o : LearningActivationOptions) : Prop where
  numbered : s.Numbered
  bounded : s.inForce.size ≤ o.maxActive
  owner : ∀ p p' claimId, s.Recorded p claimId → s.Recorded p' claimId → p = p'
  drawn : ∀ p claimId, s.Recorded p claimId → claimId ∈ s.drawn
  cited : ∀ claimId claim status, s.memory.get claimId = some (claim, status) →
    ∃ payload, s.activationOf claim = some payload ∧ payload.claimId = claimId
  active : ∀ p claimId, s.statusOf claimId = some .active → s.Recorded p claimId →
    s.inForce.get p = some claimId

/-- What differs between the log, the map and the memory is owed by a call in flight. -/
structure Linked : Prop where
  mapped : ∀ p claimId, s.claims.get p = some claimId →
    s.Recorded p claimId ∧ s.statusOf claimId ≠ none
  held : ∀ p claimId, s.inForce.get p = some claimId →
    s.statusOf claimId = some .active ∨ ∃ stage ∈ s.calls, stage.owes = some (p, claimId)
  entered : ∀ p claimId, s.inForce.get p = some claimId →
    s.claims.get p = some claimId ∨ ∃ stage ∈ s.calls, stage.entering = some (p, claimId)
  left : ∀ p claimId, s.claims.get p = some claimId →
    s.inForce.get p = some claimId ∨ ∃ stage ∈ s.calls, stage.leaving = some (p, claimId)

structure CallsFit : Prop where
  fits : ∀ stage ∈ s.calls, s.Fits stage
  unique : ∀ (i j : ℕ) (stage stage' : Stage) claimId, s.calls[i]? = some stage → s.calls[j]? = some stage' →
    stage.adopting = some claimId → stage'.adopting = some claimId → i = j
  apart : ∀ proposal payload, .ingested proposal payload ∈ s.calls → ∀ stage ∈ s.calls, ∀ p,
    stage.withdrawing ≠ some (p, payload.claimId)

structure Keeps (o : LearningActivationOptions) : Prop where
  logged : s.Logged o
  linked : s.Linked
  callsFit : s.CallsFit

end LearningActivation

section
variable {s t : LearningActivation} {o : LearningActivationOptions} {c : ℕ} {stage stage' : Stage}

namespace LearningActivation

theorem inForce_grow (s : LearningActivation) (payload : ActivationPayload) :
    (s.grow payload).inForce = foldPayload s.inForce payload := by
  simp [inForce, payloads, grow, rebuild]

theorem recorded_grow {payload : ActivationPayload} {p claimId : String} :
    (s.grow payload).Recorded p claimId ↔ s.Recorded p claimId ∨
      ∃ a, payload = .activated a ∧ a.proposalId = p ∧ a.claimId = claimId := by
  simp only [Recorded, payloads, grow, List.map_append, List.mem_append, List.map_cons,
    List.map_nil, List.mem_singleton]
  constructor
  · rintro ⟨a, ha | ha, hp, hclaim⟩
    · exact .inl ⟨a, ha, hp, hclaim⟩
    · exact .inr ⟨a, ha.symm, hp, hclaim⟩
  · rintro (⟨a, ha, hp, hclaim⟩ | ⟨a, ha, hp, hclaim⟩)
    · exact ⟨a, .inl ha, hp, hclaim⟩
    · exact ⟨a, .inr ha.symm, hp, hclaim⟩

theorem activationOf_grow {payload : ActivationPayload} {claim : NewMemoryClaimInput}
    {a : ProposalActivated} (h : s.activationOf claim = some a) :
    (s.grow payload).activationOf claim = some a := by
  unfold activationOf at h ⊢
  split at h
  · next id a' hget =>
    have hlt := (List.getElem?_eq_some_iff.mp hget).1
    rw [grow, List.getElem?_append_left hlt, hget]
    exact h
  · cases h

theorem recorded_of_activationOf {claim : NewMemoryClaimInput} {a : ProposalActivated}
    (h : s.activationOf claim = some a) : s.Recorded a.proposalId a.claimId := by
  unfold activationOf at h
  split at h
  · next id a' hget =>
    cases h
    exact ⟨a, List.mem_map.mpr ⟨_, List.mem_of_getElem? hget, rfl⟩, rfl, rfl⟩
  · cases h

theorem recorded_of_inForce {p claimId : String} (h : s.inForce.get p = some claimId) :
    s.Recorded p claimId := by
  have hfold : ∀ payloads : List ActivationPayload, (rebuild payloads).get p = some claimId →
      ∃ a, .activated a ∈ payloads ∧ a.proposalId = p ∧ a.claimId = claimId := by
    intro payloads
    induction payloads using List.reverseRecOn with
    | nil => simp [rebuild]
    | append_singleton payloads payload ih =>
      intro h
      rw [rebuild, List.foldl_append, List.foldl_cons, List.foldl_nil, ← rebuild] at h
      have hold : (rebuild payloads).get p = some claimId →
          ∃ a, .activated a ∈ payloads ++ [payload] ∧ a.proposalId = p ∧ a.claimId = claimId := by
        intro h
        obtain ⟨a, ha, hkeys⟩ := ih h
        exact ⟨a, List.mem_append_left _ ha, hkeys⟩
      cases payload with
      | activated a =>
        rw [foldPayload, OrderedMap.get_set] at h
        split at h
        · next hp =>
          cases h
          exact ⟨a, by simp, hp.symm, rfl⟩
        · exact hold h
      | activationReverted a =>
        rw [foldPayload, OrderedMap.get_delete] at h
        split at h
        · cases h
        · exact hold h
      | other => exact hold h
  exact hfold s.payloads h

theorem statusOf_set {claimId key : String} {claim : NewMemoryClaimInput}
    {status : MemoryClaimStatus} (h : t.memory = s.memory.set key (claim, status)) :
    t.statusOf claimId = if claimId = key then some status else s.statusOf claimId := by
  rw [statusOf, h, OrderedMap.get_set]
  split <;> rfl

end LearningActivation

/-! ### Replacing a stage -/

theorem mem_of_stage (hc : s.calls[c]? = some stage) : stage ∈ s.calls := List.mem_of_getElem? hc

theorem mem_set_self (hc : s.calls[c]? = some stage) : stage' ∈ s.calls.set c stage' :=
  List.mem_set (List.getElem?_eq_some_iff.mp hc).1 stage'

theorem exists_set {p : Stage → Prop} (hc : s.calls[c]? = some stage)
    (h : ∃ st ∈ s.calls, p st) (hlost : p stage → p stage') : ∃ st ∈ s.calls.set c stage', p st := by
  obtain ⟨st, hst, hp⟩ := h
  obtain ⟨i, hi⟩ := List.getElem?_of_mem hst
  by_cases hic : c = i
  · subst hic
    rw [hc] at hi
    cases hi
    exact ⟨stage', mem_set_self hc, hlost hp⟩
  · refine ⟨st, List.mem_of_getElem? (i := i) ?_, hp⟩
    rw [List.getElem?_set_ne hic, hi]

theorem unique_set (h : s.CallsFit) (hc : s.calls[c]? = some stage)
    (hadopts : ∀ claimId, stage'.adopting = some claimId → stage.adopting = some claimId ∨
      ∀ st ∈ s.calls, st.adopting ≠ some claimId)
    (i j : ℕ) (st st' : Stage) (claimId : String) (hi : (s.calls.set c stage')[i]? = some st)
    (hj : (s.calls.set c stage')[j]? = some st') (hadopt : st.adopting = some claimId)
    (hadopt' : st'.adopting = some claimId) : i = j := by
  have hlt := (List.getElem?_eq_some_iff.mp hc).1
  have hother : ∀ k st₀, s.calls[k]? = some st₀ → st₀.adopting = some claimId →
      stage'.adopting = some claimId → c = k := by
    intro k st₀ hk hold hnew
    rcases hadopts claimId hnew with hsame | hnone
    · exact h.unique c k stage st₀ claimId hc hk hsame hold
    · exact absurd hold (hnone st₀ (List.mem_of_getElem? hk))
  by_cases hic : c = i
  · subst hic
    rw [List.getElem?_set_self hlt] at hi
    cases hi
    by_cases hjc : c = j
    · exact hjc
    · rw [List.getElem?_set_ne hjc] at hj
      exact hother j st' hj hadopt' hadopt
  · rw [List.getElem?_set_ne hic] at hi
    by_cases hjc : c = j
    · subst hjc
      rw [List.getElem?_set_self hlt] at hj
      cases hj
      exact (hother i st hi hadopt hadopt').symm
    · rw [List.getElem?_set_ne hjc] at hj
      exact h.unique i j st st' claimId hi hj hadopt hadopt'

theorem LearningActivation.CallsFit.set (h : s.CallsFit) (hc : s.calls[c]? = some stage)
    (hcalls : t.calls = s.calls.set c stage')
    (hothers : ∀ i st, i ≠ c → s.calls[i]? = some st → s.Fits st → t.Fits st)
    (hnew : t.Fits stage')
    (hadopts : ∀ claimId, stage'.adopting = some claimId → stage.adopting = some claimId ∨
      ∀ st ∈ s.calls, st.adopting ≠ some claimId)
    (hwithdraws : ∀ a, stage'.withdrawing = some a → stage.withdrawing = some a)
    (hingested : ∀ proposal payload, stage' = .ingested proposal payload → ∀ st ∈ s.calls, ∀ p,
      st.withdrawing ≠ some (p, payload.claimId)) : t.CallsFit := by
  have hmem : ∀ st ∈ t.calls, st = stage' ∨ ∃ i, i ≠ c ∧ s.calls[i]? = some st := by
    intro st hst
    rw [hcalls] at hst
    obtain ⟨i, hi⟩ := List.getElem?_of_mem hst
    by_cases hic : c = i
    · subst hic
      rw [List.getElem?_set_self (List.getElem?_eq_some_iff.mp hc).1] at hi
      exact .inl (Option.some.inj hi).symm
    · rw [List.getElem?_set_ne hic] at hi
      exact .inr ⟨i, Ne.symm hic, hi⟩
  refine ⟨fun st hst => ?_, hcalls ▸ unique_set h hc hadopts, fun proposal payload ha st hst p hp => ?_⟩
  · rcases hmem st hst with rfl | ⟨i, hic, hi⟩
    · exact hnew
    · exact hothers i st hic hi (h.fits st (List.mem_of_getElem? hi))
  · -- a withdrawal in the new state stands for one in the old state
    obtain ⟨st₀, hst₀, hp₀⟩ : ∃ st₀ ∈ s.calls, st₀.withdrawing = some (p, payload.claimId) := by
      rcases hmem st hst with rfl | ⟨i, -, hi⟩
      · exact ⟨stage, mem_of_stage hc, hwithdraws _ hp⟩
      · exact ⟨st, List.mem_of_getElem? hi, hp⟩
    rcases hmem _ ha with heq | ⟨i, -, hi⟩
    · exact hingested proposal payload heq.symm st₀ hst₀ p hp₀
    · exact h.apart proposal payload (List.mem_of_getElem? hi) st₀ hst₀ p hp₀

/-! ### What the moves keep -/

namespace LearningActivation

theorem Logged.still (h : s.Logged o) (hstream : t.stream = s.stream)
    (hid : t.nextEventId = s.nextEventId) (hmemory : t.memory = s.memory)
    (hdrawn : s.drawn ⊆ t.drawn) : t.Logged o := by
  have hrecorded : ∀ p claimId, t.Recorded p claimId ↔ s.Recorded p claimId := by
    simp [Recorded, payloads, hstream]
  have hforce : t.inForce = s.inForce := by simp [inForce, payloads, hstream]
  have hstatus : ∀ claimId, t.statusOf claimId = s.statusOf claimId := by
    simp [statusOf, hmemory]
  refine ⟨?_, hforce ▸ h.bounded, ?_, ?_, ?_, ?_⟩
  · rw [Numbered, hstream, hid]
    exact h.numbered
  · simpa only [hrecorded] using h.owner
  · intro p claimId hrec
    exact hdrawn (h.drawn p claimId ((hrecorded p claimId).mp hrec))
  · rw [hmemory]
    simpa only [activationOf, hstream] using h.cited
  · simpa only [hrecorded, hstatus, hforce] using h.active

theorem Keeps.drawn_of_adopting (h : s.Keeps o) {claimId : String} (hmem : stage ∈ s.calls)
    (hadopt : stage.adopting = some claimId) : claimId ∈ s.drawn := by
  have hfits := h.callsFit.fits stage hmem
  cases stage with
  | appending proposal payload n =>
    cases hadopt
    exact hfits.2
  | ingesting proposal payload claim =>
    cases hadopt
    exact h.logged.drawn _ _ (recorded_of_inForce hfits.2.1)
  | ingested proposal payload =>
    cases hadopt
    exact h.logged.drawn _ _ (recorded_of_inForce hfits.2.1)
  | latest | registering | retracting | latestAfter | reverting | reverted | finished | gone =>
    cases hadopt

theorem Linked.restage (h : s.Linked) (hc : s.calls[c]? = some stage)
    (hstream : t.stream = s.stream) (hmemory : t.memory = s.memory) (hclaims : t.claims = s.claims)
    (hcalls : t.calls = s.calls.set c stage')
    (howes : ∀ a, stage.owes = some a → s.inForce.get a.1 = some a.2 → stage'.owes = some a)
    (hentering : ∀ a, stage.entering = some a → s.inForce.get a.1 = some a.2 →
      stage'.entering = some a)
    (hleaving : ∀ a, stage.leaving = some a → stage'.leaving = some a) : t.Linked := by
  have hforce : t.inForce = s.inForce := by simp [inForce, payloads, hstream]
  have hstatus : ∀ claimId, t.statusOf claimId = s.statusOf claimId := by simp [statusOf, hmemory]
  refine ⟨fun p claimId hget => ?_, fun p claimId hget => ?_, fun p claimId hget => ?_,
    fun p claimId hget => ?_⟩
  · rw [hclaims] at hget
    rw [hstatus, Recorded, payloads, hstream]
    exact h.mapped p claimId hget
  · rw [hforce] at hget
    rw [hstatus, hcalls]
    exact (h.held p claimId hget).imp_right fun hex => exists_set hc hex fun heq => howes _ heq hget
  · rw [hforce] at hget
    rw [hclaims, hcalls]
    exact (h.entered p claimId hget).imp_right fun hex =>
      exists_set hc hex fun heq => hentering _ heq hget
  · rw [hclaims] at hget
    rw [hforce, hcalls]
    exact (h.left p claimId hget).imp_right fun hex => exists_set hc hex (hleaving _)

theorem Fits.held {p claimId : String} (h : s.Fits stage)
    (hwithdraw : stage.withdrawing = some (p, claimId)) : s.statusOf claimId ≠ none := by
  cases stage with
  | retracting proposalId claimId' reason =>
    obtain ⟨-, rfl⟩ := Prod.mk.inj (Option.some.inj hwithdraw)
    exact h.2
  | latestAfter removal =>
    obtain ⟨-, rfl⟩ := Prod.mk.inj (Option.some.inj hwithdraw)
    simp [h.2]
  | reverting removal n =>
    obtain ⟨-, rfl⟩ := Prod.mk.inj (Option.some.inj hwithdraw)
    simp [h.2]
  | reverted removal =>
    obtain ⟨-, rfl⟩ := Prod.mk.inj (Option.some.inj hwithdraw)
    simp [h.2.1]
  | latest | appending | ingesting | ingested | registering | finished | gone => cases hwithdraw

theorem Fits.still (h : s.Fits stage) (hstream : t.stream = s.stream)
    (hmemory : t.memory = s.memory) (hclaims : t.claims = s.claims) (hdrawn : s.drawn ⊆ t.drawn) :
    t.Fits stage := by
  cases stage with
  | appending =>
    refine ⟨?_, hdrawn h.2⟩
    simpa [Recorded, payloads, hstream] using h.1
  | latest | registering | finished | gone => trivial
  | ingesting | ingested | retracting | latestAfter | reverting | reverted =>
    simpa only [Fits, Recorded, statusOf, inForce, activationOf, payloads, hstream, hmemory, hclaims]
      using h

variable {n : ℕ} {proposal : ImprovementProposal} {payload : ProposalActivated}
  {removal : ActivationReverted} {claim : NewMemoryClaimInput}

theorem Keeps.start (h : s.Keeps o) (op : Operation) (now : String) :
    Keeps { s with calls := s.calls ++ [Activation.start o s now op] } o := by
  have hnew : s.Fits (Activation.start o s now op) ∧
      (Activation.start o s now op).adopting = none ∧
      (∀ proposal payload, Activation.start o s now op ≠ .ingested proposal payload) ∧
      ∀ a, (Activation.start o s now op).withdrawing = some a → s.claims.get a.1 = some a.2 := by
    cases op with
    | apply proposal =>
      simp only [Activation.start]
      repeat' split
      all_goals simp [Fits, failed, Stage.adopting, Stage.withdrawing]
    | revertByProposalId proposalId reason =>
      simp only [Activation.start]
      split
      · simp [Fits, Stage.adopting, Stage.withdrawing]
      · next claimId hget =>
        refine ⟨h.linked.mapped _ _ hget, rfl, by simp, ?_⟩
        rintro a ⟨⟩
        exact hget
    | revert proposal reason =>
      simp only [Activation.start]
      split
      · simp [Fits, failed, Stage.adopting, Stage.withdrawing]
      · next claimId hget =>
        refine ⟨h.linked.mapped _ _ hget, rfl, by simp, ?_⟩
        rintro a ⟨⟩
        exact hget
  obtain ⟨hfits, hadopt, hing, hwithdraw⟩ := hnew
  generalize Activation.start o s now op = stage at *
  have hmem : ∀ {st}, st ∈ s.calls ++ [stage] → st ∈ s.calls ∨ st = stage := by simp
  have hold : ∀ {p : Stage → Prop}, (∃ st ∈ s.calls, p st) → ∃ st ∈ s.calls ++ [stage], p st := by
    rintro p ⟨st, hst, hp⟩
    exact ⟨st, List.mem_append_left _ hst, hp⟩
  have hold' : ∀ (i : ℕ) (st : Stage) claimId, (s.calls ++ [stage])[i]? = some st →
      st.adopting = some claimId → s.calls[i]? = some st := by
    intro i st claimId hi hst
    by_cases hlt : i < s.calls.length
    · rwa [List.getElem?_append_left hlt] at hi
    · rw [List.getElem?_append_right (not_lt.mp hlt)] at hi
      obtain rfl := List.mem_singleton.mp (List.mem_of_getElem? hi)
      rw [hadopt] at hst
      cases hst
  refine ⟨h.logged.still rfl rfl rfl fun _ hid => hid, ⟨h.linked.mapped, ?_, ?_, ?_⟩, ?_, ?_, ?_⟩
  · exact fun p claimId hget => (h.linked.held p claimId hget).imp_right hold
  · exact fun p claimId hget => (h.linked.entered p claimId hget).imp_right hold
  · exact fun p claimId hget => (h.linked.left p claimId hget).imp_right hold
  · intro st hst
    rcases hmem hst with hst | rfl
    · exact (h.callsFit.fits st hst).still rfl rfl rfl fun _ hid => hid
    · exact hfits.still rfl rfl rfl fun _ hid => hid
  · intro i j st st' claimId hi hj hst hst'
    exact h.callsFit.unique i j st st' claimId (hold' i st claimId hi hst)
      (hold' j st' claimId hj hst') hst hst'
  · intro proposal payload hingested st hst p hp
    rcases hmem hingested with hin | rfl
    · rcases hmem hst with hst | rfl
      · exact h.callsFit.apart proposal payload hin st hst p hp
      · exact (h.callsFit.fits _ hin).2.2 p (hwithdraw _ hp)
    · exact hing proposal payload rfl

theorem Keeps.quit {outcome : Outcome} (h : s.Keeps o) (hc : s.calls[c]? = some stage)
    (hfails : stage.failure.isSome) (hsafe : ¬s.Owing stage) :
    (s.withStage c (.finished outcome)).Keeps o := by
  refine ⟨h.logged.still rfl rfl rfl fun _ hid => hid,
    h.linked.restage hc rfl rfl rfl rfl ?_ ?_ ?_,
    h.callsFit.set hc rfl (fun _ _ _ _ hfits => hfits.still rfl rfl rfl fun _ hid => hid) trivial
      ?_ ?_ ?_⟩
  · exact fun a howes hforce => absurd ⟨a, howes, hforce⟩ hsafe
  · intro a hentering hforce
    cases stage with
    | ingesting => exact absurd ⟨a, hentering, hforce⟩ hsafe
    | ingested => cases hfails
    | latest | appending | registering | retracting | latestAfter | reverting | reverted | finished
    | gone => cases hentering
  · intro a hleaving
    cases stage with
    | reverted => cases hfails
    | latest | appending | ingesting | ingested | registering | retracting | latestAfter | reverting
    | finished | gone => cases hleaving
  · rintro _ ⟨⟩
  · rintro _ ⟨⟩
  · rintro _ _ ⟨⟩

theorem Keeps.prepare {activatedAt uuid : String} (h : s.Keeps o)
    (hc : s.calls[c]? = some (.latest proposal activatedAt)) (hfresh : uuid ∉ s.drawn)
    (hstage : stage' = .appending proposal ⟨proposal.id, .memoryClaim, uuid, activatedAt⟩
        (getLatestSequence s.stream + 1) ∨ ∃ error, stage' = failed error) :
    Keeps { s.withStage c stage' with drawn := uuid :: s.drawn } o := by
  have hsub : s.drawn ⊆ uuid :: s.drawn := List.subset_cons_self ..
  refine ⟨h.logged.still rfl rfl rfl hsub,
    h.linked.restage hc rfl rfl rfl rfl (by rintro _ ⟨⟩) (by rintro _ ⟨⟩) (by rintro _ ⟨⟩),
    h.callsFit.set hc rfl (fun _ _ _ _ hfits => hfits.still rfl rfl rfl hsub) ?_ ?_ ?_ ?_⟩
  · rcases hstage with rfl | ⟨error, rfl⟩
    · refine ⟨fun p hrec => hfresh (h.logged.drawn p uuid hrec), List.mem_cons_self ..⟩
    · trivial
  · intro claimId hadopt
    rcases hstage with rfl | ⟨error, rfl⟩
    · cases hadopt
      exact .inr fun st hst hadopt => hfresh (h.drawn_of_adopting hst hadopt)
    · cases hadopt
  · rcases hstage with rfl | ⟨error, rfl⟩ <;> rintro _ ⟨⟩
  · rcases hstage with rfl | ⟨error, rfl⟩ <;> rintro _ _ ⟨⟩

theorem Keeps.latestAfter (h : s.Keeps o)
    (hc : s.calls[c]? = some (.latestAfter removal)) :
    (s.withStage c (.reverting removal n)).Keeps o := by
  refine ⟨h.logged.still rfl rfl rfl fun _ hid => hid,
    h.linked.restage hc rfl rfl rfl rfl (fun _ howes _ => howes) (by rintro _ ⟨⟩) (by rintro _ ⟨⟩),
    h.callsFit.set hc rfl (fun _ _ _ _ hfits => hfits.still rfl rfl rfl fun _ hid => hid)
      (h.callsFit.fits _ (mem_of_stage hc)) (by rintro _ ⟨⟩) (fun _ hwithdraw => hwithdraw)
      (by rintro _ _ ⟨⟩)⟩

theorem Keeps.land (h : s.Keeps o) (hc : s.calls[c]? = some (.appending proposal payload n))
    (hnone : s.inForce.get payload.proposalId = none) (hsize : s.inForce.size < o.maxActive)
    (hclaim : adoptedClaim proposal payload (s.stream.length + 1) = some claim) :
    ((s.grow (.activated payload)).withStage c (.ingesting proposal payload claim)).Keeps o := by
  set t := (s.grow (.activated payload)).withStage c (.ingesting proposal payload claim) with ht
  obtain ⟨hnew, hdrawn⟩ := h.callsFit.fits _ (mem_of_stage hc)
  have hforce : ∀ p, t.inForce.get p =
      if p = payload.proposalId then some payload.claimId else s.inForce.get p := by
    intro p
    rw [show t.inForce = foldPayload s.inForce (.activated payload) from inForce_grow s _]
    exact OrderedMap.get_set ..
  have hkept : ∀ p claimId, s.inForce.get p = some claimId → t.inForce.get p = some claimId := by
    intro p claimId hget
    rw [hforce, if_neg]
    · exact hget
    · rintro rfl
      rw [hnone] at hget
      cases hget
  have hrecorded : ∀ p claimId, t.Recorded p claimId ↔ s.Recorded p claimId ∨
      payload.proposalId = p ∧ payload.claimId = claimId := by
    intro p claimId
    rw [show t.Recorded p claimId ↔ _ from recorded_grow]
    simp
  have hstatus : s.statusOf payload.claimId = none := by
    by_contra hne
    obtain ⟨⟨claim', status⟩, hget⟩ := Option.ne_none_iff_exists'.mp
      (fun hnone => hne (by rw [statusOf, hnone]; rfl) : s.memory.get payload.claimId ≠ none)
    obtain ⟨a, hcited, hid⟩ := h.logged.cited _ _ _ hget
    exact hnew a.proposalId (hid ▸ recorded_of_activationOf hcited)
  have hcite : t.activationOf claim = some payload := by
    obtain ⟨statement, -, rfl⟩ := Option.map_eq_some_iff.mp hclaim
    simp [t, activationOf, grow, withStage]
  refine ⟨⟨?_, ?_, ?_, ?_, ?_, ?_⟩, ⟨?_, ?_, ?_, ?_⟩, h.callsFit.set hc rfl ?_ ?_ ?_ ?_ ?_⟩
  · intro event hevent
    rcases List.mem_append.mp hevent with hevent | hevent
    · exact (h.logged.numbered event hevent).trans (Nat.lt_succ_self _)
    · obtain rfl := List.mem_singleton.mp hevent
      exact Nat.lt_succ_self _
  · rw [show t.inForce = foldPayload s.inForce (.activated payload) from inForce_grow s _]
    exact (OrderedMap.size_set_le ..).trans hsize
  · intro p p' claimId hrec hrec'
    rw [hrecorded] at hrec hrec'
    rcases hrec with hrec | ⟨rfl, rfl⟩
    · rcases hrec' with hrec' | ⟨rfl, rfl⟩
      · exact h.logged.owner p p' claimId hrec hrec'
      · exact absurd hrec (hnew p)
    · rcases hrec' with hrec' | ⟨rfl, -⟩
      · exact absurd hrec' (hnew p')
      · rfl
  · intro p claimId hrec
    rcases (hrecorded p claimId).mp hrec with hrec | ⟨-, rfl⟩
    · exact h.logged.drawn p claimId hrec
    · exact hdrawn
  · intro claimId claim' status hget
    obtain ⟨a, hcited, hid⟩ := h.logged.cited claimId claim' status hget
    exact ⟨a, activationOf_grow hcited, hid⟩
  · intro p claimId hactive hrec
    rcases (hrecorded p claimId).mp hrec with hrec | ⟨-, rfl⟩
    · exact hkept p claimId (h.logged.active p claimId hactive hrec)
    · rw [show t.statusOf payload.claimId = none from hstatus] at hactive
      cases hactive
  · intro p claimId hget
    obtain ⟨hrec, hne⟩ := h.linked.mapped p claimId hget
    exact ⟨(hrecorded p claimId).mpr (.inl hrec), hne⟩
  · intro p claimId hget
    rw [hforce] at hget
    split at hget
    · next hp =>
      cases hget
      exact .inr ⟨_, mem_set_self hc, by rw [hp]; rfl⟩
    · exact (h.linked.held p claimId hget).imp_right fun hex => exists_set hc hex (by rintro ⟨⟩)
  · intro p claimId hget
    rw [hforce] at hget
    split at hget
    · next hp =>
      cases hget
      exact .inr ⟨_, mem_set_self hc, by rw [hp]; rfl⟩
    · exact (h.linked.entered p claimId hget).imp_right fun hex => exists_set hc hex (by rintro ⟨⟩)
  · intro p claimId hget
    exact (h.linked.left p claimId hget).imp (hkept p claimId) fun hex =>
      exists_set hc hex (by rintro ⟨⟩)
  · intro i st hic hi hfits
    cases st with
    | appending proposal' payload' n' =>
      refine ⟨fun p hrec => ?_, hfits.2⟩
      rcases (hrecorded _ _).mp hrec with hrec | ⟨-, hid⟩
      · exact hfits.1 p hrec
      · exact hic (h.callsFit.unique i c _ _ payload'.claimId hi hc rfl (congrArg some hid))
    | ingesting => exact ⟨hfits.1, hkept _ _ hfits.2.1, activationOf_grow hfits.2.2⟩
    | ingested => exact ⟨hfits.1, hkept _ _ hfits.2.1, hfits.2.2⟩
    | retracting => exact ⟨(hrecorded _ _).mpr (.inl hfits.1), hfits.2⟩
    | latestAfter | reverting => exact ⟨(hrecorded _ _).mpr (.inl hfits.1), hfits.2⟩
    | reverted removal =>
      refine ⟨(hrecorded _ _).mpr (.inl hfits.1), hfits.2.1, fun hget => ?_⟩
      rw [hforce] at hget
      split at hget
      · next hp =>
        rw [Option.some.inj hget] at hnew
        exact hnew _ hfits.1
      · exact hfits.2.2 hget
    | latest | registering | finished | gone => trivial
  · refine ⟨hstatus, ?_, hcite⟩
    rw [hforce, if_pos rfl]
  · exact fun claimId hadopt => .inl hadopt
  · rintro _ ⟨⟩
  · rintro _ _ ⟨⟩

theorem Keeps.ingest (h : s.Keeps o)
    (hc : s.calls[c]? = some (.ingesting proposal payload claim)) :
    (Activation.ingest s c proposal payload claim).Keeps o := by
  set t := Activation.ingest s c proposal payload claim with ht
  obtain ⟨hnone, hforce, hcite⟩ := h.callsFit.fits _ (mem_of_stage hc)
  have hstatus : ∀ claimId, t.statusOf claimId =
      if claimId = payload.claimId then some .active else s.statusOf claimId :=
    fun claimId => statusOf_set rfl
  have hne : ∀ claimId, s.statusOf claimId ≠ none → claimId ≠ payload.claimId := by
    rintro claimId hheld rfl
    exact hheld hnone
  have hkept : ∀ claimId, s.statusOf claimId ≠ none →
      t.statusOf claimId = s.statusOf claimId :=
    fun claimId hheld => by rw [hstatus, if_neg (hne claimId hheld)]
  have hsome : ∀ claimId, s.statusOf claimId ≠ none → t.statusOf claimId ≠ none :=
    fun claimId hheld => by rwa [hkept claimId hheld]
  refine ⟨⟨h.logged.numbered, h.logged.bounded, h.logged.owner, h.logged.drawn, ?_, ?_⟩,
    ⟨?_, ?_, ?_, ?_⟩, h.callsFit.set hc rfl ?_ ?_ (fun _ hadopt => .inl hadopt) (by rintro _ ⟨⟩) ?_⟩
  · intro claimId claim' status hget
    rw [show t.memory = s.memory.set payload.claimId (claim, .active) from rfl,
      OrderedMap.get_set] at hget
    split at hget
    · next hid =>
      cases hget
      exact ⟨payload, hcite, hid.symm⟩
    · exact h.logged.cited claimId claim' status hget
  · intro p claimId hactive hrec
    rw [hstatus] at hactive
    split at hactive
    · next hid =>
      subst hid
      obtain rfl := h.logged.owner p payload.proposalId payload.claimId hrec
        (recorded_of_inForce hforce)
      exact hforce
    · exact h.logged.active p claimId hactive hrec
  · intro p claimId hget
    obtain ⟨hrec, hheld⟩ := h.linked.mapped p claimId hget
    exact ⟨hrec, hsome claimId hheld⟩
  · intro p claimId hget
    by_cases hid : claimId = payload.claimId
    · exact .inl (by rw [hstatus, if_pos hid])
    · rcases h.linked.held p claimId hget with hactive | hex
      · exact .inl (by rw [hstatus, if_neg hid, hactive])
      · refine .inr (exists_set hc hex fun howes => ?_)
        cases howes
        exact absurd rfl hid
  · intro p claimId hget
    exact (h.linked.entered p claimId hget).imp_right fun hex =>
      exists_set hc hex fun hentering => hentering
  · intro p claimId hget
    exact (h.linked.left p claimId hget).imp_right fun hex => exists_set hc hex (by rintro ⟨⟩)
  · intro i st hic hi hfits
    cases st with
    | appending => exact hfits
    | ingesting proposal' payload' claim' =>
      have hid : payload'.claimId ≠ payload.claimId := fun hid =>
        hic (h.callsFit.unique i c _ _ payload'.claimId hi hc rfl (congrArg some hid.symm))
      refine ⟨?_, hfits.2⟩
      rw [hstatus, if_neg hid]
      exact hfits.1
    | ingested => exact ⟨hsome _ hfits.1, hfits.2⟩
    | retracting => exact ⟨hfits.1, hsome _ hfits.2⟩
    | latestAfter | reverting =>
      exact ⟨hfits.1, by rw [hkept _ (by simp [hfits.2])]; exact hfits.2⟩
    | reverted => exact ⟨hfits.1, by rw [hkept _ (by simp [hfits.2.1])]; exact hfits.2.1, hfits.2.2⟩
    | latest | registering | finished | gone => trivial
  · refine ⟨by simp [hstatus], hforce, fun p hget => ?_⟩
    exact hne _ (h.linked.mapped p _ hget).2 rfl
  · rintro _ _ ⟨⟩ st hst p hwithdraw
    exact (h.callsFit.fits st hst).held hwithdraw hnone

theorem Keeps.adopt (h : s.Keeps o) (hc : s.calls[c]? = some (.ingested proposal payload))
    (hstage : stage' = .registering payload ∨ stage' = applied payload) :
    Keeps { s.withStage c stage' with
      claims := s.claims.set payload.proposalId payload.claimId } o := by
  set t : LearningActivation := { s.withStage c stage' with
    claims := s.claims.set payload.proposalId payload.claimId } with ht
  obtain ⟨hheld, hforce, hunmapped⟩ := h.callsFit.fits _ (mem_of_stage hc)
  have hclaims : ∀ p, t.claims.get p =
      if p = payload.proposalId then some payload.claimId else s.claims.get p :=
    fun p => OrderedMap.get_set ..
  have hidle : stage'.adopting = none ∧ stage'.withdrawing = none ∧ stage'.leaving = none ∧
      t.Fits stage' ∧ ∀ proposal payload, stage' ≠ .ingested proposal payload := by
    rcases hstage with rfl | rfl <;> exact ⟨rfl, rfl, rfl, trivial, by rintro _ _ ⟨⟩⟩
  obtain ⟨hadopt, hwithdraw, -, hfits', hing⟩ := hidle
  refine ⟨h.logged.still rfl rfl rfl fun _ hid => hid, ⟨?_, ?_, ?_, ?_⟩,
    h.callsFit.set hc rfl ?_ hfits' (by simp [hadopt]) (by simp [hwithdraw])
      fun proposal payload heq => absurd heq (hing proposal payload)⟩
  · intro p claimId hget
    rw [hclaims] at hget
    split at hget
    · next hp =>
      cases hget
      rw [hp]
      exact ⟨recorded_of_inForce hforce, hheld⟩
    · exact h.linked.mapped p claimId hget
  · intro p claimId hget
    exact (h.linked.held p claimId hget).imp_right fun hex => exists_set hc hex (by rintro ⟨⟩)
  · intro p claimId hget
    rw [hclaims]
    by_cases hp : p = payload.proposalId
    · subst hp
      rw [if_pos rfl]
      exact .inl (hforce.symm.trans hget)
    · rw [if_neg hp]
      refine (h.linked.entered p claimId hget).imp_right fun hex =>
        exists_set hc hex fun hentering => ?_
      exact absurd (Prod.mk.inj (Option.some.inj hentering)).1.symm hp
  · intro p claimId hget
    rw [hclaims] at hget
    split at hget
    · next hp =>
      cases hget
      rw [hp]
      exact .inl hforce
    · exact (h.linked.left p claimId hget).imp_right fun hex => exists_set hc hex (by rintro ⟨⟩)
  · intro i st hic hi hfits
    cases st with
    | ingested proposal' payload' =>
      refine ⟨hfits.1, hfits.2.1, fun p hget => ?_⟩
      rw [hclaims] at hget
      split at hget
      · exact hic (h.callsFit.unique i c _ _ payload'.claimId hi hc rfl hget)
      · exact hfits.2.2 p hget
    | latest | appending | ingesting | registering | retracting | latestAfter | reverting | reverted
    | finished | gone => exact hfits

theorem Keeps.retract {proposalId claimId now : String} {reason : Option String}
    {status : MemoryClaimStatus} (h : s.Keeps o)
    (hc : s.calls[c]? = some (.retracting proposalId claimId reason))
    (hclaim : s.memory.get claimId = some (claim, status))
    (hstage : stage' = .latestAfter ⟨proposalId, claimId, reason, now⟩ ∨
      (∃ error, stage' = failed error) ∧ s.inForce.get proposalId ≠ some claimId) :
    Keeps { s.withStage c stage' with memory := s.memory.set claimId (claim, .retracted) } o := by
  set t : LearningActivation := { s.withStage c stage' with
    memory := s.memory.set claimId (claim, .retracted) } with ht
  obtain ⟨hrecorded, hheld⟩ := h.callsFit.fits _ (mem_of_stage hc)
  have hstatus : ∀ id, t.statusOf id = if id = claimId then some .retracted else s.statusOf id :=
    fun id => statusOf_set rfl
  have hsome : ∀ id, s.statusOf id ≠ none → t.statusOf id ≠ none := by
    intro id hne
    rw [hstatus]
    split
    · simp
    · exact hne
  have hretracted : ∀ id, s.statusOf id = some .retracted → t.statusOf id = some .retracted := by
    intro id heq
    rw [hstatus]
    split
    · rfl
    · exact heq
  refine ⟨⟨h.logged.numbered, h.logged.bounded, h.logged.owner, h.logged.drawn, ?_, ?_⟩,
    ⟨?_, ?_, ?_, ?_⟩, h.callsFit.set hc rfl ?_ ?_ ?_ ?_ ?_⟩
  · intro id claim' status' hget
    rw [show t.memory = s.memory.set claimId (claim, .retracted) from rfl,
      OrderedMap.get_set] at hget
    split at hget
    · next hid =>
      cases hget
      exact hid ▸ h.logged.cited claimId claim status hclaim
    · exact h.logged.cited id claim' status' hget
  · intro p id hactive hrec
    rw [hstatus] at hactive
    split at hactive
    · cases hactive
    · exact h.logged.active p id hactive hrec
  · intro p id hget
    obtain ⟨hrec, hne⟩ := h.linked.mapped p id hget
    exact ⟨hrec, hsome id hne⟩
  · intro p id hget
    by_cases hid : id = claimId
    · subst hid
      obtain rfl := h.logged.owner p proposalId id (recorded_of_inForce hget) hrecorded
      rcases hstage with rfl | ⟨-, hne⟩
      · exact .inr ⟨_, mem_set_self hc, rfl⟩
      · exact absurd hget hne
    · rw [hstatus, if_neg hid]
      exact (h.linked.held p id hget).imp_right fun hex => exists_set hc hex (by rintro ⟨⟩)
  · intro p id hget
    exact (h.linked.entered p id hget).imp_right fun hex => exists_set hc hex (by rintro ⟨⟩)
  · intro p id hget
    exact (h.linked.left p id hget).imp_right fun hex => exists_set hc hex (by rintro ⟨⟩)
  · intro i st hic hi hfits
    cases st with
    | ingesting proposal' payload' claim' =>
      refine ⟨?_, hfits.2⟩
      rw [hstatus, if_neg]
      · exact hfits.1
      · rintro hid
        exact hheld (hid ▸ hfits.1)
    | ingested => exact ⟨hsome _ hfits.1, hfits.2⟩
    | retracting => exact ⟨hfits.1, hsome _ hfits.2⟩
    | latestAfter | reverting => exact ⟨hfits.1, hretracted _ hfits.2⟩
    | reverted => exact ⟨hfits.1, hretracted _ hfits.2.1, hfits.2.2⟩
    | latest | appending | registering | finished | gone => exact hfits
  · rcases hstage with rfl | ⟨⟨error, rfl⟩, -⟩
    · exact ⟨hrecorded, by simp [hstatus]⟩
    · trivial
  · rcases hstage with rfl | ⟨⟨error, rfl⟩, -⟩ <;> rintro _ ⟨⟩
  · rcases hstage with rfl | ⟨⟨error, rfl⟩, -⟩
    · exact fun _ hwithdraw => hwithdraw
    · rintro _ ⟨⟩
  · rcases hstage with rfl | ⟨⟨error, rfl⟩, -⟩ <;> rintro _ _ ⟨⟩

theorem Keeps.landReverted (h : s.Keeps o) (hc : s.calls[c]? = some (.reverting removal n))
    (hown : ∀ claimId ∈ s.inForce.get removal.proposalId, claimId = removal.claimId) :
    ((s.grow (.activationReverted removal)).withStage c (.reverted removal)).Keeps o := by
  set t := (s.grow (.activationReverted removal)).withStage c (.reverted removal) with ht
  obtain ⟨hrecorded, hretracted⟩ := h.callsFit.fits _ (mem_of_stage hc)
  have hforce : ∀ p, t.inForce.get p =
      if p = removal.proposalId then none else s.inForce.get p := by
    intro p
    rw [show t.inForce = foldPayload s.inForce (.activationReverted removal) from inForce_grow s _]
    exact OrderedMap.get_delete ..
  have hkept : ∀ p claimId, s.inForce.get p = some claimId → claimId ≠ removal.claimId →
      t.inForce.get p = some claimId := by
    intro p claimId hget hne
    rw [hforce, if_neg]
    · exact hget
    · rintro rfl
      exact hne (hown claimId hget)
  have hback : ∀ p claimId, t.inForce.get p = some claimId →
      p ≠ removal.proposalId ∧ s.inForce.get p = some claimId := by
    intro p claimId hget
    rw [hforce] at hget
    split at hget
    · cases hget
    · next hp => exact ⟨hp, hget⟩
  have hrec : ∀ p claimId, t.Recorded p claimId ↔ s.Recorded p claimId := by
    intro p claimId
    rw [show t.Recorded p claimId ↔ _ from recorded_grow]
    simp
  refine ⟨⟨?_, ?_, ?_, ?_, ?_, ?_⟩, ⟨?_, ?_, ?_, ?_⟩,
    h.callsFit.set hc rfl ?_ ?_ (by rintro _ ⟨⟩) (fun _ hwithdraw => hwithdraw) (by rintro _ _ ⟨⟩)⟩
  · intro event hevent
    rcases List.mem_append.mp hevent with hevent | hevent
    · exact (h.logged.numbered event hevent).trans (Nat.lt_succ_self _)
    · obtain rfl := List.mem_singleton.mp hevent
      exact Nat.lt_succ_self _
  · rw [show t.inForce = foldPayload s.inForce (.activationReverted removal) from inForce_grow s _]
    exact (OrderedMap.size_delete_le ..).trans h.logged.bounded
  · simpa only [hrec] using h.logged.owner
  · exact fun p claimId hrec' => h.logged.drawn p claimId ((hrec p claimId).mp hrec')
  · intro claimId claim' status hget
    obtain ⟨a, hcited, hid⟩ := h.logged.cited claimId claim' status hget
    exact ⟨a, activationOf_grow hcited, hid⟩
  · intro p claimId hactive hrec'
    refine hkept p claimId (h.logged.active p claimId hactive ((hrec p claimId).mp hrec')) ?_
    rintro rfl
    rw [show t.statusOf removal.claimId = some .retracted from hretracted] at hactive
    cases hactive
  · intro p claimId hget
    obtain ⟨hrec', hne⟩ := h.linked.mapped p claimId hget
    exact ⟨(hrec p claimId).mpr hrec', hne⟩
  · intro p claimId hget
    obtain ⟨hp, hget⟩ := hback p claimId hget
    refine (h.linked.held p claimId hget).imp_right fun hex => exists_set hc hex fun howes => ?_
    exact absurd (Prod.mk.inj (Option.some.inj howes)).1.symm hp
  · intro p claimId hget
    obtain ⟨-, hget⟩ := hback p claimId hget
    exact (h.linked.entered p claimId hget).imp_right fun hex => exists_set hc hex (by rintro ⟨⟩)
  · intro p claimId hget
    rcases h.linked.left p claimId hget with hin | hex
    · by_cases hid : claimId = removal.claimId
      · subst hid
        obtain rfl := h.logged.owner p removal.proposalId removal.claimId
          (recorded_of_inForce hin) hrecorded
        exact .inr ⟨_, mem_set_self hc, rfl⟩
      · exact .inl (hkept p claimId hin hid)
    · exact .inr (exists_set hc hex (by rintro ⟨⟩))
  · intro i st hic hi hfits
    have hst := List.mem_of_getElem? hi
    cases st with
    | appending => exact ⟨fun p hrec' => hfits.1 p ((hrec _ _).mp hrec'), hfits.2⟩
    | ingesting proposal' payload' claim' =>
      refine ⟨hfits.1, hkept _ _ hfits.2.1 ?_, activationOf_grow hfits.2.2⟩
      intro hid
      have hnone : s.statusOf removal.claimId = none := hid ▸ hfits.1
      rw [hretracted] at hnone
      cases hnone
    | ingested proposal' payload' =>
      refine ⟨hfits.1, hkept _ _ hfits.2.1 ?_, hfits.2.2⟩
      intro hid
      refine h.callsFit.apart proposal' payload' hst _ (mem_of_stage hc) removal.proposalId ?_
      rw [hid]
      rfl
    | retracting => exact ⟨(hrec _ _).mpr hfits.1, hfits.2⟩
    | latestAfter | reverting => exact ⟨(hrec _ _).mpr hfits.1, hfits.2⟩
    | reverted removal' =>
      refine ⟨(hrec _ _).mpr hfits.1, hfits.2.1, fun hget => hfits.2.2 (hback _ _ hget).2⟩
    | latest | registering | finished | gone => trivial
  · refine ⟨(hrec _ _).mpr hrecorded, hretracted, fun hget => ?_⟩
    exact (hback _ _ hget).1 rfl

theorem Keeps.release (h : s.Keeps o) (hc : s.calls[c]? = some (.reverted removal))
    (hown : ∀ claimId ∈ s.claims.get removal.proposalId, claimId = removal.claimId) :
    (Activation.release s c removal).Keeps o := by
  set t := Activation.release s c removal with ht
  obtain ⟨-, -, hout⟩ := h.callsFit.fits _ (mem_of_stage hc)
  have hclaims : ∀ p, t.claims.get p =
      if p = removal.proposalId then none else s.claims.get p :=
    fun p => OrderedMap.get_delete ..
  have hback : ∀ p claimId, t.claims.get p = some claimId →
      p ≠ removal.proposalId ∧ s.claims.get p = some claimId := by
    intro p claimId hget
    rw [hclaims] at hget
    split at hget
    · cases hget
    · next hp => exact ⟨hp, hget⟩
  refine ⟨h.logged.still rfl rfl rfl fun _ hid => hid, ⟨?_, ?_, ?_, ?_⟩,
    h.callsFit.set hc rfl ?_ trivial (by rintro _ ⟨⟩) (by rintro _ ⟨⟩) (by rintro _ _ ⟨⟩)⟩
  · exact fun p claimId hget => h.linked.mapped p claimId (hback p claimId hget).2
  · intro p claimId hget
    exact (h.linked.held p claimId hget).imp_right fun hex => exists_set hc hex (by rintro ⟨⟩)
  · intro p claimId hget
    rw [hclaims]
    rcases h.linked.entered p claimId hget with hmapped | hex
    · by_cases hp : p = removal.proposalId
      · subst hp
        rw [hown claimId hmapped] at hget
        exact absurd hget hout
      · rw [if_neg hp]
        exact .inl hmapped
    · exact .inr (exists_set hc hex (by rintro ⟨⟩))
  · intro p claimId hget
    obtain ⟨hp, hget⟩ := hback p claimId hget
    refine (h.linked.left p claimId hget).imp_right fun hex => exists_set hc hex fun hleaving => ?_
    exact absurd (Prod.mk.inj (Option.some.inj hleaving)).1.symm hp
  · intro i st hic hi hfits
    cases st with
    | ingested =>
      exact ⟨hfits.1, hfits.2.1, fun p hget => hfits.2.2 p (hback _ _ hget).2⟩
    | latest | appending | ingesting | registering | retracting | latestAfter | reverting | reverted
    | finished | gone => exact hfits

theorem Keeps.observed (h : s.Keeps o) : (s.grow .other).Keeps o := by
  have hforce : (s.grow .other).inForce = s.inForce := inForce_grow s .other
  have hrec : ∀ p claimId, (s.grow .other).Recorded p claimId ↔ s.Recorded p claimId := by
    intro p claimId
    rw [recorded_grow]
    simp
  refine ⟨⟨?_, hforce ▸ h.logged.bounded, ?_, ?_, ?_, ?_⟩, ⟨?_, ?_, ?_, ?_⟩,
    fun st hst => ?_, h.callsFit.unique, h.callsFit.apart⟩
  · intro event hevent
    rcases List.mem_append.mp hevent with hevent | hevent
    · exact (h.logged.numbered event hevent).trans (Nat.lt_succ_self _)
    · obtain rfl := List.mem_singleton.mp hevent
      exact Nat.lt_succ_self _
  · simpa only [hrec] using h.logged.owner
  · exact fun p claimId hrec' => h.logged.drawn p claimId ((hrec p claimId).mp hrec')
  · intro claimId claim' status hget
    obtain ⟨a, hcited, hid⟩ := h.logged.cited claimId claim' status hget
    exact ⟨a, activationOf_grow hcited, hid⟩
  · intro p claimId hactive hrec'
    rw [hforce]
    exact h.logged.active p claimId hactive ((hrec p claimId).mp hrec')
  · intro p claimId hget
    rw [hrec]
    exact h.linked.mapped p claimId hget
  · rw [hforce]
    exact h.linked.held
  · rw [hforce]
    exact h.linked.entered
  · rw [hforce]
    exact h.linked.left
  · have hfits := h.callsFit.fits st hst
    cases st with
    | ingesting => exact ⟨hfits.1, hforce ▸ hfits.2.1, activationOf_grow hfits.2.2⟩
    | ingested => exact ⟨hfits.1, hforce ▸ hfits.2.1, hfits.2.2⟩
    | appending => exact ⟨fun p hrec' => hfits.1 p ((hrec _ _).mp hrec'), hfits.2⟩
    | retracting | latestAfter | reverting => exact ⟨(hrec _ _).mpr hfits.1, hfits.2⟩
    | reverted => exact ⟨(hrec _ _).mpr hfits.1, hfits.2.1, hforce ▸ hfits.2.2⟩
    | latest | registering | finished | gone => trivial

theorem Keeps.restart (h : s.Keeps o) (hsafe : ∀ stage ∈ s.calls, ¬s.Owing stage) :
    Keeps { s with claims := rebuild s.payloads, calls := s.calls.map Stage.abandoned } o := by
  have hidle : ∀ st ∈ s.calls.map Stage.abandoned,
      (∃ outcome, st = .finished outcome) ∨ st = .gone := by
    intro st hst
    obtain ⟨st₀, -, rfl⟩ := List.mem_map.mp hst
    cases st₀ with
    | finished outcome => exact .inl ⟨outcome, rfl⟩
    | latest | appending | ingesting | ingested | registering | retracting | latestAfter | reverting
    | reverted | gone => exact .inr rfl
  have hactive : ∀ p claimId, s.inForce.get p = some claimId →
      s.statusOf claimId = some .active := by
    intro p claimId hget
    refine (h.linked.held p claimId hget).resolve_right ?_
    rintro ⟨st, hst, howes⟩
    exact hsafe st hst ⟨(p, claimId), howes, hget⟩
  refine ⟨h.logged.still rfl rfl rfl fun _ hid => hid, ⟨?_, ?_, ?_, ?_⟩, ?_, ?_, ?_⟩
  · exact fun p claimId hget =>
      ⟨recorded_of_inForce hget, ne_of_eq_of_ne (hactive p claimId hget) (by simp)⟩
  · exact fun p claimId hget => .inl (hactive p claimId hget)
  · exact fun p claimId hget => .inl hget
  · exact fun p claimId hget => .inl hget
  · intro st hst
    rcases hidle st hst with ⟨outcome, rfl⟩ | rfl <;> trivial
  · intro i j st st' claimId hi hj hadopt hadopt'
    rcases hidle st (List.mem_of_getElem? hi) with ⟨outcome, rfl⟩ | rfl <;> cases hadopt
  · intro proposal' payload' hst
    rcases hidle _ hst with ⟨outcome, heq⟩ | heq <;> cases heq

theorem Keeps.move (h : s.Keeps o) (hmove : Move o s t) : t.Keeps o := by
  cases hmove with
  | start op now => exact h.start op now
  | quit hc hfails hsafe => exact h.quit hc hfails hsafe
  | prepare hc hfresh hstage => exact h.prepare hc hfresh hstage
  | land hc hnone hsize hclaim => exact h.land hc hnone hsize hclaim
  | ingest hc => exact h.ingest hc
  | adopt hc hstage => exact h.adopt hc hstage
  | retract reason now hc hclaim hstage => exact h.retract hc hclaim hstage
  | latestAfter hc => exact h.latestAfter hc
  | landReverted hc hown => exact h.landReverted hc hown
  | release hc hown => exact h.release hc hown
  | observed => exact h.observed
  | restart hsafe => exact h.restart hsafe

theorem keeps_initial (o : LearningActivationOptions) : initial.Keeps o where
  logged := by
    refine ⟨?_, Nat.zero_le _, ?_, ?_, ?_, ?_⟩ <;>
      simp [initial, Numbered, Recorded, payloads, statusOf]
  linked := by
    refine ⟨?_, ?_, ?_, ?_⟩ <;> simp [initial, inForce, payloads, rebuild]
  callsFit := by
    refine ⟨?_, ?_, ?_⟩ <;> simp [initial]

end LearningActivation

end

end BeeAgent.Learning.Activation
