import BeeAgent.Learning.Activation
import BeeAgent.Learning.SkillTemplate
import BeeAgent.Memory.Forgetting
import BeeAgent.Skills.Events

/-! What applying a proposal and reverting it leave: the learning stream, the memory and the skills,
one call after another. -/
namespace BeeAgent.Learning.Reversion
open Data Chronicle.Stores Activation
open Memory (Projection EmbeddedMemoryOptions MemoryQuery MemoryClaim MemoryEvent)
open Skills (SkillEvent StoredSkill SkillRegistered rebuildSkills)

structure ReversionOptions where
  service : LearningActivationOptions
  memory : EmbeddedMemoryOptions
  /-- The threads that the evidence is read from. -/
  threads : Memory.Store

/-- What the service works on. -/
structure Adoption where
  payloads : List ActivationPayload
  claims : Claims
  memory : Projection
  skillEvents : List SkillEvent

def Adoption.skills (s : Adoption) : OrderedMap String StoredSkill :=
  (rebuildSkills s.skillEvents).getD .empty

/-- What a call draws, the clocks that it reads, and which of its awaits succeed. -/
structure ApplyDraw where
  activatedAt : String
  uuid : String
  /-- The position in the learning stream. -/
  sequence : ℕ
  appended : Bool := true
  memoryNow : String
  ingested : Bool := true
  registeredAt : String
  registered : Bool := true

structure RevertDraw where
  revertedAt : String
  retracted : Bool := true
  appended : Bool := true

section Steps
variable (o : ReversionOptions) (s : Adoption)

/-- `apply` up to the point at which the claim is in the map. -/
def adopt (proposal : ImprovementProposal) (d : ApplyDraw) :
    Adoption × Except ActivationError Unit :=
  let payload : ProposalActivated := ⟨proposal.id, .memoryClaim, d.uuid, d.activatedAt⟩
  match activatedIssues o.service.formats payload with
  | _ :: _ => (s, .error (.zod (activatedIssues o.service.formats payload)))
  | [] =>
    if d.appended then
      let s := { s with payloads := s.payloads ++ [.activated payload] }
      match adoptedClaim proposal payload d.sequence with
      | none => (s, .error .type)
      | some claim =>
        match s.memory.ingestNow o.memory { claims := [claim] } d.memoryNow fun _ => d.uuid with
        | .error _ => (s, .error .memory)
        | .ok (events, _) =>
          if d.ingested then
            ({ s with memory := (s.memory.foldAll o.memory events).1
                      claims := s.claims.set proposal.id d.uuid }, .ok ())
          else (s, .error .memory)
    else (s, .error .chronicle)

def usageText (proposal : ImprovementProposal) : String :=
  match proposal.proposedChange.property? "usageCount" with
  | none | some .undefined => "近期轨迹"
  | some usageCount => usageCount.interpolated ++ " 次使用"

/-- The skill of a proposal; `boundToolId` has to be a string. -/
def learnedSkill (proposal : ImprovementProposal) (toolId : Value) (registeredAt : String) :
    Option SkillRegistered :=
  let template := skillTemplateFor o.threads toolId proposal.basedOnTrajectoryIds
  match toolId with
  | .string tool => some
    { skillId := "learned-" ++ sliceText proposal.id 8
      name := tool ++ " 使用模式"
      summary := "学习循环从 " ++ usageText proposal ++ "中提炼的 " ++ tool ++ " 调用模式"
      instructions := template.instructions
      boundToolId := tool
      typicalInput := template.input
      origin := ⟨proposal.id, proposal.targetKey⟩
      registeredBy := "learning-loop"
      registeredAt }
  | _ => none

/-- `register` of the skill store, which rebuilds from its stream. -/
def register (proposal : ImprovementProposal) (d : ApplyDraw) :
    Adoption × Except ActivationError Unit :=
  match proposal.proposedChange.property? "toolId" with
  | none | some .undefined => (s, .ok ())
  | some toolId =>
    match learnedSkill o proposal toolId d.registeredAt with
    | none => (s, .error .skills)
    | some skill =>
      match skill.issues o.service.formats with
      | _ :: _ => (s, .error .skills)
      | [] =>
        if d.registered then
          ({ s with skillEvents :=
              s.skillEvents ++ [⟨"skill.registered", skill.payload, d.registeredAt⟩] }, .ok ())
        else (s, .error .skills)

def apply (proposal : ImprovementProposal) (d : ApplyDraw) :
    Adoption × Except ActivationError ActivationResult :=
  match refusal proposal with
  | some reason => (s, .error (.notPermitted proposal.id reason))
  | none =>
    match s.claims.get proposal.id with
    | some claimId => (s, .ok ⟨proposal.id, claimId, .memoryClaim⟩)
    | none =>
      if o.service.maxActive ≤ s.claims.size then
        (s, .error (.notPermitted proposal.id (budgetReached s.claims.size o.service.maxActive)))
      else
        match adopt o s proposal d with
        | (s, .error error) => (s, .error error)
        | (s, .ok ()) =>
          let result : ActivationResult := ⟨proposal.id, d.uuid, .memoryClaim⟩
          if registersSkill o.service proposal then
            match register o s proposal d with
            | (s, .error error) => (s, .error error)
            | (s, .ok ()) => (s, .ok result)
          else (s, .ok result)

/-- The activation of a proposal is reverted: its claim is retracted, then the event is written. -/
def retractActivation (proposalId claimId : String) (reason : Option String) (r : RevertDraw) :
    Adoption × Except ActivationError (String × String) :=
  match s.memory.retractNow claimId
      (some (reason.getD ("learning proposal " ++ proposalId ++ " rolled back"))) with
  | .error _ => (s, .error .memory)
  | .ok events =>
    if r.retracted then
      let s := { s with memory := (s.memory.foldAll o.memory events).1 }
      let payload : ActivationReverted := ⟨proposalId, claimId, reason, r.revertedAt⟩
      match revertedIssues o.service.formats payload with
      | _ :: _ => (s, .error (.zod (revertedIssues o.service.formats payload)))
      | [] =>
        if r.appended then
          ({ s with payloads := s.payloads ++ [.activationReverted payload]
                    claims := s.claims.delete proposalId }, .ok (proposalId, claimId))
        else (s, .error .chronicle)
    else (s, .error .memory)

def revertByProposalId (proposalId : String) (reason : Option String) (r : RevertDraw) :
    Adoption × Except ActivationError (Option (String × String)) :=
  match s.claims.get proposalId with
  | none => (s, .ok none)
  | some claimId =>
    let (s, result) := retractActivation o s proposalId claimId reason r
    (s, result.map some)

def revert (proposal : ImprovementProposal) (reason : Option String) (r : RevertDraw) :
    Adoption × Except ActivationError (Option (String × String)) :=
  match s.claims.get proposal.id with
  | none => (s, .error (.notPermitted proposal.id "no active activation to revert"))
  | some claimId =>
    let (s, result) := retractActivation o s proposal.id claimId reason r
    (s, result.map some)

def recover : Adoption := { s with claims := Activation.rebuild s.payloads }

/-- What comes between the application and the reversion, and how that is asked for. -/
structure Way where
  recovers : Bool
  byProposalId : Bool
  reason : Option String
  draw : RevertDraw

def undo (proposal : ImprovementProposal) (way : Way) :
    Adoption × Except ActivationError (Option (String × String)) :=
  let s := if way.recovers then recover s else s
  if way.byProposalId then revertByProposalId o s proposal.id way.reason way.draw
  else revert o s proposal way.reason way.draw

end Steps

/-! ### Memory -/

section Memory
variable {o : EmbeddedMemoryOptions} {p : Projection} {claimId : String}

theorem ingestClaim_new {candidate : Memory.NewMemoryClaimInput} {now drawn : String}
    {events : List MemoryEvent} {claim : MemoryClaim} (hid : candidate.id = some claimId)
    (hplain : candidate.supersedes = none) (hfresh : p.claims.get claimId = none)
    (h : p.ingestClaim o now candidate drawn = .ok (events, claim)) :
    events = [.claimRecorded claim] ∧ claim.id = claimId := by
  unfold Projection.ingestClaim at h
  simp only [hid, Option.bind_some, hfresh, bind, Except.bind] at h
  split at h
  · cases h
  · next parsed hparse =>
    obtain rfl := Memory.parse_eq_ok hparse
    simp only [hplain, Option.getD_none, Option.getD_some, List.mapM_nil, pure, Except.pure,
      List.flatten_nil, List.nil_append] at h
    obtain ⟨rfl, rfl⟩ := Prod.mk.inj (Except.ok.inj h)
    exact ⟨rfl, rfl⟩

theorem ingestNow_new {candidate : Memory.NewMemoryClaimInput} {now : String} {ids : ℕ → String}
    {events : List MemoryEvent} {result : Memory.MemoryIngestResult}
    (hid : candidate.id = some claimId) (hplain : candidate.supersedes = none)
    (hfresh : p.claims.get claimId = none)
    (h : p.ingestNow o { claims := [candidate] } now ids = .ok (events, result)) :
    ∃ claim : MemoryClaim, events = [.claimRecorded claim] ∧ claim.id = claimId := by
  cases hclaim : p.ingestClaim o now candidate (ids 0) with
  | error error => simp [Projection.ingestNow, hclaim, bind, Except.bind] at h
  | ok entry =>
    obtain ⟨recorded, claim⟩ := entry
    obtain ⟨rfl, hclaimId⟩ := ingestClaim_new hid hplain hfresh hclaim
    simp [Projection.ingestNow, hclaim, bind, Except.bind, pure, Except.pure] at h
    exact ⟨claim, h.1.symm, hclaimId⟩

theorem foldAll_single {event : MemoryEvent} (h : event.isHealth = false) :
    (p.foldAll o [event]).1 = p.replay o event := by
  rw [Projection.foldAll_eq (by simpa using h)]
  rfl

theorem get_replay_recorded (claim : MemoryClaim) (id : String) (h : id ≠ claim.id) :
    (p.replay o (.claimRecorded claim)).claims.get id = p.claims.get id :=
  OrderedMap.get_set_of_ne h _ _

theorem get_replay_retracted (reason : Option String) (id : String) (h : id ≠ claimId) :
    (p.replay o (.claimRetracted claimId reason)).claims.get id = p.claims.get id := by
  cases hget : p.claims.get claimId with
  | none => rw [Projection.replay_retracted_none hget]
  | some claim =>
    rw [Projection.replay_retracted hget]
    exact OrderedMap.get_set_of_ne h _ _

theorem ne_of_query (hkeyed : p.Keyed) (h : p.statusOf claimId ≠ some .active)
    {query : MemoryQuery} {clock : String} {claim : MemoryClaim}
    (hclaim : claim ∈ p.query o query clock) : claim.id ≠ claimId := by
  rintro rfl
  obtain ⟨hvalue, hactive⟩ := List.mem_filter.mp (Projection.active_of_query hclaim)
  obtain ⟨key, hget⟩ := OrderedMap.mem_values_iff.mp hvalue
  obtain rfl := hkeyed key claim hget
  refine h ?_
  rw [Projection.statusOf, hget, Option.map_some, of_decide_eq_true hactive]

end Memory

/-! ### Skills -/

def IsOf (proposalId : String) (skill : StoredSkill) : Prop :=
  skill.origin.property? "proposalId" = some (.string proposalId)

section Skills
variable {events : List SkillEvent} {skills : OrderedMap String StoredSkill}

theorem rebuildSkills_registered (h : rebuildSkills events = some skills) (skill : SkillRegistered)
    (time : String) : ∃ stored : StoredSkill, IsOf skill.origin.proposalId stored ∧
      rebuildSkills (events ++ [⟨"skill.registered", skill.payload, time⟩]) =
        some (skills.set skill.skillId stored) := by
  refine ⟨⟨skill.skillId, skill.name, skill.summary, skill.instructions, skill.boundToolId,
    .object skill.typicalInput, .object [("proposalId", .string skill.origin.proposalId),
      ("targetKey", .string skill.origin.targetKey)], skill.registeredAt⟩, ?_, ?_⟩
  · simp [IsOf, Value.property?]
  · unfold rebuildSkills at h ⊢
    rw [List.foldlM_append, h]
    rfl

end Skills

/-! ### Application -/

/-- The map holds what the stream has in force, the memory its claims under their ids, and the
stream of the skills can be read. -/
structure Adoption.Sound (s : Adoption) : Prop where
  synced : ∀ id claimId, s.claims.get id = some claimId →
    (Activation.rebuild s.payloads).get id = some claimId
  keyed : s.memory.Keyed
  readable : ∃ skills, rebuildSkills s.skillEvents = some skills

/-- The stream has an activation of the proposal with the claim. -/
def Recorded (payloads : List ActivationPayload) (proposalId claimId : String) : Prop :=
  ∃ payload, .activated payload ∈ payloads ∧ payload.proposalId = proposalId ∧
    payload.claimId = claimId

theorem rebuild_append (payloads : List ActivationPayload) (payload : ActivationPayload) :
    Activation.rebuild (payloads ++ [payload]) =
      foldPayload (Activation.rebuild payloads) payload := by
  unfold Activation.rebuild
  rw [List.foldl_append]
  rfl

theorem recorded_of_rebuild {payloads : List ActivationPayload} {id claimId : String}
    (h : (Activation.rebuild payloads).get id = some claimId) : Recorded payloads id claimId := by
  induction payloads using List.reverseRecOn with
  | nil => cases h
  | append_singleton payloads payload ih =>
    have hearlier : (Activation.rebuild payloads).get id = some claimId →
        Recorded (payloads ++ [payload]) id claimId := by
      intro hget
      obtain ⟨earlier, hmem, hof⟩ := ih hget
      exact ⟨earlier, List.mem_append_left _ hmem, hof⟩
    rw [rebuild_append] at h
    cases payload with
    | other => exact hearlier h
    | activationReverted payload =>
      simp only [foldPayload, OrderedMap.get_delete] at h
      split at h
      · cases h
      · exact hearlier h
    | activated payload =>
      simp only [foldPayload, OrderedMap.get_set] at h
      split at h
      · next heq =>
        cases h
        exact ⟨payload, List.mem_append_right _ (List.mem_singleton_self _), heq.symm, rfl⟩
      · exact hearlier h

section Apply
variable {o : ReversionOptions} {s s' : Adoption} {proposal : ImprovementProposal} {d : ApplyDraw}

/-- What the steps of an application change: the claim with the new id, and the map at the
proposal. -/
structure Grown (s : Adoption) (proposalId uuid : String) (s' : Adoption) : Prop where
  sound : s'.Sound
  kept : ∀ id, id ≠ uuid → s'.memory.claims.get id = s.memory.claims.get id
  recorded : ∀ claimId, Recorded s'.payloads proposalId claimId →
    claimId = uuid ∨ Recorded s.payloads proposalId claimId
  claimed : s'.claims.get proposalId = some uuid ∧ s.claims.get proposalId = none ∨
    s'.claims = s.claims ∧ s'.memory = s.memory

theorem Grown.refl (hsound : s.Sound) (proposalId uuid : String) : Grown s proposalId uuid s :=
  ⟨hsound, fun _ _ => rfl, fun _ h => .inr h, .inr ⟨rfl, rfl⟩⟩

theorem Grown.appended (hsound : s.Sound) (hnew : s.claims.get proposal.id = none)
    (payload : ProposalActivated) (hof : payload.proposalId = proposal.id) :
    Grown s proposal.id payload.claimId
      { s with payloads := s.payloads ++ [.activated payload] } := by
  refine ⟨⟨fun id claimId hget => ?_, hsound.keyed, hsound.readable⟩, fun _ _ => rfl, ?_,
    .inr ⟨rfl, rfl⟩⟩
  · have hne : id ≠ payload.proposalId := by
      rintro rfl
      rw [hof, hnew] at hget
      cases hget
    rw [rebuild_append, foldPayload, OrderedMap.get_set_of_ne hne]
    exact hsound.synced id claimId hget
  · rintro claimId ⟨other, hmem, hother, rfl⟩
    obtain hmem | hmem := List.mem_append.mp hmem
    · exact .inr ⟨other, hmem, hother, rfl⟩
    · cases List.mem_singleton.mp hmem
      exact .inl rfl

theorem adoptedClaim_eq {payload : ProposalActivated} {sequence : ℕ}
    {claim : Memory.NewMemoryClaimInput} (h : adoptedClaim proposal payload sequence = some claim) :
    claim.id = some payload.claimId ∧ claim.supersedes = none := by
  obtain ⟨statement, -, rfl⟩ := Option.map_eq_some_iff.mp h
  exact ⟨rfl, rfl⟩

theorem Grown.ingested (hsound : s.Sound) (hnew : s.claims.get proposal.id = none)
    (payload : ProposalActivated) (hof : payload.proposalId = proposal.id) (claim : MemoryClaim)
    (hclaim : claim.id = payload.claimId) :
    Grown s proposal.id payload.claimId
      { s with
        payloads := s.payloads ++ [.activated payload]
        memory := s.memory.replay o.memory (.claimRecorded claim)
        claims := s.claims.set proposal.id payload.claimId } := by
  have happended := Grown.appended hsound hnew payload hof
  refine ⟨⟨fun id claimId hget => ?_, Projection.keyed_replay hsound.keyed, hsound.readable⟩,
    fun id hid => get_replay_recorded claim id (hclaim ▸ hid), happended.recorded,
    .inl ⟨by simp, hnew⟩⟩
  by_cases hid : id = proposal.id
  · subst hid
    simp only [OrderedMap.get_set, if_true] at hget
    rw [rebuild_append, foldPayload, hof, OrderedMap.get_set, if_pos rfl]
    exact hget
  · rw [OrderedMap.get_set_of_ne hid] at hget
    exact happended.sound.synced id claimId hget

theorem adopt_grown (hsound : s.Sound) (hnew : s.claims.get proposal.id = none)
    (hfresh : s.memory.claims.get d.uuid = none) :
    Grown s proposal.id d.uuid (adopt o s proposal d).1 ∧
      (adopt o s proposal d).1.skillEvents = s.skillEvents := by
  have happended := Grown.appended hsound hnew
    ⟨proposal.id, .memoryClaim, d.uuid, d.activatedAt⟩ rfl
  unfold adopt
  simp only
  split
  · exact ⟨.refl hsound .., rfl⟩
  split
  · split
    · exact ⟨happended, rfl⟩
    · next claim hclaim =>
      split
      · exact ⟨happended, rfl⟩
      · next events result hingest =>
        split
        · obtain ⟨hid, hplain⟩ := adoptedClaim_eq hclaim
          obtain ⟨recorded, rfl, hrecorded⟩ := ingestNow_new hid hplain hfresh hingest
          rw [foldAll_single rfl]
          exact ⟨.ingested hsound hnew ⟨proposal.id, .memoryClaim, d.uuid, d.activatedAt⟩ rfl
            recorded hrecorded, rfl⟩
        · exact ⟨happended, rfl⟩
  · exact ⟨.refl hsound .., rfl⟩

/-- The application goes on to register a skill, and succeeds in it. -/
structure Registers (o : ReversionOptions) (s : Adoption) (proposal : ImprovementProposal)
    (d : ApplyDraw) (skill : SkillRegistered) : Prop where
  permitted : refusal proposal = none
  unclaimed : s.claims.get proposal.id = none
  room : s.claims.size < o.service.maxActive
  wellFormed : activatedIssues o.service.formats
    ⟨proposal.id, .memoryClaim, d.uuid, d.activatedAt⟩ = []
  appended : d.appended
  ingests : ∃ claim result, adoptedClaim proposal
      ⟨proposal.id, .memoryClaim, d.uuid, d.activatedAt⟩ d.sequence = some claim ∧
    s.memory.ingestNow o.memory { claims := [claim] } d.memoryNow (fun _ => d.uuid) = .ok result
  ingested : d.ingested
  learned : registersSkill o.service proposal
  fromTool : ∃ toolId, proposal.proposedChange.property? "toolId" = some toolId ∧
    learnedSkill o proposal toolId d.registeredAt = some skill
  valid : skill.issues o.service.formats = []
  registered : d.registered

theorem adopt_ok_iff : (adopt o s proposal d).2 = .ok () ↔
    activatedIssues o.service.formats ⟨proposal.id, .memoryClaim, d.uuid, d.activatedAt⟩ = [] ∧
    d.appended ∧
    (∃ claim result, adoptedClaim proposal
        ⟨proposal.id, .memoryClaim, d.uuid, d.activatedAt⟩ d.sequence = some claim ∧
      s.memory.ingestNow o.memory { claims := [claim] } d.memoryNow (fun _ => d.uuid) =
        .ok result) ∧ d.ingested := by
  unfold adopt
  simp only
  split
  · next hissues => simp [hissues]
  · next hissues =>
    split
    · next happended =>
      split
      · next hclaim => simp [hclaim]
      · next claim hclaim =>
        split
        · next hingest => simp [hclaim, hingest]
        · next events result hingest =>
          split
          · next hingested => simp [hissues, happended, hclaim, hingest, hingested]
          · next hingested => simp [hingested]
    · next happended => simp [happended]

theorem learnedSkill_origin {toolId : Value} {registeredAt : String} {skill : SkillRegistered}
    (h : learnedSkill o proposal toolId registeredAt = some skill) :
    skill.origin.proposalId = proposal.id := by
  unfold learnedSkill at h
  simp only at h
  split at h
  · cases h
    rfl
  · cases h

theorem register_cases (o : ReversionOptions) (s : Adoption) (proposal : ImprovementProposal)
    (d : ApplyDraw) :
    (register o s proposal d).1 = s ∧ (∀ toolId skill,
      proposal.proposedChange.property? "toolId" = some toolId →
      learnedSkill o proposal toolId d.registeredAt = some skill →
      skill.issues o.service.formats = [] → ¬ d.registered) ∨
    ∃ toolId skill, proposal.proposedChange.property? "toolId" = some toolId ∧
      learnedSkill o proposal toolId d.registeredAt = some skill ∧
      skill.issues o.service.formats = [] ∧ d.registered ∧ (register o s proposal d).1 =
        { s with skillEvents :=
            s.skillEvents ++ [⟨"skill.registered", skill.payload, d.registeredAt⟩] } := by
  unfold register
  split
  · next htool => exact .inl ⟨rfl, fun _ _ h => by simp [htool] at h⟩
  · next htool =>
    refine .inl ⟨rfl, fun toolId skill h hskill => ?_⟩
    obtain rfl := Option.some.inj (htool.symm.trans h)
    cases hskill
  · next toolId _ htool =>
    split
    · next hnone =>
      refine .inl ⟨rfl, fun other skill h hskill => ?_⟩
      obtain rfl := Option.some.inj (htool.symm.trans h)
      rw [hnone] at hskill
      cases hskill
    · next skill hskill =>
      split
      · next hissues =>
        refine .inl ⟨rfl, fun other skill' h hskill' hvalid => ?_⟩
        obtain rfl := Option.some.inj (htool.symm.trans h)
        obtain rfl := Option.some.inj (hskill.symm.trans hskill')
        rw [hissues] at hvalid
        cases hvalid
      · next hissues =>
        split
        · next hregistered => exact .inr ⟨toolId, skill, htool, hskill, hissues, hregistered, rfl⟩
        · next hregistered => exact .inl ⟨rfl, fun _ _ _ _ _ => hregistered⟩

/-- What an application does to the skills: nothing, or it registers one. -/
inductive SkillsAfter (o : ReversionOptions) (s : Adoption) (proposal : ImprovementProposal)
    (d : ApplyDraw) (events : List SkillEvent) : Prop where
  | kept (hnone : ∀ skill, ¬ Registers o s proposal d skill) (h : events = s.skillEvents)
  | registered (skill : SkillRegistered) (hskill : Registers o s proposal d skill)
      (h : events = s.skillEvents ++ [⟨"skill.registered", skill.payload, d.registeredAt⟩])

theorem Grown.register {proposalId uuid : String} (h : Grown s proposalId uuid s')
    (skill : SkillRegistered) (time : String) :
    Grown s proposalId uuid { s' with skillEvents :=
      s'.skillEvents ++ [⟨"skill.registered", skill.payload, time⟩] } := by
  obtain ⟨skills, hskills⟩ := h.sound.readable
  obtain ⟨stored, -, hstored⟩ := rebuildSkills_registered hskills skill time
  exact ⟨⟨h.sound.synced, h.sound.keyed, _, hstored⟩, h.kept, h.recorded, h.claimed⟩

theorem registered_grown (hgrown : Grown s proposal.id d.uuid s')
    (hevents : s'.skillEvents = s.skillEvents)
    (hregisters : ∀ skill, Registers o s proposal d skill ↔
      (∃ toolId, proposal.proposedChange.property? "toolId" = some toolId ∧
        learnedSkill o proposal toolId d.registeredAt = some skill) ∧
      skill.issues o.service.formats = [] ∧ d.registered) :
    Grown s proposal.id d.uuid (register o s' proposal d).1 ∧
      SkillsAfter o s proposal d (register o s' proposal d).1.skillEvents := by
  obtain ⟨heq, hnone⟩ | ⟨toolId, skill, htool, hskill, hvalid, hregistered, heq⟩ :=
    register_cases o s' proposal d
  · rw [heq]
    refine ⟨hgrown, .kept (fun skill h => ?_) hevents⟩
    obtain ⟨⟨toolId, htool, hskill⟩, hvalid, hregistered⟩ := (hregisters skill).mp h
    exact hnone toolId skill htool hskill hvalid hregistered
  · rw [heq]
    exact ⟨hgrown.register skill d.registeredAt,
      .registered skill ((hregisters skill).mpr ⟨⟨toolId, htool, hskill⟩, hvalid, hregistered⟩)
        (by rw [hevents])⟩

theorem apply_grown (hsound : s.Sound) (hfresh : s.memory.claims.get d.uuid = none) :
    Grown s proposal.id d.uuid (apply o s proposal d).1 ∧
      SkillsAfter o s proposal d (apply o s proposal d).1.skillEvents := by
  have hrefl := Grown.refl hsound proposal.id d.uuid
  unfold apply
  split
  · next reason hrefusal =>
    refine ⟨hrefl, .kept (fun skill h => ?_) rfl⟩
    have hpermitted := h.permitted
    rw [hrefusal] at hpermitted
    cases hpermitted
  · next hrefusal =>
    split
    · next claimId hclaimed =>
      refine ⟨hrefl, .kept (fun skill h => ?_) rfl⟩
      have hunclaimed := h.unclaimed
      rw [hclaimed] at hunclaimed
      cases hunclaimed
    · next hunclaimed =>
      split
      · next hfull => exact ⟨hrefl, .kept (fun skill h => absurd h.room (by omega)) rfl⟩
      · next hroom =>
        obtain ⟨hgrown, hevents⟩ := adopt_grown (o := o) hsound hunclaimed hfresh
        have hiff := @adopt_ok_iff o s proposal d
        split
        · next s' error hadopt =>
          rw [hadopt] at hgrown hevents hiff
          refine ⟨hgrown, .kept (fun skill h => ?_) hevents⟩
          cases hiff.mpr ⟨h.wellFormed, h.appended, h.ingests, h.ingested⟩
        · next s' hadopt =>
          rw [hadopt] at hgrown hevents hiff
          obtain ⟨hwell, happended, hingests, hingested⟩ := hiff.mp rfl
          simp only
          split
          · next hlearned =>
            have hafter := registered_grown (o := o) hgrown hevents fun skill =>
              ⟨fun h => ⟨h.fromTool, h.valid, h.registered⟩, fun h =>
                ⟨hrefusal, hunclaimed, by omega, hwell, happended, hingests, hingested, hlearned,
                  h.1, h.2.1, h.2.2⟩⟩
            split
            · next hregister => rw [hregister] at hafter; exact hafter
            · next hregister => rw [hregister] at hafter; exact hafter
          · next hlearned =>
            exact ⟨hgrown, .kept (fun skill h => hlearned h.learned) hevents⟩

end Apply

/-! ### Reversion -/

section Revert
variable {o : ReversionOptions} {s s' : Adoption} {proposal : ImprovementProposal}
  {proposalId claimId : String} {reason : Option String} {r : RevertDraw}

theorem recover_claims (hsound : s.Sound) (h : s.claims.get proposalId = some claimId) :
    (recover s).claims.get proposalId = some claimId := hsound.synced _ _ h

/-- What a reversion that resolves leaves of a claim. -/
structure Reverted (s : Adoption) (claimId : String) (s' : Adoption) : Prop where
  retracted : s'.memory.statusOf claimId ≠ some .active
  kept : ∀ id, id ≠ claimId → s'.memory.claims.get id = s.memory.claims.get id
  keyed : s'.memory.Keyed
  skills : s'.skillEvents = s.skillEvents

theorem retractActivation_reverted (hkeyed : s.memory.Keyed) {result : String × String}
    (h : retractActivation o s proposalId claimId reason r = (s', .ok result)) :
    Reverted s claimId s' := by
  unfold retractActivation at h
  split at h
  · cases h
  · next events hevents =>
    unfold Projection.retractNow at hevents
    split at hevents
    · cases hevents
    · next claim hclaim =>
      cases hevents
      rw [foldAll_single rfl] at h
      split at h
      · simp only at h
        split at h
        · cases h
        split at h
        · cases h
          refine ⟨?_, fun id hid => get_replay_retracted _ id hid,
            Projection.keyed_replay hkeyed, rfl⟩
          simp only
          rw [Projection.statusOf_replay]
          cases hstatus : s.memory.statusOf claimId <;> simp
        · cases h
      · cases h

theorem undo_cases (hsound : s.Sound) {way : Way} {result : Option (String × String)}
    (h : undo o s proposal way = (s', .ok result)) :
    s'.memory = s.memory ∧ s'.skillEvents = s.skillEvents ∧ s.claims.get proposal.id = none ∨
    ∃ claimId, Reverted s claimId s' ∧ (s.claims.get proposal.id = some claimId ∨
      s.claims.get proposal.id = none ∧ Recorded s.payloads proposal.id claimId) := by
  obtain ⟨started, hstarted, hof⟩ : ∃ started, started = (if way.recovers then recover s else s) ∧
      ∀ claimId, started.claims.get proposal.id = some claimId →
        s.claims.get proposal.id = some claimId ∨
          s.claims.get proposal.id = none ∧ Recorded s.payloads proposal.id claimId := by
    refine ⟨_, rfl, fun claimId hget => ?_⟩
    split at hget
    · cases hmap : s.claims.get proposal.id with
      | none => exact .inr ⟨rfl, recorded_of_rebuild hget⟩
      | some held => exact .inl ((recover_claims hsound hmap).symm.trans hget)
    · exact .inl hget
  have hsame : started.memory = s.memory ∧ started.skillEvents = s.skillEvents := by
    subst hstarted
    split <;> exact ⟨rfl, rfl⟩
  have habsent : started.claims.get proposal.id = none → s.claims.get proposal.id = none := by
    intro hget
    cases hmap : s.claims.get proposal.id with
    | none => rfl
    | some held =>
      subst hstarted
      split at hget
      · rw [recover_claims hsound hmap] at hget
        cases hget
      · rw [hmap] at hget
        cases hget
  have hreverts : ∀ claimId reverted, started.claims.get proposal.id = some claimId →
      retractActivation o started proposal.id claimId way.reason way.draw = (s', .ok reverted) →
      ∃ claimId, Reverted s claimId s' ∧ (s.claims.get proposal.id = some claimId ∨
        s.claims.get proposal.id = none ∧ Recorded s.payloads proposal.id claimId) := by
    intro claimId reverted hget hretract
    obtain ⟨hretracted, hkept, hkeyed, hskills⟩ :=
      retractActivation_reverted (hsame.1 ▸ hsound.keyed) hretract
    exact ⟨claimId, ⟨hretracted, hsame.1 ▸ hkept, hkeyed, hskills.trans hsame.2⟩, hof claimId hget⟩
  unfold undo at h
  rw [← hstarted] at h
  simp only at h
  split at h
  · unfold revertByProposalId at h
    split at h
    · next hget =>
      cases h
      exact .inl ⟨hsame.1, hsame.2, habsent hget⟩
    · next claimId hget =>
      obtain ⟨rfl, hresult⟩ := Prod.mk.inj h
      obtain ⟨reverted, hreverted, -⟩ := exists_of_map_ok hresult
      exact .inr (hreverts claimId reverted hget (Prod.ext rfl hreverted))
  · unfold revert at h
    split at h
    · cases h
    · next claimId hget =>
      obtain ⟨rfl, hresult⟩ := Prod.mk.inj h
      obtain ⟨reverted, hreverted, -⟩ := exists_of_map_ok hresult
      exact .inr (hreverts claimId reverted hget (Prod.ext rfl hreverted))

end Revert

/-! ### Application and reversion -/

section Undone
variable {o : ReversionOptions} {s s' : Adoption} {proposal : ImprovementProposal} {d : ApplyDraw}

def Adoption.claimOf (s : Adoption) (proposalId uuid : String) : String :=
  (s.claims.get proposalId).getD uuid

/-- What a reversion has to leave of what was there before the application. -/
structure Undone (o : ReversionOptions) (s : Adoption) (proposalId uuid : String) (s' : Adoption) :
    Prop where
  forgotten : ∀ (query : MemoryQuery) (clock : String),
    ∀ claim ∈ s'.memory.query o.memory query clock, claim.id ≠ s.claimOf proposalId uuid
  claimsKept : ∀ id, id ≠ uuid → ¬ Recorded s.payloads proposalId id →
    s'.memory.claims.get id = s.memory.claims.get id
  unrunnable : ∀ skillId skill, s'.skills.get skillId = some skill → ¬ IsOf proposalId skill
  skillsKept : ∀ skillId skill, ¬ IsOf proposalId skill →
    (s'.skills.get skillId = some skill ↔ s.skills.get skillId = some skill)

theorem inactive_of_undo {s₁ : Adoption} {proposalId uuid : String}
    (hfresh : s.memory.claims.get uuid = none) (hgrown : Grown s proposalId uuid s₁)
    (h : s'.memory = s₁.memory ∧ s'.skillEvents = s₁.skillEvents ∧
        s₁.claims.get proposalId = none ∨
      ∃ claimId, Reverted s₁ claimId s' ∧ (s₁.claims.get proposalId = some claimId ∨
        s₁.claims.get proposalId = none ∧ Recorded s₁.payloads proposalId claimId)) :
    s'.memory.statusOf (s.claimOf proposalId uuid) ≠ some .active ∧ s'.memory.Keyed := by
  have hunknown : s.memory.statusOf uuid ≠ some .active := by
    simp [Projection.statusOf, hfresh]
  obtain ⟨hmemory, -, hnone⟩ | ⟨claimId, hreverted, hof⟩ := h
  · refine ⟨?_, hmemory ▸ hgrown.sound.keyed⟩
    obtain ⟨hsome, -⟩ | ⟨hclaims, hsame⟩ := hgrown.claimed
    · rw [hsome] at hnone
      cases hnone
    · rwa [Adoption.claimOf, ← hclaims, hnone, hmemory, hsame]
  · refine ⟨?_, hreverted.keyed⟩
    obtain ⟨hsome, hnew⟩ | ⟨hclaims, hsame⟩ := hgrown.claimed
    · rw [hsome] at hof
      obtain hof | ⟨hof, -⟩ := hof
      · cases hof
        rw [Adoption.claimOf, hnew]
        exact hreverted.retracted
      · cases hof
    · rw [Adoption.claimOf, ← hclaims]
      obtain hof | ⟨hof, -⟩ := hof
      · rw [hof]
        exact hreverted.retracted
      · rw [hof, Option.getD_none]
        by_cases heq : uuid = claimId
        · rw [heq]
          exact hreverted.retracted
        · rwa [Projection.statusOf, hreverted.kept uuid heq, hsame]

theorem kept_of_undo {s₁ : Adoption} {proposalId uuid : String}
    (hgrown : Grown s proposalId uuid s₁)
    (h : s'.memory = s₁.memory ∧ s'.skillEvents = s₁.skillEvents ∧
        s₁.claims.get proposalId = none ∨
      ∃ claimId, Reverted s₁ claimId s' ∧ (s₁.claims.get proposalId = some claimId ∨
        s₁.claims.get proposalId = none ∧ Recorded s₁.payloads proposalId claimId))
    (id : String) (hid : id ≠ uuid) (hother : ¬ Recorded s.payloads proposalId id) :
    s'.memory.claims.get id = s.memory.claims.get id := by
  obtain ⟨hmemory, -⟩ | ⟨claimId, hreverted, hof⟩ := h
  · rw [hmemory, hgrown.kept id hid]
  · have hrecorded : Recorded s₁.payloads proposalId claimId :=
      hof.elim (fun hget => recorded_of_rebuild (hgrown.sound.synced _ _ hget)) fun h => h.2
    have hne : id ≠ claimId := by
      rintro rfl
      exact (hgrown.recorded id hrecorded).elim hid hother
    rw [hreverted.kept id hne, hgrown.kept id hid]

/-- Reverting undoes exactly the applications that register no skill, where none was there. -/
theorem revert_undoes_apply_iff (hsound : s.Sound) (hfresh : s.memory.claims.get d.uuid = none)
    {way : Way} {result : Option (String × String)}
    (hundo : undo o (apply o s proposal d).1 proposal way = (s', .ok result)) :
    Undone o s proposal.id d.uuid s' ↔ (∀ skill, ¬ Registers o s proposal d skill) ∧
      ∀ skillId skill, s.skills.get skillId = some skill → ¬ IsOf proposal.id skill := by
  obtain ⟨hgrown, hafter⟩ := @apply_grown o s proposal d hsound hfresh
  have hcases := undo_cases hgrown.sound hundo
  have hskills : s'.skillEvents = (apply o s proposal d).1.skillEvents := by
    obtain ⟨-, hskills, -⟩ | ⟨claimId, hreverted, -⟩ := hcases
    · exact hskills
    · exact hreverted.skills
  constructor
  · intro hundone
    cases hafter with
    | kept hnone hevents =>
      refine ⟨hnone, fun skillId skill hget => hundone.unrunnable skillId skill ?_⟩
      rw [Adoption.skills, hskills, hevents]
      exact hget
    | registered skill hskill hevents =>
      obtain ⟨skills, hreadable⟩ := hsound.readable
      obtain ⟨stored, hof, hstored⟩ :=
        rebuildSkills_registered hreadable skill d.registeredAt
      obtain ⟨toolId, -, hlearned⟩ := hskill.fromTool
      refine absurd (learnedSkill_origin hlearned ▸ hof)
        (hundone.unrunnable skill.skillId stored ?_)
      rw [Adoption.skills, hskills, hevents, hstored]
      simp
  · rintro ⟨hnone, hfree⟩
    have hevents : s'.skillEvents = s.skillEvents := by
      cases hafter with
      | kept _ hevents => exact hskills.trans hevents
      | registered skill hskill => exact absurd hskill (hnone skill)
    obtain ⟨hinactive, hkeyed⟩ := inactive_of_undo hfresh hgrown hcases
    refine ⟨fun query clock claim hclaim => ne_of_query hkeyed hinactive hclaim,
      kept_of_undo hgrown hcases, ?_, ?_⟩
    · rw [Adoption.skills, hevents]
      exact hfree
    · intro skillId skill _
      rw [Adoption.skills, hevents]
      rfl

end Undone

/-! ### A skill that stays -/

def reversionOptions : ReversionOptions where
  service := { formats := ⟨fun _ => true, fun _ => true⟩, skillStore := true }
  memory :=
    { unicode :=
        { lower := String.toLower, word := Char.isAlphanum, han := fun _ => false
          localeCompare := compare }
      formats := ⟨fun _ => true, fun _ => true⟩ }
  threads := failedLast

def nothingAdopted : Adoption := ⟨[], .empty, {}, []⟩

theorem nothingAdopted_sound : nothingAdopted.Sound :=
  ⟨fun _ _ h => (by cases h), fun _ _ h => (by cases h), .empty, rfl⟩

def lookupId : String := "0f1e2d3c-4b5a-4000-8000-000000000001"

def lookupClaimId : String := "8c2d1e5a-0000-4000-8000-000000000001"

def lookupProposal (type : ProposalType) : ImprovementProposal where
  id := lookupId
  type
  targetKey := "tool:lookup"
  basedOnTrajectoryIds := [⟨"a", "turn"⟩]
  hypothesis := "h"
  proposedChange := .object [("toolId", .string "lookup"), ("usageCount", .number (.ofNat 6))]
  expectedBenefits := []
  risks := []
  evaluationPlan := "e"
  rollbackPlan := "r"
  autonomyLevel := (Fin.last 2).castAdd 1
  status := .promoted
  origin := .loop
  version := 4
  createdAt := "2026-01-01T00:00:00Z"
  updatedAt := "2026-01-01T00:00:00Z"

def lookupDraw : ApplyDraw where
  activatedAt := "2026-01-02T00:00:00Z"
  uuid := lookupClaimId
  sequence := 1
  memoryNow := "2026-01-02T00:00:00Z"
  registeredAt := "2026-01-02T00:00:00Z"

def rolledBack : Way := ⟨true, true, none, { revertedAt := "2026-01-03T00:00:00Z" }⟩

/-- A proposal of the type is applied and rolled back. -/
def turned (type : ProposalType) : Adoption × Except ActivationError (Option (String × String)) :=
  undo reversionOptions (apply reversionOptions nothingAdopted (lookupProposal type) lookupDraw).1
    (lookupProposal type) rolledBack

theorem revert_undoes_apply_sample :
    ((turned .guardrail).1.memory.statusOf lookupClaimId = some .retracted ∧
      (turned .guardrail).2 = .ok (some (lookupId, lookupClaimId))) ∧
    Undone reversionOptions nothingAdopted lookupId lookupClaimId (turned .guardrail).1 := by
  have hundo : turned .guardrail =
      ((turned .guardrail).1, .ok (some (lookupId, lookupClaimId))) := rfl
  refine ⟨⟨by decide +kernel, rfl⟩,
    (revert_undoes_apply_iff nothingAdopted_sound rfl hundo).mpr ⟨fun skill h => ?_, ?_⟩⟩
  · cases h.learned
  · rintro skillId skill h
    cases h

/-- The claim is retracted, and the skill can still be run. -/
theorem skill_outlives_revert : nothingAdopted.Sound ∧ refusal (lookupProposal .skill) = none ∧
    (turned .skill).2 = .ok (some (lookupId, lookupClaimId)) ∧
    (turned .skill).1.skills.entries.map Prod.fst = ["learned-0f1e2d3c"] ∧
    ¬ Undone reversionOptions nothingAdopted lookupId lookupClaimId (turned .skill).1 := by
  have hskill : ((turned .skill).1.skills.get "learned-0f1e2d3c").map (·.origin) =
      some (.object [("proposalId", .string lookupId), ("targetKey", .string "tool:lookup")]) :=
    rfl
  refine ⟨nothingAdopted_sound, rfl, rfl, rfl, fun hundone => ?_⟩
  obtain ⟨skill, hget, horigin⟩ := Option.map_eq_some_iff.mp hskill
  refine hundone.unrunnable "learned-0f1e2d3c" skill hget ?_
  rw [IsOf, horigin]
  rfl

end BeeAgent.Learning.Reversion
