import BeeAgent.Data.Access
import BeeAgent.Data.OrderedMap
import BeeAgent.Kanban.Protocol

/-! The events of the `skills` stream, their schemas, and the two folds of the stream: the one of
`SkillStore.rebuild` and the one of `readSkills`. -/
namespace BeeAgent.Skills
open Data
open Kanban (Formats)
open Kanban.Schema (check optional nonempty datetime)

structure SkillEvent where
  eventType : String
  payload : Value
  eventTime : String

/-- A live skill as the registry and the model-facing tool see it. -/
structure StoredSkill where
  skillId : String
  name : String
  summary : String
  instructions : String
  boundToolId : String
  typicalInput : Value
  origin : Value
  registeredAt : String

structure LiveSkill where
  skillId : String
  name : String
  summary : String
  instructions : String
  boundToolId : String
  typicalInput : Value

def StoredSkill.live (skill : StoredSkill) : LiveSkill where
  skillId := skill.skillId
  name := skill.name
  summary := skill.summary
  instructions := skill.instructions
  boundToolId := skill.boundToolId
  typicalInput := skill.typicalInput

/-! ### The two folds -/

/-- The properties that the folds read of a payload. -/
structure SkillPayload where
  skillId : Value
  name : Value
  summary : Value
  instructions : Value
  boundToolId : Value
  typicalInput : Value
  origin : Value
  registeredAt : Value

/-- Nothing is read of a payload that is `undefined` or `null`: the fold throws. -/
def SkillPayload.read (payload : Value) : Option SkillPayload := do
  let skillId ← payload.property? "skillId"
  let name ← payload.property? "name"
  let summary ← payload.property? "summary"
  let instructions ← payload.property? "instructions"
  let boundToolId ← payload.property? "boundToolId"
  let typicalInput ← payload.property? "typicalInput"
  let origin ← payload.property? "origin"
  let registeredAt ← payload.property? "registeredAt"
  return ⟨skillId, name, summary, instructions, boundToolId, typicalInput, origin, registeredAt⟩

/-- What an event says of the skill with the id, where `α` is what a fold keeps of a skill. -/
inductive SkillFact (α : Type) where
  | registered (skillId : String) (skill : α)
  | revoked (skillId : String)

def SkillFact.skillId {α : Type} : SkillFact α → String
  | .registered skillId _ | .revoked skillId => skillId

/-- `typeof v === 'object'` -/
def isObject : Value → Bool
  | .object _ | .array _ | .null => true
  | _ => false

def storedSkill (skillId eventTime : String) (p : SkillPayload) : Option StoredSkill :=
  match p.name, p.summary, p.instructions, p.boundToolId with
  | .string name, .string summary, .string instructions, .string boundToolId =>
    if p.typicalInput matches .undefined then none
    else if !isObject p.origin || p.origin matches .null then none
    else some
      { skillId, name, summary, instructions, boundToolId
        typicalInput := p.typicalInput
        origin := p.origin
        registeredAt := match p.registeredAt with
          | .string registeredAt => registeredAt
          | _ => eventTime }
  | _, _, _, _ => none

def liveSkill (skillId : String) (p : SkillPayload) : Option LiveSkill :=
  match p.name, p.summary, p.instructions, p.boundToolId with
  | .string name, .string summary, .string instructions, .string boundToolId =>
    if !(p.typicalInput matches .undefined) && isObject p.typicalInput then
      some { skillId, name, summary, instructions, boundToolId, typicalInput := p.typicalInput }
    else none
  | _, _, _, _ => none

/-- What a fold takes an event for; an event that it skips says nothing. -/
def factOf {α : Type} (eventType : String) (p : SkillPayload) (skill : String → Option α) :
    Option (SkillFact α) :=
  match p.skillId with
  | .string skillId =>
    if eventType = "skill.registered" then (skill skillId).map (.registered skillId)
    else if eventType = "skill.revoked" then some (.revoked skillId)
    else none
  | _ => none

def keepFact {α : Type} (skills : OrderedMap String α) : Option (SkillFact α) → OrderedMap String α
  | some (.registered skillId skill) => skills.set skillId skill
  | some (.revoked skillId) => skills.delete skillId
  | none => skills

def storedFact (event : SkillEvent) (p : SkillPayload) : Option (SkillFact StoredSkill) :=
  factOf event.eventType p fun skillId => storedSkill skillId event.eventTime p

def liveFact (event : SkillEvent) (p : SkillPayload) : Option (SkillFact LiveSkill) :=
  factOf event.eventType p fun skillId => liveSkill skillId p

/-- `SkillStore.rebuild` over a stream; it throws where a payload has no properties. -/
def rebuildSkills (events : List SkillEvent) : Option (OrderedMap String StoredSkill) :=
  events.foldlM (fun skills event =>
    (SkillPayload.read event.payload).map fun p => keepFact skills (storedFact event p)) .empty

def readSkills (events : List SkillEvent) : Option (OrderedMap String LiveSkill) :=
  events.foldlM (fun skills event =>
    (SkillPayload.read event.payload).map fun p => keepFact skills (liveFact event p)) .empty

/-! ### Schemas -/

structure SkillProposalOrigin where
  proposalId : String
  targetKey : String
  deriving DecidableEq, Repr

structure SkillRegistered where
  skillId : String
  name : String
  summary : String
  instructions : String
  boundToolId : String
  typicalInput : List (String × Value)
  origin : SkillProposalOrigin
  registeredBy : String
  registeredAt : String

structure SkillRevoked where
  skillId : String
  reason : Option String
  registeredBy : String
  registeredAt : String

section Schema
variable (f : Formats)

def SkillRegistered.issues (p : SkillRegistered) : List String :=
  nonempty "skillId" p.skillId ++ nonempty "name" p.name ++ nonempty "summary" p.summary ++
    nonempty "instructions" p.instructions ++ nonempty "boundToolId" p.boundToolId ++
    nonempty "origin.proposalId" p.origin.proposalId ++
    nonempty "origin.targetKey" p.origin.targetKey ++ nonempty "registeredBy" p.registeredBy ++
    datetime f "registeredAt" p.registeredAt

def SkillRevoked.issues (p : SkillRevoked) : List String :=
  nonempty "skillId" p.skillId ++ optional p.reason (nonempty "reason") ++
    nonempty "registeredBy" p.registeredBy ++ datetime f "registeredAt" p.registeredAt

end Schema

def SkillRegistered.payload (p : SkillRegistered) : Value :=
  .object
    [("skillId", .string p.skillId), ("name", .string p.name), ("summary", .string p.summary),
      ("instructions", .string p.instructions), ("boundToolId", .string p.boundToolId),
      ("typicalInput", .object p.typicalInput),
      ("origin", .object [("proposalId", .string p.origin.proposalId),
        ("targetKey", .string p.origin.targetKey)]),
      ("registeredBy", .string p.registeredBy), ("registeredAt", .string p.registeredAt)]

def SkillRevoked.payload (p : SkillRevoked) : Value :=
  .object ([("skillId", .string p.skillId)] ++ optionalField "reason" (p.reason.map .string) ++
    [("registeredBy", .string p.registeredBy), ("registeredAt", .string p.registeredAt)])

/-- A string with at least one character stands at the key. -/
def stringAt (payload : Value) (key : String) (p : String → Bool) : Bool :=
  match payload.property? key with
  | some (.string s) => p s
  | _ => false

def record? (payload : Value) (key : String) : Option Value :=
  match payload.property? key with
  | some (.object fields) => some (.object fields)
  | _ => none

/-- The payload passes the schema of its event type. -/
def SkillEvent.valid (f : Formats) (event : SkillEvent) : Bool :=
  let text := fun key => stringAt event.payload key (· ≠ "")
  if event.eventType = "skill.registered" then
    text "skillId" && text "name" && text "summary" && text "instructions" && text "boundToolId" &&
      (record? event.payload "typicalInput").isSome &&
      (match record? event.payload "origin" with
        | some origin => stringAt origin "proposalId" (· ≠ "") && stringAt origin "targetKey" (· ≠ "")
        | none => false) &&
      text "registeredBy" && stringAt event.payload "registeredAt" f.datetime
  else if event.eventType = "skill.revoked" then
    text "skillId" && text "registeredBy" && stringAt event.payload "registeredAt" f.datetime &&
      (event.payload.property? "reason" matches some .undefined || text "reason")
  else false

/-! ### The folds agree -/

def SkillFact.mapSkill {α β : Type} (f : α → β) : SkillFact α → SkillFact β
  | .registered skillId skill => .registered skillId (f skill)
  | .revoked skillId => .revoked skillId

section Folds
variable {f : Formats} {event : SkillEvent} {key : String}

theorem stringAt_eq {payload : Value} {p : String → Bool} (h : stringAt payload key p) :
    ∃ s, payload.property? key = some (.string s) := by
  unfold stringAt at h
  split at h
  · next s hs => exact ⟨s, hs⟩
  · cases h

theorem record?_eq {payload v : Value} (h : record? payload key = some v) :
    payload.property? key = some v ∧ ∃ fields, v = .object fields := by
  unfold record? at h
  split at h
  · next fields hfields =>
    cases h
    exact ⟨hfields, fields, rfl⟩
  · cases h

theorem read_of_property {payload v : Value} (h : payload.property? key = some v) :
    ∃ p, SkillPayload.read payload = some p := by
  cases payload with
  | undefined | null => cases h
  | boolean | number | string | array | object => exact ⟨_, rfl⟩

theorem read_property {payload : Value} {p : SkillPayload} (h : SkillPayload.read payload = some p) :
    payload.property? "skillId" = some p.skillId ∧ payload.property? "name" = some p.name ∧
    payload.property? "summary" = some p.summary ∧
    payload.property? "instructions" = some p.instructions ∧
    payload.property? "boundToolId" = some p.boundToolId ∧
    payload.property? "typicalInput" = some p.typicalInput ∧
    payload.property? "origin" = some p.origin := by
  cases payload with
  | undefined | null => cases h
  | boolean | number | string | array | object =>
    cases h
    exact ⟨rfl, rfl, rfl, rfl, rfl, rfl, rfl⟩

theorem factOf_registered {α : Type} {eventType skillId : String} {p : SkillPayload}
    {skill : String → Option α} (htype : eventType = "skill.registered")
    (hid : p.skillId = .string skillId) :
    factOf eventType p skill = (skill skillId).map (.registered skillId) := by
  simp [factOf, htype, hid]

theorem factOf_revoked {α : Type} {eventType skillId : String} {p : SkillPayload}
    {skill : String → Option α} (htype : eventType = "skill.revoked")
    (hid : p.skillId = .string skillId) : factOf eventType p skill = some (.revoked skillId) := by
  simp [factOf, htype, hid]

/-- Both folds read a valid event, and read the same fact. -/
theorem facts_of_valid (h : event.valid f) : ∃ p fact,
    SkillPayload.read event.payload = some p ∧ storedFact event p = some fact ∧
    liveFact event p = some (fact.mapSkill StoredSkill.live) := by
  unfold SkillEvent.valid at h
  dsimp only at h
  split at h
  · next htype =>
    simp only [Bool.and_eq_true] at h
    obtain ⟨⟨⟨⟨⟨⟨⟨⟨hid, hname⟩, hsummary⟩, hinstructions⟩, hbound⟩, hinput⟩, horigin⟩, -⟩, -⟩ := h
    obtain ⟨id, hid⟩ := stringAt_eq hid
    obtain ⟨name, hname⟩ := stringAt_eq hname
    obtain ⟨summary, hsummary⟩ := stringAt_eq hsummary
    obtain ⟨instructions, hinstructions⟩ := stringAt_eq hinstructions
    obtain ⟨bound, hbound⟩ := stringAt_eq hbound
    obtain ⟨input, hinput⟩ := Option.isSome_iff_exists.mp hinput
    obtain ⟨hinput, fields, rfl⟩ := record?_eq hinput
    obtain ⟨p, hp⟩ := read_of_property hid
    obtain ⟨hid', hname', hsummary', hinstructions', hbound', hinput', horigin'⟩ := read_property hp
    split at horigin
    · next origin hrecord =>
      obtain ⟨horigin, fields', rfl⟩ := record?_eq hrecord
      obtain ⟨idValue, nameValue, summaryValue, instructionsValue, boundValue, inputValue,
        originValue, atValue⟩ := p
      simp only [hid, hname, hsummary, hinstructions, hbound, hinput, horigin,
        Option.some.injEq] at hid' hname' hsummary' hinstructions' hbound' hinput' horigin'
      subst hid' hname' hsummary' hinstructions' hbound' hinput' horigin'
      obtain ⟨skill, hstored, hlive⟩ : ∃ skill,
          storedSkill id event.eventTime ⟨.string id, .string name, .string summary,
            .string instructions, .string bound, .object fields, .object fields', atValue⟩ =
            some skill ∧
          liveSkill id ⟨.string id, .string name, .string summary, .string instructions,
            .string bound, .object fields, .object fields', atValue⟩ = some skill.live :=
        ⟨_, rfl, rfl⟩
      refine ⟨_, .registered id skill, hp, ?_, ?_⟩
      · exact (factOf_registered htype rfl).trans (congrArg (Option.map _) hstored)
      · exact (factOf_registered htype rfl).trans (congrArg (Option.map _) hlive)
    · cases horigin
  split at h
  · next htype =>
    simp only [Bool.and_eq_true] at h
    obtain ⟨id, hid⟩ := stringAt_eq h.1.1.1
    obtain ⟨p, hp⟩ := read_of_property hid
    have hid' := hid.symm.trans (read_property hp).1
    obtain ⟨idValue, nameValue, summaryValue, instructionsValue, boundValue, inputValue,
      originValue, atValue⟩ := p
    obtain rfl : Value.string id = idValue := Option.some.inj hid'
    exact ⟨_, .revoked id, hp, factOf_revoked htype rfl, factOf_revoked htype rfl⟩
  · cases h

theorem keepFact_live (skills : OrderedMap String StoredSkill) (fact : SkillFact StoredSkill) :
    (keepFact skills (some fact)).mapValues StoredSkill.live =
      keepFact (skills.mapValues StoredSkill.live) (some (fact.mapSkill StoredSkill.live)) := by
  cases fact with
  | registered skillId skill => exact OrderedMap.mapValues_set ..
  | revoked skillId => exact OrderedMap.mapValues_delete ..

theorem rebuildSkills_live {events : List SkillEvent} (hvalid : ∀ event ∈ events, event.valid f) :
    ∃ skills, rebuildSkills events = some skills ∧
      readSkills events = some (skills.mapValues StoredSkill.live) := by
  have hfold : ∀ skills : OrderedMap String StoredSkill, ∃ skills',
      events.foldlM (fun skills event => (SkillPayload.read event.payload).map fun p =>
        keepFact skills (storedFact event p)) skills = some skills' ∧
      events.foldlM (fun skills event => (SkillPayload.read event.payload).map fun p =>
        keepFact skills (liveFact event p)) (skills.mapValues StoredSkill.live) =
        some (skills'.mapValues StoredSkill.live) := by
    induction events with
    | nil => exact fun skills => ⟨skills, rfl, rfl⟩
    | cons event events ih =>
      intro skills
      obtain ⟨p, fact, hread, hstored, hlive⟩ := facts_of_valid (hvalid event (List.mem_cons_self ..))
      obtain ⟨skills', hrebuild, hskills⟩ := ih (fun e he => hvalid e (List.mem_cons_of_mem _ he))
        (keepFact skills (some fact))
      refine ⟨skills', ?_, ?_⟩
      · rw [List.foldlM_cons, hread, Option.map_some, hstored]
        exact hrebuild
      · rw [List.foldlM_cons, hread, Option.map_some, hlive, ← keepFact_live]
        exact hskills
  exact hfold .empty

end Folds

end BeeAgent.Skills
