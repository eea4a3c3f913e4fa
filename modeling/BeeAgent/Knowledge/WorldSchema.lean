import BeeAgent.Data.Value

/-! The world model's data: entities, relations with their provenance, and what a projector derives
from one event. -/
namespace BeeAgent.Knowledge
open Data

inductive WorldEntityKind where
  | actor | resource | capability | location
  deriving DecidableEq, Repr

inductive WorldAttributeValue where
  | string (s : String)
  | number (n : Number)
  | boolean (b : Bool)
  | null
  deriving DecidableEq, Repr

structure WorldEntity where
  id : String
  kind : WorldEntityKind
  subtype : Option String := none
  attributes : List (String × WorldAttributeValue)
  firstSeenAt : String
  lastSeenAt : String
  deriving DecidableEq, Repr

structure NewWorldEntityInput where
  id : String
  kind : WorldEntityKind
  subtype : Option String := none
  attributes : List (String × WorldAttributeValue) := []
  seenAt : Option String := none
  deriving DecidableEq, Repr

/-- Where a fact was learned. -/
structure WorldProvenance where
  streamId : String
  sequence : ℕ
  threadId : Option String := none
  turnId : Option String := none
  itemId : Option String := none
  deriving DecidableEq, Repr

inductive WorldRelationType where
  | owns | dependsOn | contains | connectedTo | authorizedFor | producedBy | used
  deriving DecidableEq, Repr

structure ValidTime where
  from_ : String
  to_ : Option String := none
  deriving DecidableEq, Repr

structure WorldRelation where
  id : String
  type : WorldRelationType
  fromEntityId : String
  toEntityId : String
  provenance : WorldProvenance
  validTime : ValidTime
  recordedAt : String
  deriving DecidableEq, Repr

structure NewWorldRelationInput where
  type : WorldRelationType
  fromEntityId : String
  toEntityId : String
  provenance : WorldProvenance
  validTime : Option ValidTime := none
  id : Option String := none
  recordedAt : Option String := none
  deriving DecidableEq, Repr

structure WorldProjectionInput where
  entities : List NewWorldEntityInput := []
  relations : List NewWorldRelationInput := []
  deriving DecidableEq, Repr

/-- One record call of several, in their order. -/
def mergeInputs (inputs : List WorldProjectionInput) : WorldProjectionInput where
  entities := inputs.flatMap (·.entities)
  relations := inputs.flatMap (·.relations)

def WorldProjectionInput.Within (facts whole : WorldProjectionInput) : Prop :=
  facts.entities ⊆ whole.entities ∧ facts.relations ⊆ whole.relations

theorem within_mergeInputs {facts : WorldProjectionInput} {inputs : List WorldProjectionInput}
    (h : facts ∈ inputs) : facts.Within (mergeInputs inputs) :=
  ⟨fun _ he => List.mem_flatMap.mpr ⟨facts, h, he⟩, fun _ hr => List.mem_flatMap.mpr ⟨facts, h, hr⟩⟩

end BeeAgent.Knowledge
