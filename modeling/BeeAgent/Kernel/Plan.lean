import BeeAgent.Data.Value

/-! Plugin graphs: their digests, the checks and the activation order of one graph, and the plan
from one graph to the next. -/
namespace BeeAgent.Structure
open BeeAgent.Data

inductive ReplacementTier where
  | a | b | c
  deriving DecidableEq, Repr

def ReplacementTier.text : ReplacementTier → String
  | .a => "a"
  | .b => "b"
  | .c => "c"

/-- A plugin in the desired graph; what `apply` and `healthCheck` do comes in through the inputs
of the machine. -/
structure RuntimePlugin where
  id : String
  version : String
  config : Option Value := none
  inject : Option (List String) := none
  provides : Option (List String) := none
  replacementTier : Option ReplacementTier := none

structure PluginGraph where
  structureVersion : String
  plugins : List RuntimePlugin

inductive KernelError where
  | duplicatePlugin (pluginId : String)
  | duplicateServiceProvider (serviceName : String) (providers : List String)
  | missingPluginDependency (pluginId serviceName : String)
  | pluginDependencyCycle (pluginIds : List String)
  | structureVersionCollision (structureVersion : String)
  | pluginActivation (pluginId detail : String)
  | notEligible
  | rollbackFailed (error : KernelError) (failures : List String)
  | disposeFailed (failures : List String)
  | thrown (message : String)

/-- `configDigest`: a missing configuration counts as `null`. -/
def configDigest (sha256 : String → String) (config : Value) : String :=
  "sha256:" ++ sha256 (canonicalJson (match config with
    | .undefined => .null
    | config => config))

def pluginDescriptor (plugin : RuntimePlugin) : Value :=
  .object [("id", .string plugin.id), ("version", .string plugin.version),
    ("config", plugin.config.getD .undefined), ("inject", plugin.inject.elim .undefined strings),
    ("provides", plugin.provides.elim .undefined strings),
    ("replacementTier", plugin.replacementTier.elim .undefined fun tier => .string tier.text)]

def pluginDescriptorDigest (sha256 : String → String) (plugin : RuntimePlugin) : String :=
  configDigest sha256 (pluginDescriptor plugin)

def pluginGraphDigest (sha256 : String → String) (plugins : List RuntimePlugin) : String :=
  configDigest sha256 (.array (plugins.map pluginDescriptor))

def topologyDescriptor (plugin : RuntimePlugin) : Value :=
  .object [("id", .string plugin.id), ("version", .string plugin.version),
    ("inject", plugin.inject.elim .undefined strings),
    ("provides", plugin.provides.elim .undefined strings)]

/-- The value of a key in a `Map` that is built from the list: the newest entry. -/
def byId (plugins : List RuntimePlugin) (id : String) : Option RuntimePlugin :=
  plugins.reverse.find? fun plugin => plugin.id == id

def replacementTier (before after : Option RuntimePlugin) : ReplacementTier :=
  let tiers := [before, after].map fun plugin => (plugin.bind RuntimePlugin.replacementTier).getD .b
  if .c ∈ tiers then .c else if .b ∈ tiers then .b else .a

inductive ChangeKind where
  | added | removed | configured | replaced
  deriving DecidableEq, Repr

structure PluginChange where
  pluginId : String
  kind : ChangeKind
  tier : ReplacementTier
  deriving DecidableEq, Repr

inductive PlanKind where
  | unchanged | liveUpdate | generationSwap | restartRequired
  deriving DecidableEq, Repr

structure ReconcilePlan where
  kind : PlanKind
  changes : List PluginChange

/-- A structural change is never below tier b. -/
def raised (tier : ReplacementTier) : ReplacementTier := if tier = .a then .b else tier

def pluginChange? (sha256 : String → String) (current incoming : List RuntimePlugin)
    (pluginId : String) : Option PluginChange :=
  let before := byId current pluginId
  let after := byId incoming pluginId
  let tier := replacementTier before after
  match before, after with
  | none, _ => some ⟨pluginId, .added, raised tier⟩
  | some _, none => some ⟨pluginId, .removed, raised tier⟩
  | some b, some a =>
    if pluginDescriptorDigest sha256 b = pluginDescriptorDigest sha256 a then none
    else if canonicalJson (topologyDescriptor b) = canonicalJson (topologyDescriptor a) then
      some ⟨pluginId, .configured, tier⟩
    else some ⟨pluginId, .replaced, raised tier⟩

def createReconcilePlan (sha256 : String → String) (current incoming : List RuntimePlugin) :
    ReconcilePlan :=
  let ids := ((current ++ incoming).map RuntimePlugin.id).eraseDups
  let changes := ids.filterMap (pluginChange? sha256 current incoming)
  let kind :=
    if changes = [] then .unchanged
    else if changes.any fun change => change.tier == .c then .restartRequired
    else if changes.all fun change => change.tier == .a && change.kind == .configured then
      .liveUpdate
    else .generationSwap
  ⟨kind, changes⟩

def ReconcilePlan.tierC (plan : ReconcilePlan) : List String :=
  (plan.changes.filter fun change => change.tier == .c).map PluginChange.pluginId

section Order

/-- The providers of all services, when no id and no service is taken twice. -/
def providersOf (specs : List RuntimePlugin) :
    Except KernelError (List String × List (String × String)) :=
  specs.foldlM (fun (ids, providers) spec => do
    if spec.id ∈ ids then throw (.duplicatePlugin spec.id)
    let providers ← (spec.provides.getD []).foldlM (fun providers service =>
      match providers.lookup service with
      | some existing => throw (.duplicateServiceProvider service [existing, spec.id])
      | none => pure ((service, spec.id) :: providers)) providers
    return (spec.id :: ids, providers)) ([], [])

/-- The plugins that each plugin depends on. -/
def dependenciesOf (specs : List RuntimePlugin) (bootstrap : List String)
    (providers : List (String × String)) : Except KernelError (List (String × List String)) :=
  specs.mapM fun spec => do
    let edges ← (spec.inject.getD []).foldlM (fun edges service =>
      match providers.lookup service with
      | some provider => pure (edges ++ [provider])
      | none =>
        if service ∈ bootstrap then pure edges
        else throw (.missingPluginDependency spec.id service)) []
    return (spec.id, edges.eraseDups)

/-- The depth-first visit. The fuel bounds the length of the path, on which no id comes twice. -/
def visit (dependencies : List (String × List String)) :
    ℕ → List String → List String → String → Except KernelError (List String)
  | 0, _, path, id => .error (.pluginDependencyCycle (path ++ [id]))
  | fuel + 1, permanent, path, id =>
    if id ∈ permanent then .ok permanent
    else if id ∈ path then
      .error (.pluginDependencyCycle (path.dropWhile (· != id) ++ [id]))
    else do
      let permanent ← ((dependencies.lookup id).getD []).foldlM
        (fun permanent dependency => visit dependencies fuel permanent (path ++ [id]) dependency)
        permanent
      return permanent ++ [id]

def validateAndOrder (specs : List RuntimePlugin) (bootstrap : List String) :
    Except KernelError (List RuntimePlugin) := do
  let (_, providers) ← providersOf specs
  let dependencies ← dependenciesOf specs bootstrap providers
  let ordered ← specs.foldlM (fun permanent spec =>
    visit dependencies (specs.length + 1) permanent [] spec.id) []
  return ordered.filterMap (byId specs)

end Order

end BeeAgent.Structure
