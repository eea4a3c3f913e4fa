import BeeAgent.Data.DepthFirst
import BeeAgent.Data.OrderedMap
import BeeAgent.Data.Written

/-! Bundles, the resolution of a bundle and all it includes into one structure, and the check of a
structure that comes from outside. -/
namespace BeeAgent.Bundles
open BeeAgent.Data

/-- `z.string().min(1)` -/
abbrev Name := {s : String // s ≠ ""}

structure StructureRef where
  id : Name
  version : Name
  deriving DecidableEq

structure BundleSource where
  bundleId : Name
  bundleVersion : Name
  deriving DecidableEq

inductive BudgetValue where
  | string (s : String)
  | number (x : {x : Number // x.Normal})
  | boolean (b : Bool)

/-- `z.unknown()`: any value that a program holds. -/
abbrev Unknown := {v : Value // v.Proper}

structure BundlePlugin where
  id : Name
  ref : StructureRef
  enabled : Bool := true
  config : Option Unknown := none

inductive ScalarSlotName where
  | model | prompt | contextPolicy | memoryView | sandbox | evalPolicy
  deriving DecidableEq, Repr

namespace ScalarSlotName

def all : List ScalarSlotName := [model, prompt, contextPolicy, memoryView, sandbox, evalPolicy]

def text : ScalarSlotName → String
  | model => "model"
  | prompt => "prompt"
  | contextPolicy => "contextPolicy"
  | memoryView => "memoryView"
  | sandbox => "sandbox"
  | evalPolicy => "evalPolicy"

end ScalarSlotName

/-- What `BundleSchema` accepts, its defaults filled in. -/
structure Bundle where
  id : Name
  version : Name
  model : Option StructureRef := none
  prompt : Option StructureRef := none
  contextPolicy : Option StructureRef := none
  memoryView : Option StructureRef := none
  sandbox : Option StructureRef := none
  evalPolicy : Option StructureRef := none
  skills : List StructureRef := []
  tools : List StructureRef := []
  plugins : List BundlePlugin := []
  permissions : List Name := []
  budgets : List (Name × BudgetValue) := []
  includes : List StructureRef := []

namespace Bundle

def ref (bundle : Bundle) : StructureRef := ⟨bundle.id, bundle.version⟩

def source (bundle : Bundle) : BundleSource := ⟨bundle.id, bundle.version⟩

/-- `bundle[name]` -/
def scalar (bundle : Bundle) : ScalarSlotName → Option StructureRef
  | .model => bundle.model
  | .prompt => bundle.prompt
  | .contextPolicy => bundle.contextPolicy
  | .memoryView => bundle.memoryView
  | .sandbox => bundle.sandbox
  | .evalPolicy => bundle.evalPolicy

end Bundle

structure EffectiveSlot where
  ref : StructureRef
  source : BundleSource
  deriving DecidableEq

structure EffectivePlugin extends BundlePlugin where
  source : BundleSource

structure EffectivePermission where
  name : Name
  source : BundleSource

structure EffectiveBudget where
  name : Name
  value : BudgetValue
  source : BundleSource

/-- An effective structure without its digest. -/
structure DigestInput where
  bundles : List BundleSource
  model : EffectiveSlot
  prompt : EffectiveSlot
  contextPolicy : EffectiveSlot
  memoryView : EffectiveSlot
  sandbox : EffectiveSlot
  evalPolicy : EffectiveSlot
  skills : List EffectiveSlot
  tools : List EffectiveSlot
  plugins : List EffectivePlugin
  permissions : List EffectivePermission
  budgets : List EffectiveBudget

structure EffectiveStructure extends DigestInput where
  digest : String

section Text

def StructureRef.toValue (ref : StructureRef) : Value :=
  .object [("id", .string ref.id), ("version", .string ref.version)]

def BundleSource.toValue (source : BundleSource) : Value :=
  .object [("bundleId", .string source.bundleId), ("bundleVersion", .string source.bundleVersion)]

def BudgetValue.toValue : BudgetValue → Value
  | .string s => .string s
  | .number x => .number x
  | .boolean b => .boolean b

def EffectiveSlot.toValue (slot : EffectiveSlot) : Value :=
  .object [("ref", slot.ref.toValue), ("source", slot.source.toValue)]

def EffectivePlugin.toValue (plugin : EffectivePlugin) : Value :=
  .object ([("id", .string plugin.id), ("ref", plugin.ref.toValue),
    ("enabled", .boolean plugin.enabled)] ++ optionalField "config" (plugin.config.map (·.1)) ++
    [("source", plugin.source.toValue)])

def EffectivePermission.toValue (permission : EffectivePermission) : Value :=
  .object [("name", .string permission.name), ("source", permission.source.toValue)]

def EffectiveBudget.toValue (budget : EffectiveBudget) : Value :=
  .object [("name", .string budget.name), ("value", budget.value.toValue),
    ("source", budget.source.toValue)]

def DigestInput.fields (input : DigestInput) : List (String × Value) :=
  [("profileId", .string "bee"), ("bundles", .array (input.bundles.map BundleSource.toValue)),
    ("model", input.model.toValue), ("prompt", input.prompt.toValue),
    ("contextPolicy", input.contextPolicy.toValue), ("memoryView", input.memoryView.toValue),
    ("sandbox", input.sandbox.toValue), ("evalPolicy", input.evalPolicy.toValue),
    ("skills", .array (input.skills.map EffectiveSlot.toValue)),
    ("tools", .array (input.tools.map EffectiveSlot.toValue)),
    ("plugins", .array (input.plugins.map EffectivePlugin.toValue)),
    ("permissions", .array (input.permissions.map EffectivePermission.toValue)),
    ("budgets", .array (input.budgets.map EffectiveBudget.toValue))]

def DigestInput.toValue (input : DigestInput) : Value := .object input.fields

def EffectiveStructure.toValue (effective : EffectiveStructure) : Value :=
  .object (effective.fields ++ [("digest", .string effective.digest)])

/-- Digest over the canonical form of a digest-less effective structure. -/
def computeStructureDigest (sha256 : String → String) (input : DigestInput) : String :=
  "sha256:" ++ sha256 (canonicalJson input.toValue)

end Text

section Schema

/-- The property of an object, if the key is in it. -/
def field? (key : String) : Value → Option Value
  | .object fields => (fields.find? fun field => field.1 = key).map Prod.snd
  | _ => none

def parseString : Value → Option String
  | .string s => some s
  | _ => none

def parseName (v : Value) : Option Name := do
  let s ← parseString v
  if h : s ≠ "" then some ⟨s, h⟩ else none

def parseArray {α : Type} (parse : Value → Option α) : Value → Option (List α)
  | .array items => items.mapM parse
  | _ => none

def StructureRefSchema (v : Value) : Option StructureRef := do
  let id ← parseName (← field? "id" v)
  let version ← parseName (← field? "version" v)
  return ⟨id, version⟩

def BundleSourceSchema (v : Value) : Option BundleSource := do
  let bundleId ← parseName (← field? "bundleId" v)
  let bundleVersion ← parseName (← field? "bundleVersion" v)
  return ⟨bundleId, bundleVersion⟩

def BudgetValueSchema : Value → Option BudgetValue
  | .string s => some (.string s)
  | .number x => if h : x.Normal then some (.number ⟨x, h⟩) else none
  | .boolean b => some (.boolean b)
  | _ => none

/-- `z.boolean().default(true)` -/
def parseEnabled : Option Value → Option Bool
  | none | some .undefined => some true
  | some (.boolean b) => some b
  | _ => none

/-- `z.unknown().optional()` -/
def parseUnknown : Option Value → Option (Option Unknown)
  | none => some none
  | some v => if h : v.Proper then some (some ⟨v, h⟩) else none

def EffectiveSlotSchema (v : Value) : Option EffectiveSlot := do
  let ref ← StructureRefSchema (← field? "ref" v)
  let source ← BundleSourceSchema (← field? "source" v)
  return ⟨ref, source⟩

def EffectivePluginSchema (v : Value) : Option EffectivePlugin := do
  let id ← parseName (← field? "id" v)
  let ref ← StructureRefSchema (← field? "ref" v)
  let enabled ← parseEnabled (field? "enabled" v)
  let config ← parseUnknown (field? "config" v)
  let source ← BundleSourceSchema (← field? "source" v)
  return ⟨⟨id, ref, enabled, config⟩, source⟩

def EffectivePermissionSchema (v : Value) : Option EffectivePermission := do
  let name ← parseName (← field? "name" v)
  let source ← BundleSourceSchema (← field? "source" v)
  return ⟨name, source⟩

def EffectiveBudgetSchema (v : Value) : Option EffectiveBudget := do
  let name ← parseName (← field? "name" v)
  let value ← BudgetValueSchema (← field? "value" v)
  let source ← BundleSourceSchema (← field? "source" v)
  return ⟨name, value, source⟩

def isHex (c : Char) : Bool := ('0' ≤ c && c ≤ '9') || ('a' ≤ c && c ≤ 'f')

/-- `/^sha256:[0-9a-f]{64}$/` -/
def isStructureDigest (s : String) : Bool :=
  s.toList.take 7 = "sha256:".toList && (s.toList.drop 7).length = 64 && (s.toList.drop 7).all isHex

def EffectiveStructureSchema (v : Value) : Option EffectiveStructure := do
  let profileId ← parseString (← field? "profileId" v)
  guard (profileId = "bee")
  let bundles ← parseArray BundleSourceSchema (← field? "bundles" v)
  let model ← EffectiveSlotSchema (← field? "model" v)
  let prompt ← EffectiveSlotSchema (← field? "prompt" v)
  let contextPolicy ← EffectiveSlotSchema (← field? "contextPolicy" v)
  let memoryView ← EffectiveSlotSchema (← field? "memoryView" v)
  let sandbox ← EffectiveSlotSchema (← field? "sandbox" v)
  let evalPolicy ← EffectiveSlotSchema (← field? "evalPolicy" v)
  let skills ← parseArray EffectiveSlotSchema (← field? "skills" v)
  let tools ← parseArray EffectiveSlotSchema (← field? "tools" v)
  let plugins ← parseArray EffectivePluginSchema (← field? "plugins" v)
  let permissions ← parseArray EffectivePermissionSchema (← field? "permissions" v)
  let budgets ← parseArray EffectiveBudgetSchema (← field? "budgets" v)
  let digest ← parseString (← field? "digest" v)
  guard (isStructureDigest digest)
  return ⟨⟨bundles, model, prompt, contextPolicy, memoryView, sandbox, evalPolicy, skills, tools,
    plugins, permissions, budgets⟩, digest⟩

/-- Parse an externally supplied structure and reject forged/stale digests. -/
def verifyEffectiveStructure (sha256 : String → String) (v : Value) :
    Option EffectiveStructure := do
  let parsed ← EffectiveStructureSchema v
  guard (parsed.digest = computeStructureDigest sha256 parsed.toDigestInput)
  return parsed

end Schema

section Resolve

inductive ResolveError where
  | includeCycle (key : String)
  | noLoader (key includeKey : String)
  | loader (includeKey : String)
  | mismatch (loadedKey includeKey : String)
  | unpinned (name : ScalarSlotName)
  | schema
  deriving DecidableEq

/-- What a bundle loader answers to a reference; `none` where it throws, or where what it answers
with is no bundle. -/
abbrev BundleLoader := StructureRef → Option Bundle

def refKey (ref : StructureRef) : String := ref.id ++ "@" ++ ref.version

def Bundle.key (bundle : Bundle) : String := refKey bundle.ref

/-- The bundle of an include, unless it is resolved. -/
def loadInclude (load : Option BundleLoader) (key : String) (resolved : List String)
    (reference : StructureRef) : Except (Option ResolveError) (Option Bundle) :=
  let includeKey := refKey reference
  if includeKey ∈ resolved then .ok none
  else
    match load with
    | none => .error (some (.noLoader key includeKey))
    | some load =>
      match load reference with
      | none => .error (some (.loader includeKey))
      | some loaded =>
        if loaded.key ≠ includeKey then .error (some (.mismatch loaded.key includeKey))
        else .ok (some loaded)

/-- The bundles of the chain, includes first. The error without a text stands for a traversal that
the fuel is not enough for. -/
def visitBundle (load : Option BundleLoader) :
    ℕ → List Bundle → List Bundle → Bundle → Except (Option ResolveError) (List Bundle)
  | 0, _, _, _ => .error none
  | fuel + 1, chain, visiting, bundle =>
    let key := bundle.key
    if key ∈ chain.map Bundle.key then .ok chain
    else if key ∈ visiting.map Bundle.key then .error (some (.includeCycle key))
    else do
      let chain ← bundle.includes.foldlM (fun chain reference => do
        match ← loadInclude load key (chain.map Bundle.key) reference with
        | none => pure chain
        | some loaded => visitBundle load fuel chain (visiting ++ [bundle]) loaded) chain
      return chain ++ [bundle]

structure Slots where
  scalars : OrderedMap ScalarSlotName EffectiveSlot := .empty
  skills : OrderedMap Name EffectiveSlot := .empty
  tools : OrderedMap Name EffectiveSlot := .empty
  plugins : OrderedMap Name EffectivePlugin := .empty
  permissions : OrderedMap Name BundleSource := .empty
  budgets : OrderedMap Name EffectiveBudget := .empty

def Bundle.scalars (bundle : Bundle) : List (ScalarSlotName × StructureRef) :=
  ScalarSlotName.all.filterMap fun name => (bundle.scalar name).map (name, ·)

def mergeList (target : OrderedMap Name EffectiveSlot) (refs : List StructureRef)
    (source : BundleSource) : OrderedMap Name EffectiveSlot :=
  target.setAll (refs.map fun ref => (ref.id, ⟨ref, source⟩))

def Slots.add (slots : Slots) (bundle : Bundle) : Slots where
  scalars := slots.scalars.setAll (bundle.scalars.map fun scalar =>
    (scalar.1, ⟨scalar.2, bundle.source⟩))
  skills := mergeList slots.skills bundle.skills bundle.source
  tools := mergeList slots.tools bundle.tools bundle.source
  plugins := slots.plugins.setAll (bundle.plugins.map fun plugin =>
    (plugin.id, ⟨plugin, bundle.source⟩))
  permissions := slots.permissions.setAll (bundle.permissions.map fun name => (name, bundle.source))
  budgets := slots.budgets.setAll (bundle.budgets.map fun budget =>
    (budget.1, ⟨budget.1, budget.2, bundle.source⟩))

def pick (slots : Slots) (name : ScalarSlotName) : Except (Option ResolveError) EffectiveSlot :=
  match slots.scalars.get name with
  | some slot => .ok slot
  | none => .error (some (.unpinned name))

def foldChain (chain : List Bundle) : Except (Option ResolveError) DigestInput := do
  let slots := chain.foldl Slots.add {}
  return {
    bundles := chain.map Bundle.source
    model := ← pick slots .model
    prompt := ← pick slots .prompt
    contextPolicy := ← pick slots .contextPolicy
    memoryView := ← pick slots .memoryView
    sandbox := ← pick slots .sandbox
    evalPolicy := ← pick slots .evalPolicy
    skills := slots.skills.values
    tools := slots.tools.values
    plugins := slots.plugins.values
    permissions := (slots.permissions.entries.map fun entry => ⟨entry.1, entry.2⟩).insertionSort
      fun a b => keyLe a.name b.name
    budgets := slots.budgets.values.insertionSort fun a b => keyLe a.name b.name }

def resolveEffectiveStructure (sha256 : String → String) (load : Option BundleLoader) (fuel : ℕ)
    (root : Bundle) : Except (Option ResolveError) EffectiveStructure := do
  let chain ← visitBundle load fuel [] [] root
  let input ← foldChain chain
  match EffectiveStructureSchema (EffectiveStructure.mk input
    (computeStructureDigest sha256 input)).toValue with
  | some effective => return effective
  | none => throw (some .schema)

end Resolve

end BeeAgent.Bundles
