import BeeAgent.Chronicle.Stream
import BeeAgent.Context.Manifest
import Mathlib.Logic.Function.Basic

/-! The durable boundary around the stateless provider call: what it records of a request, and the
rebuilding of the request from its records. -/
namespace BeeAgent.Runtime.ModelRequests
open Data Context Chronicle
open Kanban.Schema (nonempty nonnegative)

def messageRenderer : String := "llm-message-json@1"
def toolRenderer : String := "llm-tool-json@1"
def decisionRenderer : String := "llm-decision-json@1"

/-- The messages, the tools and the schema are objects. -/
structure ContextBundle where
  messages : List Value
  tools : List Value
  decisionSchema : Option Value := none

namespace ContextBundle

def toValue (bundle : ContextBundle) : Value :=
  .object ([("messages", .array bundle.messages), ("tools", .array bundle.tools)] ++
    optionalField "decisionSchema" bundle.decisionSchema)

structure IsJson (bundle : ContextBundle) : Prop where
  messages : ∀ message ∈ bundle.messages, message.IsJson
  tools : ∀ tool ∈ bundle.tools, tool.IsJson
  decisionSchema : ∀ schema ∈ bundle.decisionSchema, schema.IsJson

/-- Equality message by message and tool by tool, in their order. -/
structure Equal (bundle bundle' : ContextBundle) : Prop where
  messages : List.Forall₂ Value.Equal bundle.messages bundle'.messages
  tools : List.Forall₂ Value.Equal bundle.tools bundle'.tools
  decisionSchema : Option.Rel Value.Equal bundle.decisionSchema bundle'.decisionSchema

end ContextBundle

def identityRenderer (version : String) : ContextRenderer where
  version := version
  render sourceIds sources :=
    match sourceIds with
    | [sourceId] =>
      match sources.get sourceId with
      | some value => .ok value
      | none => .error (.sourceNotFound sourceId)
    | _ => .error (.oneSource version)

def renderers : OrderedMap String ContextRenderer :=
  ((OrderedMap.empty.set messageRenderer (identityRenderer messageRenderer)).set
    toolRenderer (identityRenderer toolRenderer)).set
    decisionRenderer (identityRenderer decisionRenderer)

def digest (sha256 : String → String) (bundle : ContextBundle) : String :=
  "sha256:" ++ sha256 (canonicalJson bundle.toValue)

/-- `message.role === 'system'`. -/
def isSystem : Value → Bool
  | .object fields =>
    match fields.find? fun f => f.1 = "role" with
    | some (_, .string role) => role = "system"
    | _ => false
  | _ => false

/-- A part of a bundle, as its section records it. -/
structure Part where
  kind : SectionKind
  rendererVersion : String
  sourceId : String
  value : Value

structure Described where
  sources : OrderedMap String String := .empty
  sections : List ContextSectionDraft := []
  priority : ℕ := 0

def Described.add (described : Described) (part : Part) : Described where
  sources := described.sources.set part.sourceId (canonicalJson part.value)
  sections := described.sections ++ [{
    kind := part.kind
    sourceIds := [part.sourceId]
    rendererVersion := part.rendererVersion
    priority := described.priority
    content := canonicalJson part.value }]
  priority := described.priority + 1

def messagePart (message : Value) (index : ℕ) : Part where
  kind := if isSystem message then .instruction else .trajectory
  rendererVersion := messageRenderer
  sourceId := "message:" ++ toString index
  value := message

def toolPart (tool : Value) (index : ℕ) : Part where
  kind := .tool
  rendererVersion := toolRenderer
  sourceId := "tool:" ++ toString index
  value := tool

def decisionPart (schema : Value) : Part where
  kind := .goal
  rendererVersion := decisionRenderer
  sourceId := "decision:0"
  value := schema

def describeBundle (bundle : ContextBundle) : Described :=
  let described := bundle.messages.zipIdx.foldl (fun d p => d.add (messagePart p.1 p.2)) {}
  let described := bundle.tools.zipIdx.foldl (fun d p => d.add (toolPart p.1 p.2)) described
  match bundle.decisionSchema with
  | none => described
  | some schema => described.add (decisionPart schema)

structure RequestedPayload where
  requestId : ℕ
  manifestId : ℕ
  stepIndex : ℤ
  attempt : ℤ
  model : String
  inputDigest : String
  sources : OrderedMap String String

def RequestedPayload.issues (payload : RequestedPayload) : List String :=
  nonnegative "stepIndex" payload.stepIndex ++ nonnegative "attempt" payload.attempt ++
    nonempty "model" payload.model

inductive ModelEvent where
  | manifest (manifest : ContextManifest)
  | requested (payload : RequestedPayload)
  | completed (requestId : ℕ)
  | failed (requestId : ℕ) (message errorName : String)

def contextManifestEvent (manifest : ContextManifest) : Except (List String) ModelEvent :=
  (parse (ContextManifest.issues "manifest.") manifest).map .manifest

structure ModelRequestServiceOptions where
  sha256 : String → String
  model : String
  maxContextTokens : ℤ
  promptVersion : String
  structureVersion : String
  tokenBudget : Option ℤ := none

structure ModelRequestInput where
  stepIndex : ℤ
  attempt : ℤ
  bundle : ContextBundle
  /-- What the model did not see, and why. -/
  elisions : Option (List ContextOmission) := none
  structureVersion : Option String := none

section Service
variable (o : ModelRequestServiceOptions)

/-- The events that `generate` writes before it calls the provider. -/
def recordedEvents (requestId manifestId : ℕ) (input : ModelRequestInput) :
    Except (List String) (List ModelEvent) := do
  let described := describeBundle input.bundle
  let manifest ← buildContextManifest o.sha256
    { id := manifestId
      promptVersion := o.promptVersion
      structureVersion := input.structureVersion.getD o.structureVersion
      tokenBudget := o.tokenBudget.getD o.maxContextTokens
      sections := described.sections
      omissions := some (input.elisions.getD []) }
  let requested ← parse RequestedPayload.issues
    { requestId := requestId
      manifestId := manifestId
      stepIndex := input.stepIndex
      attempt := input.attempt
      model := o.model
      inputDigest := digest o.sha256 input.bundle
      sources := described.sources }
  return [← contextManifestEvent manifest, .requested requested]

abbrev Streams := String → List (ChronicleEvent ModelEvent)

def modelRequestStreamId (requestId : ℕ) : String := "model-request:" ++ toString requestId

/-- The streams of the store, the number of the next draw, and the bundles that were sent to the
provider, by their requests. -/
structure World where
  streams : Streams := fun _ => []
  draws : ℕ := 0
  sent : List (ℕ × ContextBundle) := []

inductive GenerateError where
  | invalid (issues : List String)
  | conflict (error : ChronicleSequenceConflictError)

/-- The draws are the request, the manifest and the two events. -/
def World.generate (w : World) (input : ModelRequestInput) : Except GenerateError World := do
  let events ← (recordedEvents o w.draws (w.draws + 1) input).mapError .invalid
  let streamId := modelRequestStreamId w.draws
  let stream ← (append (w.streams streamId)
    (events.zipIdx.map fun e => ⟨w.draws + 2 + e.2, e.1⟩) 1).mapError .conflict
  return {
    streams := Function.update w.streams streamId stream
    draws := w.draws + 4
    sent := (w.draws, input.bundle) :: w.sent }

/-- How the call of the provider ended. -/
inductive Outcome where
  | completed
  | failed (message errorName : String)

def Outcome.event (requestId : ℕ) : Outcome → ModelEvent
  | .completed => .completed requestId
  | .failed message errorName =>
    .failed requestId (if message = "" then "Unknown model failure" else message) errorName

/-- `expectedSequence` was read from the store at some earlier moment. -/
def World.appendTerminal (w : World) (requestId expectedSequence : ℕ) (outcome : Outcome) :
    Except ChronicleSequenceConflictError World := do
  let streamId := modelRequestStreamId requestId
  let stream ← append (w.streams streamId) [⟨w.draws, outcome.event requestId⟩] expectedSequence
  return { w with streams := Function.update w.streams streamId stream, draws := w.draws + 1 }

inductive Action where
  | generate (input : ModelRequestInput)
  | appendTerminal (requestId expectedSequence : ℕ) (outcome : Outcome)

/-- What throws has written nothing. -/
def World.step (w : World) : Action → World
  | .generate input =>
    match w.generate o input with
    | .ok w' => w'
    | .error _ => { w with draws := w.draws + 4 }
  | .appendTerminal requestId expectedSequence outcome =>
    match w.appendTerminal requestId expectedSequence outcome with
    | .ok w' => w'
    | .error _ => { w with draws := w.draws + 1 }

inductive Reachable : World → Prop where
  | init : Reachable {}
  | step {w : World} (action : Action) (h : Reachable w) : Reachable (w.step o action)

end Service

inductive RebuildError where
  | payload (issues : List String)
  | incomplete (requestId : ℕ)
  | context (error : ContextError)
  | syntaxError (text : String)
  | digest (requestId : ℕ) (actual expected : String)

def RebuildError.message? : RebuildError → Option String
  | .payload _ | .syntaxError _ => none
  | .incomplete requestId => some ("Model request '" ++ toString requestId ++ "' is incomplete")
  | .context error => some error.message
  | .digest requestId actual expected => some ("Model request '" ++ toString requestId ++
    "' rebuilt to " ++ actual ++ ", expected " ++ expected)

structure RebuiltModelRequest where
  requestId : ℕ
  manifest : ContextManifest
  bundle : ContextBundle

/-- The last manifest and the last request of a stream. -/
structure Read where
  manifest : Option ContextManifest := none
  requested : Option RequestedPayload := none

def Read.event (read : Read) : ModelEvent → Except RebuildError Read
  | .manifest manifest => .ok { read with manifest := some manifest }
  | .requested payload => do
    let payload ← (parse RequestedPayload.issues payload).mapError .payload
    return { read with requested := some payload }
  | .completed _ | .failed .. => .ok read

def parseText (text : String) : Except RebuildError Value :=
  match parseJson text with
  | some value => .ok value
  | none => .error (.syntaxError text)

/-- One section, by the version of its renderer. -/
def ContextBundle.collect (bundle : ContextBundle) (rendererVersion text : String) :
    Except RebuildError ContextBundle :=
  if rendererVersion = messageRenderer then do
    return { bundle with messages := bundle.messages ++ [← parseText text] }
  else if rendererVersion = toolRenderer then do
    return { bundle with tools := bundle.tools ++ [← parseText text] }
  else if rendererVersion = decisionRenderer then do
    return { bundle with decisionSchema := some (← parseText text) }
  else .ok bundle

def rebuildModelRequest (sha256 : String → String) (streams : Streams) (requestId : ℕ) :
    Except RebuildError RebuiltModelRequest := do
  let read ← (streams (modelRequestStreamId requestId)).foldlM
    (fun read event => read.event event.payload) ({} : Read)
  match read.manifest, read.requested with
  | some manifest, some requested =>
    let rebuilt ← (rebuildContextInput sha256 manifest requested.sources renderers).mapError
      .context
    let bundle ← rebuilt.foldlM
      (fun bundle r => bundle.collect r.section_.rendererVersion r.text) ⟨[], [], none⟩
    let actual := digest sha256 bundle
    if actual ≠ requested.inputDigest then
      throw (.digest requestId actual requested.inputDigest)
    return ⟨requestId, manifest, bundle⟩
  | _, _ => throw (.incomplete requestId)

end BeeAgent.Runtime.ModelRequests
