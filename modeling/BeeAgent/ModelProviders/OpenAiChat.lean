import BeeAgent.Data.OrderedMap
import BeeAgent.Decoding.Framing
import BeeAgent.Runtime.AgentLoop
import Mathlib.Algebra.Order.Ring.Rat
import Mathlib.Data.List.Sort

/-! The chat completions provider behind its request: a body that streams server-sent events is
decoded as it comes, a body in one piece is parsed at once. Strings of JSON are lists of UTF-16 code
units, so that a delta may end inside a surrogate pair. -/
namespace BeeAgent.ModelProviders
open Data Framing
open BeeAgent.Runtime (StopReason)

abbrev JsString := List ℕ

def units (cs : List Char) : JsString := utf16 (String.ofList cs)

/-- What `JSON.parse` gives. -/
inductive Json where
  | null
  | boolean (b : Bool)
  | number (n : ℚ)
  | string (s : JsString)
  | array (items : List Json)
  | object (fields : List (String × Json))

/-- `JSON.parse`, which gives nothing where it throws, and the text of a number. -/
structure Engine where
  parse : JsString → Option Json
  numberText : ℚ → JsString

namespace Json

/-- `isRecord`; an array is one. -/
def record? : Json → Option Json
  | array items => some (array items)
  | object fields => some (object fields)
  | _ => none

def property? (key : String) : Json → Option Json
  | object fields => (fields.find? fun field => field.1 = key).map Prod.snd
  | _ => none

def text? : Json → Option JsString
  | string s => some s
  | _ => none

def number? : Json → Option ℚ
  | number n => some n
  | _ => none

def items? : Json → Option (List Json)
  | array items => some items
  | _ => none

def textAt (key : String) (record : Json) : Option JsString := (record.property? key).bind text?

def recordAt (key : String) (record : Json) : Option Json := (record.property? key).bind record?

def itemsAt (key : String) (record : Json) : Option (List Json) :=
  (record.property? key).bind items?

end Json

def numberField (record : Json) (key : String) : ℚ :=
  ((record.property? key).bind Json.number?).getD 0

structure Usage where
  inputTokens : ℚ
  outputTokens : ℚ
  totalTokens : ℚ
  deriving DecidableEq

def noUsage : Usage := ⟨0, 0, 0⟩

def usageOf (record : Json) : Usage :=
  ⟨numberField record "prompt_tokens", numberField record "completion_tokens",
    numberField record "total_tokens"⟩

structure LlmToolCall where
  callId : JsString
  toolId : JsString
  input : Json
  inputError : Option JsString

inductive LlmStreamEvent where
  | messageDelta (delta : JsString)
  | toolIntent (call : LlmToolCall)
  | decision (decision : Json)

structure Completion where
  stopReason : StopReason
  usage : Usage

/-- What a run pushes, and what it settles with. -/
structure Emitted where
  events : List LlmStreamEvent
  completion : Completion

/-- The parts of a request that the response is read with. -/
structure CallContext where
  functionNames : JsString → Option JsString
  decisionSchema : Bool

/-- The white space and line ends of `trim`. -/
def isWhite (unit : ℕ) : Bool :=
  unit ∈ [0x09, 0x0A, 0x0B, 0x0C, 0x0D, 0x20, 0xA0, 0x1680, 0x2028, 0x2029, 0x202F, 0x205F, 0x3000,
    0xFEFF] || (0x2000 ≤ unit && unit ≤ 0x200A)

section Reading
variable (js : Engine)

def parseToolArguments (raw : JsString) : Json × Option JsString :=
  if raw.all isWhite then (.object [], none)
  else
    match js.parse raw with
    | some input => (input, none)
    | none =>
      let excerpt := if 200 < raw.length then raw.take 200 ++ utf16 "…" else raw
      (.object [], some (utf16 "Tool arguments were not valid JSON: " ++ excerpt))

def toolCallOf (context : CallContext) (callId name args : JsString) : LlmToolCall :=
  let (input, inputError) := parseToolArguments js args
  ⟨callId, (context.functionNames name).getD name, input, inputError⟩

def parseDecision (context : CallContext) (content : JsString) : Option Json :=
  if !context.decisionSchema || content.isEmpty then none
  else (js.parse content).bind Json.record?

def stopReasonFor (toolCalls : List LlmToolCall) (decision : Option Json)
    (finishReason : Option JsString) : StopReason :=
  if 0 < toolCalls.length then .toolCalls
  else if decision.isSome then .decision
  else if finishReason = some (utf16 "length") ∨ finishReason = some (utf16 "max_tokens") then
    .maxTokens
  else .endTurn

/-! ### The streaming path -/

structure ToolCallFragment where
  id : Option JsString := none
  name : JsString := []
  args : JsString := []

/-- The locals of `#runSse`. -/
structure SseState where
  events : List LlmStreamEvent := []
  content : JsString := []
  fragments : OrderedMap ℚ ToolCallFragment := .empty
  finishReason : Option JsString := none
  usage : Option Usage := none

def handleWire (fragments : OrderedMap ℚ ToolCallFragment) (wire : Json) :
    OrderedMap ℚ ToolCallFragment :=
  match wire.record? with
  | none => fragments
  | some wire =>
    let index := ((wire.property? "index").bind Json.number?).getD 0
    let fragment := (fragments.get index).getD {}
    let fn := wire.recordAt "function"
    fragments.set index
      { id := (wire.textAt "id").or fragment.id
        name := fragment.name ++ (fn.bind (Json.textAt "name")).getD []
        args := fragment.args ++ (fn.bind (Json.textAt "arguments")).getD [] }

def handleDelta (st : SseState) (delta : Json) : SseState :=
  let st := match delta.textAt "content" with
    | some (unit :: rest) =>
      { st with
        events := st.events ++ [.messageDelta (unit :: rest)]
        content := st.content ++ unit :: rest }
    | _ => st
  match delta.itemsAt "tool_calls" with
  | none => st
  | some wires => { st with fragments := wires.foldl handleWire st.fragments }

def handleChoice (st : SseState) (choice : Json) : SseState :=
  let st := { st with finishReason := (choice.textAt "finish_reason").or st.finishReason }
  match choice.recordAt "delta" with
  | none => st
  | some delta => handleDelta st delta

def handleChunk (st : SseState) (chunk : Json) : SseState :=
  match chunk.record? with
  | none => st
  | some chunk =>
    let st := { st with usage := ((chunk.recordAt "usage").map usageOf).or st.usage }
    match chunk.itemsAt "choices" with
    | some (choice :: _) =>
      match choice.record? with
      | none => st
      | some choice => handleChoice st choice
    | _ => st

def settleToolCalls (context : CallContext) (fragments : OrderedMap ℚ ToolCallFragment) :
    List LlmToolCall :=
  (fragments.keys.insertionSort (· ≤ ·)).filterMap fun index =>
    (fragments.get index).bind fun fragment =>
      if fragment.name = [] ∧ fragment.args = [] then none
      else some (toolCallOf js context
        (fragment.id.getD (utf16 "call-" ++ js.numberText index)) fragment.name fragment.args)

def settleSse (context : CallContext) (st : SseState) : Emitted :=
  let toolCalls := settleToolCalls js context st.fragments
  let decision := parseDecision js context st.content
  { events := st.events ++ toolCalls.map .toolIntent ++ decision.toList.map .decision
    completion := ⟨stopReasonFor toolCalls decision st.finishReason, st.usage.getD noUsage⟩ }

/-- `/\r?\n\r?\n/` matches here. -/
def atSeparator (cs : List Char) : Bool :=
  ['\n', '\n'].isPrefixOf cs || ['\n', '\r', '\n'].isPrefixOf cs ||
    ['\r', '\n', '\n'].isPrefixOf cs || ['\r', '\n', '\r', '\n'].isPrefixOf cs

def separatorLength (rest : List Char) : ℕ := if rest.take 2 = ['\r', '\n'] then 4 else 2

def findSeparator (buffer : List Char) : Option (ℕ × ℕ) :=
  (search atSeparator buffer).map fun index => (index, index + separatorLength (buffer.drop index))

def dataPrefix : List Char := ['d', 'a', 't', 'a', ':']

def trimStart (cs : List Char) : List Char := cs.dropWhile fun c => isWhite c.toNat

def lineData? (line : List Char) : Option (List Char) :=
  if dataPrefix.isPrefixOf line then some (trimStart (line.drop 5)) else none

def sseEventData (rawEvent : List Char) : Option (List Char) :=
  match (splitLines rawEvent).filterMap lineData? with
  | [] => none
  | data => some (['\n'].intercalate data)

def streamDone : List Char := ['[', 'D', 'O', 'N', 'E', ']']

def parseChunk (data : List Char) : Except String Json :=
  match js.parse (units data) with
  | some chunk => .ok chunk
  | none => .error "Streaming chunk is not valid JSON"

/-- One frame of the stream; `none` ends it. -/
def handleEvent (st : SseState) (rawEvent : List Char) : Except String (Option SseState) :=
  match sseEventData rawEvent with
  | none => .ok (some st)
  | some data =>
    if data = streamDone then .ok none
    else (parseChunk js data).map fun chunk => some (handleChunk st chunk)

/-- The frames up to `[DONE]`, and whether it has come. -/
def handleEvents : SseState → List (List Char) → Except String (SseState × Bool)
  | st, [] => .ok (st, false)
  | st, rawEvent :: rest =>
    match handleEvent js st rawEvent with
    | .error message => .error message
    | .ok none => .ok (st, true)
    | .ok (some st) => handleEvents st rest

/-- `#runSse` on a body that comes in the given chunks. -/
def runSse (context : CallContext) (chunks : List (List UInt8)) : Except String Emitted :=
  let (rawEvents, tail) := readAll findSeparator {} chunks
  match handleEvents js {} rawEvents with
  | .error message => .error message
  | .ok (st, true) => .ok (settleSse js context st)
  | .ok (st, false) =>
    match handleEvent js st tail with
    | .error message => .error message
    | .ok none => .ok (settleSse js context st)
    | .ok (some st) => .ok (settleSse js context st)

/-! ### The buffered path -/

def requireRecord (value : Option Json) (name : String) : Except String Json :=
  match value.bind Json.record? with
  | some record => .ok record
  | none => .error (name ++ " is missing from the response")

/-- A wire call without a text for its id or its name, which its type excludes, is an error here. -/
def bufferedCall (context : CallContext) (wire : Json) : Except String LlmToolCall :=
  match wire.textAt "id", wire.recordAt "function" with
  | some id, some fn =>
    match fn.textAt "name" with
    | some name => .ok (toolCallOf js context id name ((fn.textAt "arguments").getD []))
    | none => .error "TypeError"
  | _, _ => .error "TypeError"

/-- `#runBuffered` on the bytes of a body. -/
def runBuffered (context : CallContext) (body : List UInt8) : Except String Emitted := do
  let (cs, decoder) := Utf8.TextDecoder.read {} body
  let text := cs ++ decoder.finish
  let payload ← if text.isEmpty then pure none else
    match js.parse (units text) with
    | some payload => pure (some payload)
    | none => throw "Response body is not JSON"
  let responseBody ← requireRecord payload "payload"
  match responseBody.itemsAt "choices" with
  | some (first :: _) => do
    let choice ← requireRecord (some first) "choices[0]"
    let message ← requireRecord (choice.property? "message") "choices[0].message"
    let content := (message.textAt "content").getD []
    let wireToolCalls := (message.itemsAt "tool_calls").getD []
    let usage := ((responseBody.recordAt "usage").map usageOf).getD noUsage
    let finishReason := (choice.textAt "finish_reason").getD (utf16 "stop")
    let toolCalls ← wireToolCalls.mapM (bufferedCall js context)
    let decision := parseDecision js context content
    pure {
      events := (if content.isEmpty then [] else [.messageDelta content]) ++
        toolCalls.map .toolIntent ++ decision.toList.map .decision
      completion := ⟨stopReasonFor toolCalls decision (some finishReason), usage⟩ }
  | _ => throw "choices[] is missing from the response"

end Reading

namespace LlmStreamEvent

def delta : LlmStreamEvent → JsString
  | .messageDelta text => text
  | _ => []

def intent? : LlmStreamEvent → Option LlmToolCall
  | .toolIntent call => some call
  | _ => none

def decision? : LlmStreamEvent → Option Json
  | .decision value => some value
  | _ => none

end LlmStreamEvent

namespace Emitted

def text (e : Emitted) : JsString := e.events.flatMap LlmStreamEvent.delta

def intents (e : Emitted) : List LlmToolCall := e.events.filterMap LlmStreamEvent.intent?

def decisions (e : Emitted) : List Json := e.events.filterMap LlmStreamEvent.decision?

end Emitted

end BeeAgent.ModelProviders
