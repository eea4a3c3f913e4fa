import BeeAgent.Data.Faithful
import BeeAgent.ModelProviders.OpenAiChat

/-! Replies that report the output limit: what they settle with, and what the agent loop makes of
it. -/
namespace BeeAgent.ModelProviders
open Data Framing
open BeeAgent.Runtime (StopReason AgentLoopOptions Task TaskStep)

/-- What a body in one piece is read for. -/
structure BufferedReply where
  content : JsString
  wireToolCalls : List Json
  finishReason : JsString
  usage : Usage

section Replies
variable (js : Engine)

/-- What has come when a stream settles. -/
def sseState (chunks : List (List UInt8)) : Except String SseState :=
  let (rawEvents, tail) := readAll findSeparator {} chunks
  match handleEvents js {} rawEvents with
  | .error message => .error message
  | .ok (st, true) => .ok st
  | .ok (st, false) => (handleEvent js st tail).map (·.getD st)

def bufferedReply (body : List UInt8) : Except String BufferedReply := do
  let (cs, decoder) := Utf8.TextDecoder.read {} body
  let text := cs ++ decoder.finish
  let payload ← if text.isEmpty then pure none else
    match js.parse (units text) with
    | some payload => pure (some payload)
    | none => throw "Response body is not JSON"
  let responseBody ← requireRecord payload "payload"
  match responseBody.itemsAt "choices" with
  | some (first :: _) => do
    let choice ← requireRecord (some first) "choices[0]"
    let message ← requireRecord (choice.property? "message") "choices[0].message"
    pure {
      content := (message.textAt "content").getD []
      wireToolCalls := (message.itemsAt "tool_calls").getD []
      finishReason := (choice.textAt "finish_reason").getD (utf16 "stop")
      usage := ((responseBody.recordAt "usage").map usageOf).getD noUsage }
  | _ => throw "choices[] is missing from the response"

def settleBuffered (context : CallContext) (reply : BufferedReply) : Except String Emitted := do
  let toolCalls ← reply.wireToolCalls.mapM (bufferedCall js context)
  let decision := parseDecision js context reply.content
  pure {
    events := (if reply.content.isEmpty then [] else [.messageDelta reply.content]) ++
      toolCalls.map .toolIntent ++ decision.toList.map .decision
    completion := ⟨stopReasonFor toolCalls decision (some reply.finishReason), reply.usage⟩ }

theorem runSse_eq_settleSse (context : CallContext) (chunks : List (List UInt8)) :
    runSse js context chunks = (sseState js chunks).map (settleSse js context) := by
  rw [runSse, sseState]
  obtain ⟨rawEvents, tail⟩ := readAll findSeparator {} chunks
  simp only
  rcases handleEvents js {} rawEvents with message | ⟨st, _ | _⟩
  · rfl
  · simp only
    rcases handleEvent js st tail with message | _ | st' <;> rfl
  · rfl

theorem runBuffered_eq_settleBuffered (context : CallContext) (body : List UInt8) :
    runBuffered js context body = bufferedReply js body >>= settleBuffered js context := by
  rw [runBuffered, bufferedReply]
  obtain ⟨cs, decoder⟩ := Utf8.TextDecoder.read {} body
  simp only [bind, Except.bind, pure, Except.pure]
  by_cases hempty : (cs ++ decoder.finish).isEmpty
  on_goal 1 => simp only [if_pos hempty]
  on_goal 2 =>
    simp only [if_neg hempty]
    rcases js.parse (units (cs ++ decoder.finish)) with _ | payload
    · rfl
    simp only
  all_goals
    rcases requireRecord _ "payload" with error | responseBody
    · rfl
    simp only
    rcases responseBody.itemsAt "choices" with _ | _ | ⟨first, rest⟩
    · rfl
    · rfl
    simp only
    rcases requireRecord (some first) "choices[0]" with error | choice
    · rfl
    simp only
    rcases requireRecord (choice.property? "message") "choices[0].message" with error | message
    · rfl
    rfl

end Replies

/-- A reply of a provider: a body that streams, in the chunks it comes in, or one in one piece. -/
inductive Reply where
  | streamed (chunks : List (List UInt8))
  | buffered (body : List UInt8)

namespace Reply
variable (js : Engine)

def run (context : CallContext) : Reply → Except String Emitted
  | streamed chunks => runSse js context chunks
  | buffered body => runBuffered js context body

/-- The finish reason that a reply reports. -/
def finishReason : Reply → Option JsString
  | streamed chunks => ((sseState js chunks).toOption.bind SseState.finishReason)
  | buffered body => (bufferedReply js body).toOption.map BufferedReply.finishReason

/-- The finish reasons that mean the output limit. -/
def Truncated (reply : Reply) : Prop :=
  reply.finishReason js = some (utf16 "length") ∨ reply.finishReason js = some (utf16 "max_tokens")

/-- A reply has neither a tool call, complete or cut off, nor a text that reads as a decision. -/
def Bare (context : CallContext) : Reply → Prop
  | streamed chunks => ∀ st, sseState js chunks = .ok st →
    (∀ index fragment, st.fragments.get index = some fragment →
      fragment.name = [] ∧ fragment.args = []) ∧ parseDecision js context st.content = none
  | buffered body => ∀ reply, bufferedReply js body = .ok reply →
    reply.wireToolCalls = [] ∧ parseDecision js context reply.content = none

end Reply

/-- The step goes on without the attempt: nothing of it is dispatched or enters the history, and the
step is taken again under a larger cap, or the turn fails. -/
structure Discards (task : Task) (step : TaskStep) : Prop where
  undispatched : ∀ turnId item call approval,
    Runtime.Act.dispatch turnId item call approval ∉ step.acts
  next : ∃ task', step.next = .continue task' ∧ task'.state = task.state ∧
    (task'.pc = .driving ∧ task.outputTokenCap < task'.outputTokenCap ∨
      ∃ error, task'.pc = .terminating (.failed error))

/-- What comes of a truncated reply: the loop is told so, and discards the attempt. -/
structure NeverActedOn (emitted : Emitted) : Prop where
  told : emitted.completion.stopReason = .maxTokens
  discards : ∀ (o : AgentLoopOptions) log nextId task attempt, task.pc = .awaitingResult attempt →
    ∃ step, Runtime.taskStep o log nextId task (.result emitted.completion.stopReason) = some step ∧
      Discards task step

theorem maxTokens_discards (o : AgentLoopOptions) (log : List Thread.ThreadEvent) (nextId : ℕ)
    {task : Task} {attempt : Runtime.Attempt} (hpc : task.pc = .awaitingResult attempt) :
    ∃ step, Runtime.taskStep o log nextId task (.result .maxTokens) = some step ∧
      Discards task step := by
  refine ⟨Runtime.resultStep o task attempt .maxTokens, by simp [Runtime.taskStep, hpc], ?_⟩
  simp only [Runtime.resultStep]
  by_cases hcap : task.outputTokenCap < min (task.outputTokenCap * 2) o.modelMaxOutputTokens
  · rw [if_pos hcap]
    exact ⟨by simp [Runtime.itemFailedAct], _, rfl, rfl, .inl ⟨rfl, hcap⟩⟩
  · rw [if_neg hcap]
    exact ⟨by simp [Runtime.itemFailedAct], _, rfl, rfl, .inr ⟨_, rfl⟩⟩

theorem stopReasonFor_eq_maxTokens {toolCalls : List LlmToolCall} {decision : Option Json}
    {finishReason : Option JsString} (h : finishReason = some (utf16 "length") ∨
      finishReason = some (utf16 "max_tokens")) :
    stopReasonFor toolCalls decision finishReason = .maxTokens ↔ toolCalls = [] ∧ decision = none := by
  rw [stopReasonFor]
  cases toolCalls with
  | cons call calls => simp
  | nil =>
    cases decision with
    | some decision => simp
    | none => simp [h]

theorem settleToolCalls_eq_nil (js : Engine) (context : CallContext)
    {fragments : OrderedMap ℚ ToolCallFragment} :
    settleToolCalls js context fragments = [] ↔ ∀ index fragment,
      fragments.get index = some fragment → fragment.name = [] ∧ fragment.args = [] := by
  rw [settleToolCalls, List.filterMap_eq_nil_iff]
  constructor
  · intro h index fragment hget
    have hindex : index ∈ fragments.keys.insertionSort (· ≤ ·) :=
      (List.mem_insertionSort _).mpr (OrderedMap.mem_keys_iff.mpr ⟨fragment, hget⟩)
    simpa [hget] using h index hindex
  · intro h index _
    cases hget : fragments.get index with
    | none => rfl
    | some fragment => simp [h index fragment hget]

variable {js : Engine} {context : CallContext} {emitted : Emitted}

theorem streamed_maxTokens {st : SseState} (h : st.finishReason = some (utf16 "length") ∨
      st.finishReason = some (utf16 "max_tokens")) :
    (settleSse js context st).completion.stopReason = .maxTokens ↔
      (∀ index fragment, st.fragments.get index = some fragment →
        fragment.name = [] ∧ fragment.args = []) ∧ parseDecision js context st.content = none := by
  rw [← settleToolCalls_eq_nil js context]
  exact stopReasonFor_eq_maxTokens h

theorem buffered_maxTokens {reply : BufferedReply}
    (hsettle : settleBuffered js context reply = .ok emitted)
    (h : some reply.finishReason = some (utf16 "length") ∨
      some reply.finishReason = some (utf16 "max_tokens")) :
    emitted.completion.stopReason = .maxTokens ↔
      reply.wireToolCalls = [] ∧ parseDecision js context reply.content = none := by
  rw [settleBuffered] at hsettle
  rcases hcalls : reply.wireToolCalls.mapM (bufferedCall js context) with error | toolCalls
  · simp [hcalls, bind, Except.bind] at hsettle
  simp only [hcalls, bind, Except.bind, pure, Except.pure, Except.ok.injEq] at hsettle
  subst hsettle
  have hempty : toolCalls = [] ↔ reply.wireToolCalls = [] := by
    cases hwires : reply.wireToolCalls with
    | nil =>
      rw [hwires] at hcalls
      cases hcalls
      simp
    | cons wire wires =>
      rw [hwires, List.mapM_cons] at hcalls
      rcases hcall : bufferedCall js context wire with error | call
      · simp [hcall, bind, Except.bind] at hcalls
      rcases hrest : wires.mapM (bufferedCall js context) with error | rest
      · simp [hcall, hrest, bind, Except.bind] at hcalls
      simp only [hcall, hrest, bind, Except.bind, pure, Except.pure, Except.ok.injEq] at hcalls
      simp [← hcalls]
  rw [← hempty]
  exact stopReasonFor_eq_maxTokens h

/-- A truncated reply is never acted on exactly when it is bare: a call or a decision in it hides the
output limit from the loop. -/
theorem neverActedOn_iff {reply : Reply} (hrun : reply.run js context = .ok emitted)
    (htruncated : reply.Truncated js) : NeverActedOn emitted ↔ reply.Bare js context := by
  have hstop : NeverActedOn emitted ↔ emitted.completion.stopReason = .maxTokens := by
    refine ⟨NeverActedOn.told, fun h => ⟨h, fun o log nextId task attempt hpc => ?_⟩⟩
    rw [h]
    exact maxTokens_discards o log nextId hpc
  rw [hstop]
  cases reply with
  | streamed chunks =>
    simp only [Reply.run, runSse_eq_settleSse] at hrun
    simp only [Reply.Truncated, Reply.finishReason] at htruncated
    rcases hst : sseState js chunks with error | st
    · simp [hst, Except.map] at hrun
    simp only [hst, Except.map, Except.ok.injEq] at hrun
    simp only [hst, Except.toOption, Option.bind_some] at htruncated
    subst hrun
    simp only [Reply.Bare, hst, Except.ok.injEq, forall_eq']
    exact streamed_maxTokens htruncated
  | buffered body =>
    simp only [Reply.run, runBuffered_eq_settleBuffered] at hrun
    simp only [Reply.Truncated, Reply.finishReason] at htruncated
    rcases hreply : bufferedReply js body with error | reply
    · simp [hreply, bind, Except.bind] at hrun
    simp only [hreply, bind, Except.bind] at hrun
    simp only [hreply, Except.toOption, Option.map_some] at htruncated
    simp only [Reply.Bare, hreply, Except.ok.injEq, forall_eq']
    exact buffered_maxTokens hrun htruncated

section Sample

def cutOffText : String :=
  "\x7b\"choices\":[\x7b\"message\":\x7b\"content\":\"x\"\x7d,\"finish_reason\":\"length\"\x7d]\x7d"

def cutOffPayload : Json :=
  .object [("choices", .array [.object [("message", .object [("content", .string (utf16 "x"))]),
    ("finish_reason", .string (utf16 "length"))]])]

def calledText : String :=
  "\x7b\"choices\":[\x7b\"message\":\x7b\"tool_calls\":[\x7b\"id\":\"a\",\"function\":" ++
    "\x7b\"name\":\"f\"\x7d\x7d]\x7d,\"finish_reason\":\"length\"\x7d]\x7d"

def calledPayload : Json :=
  .object [("choices", .array [.object [("message", .object [("tool_calls", .array [.object [
      ("id", .string (utf16 "a")), ("function", .object [("name", .string (utf16 "f"))])]])]),
    ("finish_reason", .string (utf16 "length"))]])]

/-- An engine that knows the texts of the samples. -/
def cutOffEngine : Engine where
  parse s := ([(cutOffText, cutOffPayload), (calledText, calledPayload)].find? fun known =>
    utf16 known.1 = s).map Prod.snd
  numberText _ := utf16 "0"

def noTools : CallContext := ⟨fun _ => none, false⟩

/-- What a text is read as, where the engine reads it as a payload. -/
theorem bufferedReply_encode {js : Engine} {text : String} {payload : Json}
    {reply : Except String BufferedReply} (hmark : text.toList.head? ≠ some Utf8.byteOrderMark)
    (hne : text ≠ "") (hparse : js.parse (utf16 text) = some payload)
    (hreply : bufferedReply ⟨fun _ => some payload, js.numberText⟩ [0x30] = reply) :
    bufferedReply js (Utf8.encode text.toList) = reply := by
  obtain ⟨hread, hfinished⟩ := Utf8.TextDecoder.read_encode hmark
  rw [← hreply, bufferedReply, bufferedReply]
  rcases hdecoded : Utf8.TextDecoder.read {} (Utf8.encode text.toList) with ⟨cs, decoder⟩
  rw [hdecoded] at hread hfinished
  simp only at hread hfinished
  have hempty : text.toList.isEmpty = false := by simpa using hne
  simp only [hread, hfinished, List.append_nil, hempty, Bool.false_eq_true, if_false, units,
    String.ofList_toList, hparse]
  rfl

theorem parse_cutOff : cutOffEngine.parse (utf16 cutOffText) = some cutOffPayload := by
  simp [cutOffEngine]

theorem parse_called : cutOffEngine.parse (utf16 calledText) = some calledPayload := by
  have hne : utf16 cutOffText ≠ utf16 calledText := utf16_injective.ne (by decide +kernel)
  simp [cutOffEngine, hne]

def cutOffReply : BufferedReply := ⟨utf16 "x", [], utf16 "length", noUsage⟩

theorem bufferedReply_cutOff :
    bufferedReply cutOffEngine (Utf8.encode cutOffText.toList) = .ok cutOffReply :=
  bufferedReply_encode (by simp [cutOffText, Utf8.byteOrderMark]) (by decide +kernel)
    parse_cutOff rfl

def calledReply : BufferedReply :=
  ⟨[], [.object [("id", .string (utf16 "a")),
    ("function", .object [("name", .string (utf16 "f"))])]], utf16 "length", noUsage⟩

theorem bufferedReply_called :
    bufferedReply cutOffEngine (Utf8.encode calledText.toList) = .ok calledReply :=
  bufferedReply_encode (by decide +kernel) (by decide +kernel) parse_called rfl

theorem run_buffered (context : CallContext) {body : List UInt8} {reply : BufferedReply}
    (h : bufferedReply js body = .ok reply) :
    (Reply.buffered body).run js context = settleBuffered js context reply := by
  rw [Reply.run, runBuffered_eq_settleBuffered, h]
  rfl

theorem neverActedOn_iff_sample :
    ∃ emitted, (Reply.buffered (Utf8.encode cutOffText.toList)).run cutOffEngine noTools =
      .ok emitted ∧ NeverActedOn emitted := by
  have hrun := run_buffered noTools bufferedReply_cutOff
  refine ⟨_, hrun, (neverActedOn_iff hrun ?_).mpr fun reply hreply => ?_⟩
  · exact .inl (by rw [Reply.finishReason, bufferedReply_cutOff]; rfl)
  · rw [bufferedReply_cutOff, Except.ok.injEq] at hreply
    subst hreply
    exact ⟨rfl, rfl⟩

/-- A reply that is cut off behind a tool call settles as one that asks for it. -/
theorem truncatedCall_actedOn :
    ∃ emitted, (Reply.buffered (Utf8.encode calledText.toList)).run cutOffEngine noTools =
        .ok emitted ∧
      (Reply.buffered (Utf8.encode calledText.toList)).Truncated cutOffEngine ∧
      ¬ NeverActedOn emitted := by
  refine ⟨_, run_buffered noTools bufferedReply_called, .inl ?_, fun h => ?_⟩
  · rw [Reply.finishReason, bufferedReply_called]
    rfl
  · cases h.told

end Sample

end BeeAgent.ModelProviders
