import BeeAgent.Data.Faithful
import BeeAgent.ModelProviders.Blocks

/-! The two paths of the chat provider agree: a completion that is split into deltas, frames and
chunks in any way is put together again as the parse of the completion in one body gives it. -/
namespace BeeAgent.ModelProviders
open Data Framing

/-! ### Completions and their deltas -/

/-- A tool call of a completion, under the index that its fragments carry. -/
structure ChatToolCall where
  index : ℚ
  id : JsString
  name : JsString
  args : JsString
  named : name ≠ []

/-- A chat completion. -/
structure ChatCompletion where
  content : JsString
  toolCalls : List ChatToolCall
  finishReason : Option JsString
  usage : Option Usage
  ordered : (toolCalls.map ChatToolCall.index).Pairwise (· < ·)

/-- What a chunk brings of one tool call. -/
structure CallDelta where
  index : ℚ
  id : Option JsString
  name : JsString
  args : JsString

structure Delta where
  content : JsString := []
  toolCalls : List CallDelta := []
  finishReason : Option JsString := none
  usage : Option Usage := none

def callDeltaOf (wire : Json) : Option CallDelta :=
  wire.record?.map fun wire =>
    let fn := wire.recordAt "function"
    { index := ((wire.property? "index").bind Json.number?).getD 0
      id := wire.textAt "id"
      name := (fn.bind (Json.textAt "name")).getD []
      args := (fn.bind (Json.textAt "arguments")).getD [] }

/-- What a chunk carries: usage beside the first choice, whose delta holds text and fragments. -/
def deltaOf (chunk : Json) : Delta :=
  let choice := match chunk.itemsAt "choices" with
    | some (choice :: _) => choice.record?
    | _ => none
  let delta := choice.bind (Json.recordAt "delta")
  { content := (delta.bind (Json.textAt "content")).getD []
    toolCalls := ((delta.bind (Json.itemsAt "tool_calls")).getD []).filterMap callDeltaOf
    finishReason := choice.bind (Json.textAt "finish_reason")
    usage := (chunk.recordAt "usage").map usageOf }

/-- The value that is given last. -/
def lastGiven {α : Type} : List (Option α) → Option α
  | [] => none
  | v :: vs => (lastGiven vs).or v

def ofIndex (index : ℚ) (calls : List CallDelta) : List CallDelta :=
  calls.filter fun call => call.index = index

/-- The deltas make up the completion: text in order, and for each tool call the fragments with its
index in order, among which its id is given; finish reason and usage as they are given last. -/
structure Splits (c : ChatCompletion) (deltas : List Delta) : Prop where
  content : deltas.flatMap Delta.content = c.content
  finishReason : lastGiven (deltas.map Delta.finishReason) = c.finishReason
  usage : lastGiven (deltas.map Delta.usage) = c.usage
  index : ∀ call ∈ deltas.flatMap Delta.toolCalls, call.index ∈ c.toolCalls.map ChatToolCall.index
  id : ∀ call ∈ c.toolCalls,
    lastGiven ((ofIndex call.index (deltas.flatMap Delta.toolCalls)).map CallDelta.id) =
      some call.id
  name : ∀ call ∈ c.toolCalls,
    (ofIndex call.index (deltas.flatMap Delta.toolCalls)).flatMap CallDelta.name = call.name
  args : ∀ call ∈ c.toolCalls,
    (ofIndex call.index (deltas.flatMap Delta.toolCalls)).flatMap CallDelta.args = call.args

/-! ### Adding deltas up -/

def ToolCallFragment.add (fragment : ToolCallFragment) (call : CallDelta) : ToolCallFragment :=
  ⟨call.id.or fragment.id, fragment.name ++ call.name, fragment.args ++ call.args⟩

def addCall (fragments : OrderedMap ℚ ToolCallFragment) (call : CallDelta) :
    OrderedMap ℚ ToolCallFragment :=
  fragments.set call.index (((fragments.get call.index).getD {}).add call)

theorem handleWire_eq (fragments : OrderedMap ℚ ToolCallFragment) (wire : Json) :
    handleWire fragments wire = (callDeltaOf wire).elim fragments (addCall fragments) := by
  rw [handleWire, callDeltaOf]
  cases wire.record? <;> rfl

theorem foldl_handleWire (fragments : OrderedMap ℚ ToolCallFragment) (wires : List Json) :
    wires.foldl handleWire fragments = (wires.filterMap callDeltaOf).foldl addCall fragments := by
  induction wires generalizing fragments with
  | nil => rfl
  | cons wire wires ih =>
    rw [List.foldl_cons, ih, handleWire_eq, List.filterMap_cons]
    cases callDeltaOf wire <;> rfl

theorem foldl_add (fragment : ToolCallFragment) (calls : List CallDelta) :
    calls.foldl ToolCallFragment.add fragment =
      ⟨(lastGiven (calls.map CallDelta.id)).or fragment.id,
        fragment.name ++ calls.flatMap CallDelta.name,
        fragment.args ++ calls.flatMap CallDelta.args⟩ := by
  induction calls generalizing fragment with
  | nil => simp [lastGiven]
  | cons call calls ih =>
    rw [List.foldl_cons, ih]
    simp [ToolCallFragment.add, lastGiven, Option.or_assoc]

theorem get_foldl_addCall (fragments : OrderedMap ℚ ToolCallFragment) (calls : List CallDelta)
    (index : ℚ) : (calls.foldl addCall fragments).get index =
      if ofIndex index calls = [] then fragments.get index
      else some ((ofIndex index calls).foldl ToolCallFragment.add
        ((fragments.get index).getD {})) := by
  induction calls generalizing fragments with
  | nil => rfl
  | cons call calls ih =>
    rw [List.foldl_cons, ih, addCall, OrderedMap.get_set]
    by_cases hindex : call.index = index
    · have hown : ofIndex index (call :: calls) = call :: ofIndex index calls := by
        simp [ofIndex, hindex]
      rw [hown]
      simp only [hindex, if_true, Option.getD_some, List.cons_ne_nil, if_false, List.foldl_cons]
      by_cases hrest : ofIndex index calls = []
      · simp [hrest]
      · simp [hrest]
    · have hown : ofIndex index (call :: calls) = ofIndex index calls := by
        simp [ofIndex, hindex]
      rw [hown]
      simp [Ne.symm hindex]

theorem mem_keys_addCalls (calls : List CallDelta) (index : ℚ) :
    index ∈ (calls.foldl addCall .empty).keys ↔ index ∈ calls.map CallDelta.index := by
  have hown : ofIndex index calls = [] ↔ index ∉ calls.map CallDelta.index := by
    simp [ofIndex, List.filter_eq_nil_iff]
  rw [OrderedMap.mem_keys_iff, get_foldl_addCall]
  by_cases h : ofIndex index calls = []
  · simpa [h] using hown.mp h
  · simpa [h] using not_not.mp (mt hown.mpr h)

/-- The state that a delta leads to. -/
def SseState.add (st : SseState) (d : Delta) : SseState :=
  { events := st.events ++ if d.content = [] then [] else [.messageDelta d.content]
    content := st.content ++ d.content
    fragments := d.toolCalls.foldl addCall st.fragments
    finishReason := d.finishReason.or st.finishReason
    usage := d.usage.or st.usage }

theorem SseState.add_empty (st : SseState) : st.add {} = st := by
  simp [SseState.add]

theorem Json.record?_some {v r : Json} (h : v.record? = some r) : r = v := by
  cases v <;> cases h <;> rfl

theorem Json.property?_of_record {v : Json} (h : v.record? = none) (key : String) :
    v.property? key = none := by
  cases v <;> first | rfl | cases h

theorem handleDelta_eq (st : SseState) (delta : Json) :
    handleDelta st delta = st.add
      { content := (delta.textAt "content").getD []
        toolCalls := ((delta.itemsAt "tool_calls").getD []).filterMap callDeltaOf } := by
  rw [handleDelta]
  rcases htext : delta.textAt "content" with _ | _ | ⟨unit, rest⟩ <;>
    cases hcalls : delta.itemsAt "tool_calls" <;>
      simp [SseState.add, foldl_handleWire]

theorem handleChoice_eq (st : SseState) (choice : Json) :
    handleChoice st choice = st.add
      { content := (((choice.recordAt "delta").bind (Json.textAt "content")).getD [])
        toolCalls :=
          (((choice.recordAt "delta").bind (Json.itemsAt "tool_calls")).getD []).filterMap callDeltaOf
        finishReason := choice.textAt "finish_reason" } := by
  rw [handleChoice]
  cases hdelta : choice.recordAt "delta" with
  | none => simp [SseState.add]
  | some delta =>
    simp only [handleDelta_eq]
    rfl

theorem handleChunk_eq (st : SseState) (chunk : Json) :
    handleChunk st chunk = st.add (deltaOf chunk) := by
  rw [handleChunk]
  cases hrecord : chunk.record? with
  | none =>
    have hnone := Json.property?_of_record hrecord
    have hempty : deltaOf chunk = {} := by
      simp [deltaOf, Json.itemsAt, Json.recordAt, hnone]
    rw [hempty, SseState.add_empty]
  | some r =>
    obtain rfl := Json.record?_some hrecord
    rcases hitems : r.itemsAt "choices" with _ | _ | ⟨choice, rest⟩
    · simp [deltaOf, hitems, SseState.add]
    · simp [deltaOf, hitems, SseState.add]
    · cases hchoice : choice.record? with
      | none => simp [deltaOf, hitems, hchoice, SseState.add]
      | some record =>
        obtain rfl := Json.record?_some hchoice
        simp only [handleChoice_eq, deltaOf, hitems, hchoice, Option.bind_some]
        simp [SseState.add]

theorem foldl_handleChunk (st : SseState) (chunks : List Json) :
    chunks.foldl handleChunk st = (chunks.map deltaOf).foldl SseState.add st := by
  induction chunks generalizing st with
  | nil => rfl
  | cons chunk chunks ih => rw [List.foldl_cons, ih, handleChunk_eq]; rfl

def messageDeltas (deltas : List Delta) : List LlmStreamEvent :=
  deltas.flatMap fun d => if d.content = [] then [] else [.messageDelta d.content]

theorem foldl_addDelta (st : SseState) (deltas : List Delta) :
    deltas.foldl SseState.add st =
      { events := st.events ++ messageDeltas deltas
        content := st.content ++ deltas.flatMap Delta.content
        fragments := (deltas.flatMap Delta.toolCalls).foldl addCall st.fragments
        finishReason := (lastGiven (deltas.map Delta.finishReason)).or st.finishReason
        usage := (lastGiven (deltas.map Delta.usage)).or st.usage } := by
  induction deltas generalizing st with
  | nil => simp [messageDeltas, lastGiven]
  | cons d deltas ih =>
    rw [List.foldl_cons, ih]
    simp [SseState.add, messageDeltas, lastGiven, Option.or_assoc]

section Settling
variable (js : Engine) (context : CallContext)

def ChatToolCall.toLlm (call : ChatToolCall) : LlmToolCall :=
  toolCallOf js context call.id call.name call.args

def ChatCompletion.intents (c : ChatCompletion) : List LlmToolCall :=
  c.toolCalls.map (ChatToolCall.toLlm js context)

variable {js context} {c : ChatCompletion} {deltas : List Delta}

theorem settleToolCalls_eq (h : Splits c deltas) :
    settleToolCalls js context ((deltas.flatMap Delta.toolCalls).foldl addCall .empty) =
      c.intents js context := by
  have hget : ∀ call ∈ c.toolCalls,
      ((deltas.flatMap Delta.toolCalls).foldl addCall .empty).get call.index =
        some ⟨some call.id, call.name, call.args⟩ := by
    intro call hcall
    have hid := h.id call hcall
    have hne : ofIndex call.index (deltas.flatMap Delta.toolCalls) ≠ [] := by
      intro hnil
      rw [hnil] at hid
      cases hid
    rw [get_foldl_addCall, if_neg hne, foldl_add, hid, h.name call hcall, h.args call hcall]
    rfl
  have hkeys : ((deltas.flatMap Delta.toolCalls).foldl addCall .empty).keys.insertionSort (· ≤ ·) =
      c.toolCalls.map ChatToolCall.index := by
    have hsame : ∀ index, index ∈ ((deltas.flatMap Delta.toolCalls).foldl addCall .empty).keys ↔
        index ∈ c.toolCalls.map ChatToolCall.index := by
      intro index
      rw [mem_keys_addCalls]
      constructor
      · intro hindex
        obtain ⟨call, hcall, rfl⟩ := List.mem_map.mp hindex
        exact h.index call hcall
      · intro hindex
        obtain ⟨call, hcall, rfl⟩ := List.mem_map.mp hindex
        rw [← mem_keys_addCalls, OrderedMap.mem_keys_iff]
        exact ⟨_, hget call hcall⟩
    have hperm := (List.perm_insertionSort (· ≤ ·) _).trans
      ((List.perm_ext_iff_of_nodup (OrderedMap.nodup _) (c.ordered.imp ne_of_lt)).mpr hsame)
    exact hperm.eq_of_pairwise' (List.pairwise_insertionSort _ _) (c.ordered.imp le_of_lt)
  rw [settleToolCalls, hkeys, List.filterMap_map, ChatCompletion.intents, ← List.filterMap_eq_map]
  refine List.filterMap_congr fun call hcall => ?_
  simp [hget call hcall, call.named, ChatToolCall.toLlm]

/-- What both paths emit, however the text is cut into deltas. -/
def Emits (js : Engine) (context : CallContext) (c : ChatCompletion) (e : Emitted) : Prop :=
  e.text = c.content ∧ e.intents = c.intents js context ∧
    e.decisions = (parseDecision js context c.content).toList ∧
    e.completion = ⟨stopReasonFor (c.intents js context) (parseDecision js context c.content)
      c.finishReason, c.usage.getD noUsage⟩

theorem emits_of {texts : List LlmStreamEvent} (htexts : ∀ e ∈ texts, ∃ d, e = .messageDelta d)
    (htext : texts.flatMap LlmStreamEvent.delta = c.content) {completion : Completion}
    (hcompletion : completion = ⟨stopReasonFor (c.intents js context)
      (parseDecision js context c.content) c.finishReason, c.usage.getD noUsage⟩) :
    Emits js context c
      ⟨texts ++ (c.intents js context).map .toolIntent ++
        (parseDecision js context c.content).toList.map .decision, completion⟩ := by
  have hintents : texts.filterMap LlmStreamEvent.intent? = [] :=
    List.filterMap_eq_nil_iff.mpr fun e he => by
      obtain ⟨d, rfl⟩ := htexts e he
      rfl
  have hdecisions : texts.filterMap LlmStreamEvent.decision? = [] :=
    List.filterMap_eq_nil_iff.mpr fun e he => by
      obtain ⟨d, rfl⟩ := htexts e he
      rfl
  refine ⟨?_, ?_, ?_, hcompletion⟩
  · simp [Emitted.text, htext, List.flatMap_map, LlmStreamEvent.delta]
  · simp [Emitted.intents, hintents, List.filterMap_map, Function.comp_def, LlmStreamEvent.intent?]
  · simp [Emitted.decisions, hdecisions, List.filterMap_map, Function.comp_def,
      LlmStreamEvent.decision?]

theorem settleSse_emits (h : Splits c deltas) :
    Emits js context c (settleSse js context (deltas.foldl SseState.add {})) := by
  rw [foldl_addDelta]
  simp only [settleSse, settleToolCalls_eq h, h.content, h.finishReason, h.usage, Option.or_none,
    List.nil_append]
  refine emits_of (fun e he => ?_) ?_ rfl
  · obtain ⟨d, -, hd⟩ := List.mem_flatMap.mp he
    split at hd
    · cases hd
    · exact ⟨d.content, List.mem_singleton.mp hd⟩
  · rw [← h.content, messageDeltas, List.flatMap_assoc]
    refine List.flatMap_congr fun d _ => ?_
    split
    · next hnil => exact hnil.symm
    · simp [LlmStreamEvent.delta]

/-! ### The buffered path -/

/-- The wire form of a tool call in one piece. -/
def CallOf (wire : Json) (call : ChatToolCall) : Prop :=
  wire.textAt "id" = some call.id ∧ ∃ fn, wire.recordAt "function" = some fn ∧
    fn.textAt "name" = some call.name ∧ (fn.textAt "arguments").getD [] = call.args

/-- The completion in one body. -/
def BodyOf (payload : Json) (c : ChatCompletion) : Prop :=
  payload.record? = some payload ∧ ∃ choice rest message,
    payload.itemsAt "choices" = some (choice :: rest) ∧ choice.record? = some choice ∧
    choice.recordAt "message" = some message ∧ (message.textAt "content").getD [] = c.content ∧
    List.Forall₂ CallOf ((message.itemsAt "tool_calls").getD []) c.toolCalls ∧
    choice.textAt "finish_reason" = c.finishReason ∧
    (payload.recordAt "usage").map usageOf = c.usage

theorem mapM_bufferedCall {wires : List Json} {calls : List ChatToolCall}
    (h : List.Forall₂ CallOf wires calls) :
    wires.mapM (bufferedCall js context) = .ok (calls.map (ChatToolCall.toLlm js context)) := by
  induction h with
  | nil => rfl
  | cons hcall _ ih =>
    obtain ⟨hid, fn, hfn, hname, hargs⟩ := hcall
    rw [List.mapM_cons, ih]
    simp only [bufferedCall, hid, hfn, hname, hargs]
    rfl

theorem stopReasonFor_stop (toolCalls : List LlmToolCall) (decision : Option Json)
    (finishReason : Option JsString) :
    stopReasonFor toolCalls decision (some (finishReason.getD (utf16 "stop"))) =
      stopReasonFor toolCalls decision finishReason := by
  cases finishReason with
  | none =>
    have hstop : utf16 "stop" ≠ utf16 "length" ∧ utf16 "stop" ≠ utf16 "max_tokens" := by
      decide +kernel
    simp [stopReasonFor, hstop]
  | some reason => rfl

theorem runBuffered_emits {payload : Json} (hbody : BodyOf payload c) {text : List Char}
    (htext : text ≠ []) (hmark : text.head? ≠ some Utf8.byteOrderMark)
    (hparse : js.parse (units text) = some payload) :
    ∃ e, runBuffered js context (Utf8.encode text) = .ok e ∧ Emits js context c e := by
  obtain ⟨hrecord, choice, rest, message, hchoices, hchoice, hmessage, hcontent, hcalls, hfinish,
    husage⟩ := hbody
  obtain ⟨hread, hfinished⟩ := Utf8.TextDecoder.read_encode hmark
  have hrecords : requireRecord (some payload) "payload" = .ok payload ∧
      requireRecord (some choice) "choices[0]" = .ok choice ∧
      requireRecord (choice.property? "message") "choices[0].message" = .ok message := by
    have hvalue : (choice.property? "message").bind Json.record? = some message := hmessage
    simp [requireRecord, hrecord, hchoice, hvalue]
  have hnonempty : text.isEmpty = false := by simpa using htext
  have hrun : runBuffered js context (Utf8.encode text) =
      .ok ⟨(if c.content.isEmpty then [] else [.messageDelta c.content]) ++
        (c.intents js context).map .toolIntent ++
          (parseDecision js context c.content).toList.map .decision,
        stopReasonFor (c.intents js context) (parseDecision js context c.content) c.finishReason,
        c.usage.getD noUsage⟩ := by
    simp only [runBuffered, hread, hfinished, List.append_nil, hnonempty, Bool.false_eq_true,
      if_false, hparse, hrecords, hchoices, hcontent, husage, hfinish,
      mapM_bufferedCall hcalls, stopReasonFor_stop, bind, Except.bind, pure, Except.pure]
    rfl
  refine ⟨_, hrun, emits_of (fun e he => ?_) ?_ rfl⟩
  · split at he
    · cases he
    · exact ⟨c.content, List.mem_singleton.mp he⟩
  · split
    · next hnil => exact (List.isEmpty_iff.mp hnil).symm
    · simp [LlmStreamEvent.delta]

end Settling

/-! ### The streaming path -/

/-- A body that streams the completion: frames of either line end around the texts of its chunks,
with or without `[DONE]` behind them, the last frame closed by an empty line or not. -/
def Streams (js : Engine) (c : ChatCompletion) (body : List Char) : Prop :=
  ∃ blocks tail data texts chunks done, body = blocksText blocks ++ tailText tail ∧
    body.head? ≠ some Utf8.byteOrderMark ∧
    List.Forall₂ Block.Carries (blocks ++ (tail.map Prod.fst).toList) data ∧
    data.filterMap id = texts ++ (if done = true then [streamDone] else []) ∧
    List.Forall₂ (fun text chunk => text ≠ streamDone ∧ js.parse (units text) = some chunk)
      texts chunks ∧
    Splits c (chunks.map deltaOf)

section Stream
variable {js : Engine} {context : CallContext} {c : ChatCompletion}

theorem handleEvents_ok {rawEvents : List (List Char)} {data : List (Option (List Char))}
    {texts : List (List Char)} {chunks : List Json} {done : Bool} (st : SseState)
    (hraw : List.Forall₂ (fun raw d => sseEventData raw = d) rawEvents data)
    (hdata : data.filterMap id = texts ++ (if done = true then [streamDone] else []))
    (hchunks : List.Forall₂ (fun text chunk => text ≠ streamDone ∧
      js.parse (units text) = some chunk) texts chunks) :
    handleEvents js st rawEvents = .ok (chunks.foldl handleChunk st, done) := by
  induction hraw generalizing st texts chunks with
  | nil =>
    obtain ⟨rfl, hdone⟩ := List.append_eq_nil_iff.mp hdata.symm
    cases hchunks
    cases done with
    | false => rfl
    | true => cases hdone
  | @cons rawEvent d rest ds hd _ ih =>
    rw [handleEvents, handleEvent, hd]
    cases d with
    | none => exact ih st hdata hchunks
    | some text =>
      change text :: ds.filterMap id = _ at hdata
      cases hchunks with
      | nil =>
        cases done with
        | false => cases hdata
        | true =>
          obtain ⟨rfl, -⟩ := List.cons.inj hdata
          simp
      | cons hchunk hchunks =>
        obtain ⟨rfl, htail⟩ := List.cons.inj hdata
        simp only [hchunk.1, if_false, parseChunk, hchunk.2]
        exact ih _ htail hchunks

theorem handleEvents_append (st : SseState) (rawEvents rest : List (List Char)) :
    handleEvents js st (rawEvents ++ rest) =
      (handleEvents js st rawEvents).bind fun
        | (st, true) => .ok (st, true)
        | (st, false) => handleEvents js st rest := by
  induction rawEvents generalizing st with
  | nil => rfl
  | cons rawEvent rawEvents ih =>
    rw [List.cons_append, handleEvents, handleEvents]
    rcases handleEvent js st rawEvent with _ | _ | st
    · rfl
    · rfl
    · exact ih st

/-- The text behind the last separator is handled like one more frame. -/
theorem runSse_eq (chunks : List (List UInt8)) :
    runSse js context chunks =
      (handleEvents js {} ((readAll findSeparator {} chunks).1 ++
        [(readAll findSeparator {} chunks).2])).map fun settled =>
          settleSse js context settled.1 := by
  rw [handleEvents_append, runSse]
  obtain ⟨rawEvents, tail⟩ := readAll findSeparator {} chunks
  dsimp only
  rcases handleEvents js {} rawEvents with _ | ⟨st, _ | _⟩
  · rfl
  · simp only [Except.bind, handleEvents]
    rcases handleEvent js st tail with _ | _ | _ <;> rfl
  · rfl

theorem sseEventData_frames {blocks : List Block} {tail : Option (Block × Bool)}
    {data : List (Option (List Char))}
    (h : List.Forall₂ Block.Carries (blocks ++ (tail.map Prod.fst).toList) data) :
    ∃ data', List.Forall₂ (fun raw d => sseEventData raw = d)
      (blocks.map Block.raw ++ [tailText tail]) data' ∧
        data'.filterMap id = data.filterMap id := by
  induction blocks generalizing data with
  | nil =>
    cases tail with
    | none =>
      cases h
      exact ⟨[none], .cons rfl .nil, rfl⟩
    | some last =>
      cases h with
      | cons hlast hnil =>
        cases hnil
        exact ⟨_, .cons (sseEventData_tail hlast last.2) .nil, rfl⟩
  | cons b blocks ih =>
    cases h with
    | @cons _ d _ ds hb hrest =>
      obtain ⟨data', hraw, hsame⟩ := ih hrest
      refine ⟨d :: data', .cons (sseEventData_raw hb) hraw, ?_⟩
      rw [List.filterMap_cons, List.filterMap_cons, hsame]

theorem runSse_emits {body : List Char} (hstreams : Streams js c body)
    {chunks : List (List UInt8)} (hchunks : chunks.flatten = Utf8.encode body) :
    ∃ e, runSse js context chunks = .ok e ∧ Emits js context c e := by
  obtain ⟨blocks, tail, data, texts, parsed, done, rfl, hmark, hcarries, hdata, hparsed, hsplits⟩ :=
    hstreams
  obtain ⟨hread, hfinished⟩ := Utf8.TextDecoder.read_encode hmark
  have hbegun := begun_append blocks (tailText_begun tail).2
  have hall : readAll findSeparator {} chunks = (blocks.map Block.raw, tailText tail) := by
    rw [readAll_eq separator_steady {} chunks rfl (by simpa [hchunks, hread] using hbegun), hchunks]
    simp [hread, hfinished, frames_blocks]
  obtain ⟨data', hraw, hsame⟩ := sseEventData_frames hcarries
  have hevents := handleEvents_ok {} hraw (hsame.trans hdata) hparsed
  refine ⟨settleSse js context ((parsed.map deltaOf).foldl SseState.add {}), ?_,
    settleSse_emits hsplits⟩
  rw [runSse_eq, hall, hevents, foldl_handleChunk]
  rfl

/-- The completion in one body. -/
def Answers (js : Engine) (c : ChatCompletion) (text : List Char) : Prop :=
  text ≠ [] ∧ text.head? ≠ some Utf8.byteOrderMark ∧
    ∃ payload, js.parse (units text) = some payload ∧ BodyOf payload c

end Stream

section Sample

def sampleCalls : Json :=
  .array [.object [("id", .string (utf16 "a")),
    ("function", .object [("name", .string (utf16 "f"))])]]

def samplePayload : Json :=
  .object [("choices", .array [.object [("message", .object [
    ("content", .string (utf16 "é")), ("tool_calls", sampleCalls)])]])]

def sampleFirst : Json :=
  .object [("choices", .array [.object [("delta", .object [("content", .string (utf16 "é"))])]])]

def sampleSecond : Json :=
  .object [("choices", .array [.object [("delta", .object [("tool_calls", sampleCalls)])]])]

def samplePayloadText : String :=
  "\x7b\"choices\":[\x7b\"message\":\x7b\"content\":\"é\"," ++
    "\"tool_calls\":[\x7b\"id\":\"a\",\"function\":\x7b\"name\":\"f\"\x7d\x7d]\x7d\x7d]\x7d"

def sampleFirstText : String :=
  "\x7b\"choices\":[\x7b\"delta\":\x7b\"content\":\"é\"\x7d\x7d]\x7d"

def sampleSecondText : String :=
  "\x7b\"choices\":[\x7b\"delta\":\x7b" ++
    "\"tool_calls\":[\x7b\"id\":\"a\",\"function\":\x7b\"name\":\"f\"\x7d\x7d]\x7d\x7d]\x7d"

/-- An engine that knows the texts of the sample. -/
def sampleEngine : Engine where
  parse s := ([(samplePayloadText, samplePayload), (sampleFirstText, sampleFirst),
    (sampleSecondText, sampleSecond)].find? fun known => utf16 known.1 = s).map Prod.snd
  numberText _ := utf16 "0"

def sampleCompletion : ChatCompletion where
  content := utf16 "é"
  toolCalls := [⟨0, utf16 "a", utf16 "f", [], by decide +kernel⟩]
  finishReason := none
  usage := none
  ordered := List.pairwise_singleton _ _

def sampleLine (text : String) : List Char := dataPrefix ++ ([' '] ++ text.toList)

theorem sampleLine_carries {text : String} {c : Char} (hc : text.toList.head? = some c)
    (hwhite : isWhite c.toNat = false) :
    Block.LineCarries (sampleLine text) (some text.toList) := by
  refine .data (fun d hd => ?_) (fun d hd => ?_)
  · obtain rfl := List.mem_singleton.mp hd
    decide
  · obtain rfl := Option.some.inj (hc.symm.trans hd)
    exact hwhite

/-- A comment above the first delta. -/
def sampleBlocks : List Block :=
  [⟨.lf, [[':'], sampleLine sampleFirstText], by decide, by decide +kernel⟩,
    ⟨.crlf, [sampleLine sampleSecondText], by decide, by decide +kernel⟩]

def sampleTail : Block := ⟨.lf, [sampleLine "[DONE]"], by decide, by decide +kernel⟩

theorem sampleEngine_parse :
    sampleEngine.parse (units samplePayloadText.toList) = some samplePayload ∧
    sampleEngine.parse (units sampleFirstText.toList) = some sampleFirst ∧
    sampleEngine.parse (units sampleSecondText.toList) = some sampleSecond := by
  have hfirst : utf16 samplePayloadText ≠ utf16 sampleFirstText :=
    utf16_injective.ne (by decide +kernel)
  have hsecond : utf16 samplePayloadText ≠ utf16 sampleSecondText :=
    utf16_injective.ne (by decide +kernel)
  have hother : utf16 sampleFirstText ≠ utf16 sampleSecondText :=
    utf16_injective.ne (by decide +kernel)
  simp [sampleEngine, units, hfirst, hsecond, hother]

theorem sample_splits : Splits sampleCompletion [deltaOf sampleFirst, deltaOf sampleSecond] where
  content := by decide +kernel
  finishReason := by decide +kernel
  usage := by decide +kernel
  index := by decide +kernel
  id := by decide +kernel
  name := by decide +kernel
  args := by decide +kernel

theorem sample_streams : Streams sampleEngine sampleCompletion
    (blocksText sampleBlocks ++ tailText (some (sampleTail, true))) := by
  refine ⟨sampleBlocks, some (sampleTail, true),
    [some sampleFirstText.toList, some sampleSecondText.toList, some streamDone],
    [sampleFirstText.toList, sampleSecondText.toList], [sampleFirst, sampleSecond], true, rfl,
    by decide +kernel, ?_, by simp, ?_, sample_splits⟩
  · refine .cons ⟨[none, some sampleFirstText.toList], ?_, by simp [Block.joined]⟩ (.cons
      ⟨[some sampleSecondText.toList], ?_, by simp [Block.joined]⟩ (.cons
        ⟨[some streamDone], ?_, by simp [Block.joined]⟩ .nil))
    · exact .cons (.other (by decide))
        (.cons (sampleLine_carries (c := '\x7b') (by decide +kernel) (by decide)) .nil)
    · exact .cons (sampleLine_carries (c := '\x7b') (by decide +kernel) (by decide)) .nil
    · exact .cons (sampleLine_carries (c := '[') (by decide +kernel) (by decide)) .nil
  · exact .cons ⟨by decide +kernel, sampleEngine_parse.2.1⟩
      (.cons ⟨by decide +kernel, sampleEngine_parse.2.2⟩ .nil)

theorem sample_answers : Answers sampleEngine sampleCompletion samplePayloadText.toList := by
  refine ⟨by decide +kernel, by decide +kernel, samplePayload, sampleEngine_parse.1, rfl, _, [], _,
    rfl, rfl, rfl, rfl, ?_, rfl, rfl⟩
  exact .cons ⟨rfl, _, rfl, rfl, rfl⟩ .nil

end Sample

end BeeAgent.ModelProviders
