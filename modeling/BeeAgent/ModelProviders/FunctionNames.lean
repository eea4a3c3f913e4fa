import BeeAgent.ModelProviders.OpenAiChat

/-! The names under which tools go over the wire, and which bundles they tell apart. -/
namespace BeeAgent.ModelProviders
open Data

/-- `[a-zA-Z0-9_-]` -/
def isNameUnit (unit : ℕ) : Bool :=
  (97 ≤ unit && unit ≤ 122) || (65 ≤ unit && unit ≤ 90) || (48 ≤ unit && unit ≤ 57) ||
    unit = 95 || unit = 45

def nameUnit (unit : ℕ) : ℕ := if isNameUnit unit then unit else 95

def noName : JsString := [116, 111, 111, 108]

/-- `tool` stands for an id that is empty. -/
def toFunctionName (toolId : JsString) : JsString :=
  let sanitized := toolId.map nameUnit
  if 0 < sanitized.length then sanitized.take 64 else noName

structure LlmToolSpec where
  id : JsString
  description : JsString
  inputSchema : Json

/-- A context bundle, without its messages. -/
structure ContextBundle where
  tools : List LlmToolSpec
  decisionSchema : Option Json := none

structure ToolDefinition where
  name : JsString
  description : JsString
  parameters : Json

def toolDefinitions (bundle : ContextBundle) : List ToolDefinition :=
  bundle.tools.map fun tool => ⟨toFunctionName tool.id, tool.description, tool.inputSchema⟩

/-- The tool that a name stands for: the last one that is sent under it. -/
def functionNames (bundle : ContextBundle) : OrderedMap JsString JsString :=
  bundle.tools.foldl (fun names tool => names.set (toFunctionName tool.id) tool.id) .empty

/-- What the reply to a request with this bundle is read with. -/
def ContextBundle.context (bundle : ContextBundle) : CallContext :=
  ⟨(functionNames bundle).get, bundle.decisionSchema.isSome⟩

structure WireToolCall where
  id : JsString
  name : JsString
  arguments : JsString

/-- A call of an assistant message, in a later request. -/
def toWireCall (stringify : Json → JsString) (call : LlmToolCall) : WireToolCall :=
  { id := call.callId
    name := toFunctionName call.toolId
    arguments := stringify (match call.input with
      | .null => .object []
      | input => input) }

/-- The ids that meet on the wire: in the first 64 code units they have the same, up to those that a
name cannot have, or one is empty and the other is `tool`. -/
def MeetOnWire (a b : JsString) : Prop :=
  (∀ i < 64, a[i]?.map nameUnit = b[i]?.map nameUnit) ∨ a = [] ∧ b = noName ∨ a = noName ∧ b = []

theorem toFunctionName_nil : toFunctionName [] = noName := rfl

theorem toFunctionName_of_ne_nil {a : JsString} (h : a ≠ []) :
    toFunctionName a = (a.map nameUnit).take 64 := by
  rw [toFunctionName, if_pos (by simpa using List.length_pos_iff.mpr h)]

theorem take_map_eq_iff {a b : JsString} :
    (a.map nameUnit).take 64 = (b.map nameUnit).take 64 ↔
      ∀ i < 64, a[i]?.map nameUnit = b[i]?.map nameUnit := by
  constructor
  · intro h i hi
    have := congrArg (·[i]?) h
    simpa only [List.getElem?_take, if_pos hi, List.getElem?_map] using this
  · intro h
    refine List.ext_getElem? fun i => ?_
    by_cases hi : i < 64
    · simpa only [List.getElem?_take, if_pos hi, List.getElem?_map] using h i hi
    · simp only [List.getElem?_take, if_neg hi]

theorem nameUnit_eq {unit target : ℕ} (h : nameUnit unit = target) (htarget : target ≠ 95) :
    unit = target := by
  unfold nameUnit at h
  split at h
  · exact h
  · exact absurd h.symm htarget

theorem take_map_eq_noName {a : JsString} : (a.map nameUnit).take 64 = noName ↔ a = noName := by
  constructor
  · intro h
    have hlength : a.length = 4 := by
      have := congrArg List.length h
      simp only [List.length_take, List.length_map, noName, List.length_cons,
        List.length_nil] at this
      omega
    rw [List.take_of_length_le (by simp [hlength])] at h
    refine List.ext_getElem? fun i => ?_
    have hi := congrArg (·[i]?) h
    simp only [List.getElem?_map] at hi
    cases ha : a[i]? with
    | none => simpa [ha] using hi
    | some unit =>
      rw [ha, Option.map_some] at hi
      have hmem : nameUnit unit ∈ noName := List.mem_of_getElem? hi.symm
      have htarget : nameUnit unit ≠ 95 := by
        rintro h
        rw [h] at hmem
        revert hmem
        decide
      rw [← hi]
      exact congrArg some (nameUnit_eq rfl htarget)
  · rintro rfl
    rfl

theorem toFunctionName_eq_iff {a b : JsString} :
    toFunctionName a = toFunctionName b ↔ MeetOnWire a b := by
  by_cases ha : a = [] <;> by_cases hb : b = []
  · subst ha hb
    exact iff_of_true rfl (.inl fun _ _ => rfl)
  · subst ha
    have hfirst : ¬ ∀ i < 64, ([] : JsString)[i]?.map nameUnit = b[i]?.map nameUnit := by
      intro h
      have := h 0 (by omega)
      cases b <;> simp_all
    rw [toFunctionName_nil, toFunctionName_of_ne_nil hb, eq_comm, take_map_eq_noName,
      MeetOnWire, or_iff_right hfirst]
    simp [hb]
  · subst hb
    have hfirst : ¬ ∀ i < 64, a[i]?.map nameUnit = ([] : JsString)[i]?.map nameUnit := by
      intro h
      have := h 0 (by omega)
      cases a <;> simp_all
    rw [toFunctionName_nil, toFunctionName_of_ne_nil ha, take_map_eq_noName,
      MeetOnWire, or_iff_right hfirst]
    simp [ha]
  · rw [toFunctionName_of_ne_nil ha, toFunctionName_of_ne_nil hb, take_map_eq_iff]
    simp [MeetOnWire, ha, hb]

/-- The names of the calls that a stream settles, in their order. -/
def calledNames (fragments : OrderedMap ℚ ToolCallFragment) : List JsString :=
  (fragments.keys.insertionSort (· ≤ ·)).filterMap fun index =>
    (fragments.get index).bind fun fragment =>
      if fragment.name = [] ∧ fragment.args = [] then none else some fragment.name

def wireName (wire : Json) : Option JsString :=
  (wire.recordAt "function").bind (Json.textAt "name")

/-- A call under the name that a tool is sent under is one of that tool. -/
def Resolves (bundle : ContextBundle) (name : JsString) (call : LlmToolCall) : Prop :=
  ∀ tool ∈ bundle.tools, name = toFunctionName tool.id → call.toolId = tool.id

/-- The names tell the tools apart: a call comes back as one of the tool it names, over both paths,
and under the name it is sent back with. -/
structure NamesSurvive (js : Engine) (bundle : ContextBundle) : Prop where
  distinct : ((toolDefinitions bundle).map ToolDefinition.name).Nodup
  streamed : ∀ fragments, List.Forall₂ (Resolves bundle) (calledNames fragments)
    (settleToolCalls js bundle.context fragments)
  buffered : ∀ wires calls, wires.mapM (bufferedCall js bundle.context) = .ok calls →
    List.Forall₂ (fun wire call => ∀ name, wireName wire = some name → Resolves bundle name call)
      wires calls
  resent : ∀ stringify, ∀ call : LlmToolCall, ∀ tool ∈ bundle.tools, call.toolId = tool.id →
    ∀ callId args, (toolCallOf js bundle.context callId (toWireCall stringify call).name args).toolId =
      tool.id

variable {js : Engine} {bundle : ContextBundle}

theorem resolves_toolCallOf (js : Engine)
    (hnames : (bundle.tools.map fun tool => toFunctionName tool.id).Nodup)
    (callId name args : JsString) :
    Resolves bundle name (toolCallOf js bundle.context callId name args) := by
  rintro tool htool rfl
  have hset : functionNames bundle =
      .setAll .empty (bundle.tools.map fun tool => (toFunctionName tool.id, tool.id)) := by
    rw [functionNames, OrderedMap.setAll, List.foldl_map]
  have hget : (functionNames bundle).get (toFunctionName tool.id) = some tool.id := by
    rw [hset, OrderedMap.get_setAll]
    refine OrderedMap.lastOf_of_nodup ?_ (List.mem_map_of_mem htool)
    rwa [List.map_map]
  simp [toolCallOf, ContextBundle.context, hget]

theorem bufferedCall_ok {context : CallContext} {wire : Json} {call : LlmToolCall}
    (h : bufferedCall js context wire = .ok call) :
    ∃ callId name args, wireName wire = some name ∧ call = toolCallOf js context callId name args := by
  unfold bufferedCall at h
  cases hid : wire.textAt "id" with
  | none => simp [hid] at h
  | some callId =>
    cases hfn : wire.recordAt "function" with
    | none => simp [hid, hfn] at h
    | some fn =>
      cases hname : fn.textAt "name" with
      | none => simp [hid, hfn, hname] at h
      | some name =>
        simp only [hid, hfn, hname, Except.ok.injEq] at h
        exact ⟨callId, name, _, by rw [wireName, hfn, Option.bind_some, hname], h.symm⟩

/-- The names survive exactly in the bundles no two tools of which meet on the wire. -/
theorem namesSurvive_iff (js : Engine) (bundle : ContextBundle) :
    NamesSurvive js bundle ↔
      bundle.tools.Pairwise fun tool tool' => ¬ MeetOnWire tool.id tool'.id := by
  have hnames : (bundle.tools.map fun tool => toFunctionName tool.id).Nodup ↔
      bundle.tools.Pairwise fun tool tool' => ¬ MeetOnWire tool.id tool'.id := by
    rw [List.Nodup, List.pairwise_map]
    simp only [ne_eq, toFunctionName_eq_iff]
  have hdefinitions : (toolDefinitions bundle).map ToolDefinition.name =
      bundle.tools.map fun tool => toFunctionName tool.id := by
    rw [toolDefinitions, List.map_map]
    rfl
  refine ⟨fun h => hnames.mp (hdefinitions ▸ h.distinct), fun h => ?_⟩
  have hresolves := resolves_toolCallOf js (hnames.mpr h)
  refine ⟨hdefinitions ▸ hnames.mpr h, fun fragments => ?_, fun wires calls hcalls => ?_, ?_⟩
  · rw [calledNames, settleToolCalls]
    generalize fragments.keys.insertionSort (· ≤ ·) = indexes
    induction indexes with
    | nil => exact .nil
    | cons index indexes ih =>
      rw [List.filterMap_cons, List.filterMap_cons]
      cases fragments.get index with
      | none => exact ih
      | some fragment =>
        by_cases hempty : fragment.name = [] ∧ fragment.args = []
        · simpa [hempty] using ih
        · simpa [hempty] using ⟨hresolves _ fragment.name fragment.args, ih⟩
  · induction wires generalizing calls with
    | nil =>
      cases hcalls
      exact .nil
    | cons wire wires ih =>
      rw [List.mapM_cons] at hcalls
      cases hcall : bufferedCall js bundle.context wire with
      | error e => simp [hcall, bind, Except.bind] at hcalls
      | ok call =>
        cases hrest : wires.mapM (bufferedCall js bundle.context) with
        | error e => simp [hcall, hrest, bind, Except.bind] at hcalls
        | ok rest =>
          simp only [hcall, hrest, bind, Except.bind, pure, Except.pure, Except.ok.injEq] at hcalls
          subst hcalls
          refine .cons (fun name hname => ?_) (ih rest hrest)
          obtain ⟨callId, name', args, hname', rfl⟩ := bufferedCall_ok hcall
          cases hname.symm.trans hname'
          exact hresolves callId name args
  · rintro stringify call tool htool hid callId args
    exact hresolves callId _ args tool htool (by rw [toWireCall, hid])

def sampleTool (id : JsString) : LlmToolSpec := ⟨id, [], .object []⟩

/-- `a.b` and `a_b` go over the wire as `a_b`, and a call of the first comes back as one of the
second. -/
theorem dotted_meets_underscored :
    ([sampleTool [97, 46, 98], sampleTool [97, 95, 98]].map LlmToolSpec.id).Nodup ∧
      ∀ js, ¬ NamesSurvive js ⟨[sampleTool [97, 46, 98], sampleTool [97, 95, 98]], none⟩ :=
  ⟨by decide, fun _ h => absurd h.distinct (by decide)⟩

end BeeAgent.ModelProviders
