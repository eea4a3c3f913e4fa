import BeeAgent.Data.Units
import BeeAgent.Learning.Selection

/-! The template of a learned skill: the invocations that are gathered from the evidence of its
proposal, and the input that is made of them. -/
namespace BeeAgent.Learning
open Data Chronicle.Stores

/-! ### Invocations -/

/-- An event that completes an invocation of the tool in a turn. -/
def isInvocation (toolId : Value) (turnId : String) (event : StoredEvent) : Bool :=
  let item := field "item" event.event.payload
  event.event.eventType = "item.completed" && event.event.scope.turnId.getD "" = turnId &&
    (match field "type" item with
      | .string type => type = "tool_call"
      | _ => false) &&
    match field "toolId" (field "payload" item), toolId with
    | .string used, .string toolId => used = toolId
    | _, _ => false

def inputOf (event : StoredEvent) : Value :=
  field "input" (field "payload" (field "item" event.event.payload))

def succeeded (event : StoredEvent) : Bool := !(toolCall event.event.payload).isError

section Template
variable (store : Memory.Store) (toolId : Value) (refs : List TrajectoryRef)

def invocationsIn (ref : TrajectoryRef) : List StoredEvent :=
  (readThread store ("thread:" ++ ref.threadId)).filter (isInvocation toolId ref.turnId)

/-- The invocations with an input, of the last ten turns that are referred to. -/
def gathered : List StoredEvent :=
  ((refs.drop (refs.length - 10)).flatMap (invocationsIn store toolId)).filter fun event =>
    match inputOf event with
    | .undefined | .null => false
    | _ => true

/-- `Object.entries` -/
def entriesOf : Value → List (String × Value)
  | .object fields => fields
  | .array items => items.zipIdx.map fun e => (toString e.2, e.1)
  | .string s => s.toList.zipIdx.map fun e => (toString e.2, .string (String.singleton e.1))
  | _ => []

/-- `JSON.stringify(entry[key] ?? null)` -/
def fieldText (key : String) (input : Value) : String :=
  stringify ((((entriesOf input).find? fun e => e.1 = key).map Prod.snd).getD .null |>.orElse .null)

/-- What becomes of a field: its value, or a hint that gives the value as an example. -/
inductive TemplateField where
  | verbatim (value : Value)
  | adjust (value : Value)

def TemplateField.value : TemplateField → Value
  | .verbatim value => value
  | .adjust value => .string ("（按需调整，参考值：" ++ sliceText (stringify value) 80 ++ "）")

def FirstFiveAgree (inputs : List Value) (key : String) : Prop :=
  ((inputs.map (fieldText key)).take 5).dedup.length = 1

instance (inputs : List Value) (key : String) : Decidable (FirstFiveAgree inputs key) :=
  inferInstanceAs (Decidable (_ = 1))

/-- The fields of the latest input. -/
def templateFields (inputs : List Value) : List (String × TemplateField) :=
  match inputs.getLast? with
  | none => []
  | some latest => (entriesOf latest).map fun e =>
    (e.1, if FirstFiveAgree inputs e.1 then .verbatim e.2 else .adjust e.2)

structure SkillTemplate where
  instructions : String
  typicalInput : List (String × TemplateField)

def SkillTemplate.input (template : SkillTemplate) : List (String × Value) :=
  template.typicalInput.map fun e => (e.1, e.2.value)

def skillTemplateFor : SkillTemplate :=
  let typicalInput := templateFields ((gathered store toolId refs).map inputOf)
  { instructions := "使用 " ++ toolId.interpolated ++ " 时按本技能的典型模式调用" ++
      (if 0 < refs.length then "（来自 " ++ toString refs.length ++ " 条历史轨迹的成功实践）"
        else "") ++
      if 0 < typicalInput.length then
        "。典型输入字段：" ++ "、".intercalate (typicalInput.map Prod.fst) ++ "。"
      else ""
    typicalInput }

/-! ### What the evidence says -/

def successes : List StoredEvent :=
  (refs.flatMap (invocationsIn store toolId)).filter succeeded

/-- An event is no later than another one: by its time, and within a stream by its place. -/
def EventNoLater (a b : StoredEvent) : Prop :=
  keyLe a.ingestTime b.ingestTime ∧ (a.streamId = b.streamId → a.sequence ≤ b.sequence)

/-- A most recent successful invocation. -/
def Newest (event : StoredEvent) : Prop :=
  event ∈ successes store toolId refs ∧
    ∀ other ∈ successes store toolId refs, EventNoLater other event

/-- Every successful invocation has the value in the field. -/
def AllAgree (key : String) (value : Value) : Prop :=
  ∀ event ∈ successes store toolId refs,
    fieldText key (inputOf event) = stringify (value.orElse .null)

/-- A field of the template is taken from an invocation: as it is if all successful ones agree. -/
def TakenFrom (event : StoredEvent) (key : String) : TemplateField → Prop
  | .verbatim value => (key, value) ∈ entriesOf (inputOf event) ∧
      AllAgree store toolId refs key value
  | .adjust value => (key, value) ∈ entriesOf (inputOf event)

/-- The template has no fields, or has all its fields from a most recent successful invocation. -/
def TemplateRight : Prop :=
  let typicalInput := (skillTemplateFor store toolId refs).typicalInput
  typicalInput = [] ∨ ∃ event, Newest store toolId refs event ∧
    ∀ e ∈ typicalInput, TakenFrom store toolId refs event e.1 e.2

/-- The last invocation that is gathered, if it has fields, shares them with a most recent
successful one, and every successful invocation agrees where the first five that are gathered do. -/
def Representative : Prop :=
  ∀ latest ∈ (gathered store toolId refs).getLast?, entriesOf (inputOf latest) = [] ∨
    ∃ event, Newest store toolId refs event ∧
      entriesOf (inputOf latest) ⊆ entriesOf (inputOf event) ∧
      ∀ e ∈ entriesOf (inputOf latest),
        FirstFiveAgree ((gathered store toolId refs).map inputOf) e.1 →
          AllAgree store toolId refs e.1 e.2

/-- The fields that are made of an input are taken from an invocation if it has them and all
successful ones agree where the first five do. -/
theorem takenFrom_iff {inputs : List Value} (event : StoredEvent) (e : String × Value) :
    TakenFrom store toolId refs event e.1
        (if FirstFiveAgree inputs e.1 then .verbatim e.2 else .adjust e.2) ↔
      e ∈ entriesOf (inputOf event) ∧
        (FirstFiveAgree inputs e.1 → AllAgree store toolId refs e.1 e.2) := by
  by_cases hagree : FirstFiveAgree inputs e.1
  · simp [TakenFrom, hagree]
  · simp [TakenFrom, hagree]

/-- The template is right exactly when the evidence that is gathered represents the successful
invocations. -/
theorem template_right_iff :
    TemplateRight store toolId refs ↔ Representative store toolId refs := by
  unfold TemplateRight Representative skillTemplateFor templateFields
  simp only [List.getLast?_map]
  cases hlatest : (gathered store toolId refs).getLast? with
  | none => simp
  | some latest =>
    simp only [Option.map_some, List.map_eq_nil_iff, Option.mem_some_iff, forall_eq']
    refine or_congr_right (exists_congr fun event => and_congr_right fun _ => ?_)
    rw [List.forall_mem_map]
    simp only [takenFrom_iff]
    exact ⟨fun h => ⟨fun e he => (h e he).1, fun e he => (h e he).2⟩,
      fun h e he => ⟨h.1 he, h.2 e he⟩⟩

end Template

/-! ### A failed invocation that is the last one -/

/-- An invocation of a tool in a turn, with its input and how it ended. -/
def invocation (sequence : ℕ) (time city : String) (isError : Bool) : StoredEvent where
  event := (sampleStored "item.completed" time sequence (.object [("item", .object
    [("id", .string "item"), ("type", .string "tool_call"), ("payload", .object
      [("toolId", .string "lookup"), ("input", .object [("city", .string city)]),
        ("isError", .boolean isError)])])])).event
  streamId := "thread:a"
  sequence
  ingestTime := time

/-- A successful invocation, and one that fails. -/
def failedLast : Memory.Store := OrderedMap.empty.set "thread:a"
  [invocation 1 "2026-01-01T00:00:00Z" "Paris" false,
    invocation 2 "2026-01-01T00:01:00Z" "Pariss" true]

/-- The hint of the template is taken from the invocation that failed. -/
theorem template_from_failure :
    (skillTemplateFor failedLast (.string "lookup") [⟨"a", "turn"⟩]).typicalInput =
      [("city", .adjust (.string "Pariss"))] ∧
    ¬ TemplateRight failedLast (.string "lookup") [⟨"a", "turn"⟩] := by
  have hfields : (skillTemplateFor failedLast (.string "lookup") [⟨"a", "turn"⟩]).typicalInput =
      [("city", .adjust (.string "Pariss"))] := rfl
  have hsuccesses : successes failedLast (.string "lookup") [⟨"a", "turn"⟩] =
      [invocation 1 "2026-01-01T00:00:00Z" "Paris" false] := rfl
  refine ⟨hfields, ?_⟩
  rintro (hnone | ⟨event, hnewest, hfrom⟩)
  · rw [hfields] at hnone
    cases hnone
  · have hevent := hnewest.1
    rw [hsuccesses, List.mem_singleton] at hevent
    subst hevent
    have htaken := hfrom ("city", .adjust (.string "Pariss")) (by rw [hfields]; exact .head _)
    have hcity : ("city", Value.string "Pariss") ∈ [("city", Value.string "Paris")] := htaken
    simp at hcity

end BeeAgent.Learning
