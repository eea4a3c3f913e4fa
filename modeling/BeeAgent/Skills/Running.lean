import BeeAgent.Runtime.ToolExecution
import BeeAgent.Skills.Events

/-! `skill_run` through the host's tool executor: the call is rewritten to the bound tool's when it
is described and again when the in-process sandbox executes it, each time against the live map of
skills; what the model sees is presented under the name of the call as it came. -/
namespace BeeAgent.Skills
open Data Execution Transition
open BeeAgent.Runtime (ToolActionDescriptor ToolExecutor)
open Thread (ToolCall)

/-- One tool plugin binding. Its `execute` answers through the inputs of the machine. -/
structure ToolAdapter where
  id : String
  authorizationToolId : String
  executor : ToolExecutor

def isKanban (toolId : String) : Bool := "kanban_".toList.isPrefixOf toolId.toList

def registerAdapter (registered : OrderedMap String ToolAdapter) (adapter : ToolAdapter) :
    Except String (OrderedMap String ToolAdapter) :=
  if adapter.authorizationToolId ≠ adapter.id then
    .error ("Tool adapter '" ++ adapter.id ++ "' authorization targets '" ++
      adapter.authorizationToolId ++ "'")
  else if isKanban adapter.id || (registered.get adapter.id).isSome then
    .error ("Duplicate tool adapter '" ++ adapter.id ++ "'")
  else .ok (registered.set adapter.id adapter)

def registerAdapters (adapters : List ToolAdapter) : Except String (OrderedMap String ToolAdapter) :=
  adapters.foldlM registerAdapter .empty

/-- What `compositeToolExecutor` is built from, and whether the host has an OS sandbox. -/
structure ToolHost where
  registered : OrderedMap String ToolAdapter
  fallback : Option ToolExecutor := none
  osSandbox : Bool := false

def optionalProperty (key : String) (v : Value) : Value := (v.property? key).getD .undefined

def missingSkill (skills : OrderedMap String StoredSkill) (skillId : Value) : String :=
  let available := ", ".intercalate skills.keys
  "Skill '" ++ (skillId.orElse (.string "")).interpolated ++ "' 不存在或已被撤销。可用技能：" ++
    if available = "" then "(none registered)" else available

/-- The call that a call stands for, or what the model is told when its skill is missing. -/
def rewriteSkillCall (skills : OrderedMap String StoredSkill) (inner : ToolCall) :
    Except String ToolCall :=
  if inner.toolId ≠ "skill_run" then .ok inner
  else
    let skillId := optionalProperty "skillId" inner.input
    let skill := match skillId with
      | .string id => skills.get id
      | _ => none
    match skill with
    | none => .error (missingSkill skills skillId)
    | some skill =>
      .ok { inner with
        toolId := skill.boundToolId
        input := (optionalProperty "input" inner.input).orElse skill.typicalInput }

/-- What the host does: the plugin and the call it is given, or the action that an OS sandbox is
given. -/
inductive Executed where
  | adapter (call : ToolCall)
  | fallback (call : ToolCall)
  | kanban (call : ToolCall)
  /-- The command sandbox reads the descriptor only. -/
  | process (descriptor : ToolActionDescriptor)
  /-- The network sandbox hands the transport the call as the request carries it. -/
  | network (descriptor : ToolActionDescriptor) (payload : ToolCall)

/-- How the outside answers what is done at some moment. -/
abbrev Respond := Executed → Except String ActionResult

/-- One pass of `ToolExecutionService.execute` that comes to run a tool. -/
structure Pass where
  descriptor : ToolActionDescriptor
  executed : Option Executed
  shown : Except String ActionResult

section Executor
variable (t : ToolHost)

def notRegistered (toolId : String) : String := "Tool '" ++ toolId ++ "' is not registered"

def describeRewritten : Except String ToolCall → Except String ToolActionDescriptor
  | .error message => .ok ⟨"tool:skill_run", {}, [message], []⟩
  | .ok call =>
    if isKanban call.toolId then
      .ok ⟨"tool:" ++ call.toolId, {}, ["Update the durable Bee Kanban task state"],
        ["Kanban event append succeeds"]⟩
    else
      match t.registered.get call.toolId with
      | some adapter => adapter.executor.describe call
      | none =>
        match t.fallback with
        | some fallback => fallback.describe call
        | none => .error (notRegistered call.toolId)

def describe (skills : OrderedMap String StoredSkill) (call : ToolCall) :
    Except String ToolActionDescriptor :=
  describeRewritten t (rewriteSkillCall skills call)

def kanbanResult : Except String ActionResult → ActionResult
  | .ok result =>
    { output := result.output, content := result.content
      verification := ["Kanban event append succeeded"] }
  | .error message =>
    { output := .object [("error", .string message)], content := message, isError := some true }

def executeRewritten (respond : Respond) :
    Except String ToolCall → Option Executed × Except String ActionResult
  | .error message =>
    (none, .ok { output := .object [], content := message, isError := some true })
  | .ok call =>
    if isKanban call.toolId then
      (some (.kanban call), .ok (kanbanResult (respond (.kanban call))))
    else if (t.registered.get call.toolId).isSome then
      (some (.adapter call), respond (.adapter call))
    else if t.fallback.isSome then (some (.fallback call), respond (.fallback call))
    else (none, .error (notRegistered call.toolId))

def requiresOsBoundary (requirements : ResourceRequirements) : Bool :=
  requirements.commands ≠ [] || requirements.readPaths ≠ [] || requirements.writePaths ≠ [] ||
    requirements.networkTargets ≠ [] || requirements.secretEnv ≠ []

/-- The sandbox that the routing providers choose for a request runs it. -/
def sandboxExecute (skills : OrderedMap String StoredSkill) (respond : Respond)
    (descriptor : ToolActionDescriptor) (call : ToolCall) :
    Option Executed × Except String ActionResult :=
  if t.osSandbox && requiresOsBoundary descriptor.requirements then
    if descriptor.requirements.networkTargets ≠ [] then
      (some (.network descriptor call), respond (.network descriptor call))
    else (some (.process descriptor), respond (.process descriptor))
  else executeRewritten t respond (rewriteSkillCall skills call)

def presentOf (toolId : String) : Option (ActionResult → ToolCall → Except String ActionResult) :=
  if isKanban toolId then none
  else
    match (t.registered.get toolId).bind fun adapter => adapter.executor.present with
    | some present => some present
    | none => t.fallback.bind ToolExecutor.present

/-- The call is not rewritten here. -/
def present (result : ActionResult) (call : ToolCall) : Except String ActionResult :=
  match presentOf t call.toolId with
  | some present => present result call
  | none => .ok result

/-- A pass without anything in between. -/
def runTool (skills : OrderedMap String StoredSkill) (respond : Respond) (call : ToolCall) :
    Except String Pass :=
  (describe t skills call).map fun descriptor =>
    let (executed, result) := sandboxExecute t skills respond descriptor call
    ⟨descriptor, executed, result.bind fun result => present t result call⟩

end Executor

/-! ### Passes in flight -/

inductive PassStage where
  /-- The call is described; the world decides. -/
  | described (descriptor : ToolActionDescriptor) (rewritten : Except String ToolCall)
  | allowed (descriptor : ToolActionDescriptor) (rewritten : Except String ToolCall)
  | finished (rewritten : Except String ToolCall) (respond : Respond) (pass : Pass)
  /-- The call cannot be described, or the world does not let it run. -/
  | stopped (reason : String)

structure Execution where
  call : ToolCall
  stage : PassStage

structure Running where
  skills : OrderedMap String StoredSkill
  executions : List Execution

inductive RunningInput where
  /-- A registration, a revocation or a step of a rebuild changes the map. -/
  | change (skills : OrderedMap String StoredSkill)
  | execute (call : ToolCall)
  | allow (execution : ℕ)
  | stop (execution : ℕ) (reason : String)
  | sandbox (execution : ℕ) (respond : Respond)

namespace Running

def withStage (s : Running) (e : ℕ) (call : ToolCall) (stage : PassStage) : Running :=
  { s with executions := s.executions.set e ⟨call, stage⟩ }

variable (t : ToolHost) (s : Running)

def begin_ (call : ToolCall) : PassStage :=
  match describe t s.skills call with
  | .error message => .stopped message
  | .ok descriptor => .described descriptor (rewriteSkillCall s.skills call)

def finish (respond : Respond) (call : ToolCall) (descriptor : ToolActionDescriptor)
    (rewritten : Except String ToolCall) : PassStage :=
  let (executed, result) := sandboxExecute t s.skills respond descriptor call
  .finished rewritten respond
    ⟨descriptor, executed, result.bind fun result => present t result call⟩

def step : RunningInput → Option Running
  | .change skills => some { s with skills }
  | .execute call => some { s with executions := s.executions ++ [⟨call, begin_ t s call⟩] }
  | .allow e => (s.executions[e]?).bind fun execution =>
    match execution.stage with
    | .described descriptor rewritten =>
      some (s.withStage e execution.call (.allowed descriptor rewritten))
    | _ => none
  | .stop e reason => (s.executions[e]?).bind fun execution =>
    match execution.stage with
    | .described .. | .allowed .. => some (s.withStage e execution.call (.stopped reason))
    | _ => none
  | .sandbox e respond => (s.executions[e]?).bind fun execution =>
    match execution.stage with
    | .allowed descriptor rewritten =>
      some (s.withStage e execution.call (finish t s respond execution.call descriptor rewritten))
    | _ => none

end Running

def running (t : ToolHost) : Machine Running RunningInput := ⟨Running.step t⟩

/-! ### Undisturbed runs -/

def Alike (t : ToolHost) (call bound : ToolCall) : Prop :=
  bound.toolId ≠ "skill_run" ∧ ∀ result, present t result call = present t result bound

namespace Running
variable (t : ToolHost)

/-- When the sandbox is to run a `skill_run` call, the skill is bound as it was when the call was
described, or is gone; and the bound tool does not go to the network sandbox and is presented as
`skill_run` is. -/
def Heeds (s : Running) : RunningInput → Prop
  | .sandbox e _ => ∀ execution descriptor rewritten, s.executions[e]? = some execution →
    execution.stage = .allowed descriptor rewritten → execution.call.toolId = "skill_run" →
    if t.osSandbox && requiresOsBoundary descriptor.requirements then
      descriptor.requirements.networkTargets = [] ∧
        ∀ bound, rewritten = .ok bound → Alike t execution.call bound
    else ∀ bound, rewriteSkillCall s.skills execution.call = .ok bound →
      rewritten = .ok bound ∧ Alike t execution.call bound
  | _ => True

/-- What a finished pass of `skill_run` comes to: no tool ran, or all is as in a call of the bound
tool that nothing comes between. -/
def AsBound (execution : Execution) : Prop :=
  ∀ rewritten respond pass, execution.stage = .finished rewritten respond pass →
    execution.call.toolId = "skill_run" → pass.executed = none ∨
      ∃ bound, rewritten = .ok bound ∧ ∀ skills, runTool t skills respond bound = .ok pass

def Fits (execution : Execution) : Prop :=
  match execution.stage with
  | .described descriptor rewritten | .allowed descriptor rewritten =>
    describeRewritten t rewritten = .ok descriptor
  | .finished .. | .stopped _ => AsBound t execution

end Running

section
variable {t : ToolHost} {s : Running} {call bound : ToolCall} {descriptor : ToolActionDescriptor}
  {respond : Respond} {rewritten : Except String ToolCall}

theorem rewriteSkillCall_of_ne (h : call.toolId ≠ "skill_run")
    (skills : OrderedMap String StoredSkill) : rewriteSkillCall skills call = .ok call := if_pos h

theorem runTool_bound (hne : bound.toolId ≠ "skill_run")
    (hdescribe : describeRewritten t (.ok bound) = .ok descriptor)
    (skills : OrderedMap String StoredSkill) :
    runTool t skills respond bound =
      .ok ⟨descriptor, (sandboxExecute t skills respond descriptor bound).1,
        (sandboxExecute t skills respond descriptor bound).2.bind fun result =>
          present t result bound⟩ := by
  rw [runTool, describe, rewriteSkillCall_of_ne hne, hdescribe]
  rfl

theorem sandboxExecute_process {skills : OrderedMap String StoredSkill}
    (hos : (t.osSandbox && requiresOsBoundary descriptor.requirements) = true)
    (htargets : descriptor.requirements.networkTargets = []) :
    sandboxExecute t skills respond descriptor call =
      (some (.process descriptor), respond (.process descriptor)) := by
  rw [sandboxExecute, if_pos hos, if_neg (not_not.mpr htargets)]

theorem sandboxExecute_logical {skills : OrderedMap String StoredSkill}
    (hos : ¬(t.osSandbox && requiresOsBoundary descriptor.requirements) = true) :
    sandboxExecute t skills respond descriptor call =
      executeRewritten t respond (rewriteSkillCall skills call) := if_neg hos

theorem finish_eq : s.finish t respond call descriptor rewritten =
    .finished rewritten respond
      ⟨descriptor, (sandboxExecute t s.skills respond descriptor call).1,
        (sandboxExecute t s.skills respond descriptor call).2.bind fun result =>
          present t result call⟩ := rfl

theorem asBound_finish (hdescribe : describeRewritten t rewritten = .ok descriptor)
    (hheeds : call.toolId = "skill_run" →
      if t.osSandbox && requiresOsBoundary descriptor.requirements then
        descriptor.requirements.networkTargets = [] ∧
          ∀ bound, rewritten = .ok bound → Alike t call bound
      else ∀ bound, rewriteSkillCall s.skills call = .ok bound →
        rewritten = .ok bound ∧ Alike t call bound) :
    Running.AsBound t ⟨call, s.finish t respond call descriptor rewritten⟩ := by
  intro rewritten' respond' pass hfinished hskill
  obtain ⟨rfl, rfl, rfl⟩ := PassStage.finished.inj (finish_eq.symm.trans hfinished)
  specialize hheeds hskill
  split at hheeds
  · next hos =>
    obtain ⟨htargets, halike⟩ := hheeds
    rcases rewritten with message | bound
    · -- a call whose skill is missing requires nothing
      cases hdescribe
      simp [requiresOsBoundary] at hos
    · obtain ⟨hne, hpresent⟩ := halike bound rfl
      refine .inr ⟨bound, rfl, fun skills => ?_⟩
      rw [runTool_bound hne hdescribe, sandboxExecute_process hos htargets,
        sandboxExecute_process hos htargets]
      simp only [hpresent]
  · next hos =>
    rw [sandboxExecute_logical hos]
    rcases hrewrite : rewriteSkillCall s.skills call with message | bound
    · exact .inl rfl
    · obtain ⟨rfl, hne, hpresent⟩ := hheeds bound hrewrite
      refine .inr ⟨bound, rfl, fun skills => ?_⟩
      rw [runTool_bound hne hdescribe, sandboxExecute_logical hos, rewriteSkillCall_of_ne hne]
      simp only [hpresent]

theorem fits_begin (call : ToolCall) : Running.Fits t ⟨call, s.begin_ t call⟩ := by
  unfold Running.begin_
  split
  · rintro rewritten respond pass ⟨⟩
  · next hdescribe => exact hdescribe

theorem fits_set {e : ℕ} {stage : PassStage} (h : ∀ execution ∈ s.executions, Running.Fits t execution)
    (hstage : Running.Fits t ⟨call, stage⟩) :
    ∀ execution ∈ (s.withStage e call stage).executions, Running.Fits t execution := by
  intro execution hmem
  rcases List.mem_or_eq_of_mem_set hmem with hmem | rfl
  · exact h execution hmem
  · exact hstage

theorem fits_step {s' : Running} {i : RunningInput}
    (h : ∀ execution ∈ s.executions, Running.Fits t execution) (hheeds : s.Heeds t i)
    (hs : (running t).step s i = some s') : ∀ execution ∈ s'.executions, Running.Fits t execution := by
  cases i with
  | change skills =>
    cases hs
    exact h
  | execute call =>
    cases hs
    intro execution hmem
    rcases List.mem_append.mp hmem with hmem | hmem
    · exact h execution hmem
    · obtain rfl := List.mem_singleton.mp hmem
      exact fits_begin call
  | allow e =>
    obtain ⟨⟨call, stage⟩, he, hs⟩ := Option.bind_eq_some_iff.mp hs
    have hfits := h _ (List.mem_of_getElem? he)
    cases stage with
    | described descriptor rewritten =>
      cases hs
      exact fits_set h hfits
    | allowed | finished | stopped => cases hs
  | stop e reason =>
    obtain ⟨⟨call, stage⟩, he, hs⟩ := Option.bind_eq_some_iff.mp hs
    cases stage with
    | described | allowed =>
      cases hs
      exact fits_set h (by rintro rewritten respond pass ⟨⟩)
    | finished | stopped => cases hs
  | sandbox e respond =>
    obtain ⟨⟨call, stage⟩, he, hs⟩ := Option.bind_eq_some_iff.mp hs
    have hfits := h _ (List.mem_of_getElem? he)
    cases stage with
    | allowed descriptor rewritten =>
      cases hs
      exact fits_set h (asBound_finish hfits (hheeds _ _ _ he rfl))
    | described | finished | stopped => cases hs

end

/-- The tool whose plugin is called. -/
def Executed.toolId? : Executed → Option String
  | .adapter call | .fallback call | .kanban call => some call.toolId
  | .process _ | .network .. => none

/-- The capability a pass was authorised under, the tool that was called and what is shown. -/
def Pass.summary (pass : Pass) : String × Option String × Option String :=
  (pass.descriptor.capability, pass.executed.bind Executed.toolId?,
    pass.shown.toOption.map ActionResult.content)

def Running.summaries (s : Running) : List (String × Option String × Option String) :=
  s.executions.filterMap fun execution => match execution.stage with
    | .finished _ _ pass => some pass.summary
    | _ => none

def samplePlugin (id : String)
    (present : Option (ActionResult → ToolCall → Except String ActionResult)) : ToolAdapter :=
  ⟨id, id, ⟨fun call => .ok ⟨"tool:" ++ call.toolId, {}, [], []⟩, present⟩⟩

/-- A clock, a shell, and a table that presents what it is given. -/
def sampleHost : ToolHost where
  registered := ((OrderedMap.empty.set "clock" (samplePlugin "clock" none)).set "shell"
    (samplePlugin "shell" none)).set "table"
      (samplePlugin "table" (some fun result _ => .ok { result with content := "presented" }))

def boundTo (toolId : String) : OrderedMap String StoredSkill :=
  OrderedMap.empty.set "s" ⟨"s", "name", "summary", "instructions", toolId, .object [], .object [], "t"⟩

def skillRun : ToolCall := ⟨"c", "skill_run", .object [("skillId", .string "s")], none⟩

def plainAnswer : Respond := fun _ => .ok { output := .null, content := "raw" }

def runInputs (between : List RunningInput) : List RunningInput :=
  [.execute skillRun, .allow 0] ++ between ++ [.sandbox 0 plainAnswer]

end BeeAgent.Skills
