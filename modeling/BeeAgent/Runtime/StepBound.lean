import BeeAgent.Runtime.SystemPrompt
import BeeAgent.Transition.Rank
import Mathlib.Data.Nat.Log
import Mathlib.Data.Prod.Lex
import Mathlib.Order.WithBot

/-! The step bound of a call: the stages of its step loop, the generations and attempts they leave,
and a rank that every step but those of a model stream lowers. -/
namespace BeeAgent.Runtime
open BeeAgent.Data BeeAgent.Thread Transition

def doublings (cap max : ℕ) : ℕ := Nat.clog 2 ((max + cap - 1) / cap)

/-- Where a call stands in its step loop. -/
inductive Phase where
  | entering
  | driving
  /-- The calls that an interrupted step left over run. -/
  | finishing
  | generating
  | attempting (retry : ℕ)
  | streaming (retry : ℕ)
  /-- The calls of a generation run. -/
  | acting
  | terminating
  deriving DecidableEq

structure Stage where
  phase : Phase
  stepIndex : ℕ
  outputTokenCap : ℕ

def AfterIntents.phase : AfterIntents → Phase
  | recovered => .finishing
  | generated .. => .acting

def Pc.phase : Pc → Phase
  | reading | recordingInput | deciding .. | approved .. => .entering
  | driving => .driving
  | running after _ | settling after _ _ | checkpointing after => after.phase
  | generating | summarizing .. => .generating
  | attempting retry _ => .attempting retry
  | streaming attempt | awaitingResult attempt => .streaming attempt.retry
  | terminating _ => .terminating

def Task.stage (task : Task) : Stage := ⟨task.pc.phase, task.state.stepIndex, task.outputTokenCap⟩

section Stages
variable (o : AgentLoopOptions)

/-- How the step loop goes from stage to stage. -/
inductive Stage.Step : Stage → Stage → Prop
  | enter {i c} : Step ⟨.entering, i, c⟩ ⟨.driving, i, c⟩
  | leftovers {i c} (h : i < o.maxSteps) : Step ⟨.driving, i, c⟩ ⟨.finishing, i, c⟩
  | generate {i c} (h : i < o.maxSteps) : Step ⟨.driving, i, c⟩ ⟨.generating, i, c⟩
  | finished {i c} : Step ⟨.finishing, i, c⟩ ⟨.generating, i + 1, c⟩
  | assembled {i c} : Step ⟨.generating, i, c⟩ ⟨.attempting 0, i, c⟩
  | attempt {retry i c} : Step ⟨.attempting retry, i, c⟩ ⟨.streaming retry, i, c⟩
  | retry {phase retry i c} (hphase : phase = .attempting retry ∨ phase = .streaming retry)
    (h : retry < o.maxRetries) : Step ⟨phase, i, c⟩ ⟨.attempting (retry + 1), i, c⟩
  | escalate {retry i c} (h : c < min (c * 2) o.modelMaxOutputTokens) :
    Step ⟨.streaming retry, i, c⟩ ⟨.driving, i, min (c * 2) o.modelMaxOutputTokens⟩
  | act {retry i c} : Step ⟨.streaming retry, i, c⟩ ⟨.acting, i, c⟩
  | next {i c} : Step ⟨.acting, i, c⟩ ⟨.driving, i + 1, c⟩
  | stop {phase i c} (h : phase ≠ .terminating) : Step ⟨phase, i, c⟩ ⟨.terminating, i, c⟩

/-- The generations that a stage leaves to be started. -/
def Stage.generationsLeft (stage : Stage) : ℕ :=
  let steps := o.maxSteps - stage.stepIndex
  let doublings := doublings stage.outputTokenCap o.modelMaxOutputTokens
  match stage.phase with
  | .entering | .driving => steps + doublings
  | .finishing => max 1 (steps - 1) + doublings
  | .generating | .attempting _ | .streaming _ | .acting => steps - 1 + doublings
  | .terminating => 0

/-- The attempts that the generation under way leaves. -/
def Phase.attemptsLeft : Phase → ℕ
  | generating => o.maxRetries + 1
  | attempting retry => o.maxRetries + 1 - retry
  | streaming retry => o.maxRetries - retry
  | _ => 0

/-- How far the stages are from the end of a round of the step loop. -/
def Phase.height : Phase → ℕ
  | terminating => 1
  | finishing => 2
  | driving => 3
  | acting => 4
  | streaming retry => 5 + 2 * (o.maxRetries - retry)
  | attempting retry => 4 + 2 * (o.maxRetries + 1 - retry)
  | generating => 7 + 2 * o.maxRetries
  | entering => 8 + 2 * o.maxRetries

def Phase.isStreaming : Phase → Bool
  | streaming _ => true
  | _ => false

/-- A retry is among those that the options allow. -/
def Phase.Allowed : Phase → Prop
  | attempting retry | streaming retry => retry ≤ o.maxRetries
  | _ => True

/-- No generation is under way, or runs calls, with the step index at the bound. -/
def Stage.Below (stage : Stage) : Prop :=
  match stage.phase with
  | .entering | .driving | .terminating => True
  | _ => stage.stepIndex < o.maxSteps

variable {o} {stage stage' : Stage}

theorem doublings_le_iff {cap max : ℕ} (h : 0 < cap) (k : ℕ) :
    doublings cap max ≤ k ↔ max ≤ cap * 2 ^ k := by
  rw [doublings, Nat.clog_le_iff_le_pow (by decide), Nat.div_le_iff_le_mul_add_pred h]
  omega

theorem doublings_escalate {cap max : ℕ} (h : cap < min (cap * 2) max) :
    doublings (min (cap * 2) max) max + 1 ≤ doublings cap max := by
  have hcap : 0 < cap := by omega
  have hall := (doublings_le_iff hcap (doublings cap max)).mp le_rfl
  obtain hzero | ⟨k, hk⟩ : doublings cap max = 0 ∨ ∃ k, doublings cap max = k + 1 := by
    cases doublings cap max <;> simp
  · rw [hzero, pow_zero] at hall
    omega
  · rw [hk] at hall ⊢
    refine Nat.add_le_add_right ((doublings_le_iff (by omega) k).mpr ?_) 1
    rw [pow_succ'] at hall
    have hpos : 1 ≤ 2 ^ k := Nat.one_le_two_pow
    rcases le_total (cap * 2) max with hle | hle
    · rw [min_eq_left hle]
      calc max ≤ cap * (2 * 2 ^ k) := hall
        _ = cap * 2 * 2 ^ k := (Nat.mul_assoc ..).symm
    · rw [min_eq_right hle]
      exact Nat.le_mul_of_pos_right max hpos

theorem Stage.Step.allowed (h : Step o stage stage') (ha : stage.phase.Allowed o) :
    stage'.phase.Allowed o := by
  cases h with
  | assembled => exact Nat.zero_le _
  | attempt => exact ha
  | retry _ hretry => exact hretry
  | _ => trivial

theorem Stage.Step.below (h : Step o stage stage') (hb : stage.Below o)
    (hfinished : stage.phase = .finishing → stage'.phase = .generating →
      stage.stepIndex + 1 < o.maxSteps) : stage'.Below o := by
  cases h with
  | leftovers h | generate h => exact h
  | finished => exact hfinished rfl rfl
  | assembled | attempt | act => exact hb
  | retry hphase => obtain rfl | rfl := hphase <;> exact hb
  | _ => trivial

theorem Stage.Step.generationsLeft (h : Step o stage stage') :
    stage'.generationsLeft o + (if stage'.phase = .generating then 1 else 0) ≤
      stage.generationsLeft o := by
  cases h with
  | retry hphase => obtain rfl | rfl := hphase <;> simp [Stage.generationsLeft]
  | escalate h =>
    have := doublings_escalate h
    simp only [Stage.generationsLeft, reduceCtorEq, if_false]
    omega
  | stop => simp [Stage.generationsLeft]
  | _ =>
    simp only [Stage.generationsLeft, reduceCtorEq, if_true, if_false]
    omega

def Stage.attemptsLeft (o : AgentLoopOptions) (stage : Stage) : ℕ :=
  stage.generationsLeft o * (o.maxRetries + 1) + stage.phase.attemptsLeft o

theorem Stage.Step.attemptsLeft (h : Step o stage stage') (ha : stage.phase.Allowed o) :
    stage'.attemptsLeft o + (if stage'.phase.isStreaming then 1 else 0) ≤
      stage.attemptsLeft o := by
  have hleft := h.generationsLeft
  have hmul : stage'.generationsLeft o * (o.maxRetries + 1) +
      (if stage'.phase = .generating then o.maxRetries + 1 else 0) ≤
        stage.generationsLeft o * (o.maxRetries + 1) := by
    have := Nat.mul_le_mul_right (o.maxRetries + 1) hleft
    rw [Nat.add_mul, ite_mul, one_mul, zero_mul] at this
    exact this
  rw [Stage.attemptsLeft, Stage.attemptsLeft]
  cases h with
  | retry hphase hretry =>
    obtain rfl | rfl := hphase <;>
      simp only [Phase.attemptsLeft, Phase.isStreaming, reduceCtorEq, Bool.false_eq_true,
        if_false] at hmul ⊢ <;>
      omega
  | attempt =>
    have : _ ≤ o.maxRetries := ha
    simp only [Phase.attemptsLeft, Phase.isStreaming, reduceCtorEq, if_true, if_false] at hmul ⊢
    omega
  | _ =>
    simp only [Phase.attemptsLeft, Phase.isStreaming, reduceCtorEq, Bool.false_eq_true, if_true,
      if_false] at hmul ⊢
    omega

/-- Each step of the loop leaves fewer generations, or as many and is nearer to the round's end. -/
theorem Stage.Step.descends (h : Step o stage stage') (ha : stage.phase.Allowed o) :
    stage'.generationsLeft o < stage.generationsLeft o ∨
      stage'.generationsLeft o ≤ stage.generationsLeft o ∧
        stage'.phase.height o < stage.phase.height o := by
  have hleft := h.generationsLeft
  cases h with
  | finished | generate =>
    simp only [if_true] at hleft
    exact .inl hleft
  | retry hphase hretry =>
    refine .inr ⟨by omega, ?_⟩
    obtain rfl | rfl := hphase <;> simp only [Phase.height] <;> omega
  | @stop phase i c hphase =>
    refine .inr ⟨by omega, ?_⟩
    cases phase <;> simp only [Phase.height, ne_eq, not_true_eq_false] at hphase ⊢ <;> omega
  | attempt =>
    have : _ ≤ o.maxRetries := ha
    refine .inr ⟨by omega, ?_⟩
    simp only [Phase.height]
    omega
  | _ =>
    refine .inr ⟨by omega, ?_⟩
    simp only [Phase.height]
    omega

end Stages

def SlotState.work : SlotState → ℕ
  | executing => 2
  | suspending .. => 1
  | _ => 0

def slotsWork (slots : List Slot) : ℕ := (slots.map fun slot => slot.state.work).sum

/-- What is left to be done before a call leaves its stage, but for the events of a stream. -/
def Pc.work : Pc → ℕ
  | reading | deciding .. | generating | streaming _ => 1
  | running _ segments => 4 * (segmentsIntents segments).length + 2
  | settling _ slots segments => slotsWork slots + 4 * (segmentsIntents segments).length + 3
  | _ => 0

def TaskInput.isStreamEvent : TaskInput → Bool
  | streamEvent _ => true
  | _ => false

section Tasks
variable (o : AgentLoopOptions)

/-- What a step means for the stage of its call. -/
inductive Staged (task : Task) (input : TaskInput) (step : TaskStep) (task' : Task) : Prop
  | step (h : Stage.Step o task.stage task'.stage)
    (hrequests : (generationRequests task step).length ≤
      if task'.stage.phase.isStreaming then 1 else 0)
  | work (hstage : task'.stage = task.stage) (hstarts : task'.pc ≠ .generating)
    (hrequests : generationRequests task step = [])
    (h : 0 < o.maxParallelToolCalls → task'.pc.work < task.pc.work)
  | streamed (hstage : task'.stage = task.stage) (hstarts : task'.pc ≠ .generating)
    (hrequests : generationRequests task step = []) (hwork : task'.pc.work = task.pc.work)
    (hinput : input.isStreamEvent)

variable {o} {log : List ThreadEvent} {nextId : ℕ} {task task' : Task} {input : TaskInput}
  {step : TaskStep}

theorem generationRequests_of_ne (h : ∀ retry messages, task.pc ≠ .attempting retry messages) :
    generationRequests task step = [] := by
  rw [generationRequests]
  split
  · next hpc => exact absurd hpc (h _ _)
  · rfl

theorem requests_le {n : ℕ} (h : generationRequests task step = []) :
    (generationRequests task step).length ≤ n := by
  rw [h]
  exact Nat.zero_le _

theorem slotsWork_batch (batch : List GenerationIntent) :
    slotsWork (batch.map fun i => ⟨i, .executing⟩) = 2 * batch.length := by
  induction batch with
  | nil => rfl
  | cons i batch ih =>
    rw [slotsWork, List.map_cons, List.map_cons, List.sum_cons, ← slotsWork, ih, List.length_cons]
    change 2 + _ = _
    omega

theorem slotsWork_set {slots : List Slot} {index : ℕ} {slot : Slot} {state : SlotState}
    (h : slots[index]? = some slot) (hwork : state.work < slot.state.work) :
    slotsWork (slots.set index { slot with state }) < slotsWork slots := by
  induction slots generalizing index with
  | nil => cases h
  | cons head slots ih =>
    cases index with
    | zero =>
      cases h
      simp only [slotsWork, List.set_cons_zero, List.map_cons, List.sum_cons]
      omega
    | succ index =>
      have := ih h
      simp only [slotsWork, List.set_cons_succ, List.map_cons, List.sum_cons] at this ⊢
      omega

theorem slotStep_work {slot : Slot} {acts : List Act} {state : SlotState} {drawn : ℕ}
    (h : slotStep o nextId task slot input = some (acts, state, drawn)) :
    state.work < slot.state.work := by
  cases input with
  | slot index answer =>
    simp only [slotStep] at h
    split at h
    · next hs _ =>
      split at h <;> cases h <;> rw [hs] <;> simp [SlotState.work]
    · cases h
  | slotRecorded index =>
    simp only [slotStep] at h
    split at h <;> cases h
    · next hs _ =>
      rw [hs]
      simp [SlotState.work]
    · next hs =>
      rw [hs]
      simp [SlotState.work]
  | slotRejected index =>
    simp only [slotStep] at h
    split at h <;> cases h <;> next hs =>
      rw [hs]
      simp [SlotState.work]
  | _ => cases h

theorem nextBatch_ne_nil {segments rest : List Segment} {batch : List GenerationIntent}
    (hparallel : 0 < o.maxParallelToolCalls) (h : nextBatch o segments = some (batch, rest)) :
    0 < batch.length := by
  induction segments with
  | nil => cases h
  | cons segment segments ih =>
    obtain ⟨concurrency, is⟩ := segment
    cases is with
    | nil => exact ih h
    | cons i is =>
      cases concurrency with
      | exclusive =>
        cases h
        exact Nat.one_pos
      | parallel =>
        simp only [nextBatch, Option.some.injEq, Prod.mk.injEq] at h
        obtain ⟨rfl, -⟩ := h
        rw [List.length_take, List.length_cons]
        omega

theorem staged_stop {terminal : Terminal} (hnext : step.next = .continue task')
    (hgoto : step.next = .continue (task.goto (.terminating terminal)))
    (hphase : task.pc.phase ≠ .terminating) (hacts : generationRequests task step = []) :
    Staged o task input step task' := by
  rw [hgoto] at hnext
  cases hnext
  exact .step (.stop hphase) (requests_le hacts)

theorem staged_caught {retry : ℕ} {messages : List LlmMessage} {error : LoopError}
    (hnext : step.next = .continue task')
    (hgoto : step.next = .continue (attemptCaught o task retry messages error))
    (hphase : task.pc.phase = .attempting retry ∨ task.pc.phase = .streaming retry)
    (hacts : generationRequests task step = []) : Staged o task input step task' := by
  have hne : task.pc.phase ≠ .terminating := by
    obtain h | h := hphase <;> rw [h] <;> simp
  rw [attemptCaught] at hgoto
  split at hgoto
  · exact staged_stop hnext hgoto hne hacts
  split at hgoto
  · next hretry =>
    rw [hgoto] at hnext
    cases hnext
    exact .step (.retry hphase hretry.2) (requests_le hacts)
  · exact staged_stop hnext hgoto hne hacts

theorem driveStep_staged (hpc : task.pc = .driving)
    (hnext : (driveStep o nextId task).next = .continue task') :
    Staged o task input (driveStep o nextId task) task' := by
  have hacts : ∀ step, generationRequests task step = [] := fun step =>
    generationRequests_of_ne (by simp [hpc])
  have hstage : task.stage = ⟨.driving, task.state.stepIndex, task.outputTokenCap⟩ := by
    rw [Task.stage, hpc, Pc.phase]
  have hne : task.pc.phase ≠ .terminating := by simp [hpc, Pc.phase]
  rw [driveStep] at hnext ⊢
  split at hnext
  · next haborted =>
    rw [if_pos haborted]
    exact staged_stop hnext rfl hne (hacts _)
  next haborted =>
  split at hnext
  · next hsteps =>
    rw [if_neg haborted, if_pos hsteps]
    exact staged_stop hnext rfl hne (hacts _)
  next hsteps =>
  split at hnext <;> cases hnext
  · refine .step ?_ (requests_le (hacts _))
    rw [hstage]
    exact .generate (not_le.mp hsteps)
  · refine .step ?_ (requests_le (hacts _))
    rw [hstage]
    exact .leftovers (not_le.mp hsteps)

theorem runningStep_staged {after : AfterIntents} {segments : List Segment}
    (hpc : task.pc = .running after segments)
    (hnext : (runningStep o task after segments).next = .continue task') :
    Staged o task input (runningStep o task after segments) task' := by
  have hacts : ∀ step, generationRequests task step = [] := fun step =>
    generationRequests_of_ne (by simp [hpc])
  rw [runningStep] at hnext ⊢
  split at hnext
  · cases hnext
    exact .work (by simp [Task.stage, Task.goto, hpc, Pc.phase]) (by simp) (hacts _)
      fun _ => by simp [hpc, Pc.work]
  · next batch rest hbatch =>
    split at hnext
    · next haborted =>
      rw [if_pos haborted]
      refine staged_stop hnext rfl ?_ (hacts _)
      rw [hpc]
      cases after <;> simp [Pc.phase, AfterIntents.phase]
    · cases hnext
      refine .work (by simp [Task.stage, Task.goto, hpc, Pc.phase]) (by simp) (hacts _) fun hpos => ?_
      have hlength := congrArg List.length (nextBatch_some o hbatch)
      have := nextBatch_ne_nil hpos hbatch
      rw [List.length_append] at hlength
      simp only [Task.pc_goto, hpc, Pc.work, slotsWork_batch]
      omega

theorem checkpointStep_staged {after : AfterIntents} (hpc : task.pc = .checkpointing after)
    (hnext : (checkpointStep o task after).next = .continue task') :
    Staged o task input (checkpointStep o task after) task' := by
  have hacts : generationRequests task (checkpointStep o task after) = [] :=
    generationRequests_of_ne (by simp [hpc])
  have hstage : task.stage = ⟨after.phase, task.state.stepIndex, task.outputTokenCap⟩ := by
    rw [Task.stage, hpc, Pc.phase]
  cases after with
  | recovered =>
    cases hnext
    refine .step ?_ (requests_le hacts)
    rw [hstage]
    exact .finished
  | generated stopReason output =>
    have hdriving : Stage.Step o task.stage (task.settledStep.goto .driving).stage := by
      rw [hstage]
      exact .next
    have hstop : Stage.Step o task.stage (task.goto (.terminating (.completed output))).stage := by
      rw [hstage]
      exact .stop (by simp [AfterIntents.phase])
    cases stopReason <;> cases hnext <;> first
      | exact .step hdriving (requests_le hacts)
      | exact .step hstop (requests_le hacts)

theorem resultStep_staged {attempt : Attempt} {stopReason : StopReason}
    (hpc : task.pc = .awaitingResult attempt)
    (hnext : (resultStep o task attempt stopReason).next = .continue task') :
    Staged o task input (resultStep o task attempt stopReason) task' := by
  have hacts : generationRequests task (resultStep o task attempt stopReason) = [] :=
    generationRequests_of_ne (by simp [hpc])
  have hstage : task.stage = ⟨.streaming attempt.retry, task.state.stepIndex,
      task.outputTokenCap⟩ := by rw [Task.stage, hpc, Pc.phase]
  have hne : task.pc.phase ≠ .terminating := by simp [hpc, Pc.phase]
  have hact : Stage.Step o task.stage ((task.push [assistantMessage attempt]).goto
      (.running (.generated stopReason (generationOutput attempt))
        (segmentIntents o attempt.intents))).stage := by
    rw [hstage]
    exact .act
  cases stopReason with
  | cancelled => exact staged_stop hnext rfl hne hacts
  | maxTokens =>
    simp only [resultStep] at hnext hacts ⊢
    split at hnext
    · next hescalate =>
      rw [if_pos hescalate] at hacts ⊢
      cases hnext
      refine .step ?_ (requests_le hacts)
      rw [hstage]
      exact .escalate hescalate
    · next hescalate =>
      rw [if_neg hescalate] at hacts ⊢
      exact staged_stop hnext rfl hne hacts
  | _ =>
    cases hnext
    exact .step hact (requests_le hacts)

theorem resultThrownStep_staged {attempt : Attempt} {error : LoopError}
    (hpc : task.pc = .awaitingResult attempt)
    (hnext : (resultThrownStep o task attempt error).next = .continue task') :
    Staged o task input (resultThrownStep o task attempt error) task' := by
  have hacts : ∀ step, generationRequests task step = [] := fun step =>
    generationRequests_of_ne (by simp [hpc])
  have hne : task.pc.phase ≠ .terminating := by simp [hpc, Pc.phase]
  rw [resultThrownStep] at hnext ⊢
  split at hnext
  · next haborted =>
    rw [if_pos haborted]
    exact staged_stop hnext rfl hne (hacts _)
  next haborted =>
  rw [if_neg haborted]
  split at hnext
  · exact staged_stop hnext rfl hne (hacts _)
  · exact staged_stop hnext rfl hne (hacts _)
  · exact staged_caught hnext rfl (.inr (by simp [hpc, Pc.phase])) (hacts _)

theorem streamStep_stage {attempt : Attempt} {event : LlmStreamEvent}
    (hpc : task.pc = .streaming attempt)
    (hnext : (streamStep nextId task attempt event).next = .continue task') :
    task'.stage = task.stage ∧ task'.pc.work = task.pc.work ∧ task'.pc ≠ .generating := by
  cases event with
  | messageDelta delta =>
    simp only [streamStep] at hnext
    split at hnext <;> cases hnext <;> simp [Task.stage, Task.goto, hpc, Pc.phase, Pc.work]
  | toolIntent call | decision decision =>
    cases hnext
    simp [Task.stage, Task.goto, hpc, Pc.phase, Pc.work]

theorem taskStep_staged (h : taskStep o log nextId task input = some step)
    (hnext : step.next = .continue task') : Staged o task input step task' := by
  rw [taskStep.eq_def] at h
  have hne : ∀ {pc : Pc}, task.pc = pc → (∀ retry messages, pc ≠ .attempting retry messages) →
      generationRequests task step = [] := fun hpc h => generationRequests_of_ne (by rwa [hpc])
  split at h
  · next hpc =>
    cases h
    cases hnext
    exact .work (by simp [Task.stage, hpc, Pc.phase]) (by simp) (hne hpc (by simp))
      fun _ => by simp [hpc, Pc.work]
  · next hpc =>
    cases h
    cases hnext
    refine .step ?_ (requests_le (hne hpc (by simp)))
    rw [Task.stage, hpc, Pc.phase]
    exact .enter
  · next hpc =>
    cases h
    cases hnext
    exact .work (by simp [Task.stage, Task.goto, hpc, Pc.phase]) (by simp) (hne hpc (by simp))
      fun _ => by simp [hpc, Pc.work]
  · next hpc =>
    split at h <;> cases h <;> cases hnext
    refine .step ?_ (requests_le (hne hpc (by simp)))
    rw [Task.stage, hpc, Pc.phase]
    exact .enter
  · next hpc =>
    cases h
    exact driveStep_staged hpc hnext
  · next hpc =>
    cases h
    exact runningStep_staged hpc hnext
  · next hpc =>
    split at h <;> cases h
    rw [commitStep] at hnext
    split at hnext <;> [cases hnext; skip]
    split at hnext <;> cases hnext
    exact .work (by simp [Task.stage, Task.goto, Task.push, hpc, Pc.phase]) (by simp)
      (hne hpc (by simp)) fun _ => by
        rw [hpc]
        exact Nat.lt_succ_of_le (Nat.add_le_add_right (Nat.le_add_left ..) 2)
  · next hpc _ =>
    split at h <;> [cases h; skip]
    split at h <;> [cases h; skip]
    next hslot =>
    split at h <;> cases h
    next hstep =>
    cases hnext
    refine .work (by simp [Task.stage, Task.goto, hpc, Pc.phase]) (by simp) (hne hpc (by simp))
      fun _ => ?_
    have := slotsWork_set hslot (slotStep_work hstep)
    simp only [Task.pc_goto, hpc, Pc.work]
    omega
  · next hpc =>
    cases h
    exact checkpointStep_staged hpc hnext
  · next hpc =>
    split at h <;> cases h <;> cases hnext
    · refine .step ?_ (requests_le (hne hpc (by simp)))
      rw [Task.stage, hpc, Pc.phase]
      exact .assembled
    · exact .work (by simp [Task.stage, hpc, Pc.phase]) (by simp) (hne hpc (by simp))
        fun _ => by simp [hpc, Pc.work]
  · next hpc =>
    split at h <;> cases h <;> cases hnext
    all_goals
      refine .step ?_ (requests_le (hne hpc (by simp)))
      rw [Task.stage, hpc, Pc.phase]
      exact .assembled
  · next hpc =>
    have hphase : task.pc.phase ≠ .terminating := by simp [hpc, Pc.phase]
    split at h <;> cases h
    · exact staged_stop hnext rfl hphase (by simp [generationRequests, hpc])
    · cases hnext
      refine .step ?_ (by rw [generationRequests, hpc]; exact le_refl 1)
      rw [Task.stage, hpc, Pc.phase]
      exact .attempt
  · next hpc =>
    cases h
    exact staged_caught hnext rfl (.inl (by simp [hpc, Pc.phase]))
      (by simp [generationRequests, hpc])
  · next hpc =>
    have hphase : task.pc.phase ≠ .terminating := by simp [hpc, Pc.phase]
    split at h <;> cases h
    · exact staged_stop hnext rfl hphase (hne hpc (by simp))
    · obtain ⟨hstage, hwork, hstarts⟩ := streamStep_stage hpc hnext
      exact .streamed hstage hstarts (hne hpc (by simp)) hwork rfl
  · next hpc =>
    cases h
    cases hnext
    exact .work (by simp [Task.stage, Task.goto, hpc, Pc.phase]) (by simp) (hne hpc (by simp))
      fun _ => by simp [hpc, Pc.work]
  · next hpc =>
    cases h
    exact resultStep_staged hpc hnext
  · next hpc =>
    cases h
    exact resultThrownStep_staged hpc hnext
  · next hpc =>
    cases h
    exact staged_caught hnext rfl (.inr (by simp [hpc, Pc.phase])) (hne hpc (by simp))
  · next hpc =>
    cases h
    exact staged_caught hnext rfl (.inr (by simp [hpc, Pc.phase])) (hne hpc (by simp))
  · cases h
    cases hnext
  · cases h

theorem recovered_of_generating (hmove : Move o log nextId task input step)
    (hnext : step.next = .continue task') (hphase : task.pc.phase = .finishing)
    (hphase' : task'.pc.phase = .generating) : task.pc = .checkpointing .recovered := by
  have hafter : ∀ after : AfterIntents, after.phase ≠ .generating := by
    intro after
    cases after <;> simp [AfterIntents.phase]
  cases hmove with
  | @checkpointed after _ hpc =>
    rw [hpc] at hphase ⊢
    cases after with
    | recovered => rfl
    | generated => cases hphase
  | generate hpc | summarize hpc =>
    rw [hpc] at hphase
    cases hphase
  | throw | suspendTurn | terminate => cases hnext
  | slot hpc | commit hpc | batch hpc | finishIntents hpc =>
    cases hnext
    exact absurd hphase' (hafter _)
  | stream _ _ hnext' =>
    cases hnext
    obtain ⟨_, rfl | rfl, -⟩ := hnext' <;> cases hphase'
  | _ =>
    cases hnext
    cases hphase'

theorem requests_of_settle {result : TurnResult}
    (h : taskStep o log nextId task input = some step) (hnext : step.next = .settle result) :
    generationRequests task step = [] := by
  cases taskStep_move h with
  | throw =>
    rw [generationRequests]
    split <;> rfl
  | suspendTurn hpc | terminate hpc => exact generationRequests_of_ne (by simp [hpc])
  | _ => cases hnext

end Tasks

section Calls
variable (o : AgentLoopOptions)

/-- The step that a call takes, if the input is for it. -/
def stepOf (s : Loop) (input : LoopInput) (t : ℕ) : Option (Task × TaskStep) :=
  match input with
  | .advance t' taskInput =>
    if t' = t then
      (s.tasks t).bind fun task =>
        (taskStep o s.log s.nextId task taskInput).map fun step => (task, step)
    else none
  | _ => none

/-- Where a call stands over a run. -/
inductive Standing where
  | unborn
  | live (task : Task)
  | gone

def Loop.standing (s : Loop) (t : ℕ) : Standing :=
  match s.tasks t with
  | some task => .live task
  | none => if t < s.nextTask then .gone else .unborn

/-- The stages at which calls start. -/
def Task.Fresh (task : Task) : Prop :=
  (task.stage.phase = .entering ∨ task.stage.phase = .driving) ∧
    task.stage.outputTokenCap = initialCap o

/-- What a step of the loop means for one call. -/
inductive Standing.Step (s : Loop) (input : LoopInput) (t : ℕ) : Standing → Standing → Prop
  | idle {standing} (h : stepOf o s input t = none) : Step s input t standing standing
  | start {task : Task} (h : stepOf o s input t = none) (hfresh : task.Fresh o) :
    Step s input t .unborn (.live task)
  | refuse (h : stepOf o s input t = none) : Step s input t .unborn .gone
  | abort {task : Task} (h : stepOf o s input t = none) :
    Step s input t (.live task) (.live { task with aborted := true })
  | move {task task' : Task} {step : TaskStep} {taskInput} (hinput : input = .advance t taskInput)
    (h : stepOf o s input t = some (task, step)) (hnext : step.next = .continue task')
    (hmove : Move o s.log s.nextId task taskInput step)
    (hstaged : Staged o task taskInput step task') : Step s input t (.live task) (.live task')
  | settle {task : Task} {step : TaskStep} {result} (h : stepOf o s input t = some (task, step))
    (hnext : step.next = .settle result) (hrequests : generationRequests task step = []) :
    Step s input t (.live task) .gone
  | fail {task : Task} (h : stepOf o s input t = none) : Step s input t (.live task) .gone

def Loop.Numbered (s : Loop) : Prop := ∀ t task, s.tasks t = some task → t < s.nextTask

variable {o} {s s' : Loop} {loopInput : LoopInput} {task : Task}

theorem standing_of_some {t : ℕ} (h : s.tasks t = some task) : s.standing t = .live task := by
  rw [Loop.standing, h]

theorem idle_standing {t : ℕ} (htasks : s'.tasks t = s.tasks t)
    (hnext : t < s'.nextTask ↔ t < s.nextTask) (h : stepOf o s loopInput t = none) :
    Standing.Step o s loopInput t (s.standing t) (s'.standing t) := by
  have hsame : s'.standing t = s.standing t := by
    rw [Loop.standing, Loop.standing, htasks]
    simp only [hnext]
  rw [hsame]
  exact .idle h

theorem fresh_rebuilt (rebuilt : Rebuilt) {pc : Pc}
    (hpc : pc = .driving ∨ ∃ pending decision, pc = .deciding pending decision) :
    (rebuilt.task o pc).Fresh o := by
  obtain rfl | ⟨_, _, rfl⟩ := hpc
  · exact ⟨.inr rfl, rfl⟩
  · exact ⟨.inl rfl, rfl⟩

theorem tasks_of_le (hs : s.Numbered) {t : ℕ} (h : s.nextTask ≤ t) : s.tasks t = none := by
  cases ht : s.tasks t with
  | none => rfl
  | some task => exact absurd (hs t task ht) (by omega)

theorem standing_of_le (hs : s.Numbered) {t : ℕ} (h : s.nextTask ≤ t) :
    s.standing t = .unborn := by
  rw [Loop.standing, tasks_of_le hs h]
  simp only [not_lt.mpr h, if_false]

theorem start_standing (hs : s.Numbered) (hfresh : task.Fresh o) {t : ℕ}
    (h : stepOf o s loopInput t = none) :
    Standing.Step o s loopInput t (s.standing t) ((s.start task).standing t) := by
  by_cases heq : t = s.nextTask
  · have hlive : (s.start task).standing t = .live task :=
      standing_of_some (by simp [Loop.start, heq])
    rw [standing_of_le hs (le_of_eq heq.symm), hlive]
    exact .start h hfresh
  · exact idle_standing (by simp [Loop.start, Function.update_of_ne heq])
      (by simp only [Loop.start]; omega) h

theorem refuse_standing (hs : s.Numbered) (message : String) {t : ℕ}
    (h : stepOf o s loopInput t = none) :
    Standing.Step o s loopInput t (s.standing t) ((s.refuse message).standing t) := by
  by_cases heq : t = s.nextTask
  · have hgone : (s.refuse message).standing t = .gone := by
      have hnone : (s.refuse message).tasks t = none := tasks_of_le hs (le_of_eq heq.symm)
      rw [Loop.standing, hnone]
      simp [Loop.refuse, heq]
    rw [standing_of_le hs (le_of_eq heq.symm), hgone]
    exact .refuse h
  · exact idle_standing rfl (by simp only [Loop.refuse]; omega) h

theorem apply_nextTask (s : Loop) (t : ℕ) (step : TaskStep) :
    (s.apply t step).nextTask = s.nextTask := by
  rw [Loop.apply]
  split <;> rfl

theorem loopStep_standing (hs : s.Numbered) (h : loopStep o s loopInput = some s') (t : ℕ) :
    Standing.Step o s loopInput t (s.standing t) (s'.standing t) := by
  cases loopInput with
  | runTurn text structureVersion =>
    cases h
    exact start_standing hs ⟨.inl rfl, rfl⟩ rfl
  | recoverTurn turnId =>
    cases loopStep_move h with
    | recover => exact start_standing hs (fresh_rebuilt _ (.inl rfl)) rfl
    | rebuildFailed => exact refuse_standing hs "The turn cannot be rebuilt" rfl
    | refuse => exact refuse_standing hs _ rfl
  | resumeTurn turnId approvalId decision =>
    cases loopStep_move h with
    | resume => exact start_standing hs (fresh_rebuilt _ (.inr ⟨_, _, rfl⟩)) rfl
    | rebuildFailed => exact refuse_standing hs "The turn cannot be rebuilt" rfl
    | refuse => exact refuse_standing hs _ rfl
  | abort t' =>
    obtain ⟨before, hbefore, rfl⟩ := Option.map_eq_some_iff.mp h
    by_cases heq : t = t'
    · subst heq
      rw [standing_of_some hbefore, standing_of_some (Function.update_self ..)]
      exact .abort rfl
    · exact idle_standing (Function.update_of_ne heq ..) Iff.rfl rfl
  | advance t' taskInput =>
    obtain ⟨before, hbefore, h⟩ := Option.bind_eq_some_iff.mp h
    obtain ⟨step, hstep, rfl⟩ := Option.map_eq_some_iff.mp h
    by_cases heq : t = t'
    · subst heq
      have hof : stepOf o s (.advance t taskInput) t = some (before, step) := by
        simp [stepOf, hbefore, hstep]
      rw [standing_of_some hbefore]
      cases hnext : step.next with
      | «continue» task' =>
        have hlive : (s.apply t step).standing t = .live task' :=
          standing_of_some (by simp [Loop.apply, hnext])
        rw [hlive]
        exact .move rfl hof hnext (taskStep_move hstep) (taskStep_staged hstep hnext)
      | settle result =>
        have hgone : (s.apply t step).standing t = .gone := by
          rw [Loop.standing, apply_nextTask]
          simp [Loop.apply, hnext, hs t before hbefore]
        rw [hgone]
        exact .settle hof hnext (requests_of_settle hstep hnext)
    · have hsame : (s.apply t' step).tasks t = s.tasks t := by
        rw [Loop.apply]
        split <;> exact Function.update_of_ne heq ..
      exact idle_standing hsame (by rw [apply_nextTask]) (by simp [stepOf, Ne.symm heq])
  | fail t' =>
    obtain ⟨before, hbefore, rfl⟩ := Option.map_eq_some_iff.mp h
    by_cases heq : t = t'
    · subst heq
      rw [standing_of_some hbefore, Loop.standing]
      simp only [Function.update_self, hs t before hbefore, if_true]
      exact .fail rfl
    · exact idle_standing (Function.update_of_ne heq ..) Iff.rfl rfl

theorem numbered_start (hs : s.Numbered) (task : Task) : (s.start task).Numbered := by
  intro t task' ht
  by_cases heq : t = s.nextTask
  · simp only [heq, Loop.start]
    omega
  · have := hs t task' (by simpa [Loop.start, Function.update_of_ne heq] using ht)
    simp only [Loop.start]
    omega

theorem numbered_step (hs : s.Numbered) (h : loopStep o s loopInput = some s') : s'.Numbered := by
  cases loopStep_move h with
  | runTurn | recover | resume => exact numbered_start hs _
  | rebuildFailed | refuse => exact fun t task ht => Nat.lt_succ_of_lt (hs t task ht)
  | @abort t before hbefore =>
    intro t' task ht
    by_cases heq : t' = t
    · exact heq ▸ hs t before hbefore
    · exact hs t' task (by simpa [Function.update_of_ne heq] using ht)
  | @advance t before taskInput step hbefore =>
    intro t' task ht
    rw [apply_nextTask]
    obtain ⟨rfl, -⟩ | ⟨-, ht⟩ := apply_tasks_cases ht
    · exact hs t' before hbefore
    · exact hs t' task ht
  | @fail t before result hbefore =>
    intro t' task ht
    by_cases heq : t' = t
    · exact heq ▸ hs t before hbefore
    · exact hs t' task (by simpa [Function.update_of_ne heq] using ht)

end Calls

section Bound
variable (o : AgentLoopOptions)

def startsGeneration (step : TaskStep) : Bool :=
  match step.next with
  | .continue task =>
    match task.pc with
    | .generating => true
    | _ => false
  | .settle _ => false

/-- What the step of a call counts for, if it takes one. -/
def countOf (count : Task → TaskStep → ℕ) (s : Loop) (input : LoopInput) (t : ℕ) : ℕ :=
  match stepOf o s input t with
  | some (task, step) => count task step
  | none => 0

def generationCount (_ : Task) (step : TaskStep) : ℕ := if startsGeneration step then 1 else 0

def attemptCount (task : Task) (step : TaskStep) : ℕ := (generationRequests task step).length

/-- A loop with the generations that each of its calls has started, and their attempts. -/
structure Counted where
  loop : Loop
  generations : ℕ → ℕ := fun _ => 0
  attempts : ℕ → ℕ := fun _ => 0

def Counted.step (s : Counted) (input : LoopInput) : Option Counted :=
  (loopStep o s.loop input).map fun loop =>
    { loop
      generations := fun t => s.generations t + countOf o generationCount s.loop input t
      attempts := fun t => s.attempts t + countOf o attemptCount s.loop input t }

def counted : Machine Counted LoopInput := ⟨Counted.step o⟩

def Phase.generates : Phase → Bool
  | generating | attempting _ | streaming _ => true
  | _ => false

def maxGenerations : ℕ := o.maxSteps + doublings (initialCap o) o.modelMaxOutputTokens

/-- No generation is under way at the bound of the step index or over it, and no call has started
more generations and attempts than its options allow. -/
structure Bounded (s : Counted) : Prop where
  below : ∀ t task, s.loop.tasks t = some task → task.pc.phase.generates →
    task.state.stepIndex < o.maxSteps
  generations : ∀ t, s.generations t ≤ maxGenerations o
  attempts : ∀ t, s.attempts t ≤ maxGenerations o * (o.maxRetries + 1)

/-- Leftover calls are finished at a step index below the last one. -/
def FinishesBelow (s : Counted) : LoopInput → Prop
  | .advance t _ => ∀ task, s.loop.tasks t = some task → task.pc = .checkpointing .recovered →
    task.state.stepIndex + 1 < o.maxSteps
  | _ => True

/-- However long a run goes on, a call takes finitely many steps in it but for the events of its
streams. -/
def Ends (run : ℕ → Loop) (inputs : ℕ → LoopInput) : Prop :=
  (loop o).IsRun run inputs → ∀ t,
    {n | ∃ input, inputs n = .advance t input ∧ input.isStreamEvent = false}.Finite

namespace Standing

def Allowed : Standing → Prop
  | live task => task.stage.phase.Allowed o
  | _ => True

def Below : Standing → Prop
  | live task => task.stage.Below o
  | _ => True

def left (f : Stage → ℕ) (bound : ℕ) : Standing → ℕ
  | unborn => bound
  | live task => f task.stage
  | gone => 0

def rank : Standing → WithTop (ℕ ×ₗ ℕ ×ₗ ℕ)
  | unborn => ⊤
  | live task => (toLex (task.stage.generationsLeft o,
      toLex (task.stage.phase.height o, task.pc.work)) : ℕ ×ₗ ℕ ×ₗ ℕ)
  | gone => (toLex (0, toLex (0, 0)) : ℕ ×ₗ ℕ ×ₗ ℕ)

end Standing

variable {o} {s : Loop} {loopInput : LoopInput} {t : ℕ} {standing standing' : Standing}

theorem Standing.Step.allowed (h : Standing.Step o s loopInput t standing standing')
    (ha : standing.Allowed o) : standing'.Allowed o := by
  cases h with
  | start _ hfresh =>
    rw [Standing.Allowed]
    obtain h | h := hfresh.1 <;> rw [h] <;> trivial
  | move _ _ _ _ hstaged =>
    cases hstaged with
    | step h => exact h.allowed ha
    | work hstage | streamed hstage =>
      rw [Standing.Allowed, hstage]
      exact ha
  | idle | abort => exact ha
  | _ => trivial

theorem Standing.Step.below (h : Standing.Step o s loopInput t standing standing')
    (hb : standing.Below o) (hguard : ∀ task input, standing = .live task →
      loopInput = .advance t input → task.pc = .checkpointing .recovered →
      task.state.stepIndex + 1 < o.maxSteps) : standing'.Below o := by
  cases h with
  | start _ hfresh =>
    rw [Standing.Below, Stage.Below]
    obtain h | h := hfresh.1 <;> rw [h] <;> trivial
  | move hinput _ hnext hmove hstaged =>
    cases hstaged with
    | step h =>
      exact h.below hb fun hphase hphase' =>
        hguard _ _ rfl hinput (recovered_of_generating hmove hnext hphase hphase')
    | work hstage | streamed hstage =>
      rw [Standing.Below, hstage]
      exact hb
  | idle | abort => exact hb
  | _ => trivial

theorem Standing.Step.left (h : Standing.Step o s loopInput t standing standing')
    {f : Stage → ℕ} {bound : ℕ} (count : Task → TaskStep → ℕ)
    (hfresh : ∀ task : Task, task.Fresh o → f task.stage ≤ bound)
    (hmove : ∀ task input step task', standing = .live task → step.next = .continue task' →
      Staged o task input step task' → f task'.stage + count task step ≤ f task.stage)
    (hsettle : ∀ task step result, step.next = .settle result → generationRequests task step = [] →
      count task step = 0) :
    standing'.left f bound + countOf o count s loopInput t ≤ standing.left f bound := by
  cases h with
  | idle h | abort h =>
    rw [countOf, h]
    exact le_rfl
  | start h hf =>
    rw [countOf, h]
    exact hfresh _ hf
  | refuse h | fail h =>
    rw [countOf, h]
    exact Nat.zero_le _
  | move _ h hnext _ hstaged =>
    rw [countOf, h]
    exact hmove _ _ _ _ rfl hnext hstaged
  | settle h hnext hrequests =>
    rw [countOf, h]
    simp only [hsettle _ _ _ hnext hrequests]
    exact Nat.zero_le _

theorem fresh_generationsLeft {task : Task} (h : task.Fresh o) :
    task.stage.generationsLeft o ≤ maxGenerations o := by
  obtain ⟨hphase, hcap⟩ := h
  rw [Stage.generationsLeft, maxGenerations, hcap]
  obtain hphase | hphase := hphase <;> simp only [hphase] <;> omega

theorem fresh_attemptsLeft {task : Task} (h : task.Fresh o) :
    task.stage.attemptsLeft o ≤ maxGenerations o * (o.maxRetries + 1) := by
  have hmul := Nat.mul_le_mul_right (o.maxRetries + 1) (fresh_generationsLeft h)
  rw [Stage.attemptsLeft]
  obtain hphase | hphase := h.1 <;> rw [hphase] <;> exact hmul

theorem generationCount_eq {task task' : Task} {step : TaskStep}
    (hnext : step.next = .continue task') :
    (task'.pc = .generating ∧ generationCount task step = 1) ∨
      (task'.pc ≠ .generating ∧ generationCount task step = 0) := by
  rw [generationCount, startsGeneration, hnext]
  cases hpc : task'.pc <;> simp [hpc]

theorem generationCount_left {task task' : Task} {input : TaskInput} {step : TaskStep}
    (hnext : step.next = .continue task') (h : Staged o task input step task') :
    task'.stage.generationsLeft o + generationCount task step ≤ task.stage.generationsLeft o := by
  obtain ⟨hstarts, hcount⟩ | ⟨hstarts, hcount⟩ := generationCount_eq hnext <;> rw [hcount]
  · cases h with
    | step h =>
      have hphase : task'.stage.phase = .generating := by rw [Task.stage, hstarts, Pc.phase]
      have hleft := h.generationsLeft
      rwa [if_pos hphase] at hleft
    | work _ hne | streamed _ hne => exact absurd hstarts hne
  · cases h with
    | step h => exact le_trans (Nat.le_add_right ..) h.generationsLeft
    | work hstage | streamed hstage => rw [hstage, Nat.add_zero]

theorem attemptCount_left {task task' : Task} {input : TaskInput} {step : TaskStep}
    (ha : task.stage.phase.Allowed o) (h : Staged o task input step task') :
    task'.stage.attemptsLeft o + attemptCount task step ≤ task.stage.attemptsLeft o := by
  cases h with
  | step h hrequests =>
    exact le_trans (Nat.add_le_add_left hrequests _) (h.attemptsLeft ha)
  | work hstage _ hrequests | streamed hstage _ hrequests =>
    rw [hstage, attemptCount, hrequests]
    exact le_rfl

theorem rank_lt {gl gl' height height' work work' : ℕ}
    (h : gl' < gl ∨ gl' ≤ gl ∧ (height' < height ∨ height' = height ∧ work' < work)) :
    ((toLex (gl', toLex (height', work')) : ℕ ×ₗ ℕ ×ₗ ℕ) : WithTop (ℕ ×ₗ ℕ ×ₗ ℕ)) <
      (toLex (gl, toLex (height, work)) : ℕ ×ₗ ℕ ×ₗ ℕ) := by
  rw [WithTop.coe_lt_coe, Prod.Lex.toLex_lt_toLex]
  obtain h | ⟨hle, h⟩ := h
  · exact .inl h
  · obtain hlt | heq := lt_or_eq_of_le hle
    · exact .inl hlt
    · refine .inr ⟨heq, ?_⟩
      rw [Prod.Lex.toLex_lt_toLex]
      exact h

theorem height_pos (phase : Phase) : 0 < phase.height o := by
  cases phase <;> simp only [Phase.height] <;> omega

theorem rank_gone (task : Task) : (Standing.gone).rank o < (Standing.live task).rank o := by
  refine rank_lt ?_
  have := height_pos (o := o) task.stage.phase
  omega

/-- A step that is no stream event lowers the rank of its call. -/
theorem Standing.Step.rank_lt_of_move (hparallel : 0 < o.maxParallelToolCalls)
    (h : Standing.Step o s loopInput t standing standing') (ha : standing.Allowed o)
    {input : TaskInput} (hinput : loopInput = .advance t input)
    (hstream : input.isStreamEvent = false) (hof : stepOf o s loopInput t ≠ none) :
    standing'.rank o < standing.rank o := by
  cases h with
  | idle h | start h | refuse h | abort h | fail h => exact absurd h hof
  | settle => exact rank_gone _
  | move hinput' _ _ _ hstaged =>
    obtain rfl := (LoopInput.advance.inj (hinput'.symm.trans hinput)).2
    refine rank_lt ?_
    cases hstaged with
    | step h =>
      have := h.descends ha
      omega
    | work hstage _ _ hwork =>
      rw [hstage]
      exact .inr ⟨le_rfl, .inr ⟨rfl, hwork hparallel⟩⟩
    | streamed _ _ _ _ hevent => exact absurd hevent (by simp [hstream])

theorem Standing.Step.rank_le (hparallel : 0 < o.maxParallelToolCalls)
    (h : Standing.Step o s loopInput t standing standing') (ha : standing.Allowed o) :
    standing'.rank o ≤ standing.rank o := by
  cases h with
  | idle | abort => exact le_rfl
  | start | refuse => exact le_top
  | settle | fail => exact (rank_gone _).le
  | @move task task' step input hinput hof hnext hmove hstaged =>
    cases hevent : input.isStreamEvent with
    | false =>
      exact (rank_lt_of_move hparallel (.move hinput hof hnext hmove hstaged) ha hinput hevent
        (by simp [hof])).le
    | true =>
      cases hstaged with
      | step h =>
        refine (rank_lt ?_).le
        have := h.descends ha
        omega
      | work hstage _ _ hwork =>
        refine (rank_lt ?_).le
        rw [hstage]
        exact .inr ⟨le_rfl, .inr ⟨rfl, hwork hparallel⟩⟩
      | streamed hstage _ _ hwork =>
        rw [Standing.rank, Standing.rank, hstage, hwork]

/-- What holds of every call over a run of counted steps. -/
structure Accounted (o : AgentLoopOptions) (s : Counted) : Prop where
  numbered : s.loop.Numbered
  allowed : ∀ t, (s.loop.standing t).Allowed o
  below : ∀ t, (s.loop.standing t).Below o
  generations : ∀ t, s.generations t +
    (s.loop.standing t).left (Stage.generationsLeft o) (maxGenerations o) ≤ maxGenerations o
  attempts : ∀ t, s.attempts t + (s.loop.standing t).left (Stage.attemptsLeft o)
    (maxGenerations o * (o.maxRetries + 1)) ≤ maxGenerations o * (o.maxRetries + 1)

theorem Accounted.step {s s' : Counted} {input : LoopInput} (h : Accounted o s)
    (hguard : FinishesBelow o s input) (hs : s.step o input = some s') : Accounted o s' := by
  obtain ⟨loop, hloop, rfl⟩ := Option.map_eq_some_iff.mp hs
  have hstep := loopStep_standing h.numbered hloop
  refine ⟨numbered_step h.numbered hloop, fun t => (hstep t).allowed (h.allowed t),
    fun t => (hstep t).below (h.below t) ?_, fun t => ?_, fun t => ?_⟩
  · rintro task taskInput hlive rfl hpc
    refine hguard task ?_ hpc
    rw [Loop.standing] at hlive
    split at hlive
    · next ht =>
      cases hlive
      exact ht
    · split at hlive <;> cases hlive
  · have hleft := (hstep t).left generationCount (fun _ => fresh_generationsLeft)
      (fun _ _ _ _ _ hnext hstaged => generationCount_left hnext hstaged)
      (fun task step result hnext _ => by simp [generationCount, startsGeneration, hnext])
    have := h.generations t
    simp only
    omega
  · have hleft := (hstep t).left attemptCount (fun _ => fresh_attemptsLeft)
      (fun task input step task' hlive _ hstaged => attemptCount_left (by
        have := h.allowed t
        rwa [hlive] at this) hstaged)
      (fun task step result _ hrequests => by rw [attemptCount, hrequests, List.length_nil])
    have := h.attempts t
    simp only
    omega

theorem standing_of_idle {start : Loop} (h : ∀ t, start.tasks t = none) (t : ℕ) :
    start.standing t = .gone ∨ start.standing t = .unborn := by
  simp only [Loop.standing, h t]
  split
  · exact .inl rfl
  · exact .inr rfl

theorem accounted_start {start : Loop} (h : ∀ t, start.tasks t = none) :
    Accounted o { loop := start } := by
  refine ⟨fun t task ht => absurd ht (by simp [h t]), fun t => ?_, fun t => ?_, fun t => ?_,
    fun t => ?_⟩
  all_goals
    obtain ht | ht := standing_of_idle h t <;> simp [ht, Standing.Allowed, Standing.Below,
      Standing.left]

theorem Accounted.bounded {s : Counted} (h : Accounted o s) : Bounded o s := by
  refine ⟨fun t task ht hgenerates => ?_, fun t => ?_, fun t => ?_⟩
  · have hbelow := h.below t
    rw [standing_of_some ht, Standing.Below, Stage.Below] at hbelow
    have hphase : task.stage.phase = task.pc.phase := rfl
    cases hpc : task.pc.phase <;> rw [hpc] at hgenerates hphase <;> rw [hphase] at hbelow <;>
      first | exact hbelow | cases hgenerates
  · exact le_trans (Nat.le_add_right ..) (h.generations t)
  · exact le_trans (Nat.le_add_right ..) (h.attempts t)

theorem ends (hparallel : 0 < o.maxParallelToolCalls) {run : ℕ → Loop} {inputs : ℕ → LoopInput}
    (hstart : ∀ t, (run 0).tasks t = none) : Ends o run inputs := by
  intro hrun t
  let P : Loop → Prop := fun s => s.Numbered ∧ (s.standing t).Allowed o
  have hinv : ∀ n, P (run n) := hrun.invariant
    ⟨fun t task ht => absurd ht (by simp [hstart t]), by
      obtain ht | ht := standing_of_idle hstart t <;> rw [ht] <;> trivial⟩
    fun s input s' hs hstep =>
      ⟨numbered_step hs.1 hstep, (loopStep_standing hs.1 hstep t).allowed hs.2⟩
  refine hrun.finite (P := P) (fun s => (s.standing t).rank o)
    (fun input => ∃ taskInput, input = .advance t taskInput ∧ taskInput.isStreamEvent = false) hinv
    (fun s input s' hs hstep => (loopStep_standing hs.1 hstep t).rank_le hparallel hs.2) ?_
  rintro s _ s' hs hloop ⟨input, rfl, hstream⟩
  have hstep : loopStep o s (.advance t input) = some s' := hloop
  refine (loopStep_standing hs.1 hstep t).rank_lt_of_move hparallel hs.2 rfl hstream ?_
  obtain ⟨task, ht, h⟩ := Option.bind_eq_some_iff.mp hstep
  obtain ⟨step, hstep, -⟩ := Option.map_eq_some_iff.mp h
  simp [stepOf, ht, hstep]

/-- A live call is never stuck: whatever it waits for, its await can end. -/
theorem exists_advance {task : Task} (ht : s.tasks t = some task) :
    ∃ input s', loopStep o s (.advance t input) = some s' := by
  have hgoes : ∀ input, (taskStep o s.log s.nextId task input).isSome →
      ∃ input s', loopStep o s (.advance t input) = some s' := by
    intro input hsome
    obtain ⟨step, hstep⟩ := Option.isSome_iff_exists.mp hsome
    exact ⟨input, s.apply t step, by simp [loopStep, ht, hstep]⟩
  cases hpc : task.pc with
  | approved pending decision =>
    exact hgoes (.tool (.thrown "")) (by simp [taskStep, hpc, answerResult?])
  | settling after slots segments =>
    by_cases hall : slots.all Slot.settled = true
    · exact hgoes .proceed (by simp [taskStep, hpc, hall])
    · rw [List.all_eq_true] at hall
      push Not at hall
      obtain ⟨slot, hslot, hopen⟩ := hall
      obtain ⟨index, hindex⟩ := List.getElem?_of_mem hslot
      refine hgoes (.slotRejected index) ?_
      cases hstate : slot.state with
      | executing | suspending =>
        simp [taskStep, hpc, slotIndex?, hindex, slotStep, hstate]
      | answered | suspended | rejected => simp [Slot.settled, hstate] at hopen
  | generating =>
    cases hspan : compactionSpan o task.state (assemble o task.state [] [] none) with
    | none => exact hgoes (.assembled [] [] none) (by simp [taskStep, hpc, hspan])
    | some covered => exact hgoes (.assembled [] [] none) (by simp [taskStep, hpc, hspan])
  | summarizing => exact hgoes (.summarized none) (by simp [taskStep, hpc])
  | attempting retry messages =>
    exact hgoes (.attemptThrown ⟨"", none⟩) (by simp [taskStep, hpc])
  | streaming => exact hgoes .streamEnd (by simp [taskStep, hpc])
  | awaitingResult => exact hgoes (.result .cancelled) (by simp [taskStep, hpc])
  | _ => exact hgoes .proceed (by simp [taskStep, hpc])

/-- While leftover calls are finished below the last step index, no generation starts at the bound;
every call comes to its end within the generations and attempts that its options allow. -/
theorem stepBound (hparallel : 0 < o.maxParallelToolCalls) {start : Loop}
    (hstart : ∀ t, start.tasks t = none) :
    (∀ s, (counted o).Reaches (FinishesBelow o) { loop := start } s → Bounded o s) ∧
      (∀ run inputs, run 0 = start → Ends o run inputs) ∧
      ∀ (s : Loop) t task, s.tasks t = some task →
        ∃ input s', loopStep o s (.advance t input) = some s' := by
  refine ⟨fun s h => ?_, fun run inputs hrun => ends hparallel (by rwa [hrun]),
    fun s t task ht => exists_advance ht⟩
  have hinv := h.invariant (P := Accounted o) (accounted_start hstart)
    fun s input s' hs hguard hstep => hs.step hguard hstep
  exact hinv.bounded

end Bound

def singleStepOptions : AgentLoopOptions :=
  { sampleOptions with maxSteps := 1, maxOutputTokens := some 512 }

example : maxGenerations singleStepOptions = 4 := by decide +kernel

def finishedRun : List LoopInput :=
  leftoverRun ++ advances 1 [.slot 0 (sampleAnswer "A"), .proceed, .proceed, .proceed]

def finishesBelow (o : AgentLoopOptions) (s : Counted) : LoopInput → Bool
  | .advance t _ =>
    match s.loop.tasks t with
    | some task =>
      match task.pc with
      | .checkpointing .recovered => task.state.stepIndex + 1 < o.maxSteps
      | _ => true
    | none => true
  | _ => true

theorem finishesBelow_sound {o : AgentLoopOptions} (s : Counted) (input : LoopInput)
    (h : finishesBelow o s input) : FinishesBelow o s input := by
  cases input with
  | advance t input =>
    intro task ht hpc
    simpa [finishesBelow, ht, hpc] using h
  | _ => trivial

theorem stepBound_sample : ∃ s, (counted sampleOptions).Reaches (FinishesBelow sampleOptions)
    { loop := .initial } s ∧ s.generations 1 = 1 ∧ Bounded sampleOptions s := by
  have hguard : (counted sampleOptions).Guarded (FinishesBelow sampleOptions)
      { loop := .initial } finishedRun :=
    Machine.guarded_of_allSteps finishesBelow_sound finishedRun (by decide +kernel)
  obtain ⟨s, hreaches, hs⟩ := hguard.exists_reaches (f := fun s => s.generations 1) (a := 1)
    (by decide +kernel)
  exact ⟨s, hreaches, hs, (stepBound (by decide) (fun _ => rfl)).1 s hreaches⟩

/-- A generation starts at the bound when the leftover call took the last step. -/
theorem generation_at_bound : ¬ ∀ s, (counted singleStepOptions).Reaches Machine.anyStep
    { loop := .initial } s → Bounded singleStepOptions s := by
  intro h
  obtain ⟨s, hreaches, hs⟩ := Machine.exists_reaches_of_exec_map
    (M := counted singleStepOptions) (s := { loop := .initial })
    (f := fun s => (s.loop.tasks 1).map fun task => (task.pc.phase.generates, task.state.stepIndex))
    (a := some (true, 1)) finishedRun (by decide +kernel)
  obtain ⟨task, ht, htask⟩ := Option.map_eq_some_iff.mp hs
  rw [Prod.mk.injEq] at htask
  have hbelow := (h s hreaches).below 1 task ht htask.1
  rw [htask.2] at hbelow
  exact absurd hbelow (by decide)

end BeeAgent.Runtime
