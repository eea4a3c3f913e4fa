import BeeAgent.Data.Parse
import BeeAgent.Decoding.Conversation
import BeeAgent.Decoding.Lines
import BeeAgent.Execution.Request

/-! Staged stdio of one command: steps written to the child, each after the JSON line that the one
before it waits for, and the line that ends the command. What is written, and after how many lines,
is compared for chunks of any shape and for one line a chunk. -/
namespace BeeAgent.Execution
open BeeAgent.Data Conversation

/-- The part of a command that its stdio depends on. -/
structure StdioInput where
  stdin : Option String
  stdoutCompletion : Option StdoutCompletion
  stdioSequence : Option (List StdioStep)

inductive StdioAction where
  | write (input : String)
  | endInput (input : Option String)
  | complete
  deriving DecidableEq

/-- The variables of `runProcess` that inspecting stdout reads and writes. `log` is what was written
and when the process was completed, each with the number of lines taken from the child so far. -/
structure StdioState where
  completedByOutput : Bool := false
  stdoutLineBuffer : List Char := []
  stdioStep : ℕ := 0
  stagedWait : Option StdoutCompletion := none
  consumed : ℕ := 0
  log : List (ℕ × StdioAction) := []

/-- The position that a property name stands for in a string or an array. -/
def propertyIndex (property : String) (length : ℕ) : Option ℕ :=
  (List.range length).find? fun i => property = toString i

def equalsNumber (equals : String ⊕ Number) (n : Number) : Bool :=
  match equals with
  | .inl _ => false
  | .inr m => n.canonical = m.canonical

/-- `value === equals` -/
def strictlyEquals (equals : String ⊕ Number) : Value → Bool
  | .string s => equals = .inl s
  | .number n => equalsNumber equals n
  | _ => false

/-- `message[property] === equals`; on `null` it throws, and the line is passed over. -/
def propertyEquals (completion : StdoutCompletion) : Value → Bool
  | .object fields =>
    ((fields.find? fun field => field.1 = completion.property).map Prod.snd).any
      (strictlyEquals completion.equals)
  | .array items =>
    if completion.property = "length" then
      equalsNumber completion.equals (.ofNat items.length)
    else ((propertyIndex completion.property items.length).bind (items[·]?)).any
      (strictlyEquals completion.equals)
  | .string s =>
    if completion.property = "length" then
      equalsNumber completion.equals (.ofNat (utf16 s).length)
    else ((propertyIndex completion.property (utf16 s).length).bind ((utf16 s)[·]?)).any
      fun unit => completion.equals.elim (fun text => utf16 text = [unit]) fun _ => false
  | _ => false

def answers (completion : StdoutCompletion) (line : List Char) : Bool :=
  (parseJson (String.ofList line)).any (propertyEquals completion)

namespace StdioState

def act (s : StdioState) (action : StdioAction) : StdioState :=
  { s with log := s.log ++ [(s.consumed, action)] }

def completeByOutput (s : StdioState) : StdioState :=
  if s.completedByOutput then s else { s.act .complete with completedByOutput := true }

def pump (s : StdioState) : List StdioStep → StdioState
  | [] => s
  | step :: steps =>
    if s.stagedWait.isSome then s
    else
      let s := { s.act (.write step.input) with stagedWait := step.waitFor }
      if s.stagedWait.isNone then pump { s with stdioStep := s.stdioStep + 1 } steps else s

def pumpStdio (input : StdioInput) (s : StdioState) : StdioState :=
  match input.stdioSequence with
  | none => s
  | some steps => s.pump (steps.drop s.stdioStep)

/-- What the line that was waited for brings about. -/
def proceed (input : StdioInput) (s : StdioState) : StdioState :=
  if s.stagedWait.isSome then
    let s := { s with stagedWait := none, stdioStep := s.stdioStep + 1 }
    if s.stdioStep < (input.stdioSequence.map List.length).getD 0 then s.pumpStdio input
    else s.completeByOutput
  else s.completeByOutput

/-- The loop over the lines that a chunk has closed; after a line that was waited for it ends, and
the others are gone. -/
def inspectLines (input : StdioInput) : StdioState → List (List Char) → StdioState
  | s, [] => s
  | s, line :: lines =>
    let s := { s with consumed := s.consumed + 1 }
    if (s.stagedWait.or input.stdoutCompletion).any (answers · line) then
      let s := s.proceed input
      { s with consumed := s.consumed + lines.length }
    else inspectLines input s lines

def inspectStdout (input : StdioInput) (s : StdioState) (chunk : List UInt8) : StdioState :=
  if (input.stdoutCompletion.isNone ∧ s.stagedWait.isNone) ∨ s.completedByOutput then s
  else
    let (lines, rest) := Lines.cut '\n' (s.stdoutLineBuffer ++ Utf8.decodeWhole chunk)
    { s with stdoutLineBuffer := rest }.inspectLines input lines

def spawn (input : StdioInput) : StdioState :=
  if input.stdioSequence.isSome then pumpStdio input {}
  else ({} : StdioState).act (.endInput input.stdin)

end StdioState

/-! ### The process -/

structure ProcessInput extends StdioInput where
  maxOutputBytes : ℕ

inductive SandboxError where
  | outputLimit (limit : ℕ)
  | timeout (timeoutMs : ℕ)
  | cancelled
  | other (message : String)

structure ProcessResult where
  exitCode : Option ℤ
  signal : Option String
  stdout : String
  stderr : String
  completedByOutput : Bool

inductive ProcessEvent where
  | stdout (chunk : List UInt8)
  | stderr (chunk : List UInt8)
  /-- The timeout, an abort, and the errors of the child and of its stdin. -/
  | error (error : SandboxError)
  | close (exitCode : Option ℤ) (signal : Option String)

structure Process extends StdioState where
  stdout : List UInt8 := []
  stderr : List UInt8 := []
  size : ℕ := 0
  settled : Option (Except SandboxError ProcessResult) := none

namespace Process

def finishError (error : SandboxError) (p : Process) : Process :=
  if p.settled.isSome then p else { p with settled := some (.error error) }

def close (p : Process) (exitCode : Option ℤ) (signal : Option String) : Process :=
  if p.settled.isSome then p
  else
    let stdout := String.ofList (Utf8.decodeWhole p.stdout)
    let stderr := String.ofList (Utf8.decodeWhole p.stderr)
    let completedByOutput := p.completedByOutput
    { p with settled := some (.ok { exitCode, signal, stdout, stderr, completedByOutput }) }

/-- A chunk of output that is over the limit ends the process, but is inspected all the same. -/
def handle (input : ProcessInput) (p : Process) : ProcessEvent → Process
  | .stdout chunk =>
    let p := { p with size := p.size + chunk.length }
    let p := if input.maxOutputBytes < p.size then p.finishError (.outputLimit input.maxOutputBytes)
      else { p with stdout := p.stdout ++ chunk }
    { p with toStdioState := p.toStdioState.inspectStdout input.toStdioInput chunk }
  | .stderr chunk =>
    let p := { p with size := p.size + chunk.length }
    if input.maxOutputBytes < p.size then p.finishError (.outputLimit input.maxOutputBytes)
    else { p with stderr := p.stderr ++ chunk }
  | .error error => p.finishError error
  | .close exitCode signal => p.close exitCode signal

end Process

/-- The child is spawned, the first steps are written, and the rest is events. -/
def runProcess (input : ProcessInput) (events : List ProcessEvent) : Process :=
  events.foldl (Process.handle input) ⟨.spawn input.toStdioInput, [], [], 0, none⟩

def ProcessEvent.chunk? : ProcessEvent → Option (List UInt8)
  | .stdout chunk => some chunk
  | _ => none

theorem Process.toStdioState_finishError (error : SandboxError) (p : Process) :
    (p.finishError error).toStdioState = p.toStdioState := by
  unfold finishError
  split <;> rfl

/-- Stdio depends on the chunks of stdout alone. -/
theorem Process.toStdioState_handle (input : ProcessInput) (p : Process) (event : ProcessEvent) :
    (p.handle input event).toStdioState =
      event.chunk?.elim p.toStdioState (p.toStdioState.inspectStdout input.toStdioInput) := by
  cases event with
  | stdout chunk =>
    simp only [handle, ProcessEvent.chunk?, Option.elim_some]
    split
    · rw [toStdioState_finishError]
    · rfl
  | stderr chunk =>
    simp only [handle, ProcessEvent.chunk?, Option.elim_none]
    split
    · rw [toStdioState_finishError]
    · rfl
  | error error => exact toStdioState_finishError error p
  | close exitCode signal =>
    simp only [handle, ProcessEvent.chunk?, Option.elim_none, close]
    split <;> rfl

def stageStdio (input : StdioInput) (chunks : List (List UInt8)) : StdioState :=
  chunks.foldl (StdioState.inspectStdout input) (.spawn input)

theorem toStdioState_runProcess (input : ProcessInput) (events : List ProcessEvent) :
    (runProcess input events).toStdioState =
      stageStdio input.toStdioInput (events.filterMap ProcessEvent.chunk?) := by
  suffices h : ∀ p : Process, (events.foldl (Process.handle input) p).toStdioState =
      (events.filterMap ProcessEvent.chunk?).foldl (StdioState.inspectStdout input.toStdioInput)
        p.toStdioState from h _
  induction events with
  | nil => exact fun p => rfl
  | cons event events ih =>
    intro p
    rw [List.foldl_cons, ih, Process.toStdioState_handle, List.filterMap_cons]
    cases event.chunk? <;> rfl

/-! ### The conversation -/

/-- What is written at once: the steps up to the first one that waits. -/
def said : List StdioStep → List StdioAction
  | [] => []
  | step :: steps => .write step.input :: if step.waitFor.isSome then [] else said steps

theorem said_ne {steps : List StdioStep} (h : steps ≠ []) : said steps ≠ [] := by
  cases steps with
  | nil => exact absurd rfl h
  | cons step steps => simp [said]

def completing (wait : StdoutCompletion) : Exchange StdoutCompletion StdioAction :=
  ⟨wait, [.complete], List.cons_ne_nil _ _⟩

/-- What is waited for, and what it brings about, after the steps up to the first wait. -/
def script (completion : Option StdoutCompletion) :
    List StdioStep → List (Exchange StdoutCompletion StdioAction)
  | [] => completion.toList.map completing
  | step :: steps =>
    match step.waitFor with
    | none => script completion steps
    | some wait =>
      if h : steps = [] then [completing wait]
      else ⟨wait, said steps, said_ne h⟩ :: script completion steps

/-- The lines that are waited for, in their order. -/
def StdioInput.waits (input : StdioInput) : List StdoutCompletion :=
  let steps := input.stdioSequence.getD []
  steps.filterMap StdioStep.waitFor ++
    if (steps.getLast?.bind StdioStep.waitFor).isSome then [] else input.stdoutCompletion.toList

/-- The exchanges that are still to come when `wait` is the one that is waited for. -/
def awaited (completion : Option StdoutCompletion) (wait : StdoutCompletion)
    (steps : List StdioStep) : List (Exchange StdoutCompletion StdioAction) :=
  if h : steps = [] then [completing wait]
  else ⟨wait, said steps, said_ne h⟩ :: script completion steps

theorem script_wait (completion : Option StdoutCompletion) (steps : List StdioStep) :
    (script completion steps).map Exchange.wait = steps.filterMap StdioStep.waitFor ++
      if (steps.getLast?.bind StdioStep.waitFor).isSome then [] else completion.toList := by
  induction steps with
  | nil => cases completion <;> rfl
  | cons step steps ih =>
    rw [script, List.filterMap_cons]
    cases hwait : step.waitFor with
    | none =>
      cases steps with
      | nil => simp [ih, hwait]
      | cons next steps => simpa [List.getLast?_cons_cons] using ih
    | some wait =>
      dsimp only
      split
      · next hsteps =>
        subst hsteps
        simp [completing, hwait]
      · next hsteps =>
        obtain ⟨next, more, rfl⟩ := List.exists_cons_of_ne_nil hsteps
        simpa [List.getLast?_cons_cons] using ih

namespace StdioState

/-- The exchanges that are still to come in a state. -/
def pending (input : StdioInput) (s : StdioState) :
    List (Exchange StdoutCompletion StdioAction) :=
  if s.completedByOutput then []
  else
    match s.stagedWait with
    | none => script input.stdoutCompletion []
    | some wait =>
      awaited input.stdoutCompletion wait
        ((input.stdioSequence.getD []).drop (s.stdioStep + 1))

/-- How a state comes out of another one: what was said in between, and what is still to come. -/
structure Leads (input : StdioInput) (s s' : StdioState) (actions : List (ℕ × StdioAction))
    (es : List (Exchange StdoutCompletion StdioAction)) (consumed : ℕ) : Prop where
  log : s'.log = s.log ++ actions
  pending : s'.pending input = es
  consumed : s'.consumed = consumed
  buffer : s'.stdoutLineBuffer = s.stdoutLineBuffer

theorem pump_leads {input : StdioInput} {s : StdioState} (hwait : s.stagedWait = none)
    (hlive : s.completedByOutput = false) {steps : List StdioStep}
    (hsteps : steps = (input.stdioSequence.getD []).drop s.stdioStep) :
    Leads input s (s.pump steps) ((said steps).map (s.consumed, ·))
      (script input.stdoutCompletion steps) s.consumed := by
  induction steps generalizing s with
  | nil => exact ⟨(List.append_nil _).symm, by simp [pump, pending, hlive, hwait], rfl, rfl⟩
  | cons step steps ih =>
    have hdrop : steps = (input.stdioSequence.getD []).drop (s.stdioStep + 1) := by
      rw [← List.drop_drop, ← hsteps]
      rfl
    rw [pump, if_neg (by simp [hwait]), said, script]
    cases hstep : step.waitFor with
    | none =>
      obtain ⟨hlog, hpending, hconsumed, hbuffer⟩ := @ih
        { s.act (.write step.input) with stagedWait := none, stdioStep := s.stdioStep + 1 }
        rfl hlive hdrop
      refine ⟨?_, hpending, hconsumed, hbuffer⟩
      simpa [act] using hlog
    | some wait =>
      refine ⟨by simp [act], ?_, rfl, rfl⟩
      simp [pending, act, hlive, awaited, hdrop]

theorem pumpStdio_leads {input : StdioInput} {s : StdioState} (hwait : s.stagedWait = none)
    (hlive : s.completedByOutput = false) :
    Leads input s (s.pumpStdio input)
      ((said ((input.stdioSequence.getD []).drop s.stdioStep)).map (s.consumed, ·))
      (script input.stdoutCompletion ((input.stdioSequence.getD []).drop s.stdioStep))
      s.consumed := by
  unfold pumpStdio
  cases hsteps : input.stdioSequence with
  | none => simpa [pump] using @pump_leads input s hwait hlive [] (by simp [hsteps])
  | some steps => exact pump_leads hwait hlive (by rw [hsteps]; rfl)

theorem pending_cons {input : StdioInput} {s : StdioState}
    {e : Exchange StdoutCompletion StdioAction} {es : List (Exchange StdoutCompletion StdioAction)}
    (h : s.pending input = e :: es) :
    s.completedByOutput = false ∧ s.stagedWait.or input.stdoutCompletion = some e.wait := by
  unfold pending at h
  split at h
  · cases h
  · next hlive =>
    refine ⟨by simpa using hlive, ?_⟩
    split at h
    · next hwait =>
      rw [hwait, Option.none_or]
      cases hcompletion : input.stdoutCompletion with
      | none => simp [script, hcompletion] at h
      | some completion =>
        simp only [script, hcompletion, Option.toList_some, List.map_cons, List.cons.injEq] at h
        rw [← h.1]
        rfl
    · next wait hwait =>
      rw [hwait, Option.some_or]
      unfold awaited at h
      split at h
      · rw [← (List.cons.inj h).1]
        rfl
      · rw [← (List.cons.inj h).1]

theorem pending_eq_nil (input : StdioInput) (s : StdioState) :
    s.pending input = [] ↔
      (input.stdoutCompletion.isNone ∧ s.stagedWait.isNone) ∨ s.completedByOutput := by
  unfold pending awaited
  cases s.completedByOutput <;> cases s.stagedWait <;> cases input.stdoutCompletion <;>
    simp [script]
  all_goals split <;> simp

theorem completeByOutput_leads {input : StdioInput} {s : StdioState}
    (hlive : s.completedByOutput = false) :
    Leads input s s.completeByOutput [(s.consumed, .complete)] [] s.consumed := by
  simp only [completeByOutput, hlive]
  exact ⟨rfl, rfl, rfl, rfl⟩

theorem proceed_leads {input : StdioInput} {s : StdioState}
    {e : Exchange StdoutCompletion StdioAction} {es : List (Exchange StdoutCompletion StdioAction)}
    (h : s.pending input = e :: es) :
    Leads input s (s.proceed input) (e.replies.map (s.consumed, ·)) es s.consumed := by
  have hlive := (pending_cons h).1
  unfold pending at h
  rw [if_neg (by simp [hlive])] at h
  unfold proceed
  cases hwait : s.stagedWait with
  | none =>
    rw [hwait] at h
    cases hcompletion : input.stdoutCompletion with
    | none => simp [script, hcompletion] at h
    | some completion =>
      simp only [script, hcompletion, Option.toList_some, List.map_cons, List.map_nil,
        List.cons.injEq] at h
      obtain ⟨rfl, rfl⟩ := h
      exact completeByOutput_leads hlive
  | some wait =>
    rw [hwait] at h
    have hlength : (input.stdioSequence.map List.length).getD 0 =
        (input.stdioSequence.getD []).length := by cases input.stdioSequence <;> rfl
    simp only [awaited] at h
    simp only [Option.isSome_some, if_true, hlength]
    split at h
    · next hrest =>
      obtain ⟨rfl, rfl⟩ := List.cons.inj h
      rw [if_neg (Nat.not_lt.mpr (List.drop_eq_nil_iff.mp hrest))]
      obtain ⟨hlog, hpending, hconsumed, hbuffer⟩ := @completeByOutput_leads input
        { s with stagedWait := none, stdioStep := s.stdioStep + 1 } hlive
      exact ⟨hlog, hpending, hconsumed, hbuffer⟩
    · next hrest =>
      obtain ⟨rfl, rfl⟩ := List.cons.inj h
      rw [if_pos (Nat.lt_of_not_le fun hle => hrest (List.drop_eq_nil_iff.mpr hle))]
      obtain ⟨hlog, hpending, hconsumed, hbuffer⟩ := @pumpStdio_leads input
        { s with stagedWait := none, stdioStep := s.stdioStep + 1 } rfl hlive
      exact ⟨hlog, hpending, hconsumed, hbuffer⟩

theorem inspectLines_leads {input : StdioInput} {s : StdioState} {lines : List (List Char)}
    (hne : s.pending input ≠ []) :
    Leads input s (s.inspectLines input lines)
      (hearGroup answers (s.pending input) s.consumed lines).1
      (hearGroup answers (s.pending input) s.consumed lines).2 (s.consumed + lines.length) := by
  induction lines generalizing s with
  | nil =>
    obtain ⟨e, es, he⟩ := List.exists_cons_of_ne_nil hne
    exact ⟨(List.append_nil _).symm, by rw [he]; exact he, rfl, rfl⟩
  | cons line lines ih =>
    obtain ⟨e, es, he⟩ := List.exists_cons_of_ne_nil hne
    have hnext : StdioState.pending input { s with consumed := s.consumed + 1 } = e :: es := he
    have hwait := (pending_cons he).2
    rw [inspectLines, he, hearGroup]
    simp only [hwait, Option.any_some]
    have hcount : s.consumed + (line :: lines).length = s.consumed + 1 + lines.length := by
      rw [List.length_cons]
      omega
    rw [hcount]
    split
    · obtain ⟨hlog, hpending, hconsumed, hbuffer⟩ := proceed_leads hnext
      exact ⟨hlog, hpending, by rw [hconsumed], hbuffer⟩
    · have hlive : StdioState.pending input { s with consumed := s.consumed + 1 } ≠ [] := by
        rw [hnext]
        exact List.cons_ne_nil _ _
      have htail := ih hlive
      rw [hnext] at htail
      exact ⟨htail.log, htail.pending, htail.consumed, htail.buffer⟩

theorem log_inspect {input : StdioInput} {pieces : List (List UInt8)}
    (hpieces : 10 ∉ pieces.flatten) (s : StdioState)
    (hbuffer : s.pending input ≠ [] → s.stdoutLineBuffer = pieces.flatMap Utf8.decodeWhole)
    (chunks : List (List UInt8)) :
    (chunks.foldl (inspectStdout input) s).log = s.log ++
      hear answers (s.pending input) s.consumed
        ((Lines.arrivals 10 pieces chunks).map fun group =>
          group.map fun line => line.flatMap Utf8.decodeWhole) := by
  induction chunks generalizing s pieces with
  | nil => simp [Lines.arrivals, hear]
  | cons chunk chunks ih =>
    rw [List.foldl_cons, Lines.arrivals, List.map_cons, hear]
    by_cases hne : s.pending input = []
    · have hsame : s.inspectStdout input chunk = s := if_pos ((pending_eq_nil input s).mp hne)
      rw [hsame, ih (Lines.notMem_arrive hpieces chunk) s (fun h => absurd hne h), hne]
      simp
    · have hcut := Lines.cut_chunk Utf8.keepsLines hpieces chunk
      have hstep : s.inspectStdout input chunk = _ :=
        if_neg fun hdone => hne ((pending_eq_nil input s).mpr hdone)
      rw [hbuffer hne, hcut] at hstep
      dsimp only at hstep
      obtain ⟨hlog, hpending, hconsumed, hrest⟩ := @inspectLines_leads input
        { s with stdoutLineBuffer :=
            (Lines.arrive pieces (Lines.cut 10 chunk)).2.flatMap Utf8.decodeWhole }
        ((Lines.arrive pieces (Lines.cut 10 chunk)).1.map fun line =>
          line.flatMap Utf8.decodeWhole) hne
      rw [← hstep] at hlog hpending hconsumed hrest
      rw [ih (Lines.notMem_arrive hpieces chunk) _ (fun _ => hrest), hlog, hpending, hconsumed,
        List.append_assoc]
      rfl

theorem pending_spawn (input : StdioInput) :
    (spawn input).consumed = 0 ∧ (spawn input).stdoutLineBuffer = [] ∧
      ((spawn input).pending input).map Exchange.wait = input.waits := by
  unfold spawn StdioInput.waits
  split
  · obtain ⟨-, hpending, hconsumed, hbuffer⟩ := @pumpStdio_leads input {} rfl rfl
    refine ⟨hconsumed, hbuffer, ?_⟩
    rw [hpending, script_wait]
    rfl
  · next hnone =>
    have hsequence : input.stdioSequence = none := by simpa using hnone
    refine ⟨rfl, rfl, ?_⟩
    rw [hsequence]
    exact script_wait input.stdoutCompletion []

end StdioState

def SameConversation (s s' : StdioState) : Prop :=
  s.log = s'.log ∧ s.completedByOutput = s'.completedByOutput

def lineByLine (bytes : List UInt8) : List (List UInt8) :=
  (Lines.cut 10 bytes).1.map (· ++ [10]) ++ [(Lines.cut 10 bytes).2]

/-- The lines that end in each chunk, as they are and as they are read. -/
def received (chunks : List (List UInt8)) : List (List (Arrival (List Char))) :=
  (Lines.arrivals 10 [] chunks).map fun group => group.map fun pieces =>
    ⟨Utf8.decodeWhole pieces.flatten, pieces.flatMap Utf8.decodeWhole⟩

theorem log_stageStdio (input : StdioInput) (chunks : List (List UInt8)) :
    (stageStdio input chunks).log = (StdioState.spawn input).log ++
      hear answers ((StdioState.spawn input).pending input) 0
        ((received chunks).map fun group => group.map Arrival.reading) := by
  obtain ⟨hconsumed, hbuffer, -⟩ := StdioState.pending_spawn input
  have hstart : (10 : UInt8) ∉ ([] : List (List UInt8)).flatten := List.not_mem_nil
  rw [stageStdio, StdioState.log_inspect hstart _ (fun _ => hbuffer), hconsumed]
  simp [received, Function.comp_def]

theorem lines_received (chunks : List (List UInt8)) :
    (received chunks).flatten.map Arrival.line =
      (Lines.cut 10 chunks.flatten).1.map Utf8.decodeWhole := by
  have hstart : (10 : UInt8) ∉ ([] : List (List UInt8)).flatten := List.not_mem_nil
  have hlines := Lines.arrivals_lines 10 hstart chunks
  rw [List.flatten_nil, List.nil_append] at hlines
  rw [← hlines, received, ← List.map_flatten, List.map_map, List.map_map]
  rfl

theorem log_lineByLine (input : StdioInput) (chunks : List (List UInt8)) :
    (stageStdio input (lineByLine chunks.flatten)).log = (StdioState.spawn input).log ++
      converse answers ((StdioState.spawn input).pending input) 0
        ((received chunks).flatten.map Arrival.line) := by
  have hstart : ([] : List (List UInt8)).flatMap Utf8.decodeWhole = [] := rfl
  have happart := Lines.arrivals_apart Utf8.decodeWhole_nil
    (Lines.notMem_closed 10 chunks.flatten) (Lines.notMem_open 10 chunks.flatten) hstart
  have hreadings : ((received (lineByLine chunks.flatten)).map fun group =>
      group.map Arrival.reading) =
      (((received chunks).flatten.map Arrival.line).map fun line => [line]) ++ [[]] := by
    rw [lines_received, List.map_map]
    simpa [received, lineByLine, Function.comp_def] using happart
  rw [log_stageStdio, hreadings, hear_snoc_nil, hear_singletons]

namespace StdioState

def Marked (s : StdioState) : Prop :=
  s.completedByOutput = s.log.any fun said => said.2 = .complete

theorem Marked.write {s : StdioState} (h : s.Marked) (text : String) :
    (s.act (.write text)).Marked := by
  simpa [Marked, act] using h

theorem Marked.completeByOutput {s : StdioState} (h : s.Marked) : s.completeByOutput.Marked := by
  unfold StdioState.completeByOutput
  split
  · exact h
  · simp [Marked, act]

theorem Marked.pump {s : StdioState} (h : s.Marked) (steps : List StdioStep) :
    (s.pump steps).Marked := by
  induction steps generalizing s with
  | nil => exact h
  | cons step steps ih =>
    rw [StdioState.pump]
    split
    · exact h
    · dsimp only
      split
      · exact ih (h.write step.input)
      · exact h.write step.input

theorem Marked.pumpStdio {s : StdioState} (h : s.Marked) (input : StdioInput) :
    (s.pumpStdio input).Marked := by
  unfold StdioState.pumpStdio
  split
  · exact h
  · exact h.pump _

theorem Marked.proceed {s : StdioState} (h : s.Marked) (input : StdioInput) :
    (s.proceed input).Marked := by
  unfold StdioState.proceed
  split
  · dsimp only
    split
    · exact pumpStdio (s := { s with stagedWait := none, stdioStep := s.stdioStep + 1 }) h input
    · exact completeByOutput (s := { s with stagedWait := none, stdioStep := s.stdioStep + 1 }) h
  · exact h.completeByOutput

theorem Marked.inspectLines {s : StdioState} (h : s.Marked) (input : StdioInput)
    (lines : List (List Char)) : (s.inspectLines input lines).Marked := by
  induction lines generalizing s with
  | nil => exact h
  | cons line lines ih =>
    rw [StdioState.inspectLines]
    split
    · exact proceed (s := { s with consumed := s.consumed + 1 }) h input
    · exact ih (s := { s with consumed := s.consumed + 1 }) h

theorem Marked.inspectStdout {s : StdioState} (h : s.Marked) (input : StdioInput)
    (chunk : List UInt8) : (s.inspectStdout input chunk).Marked := by
  unfold StdioState.inspectStdout
  split
  · exact h
  · exact inspectLines (s := { s with stdoutLineBuffer :=
      (Lines.cut '\n' (s.stdoutLineBuffer ++ Utf8.decodeWhole chunk)).2 }) h input _

theorem marked_spawn (input : StdioInput) : (spawn input).Marked := by
  unfold spawn
  split
  · exact Marked.pumpStdio (s := {}) rfl input
  · rfl

end StdioState

theorem marked_stageStdio (input : StdioInput) (chunks : List (List UInt8)) :
    (stageStdio input chunks).Marked := by
  suffices h : ∀ s : StdioState, s.Marked →
      (chunks.foldl (StdioState.inspectStdout input) s).Marked from
    h _ (StdioState.marked_spawn input)
  induction chunks with
  | nil => exact fun s hs => hs
  | cons chunk chunks ih => exact fun s hs => ih _ (hs.inspectStdout input chunk)

theorem sameConversation_iff (input : StdioInput) (chunks chunks' : List (List UInt8)) :
    SameConversation (stageStdio input chunks) (stageStdio input chunks') ↔
      (stageStdio input chunks).log = (stageStdio input chunks').log := by
  refine ⟨And.left, fun hlog => ⟨hlog, ?_⟩⟩
  rw [marked_stageStdio input chunks, marked_stageStdio input chunks', hlog]

theorem chunks_stdout (chunks : List (List UInt8)) :
    (chunks.map ProcessEvent.stdout).filterMap ProcessEvent.chunk? = chunks := by
  rw [List.filterMap_map]
  exact List.filterMap_some

/-- What is written and completed is as if each line came in a chunk of its own exactly when every
line is read as what it is until a line of its chunk has been waited for, and none is waited for
after that. -/
theorem staged_stdio_iff (input : ProcessInput) (chunks : List (List UInt8)) :
    SameConversation (runProcess input (chunks.map .stdout)).toStdioState
        (runProcess input ((lineByLine chunks.flatten).map .stdout)).toStdioState ↔
      Heard answers input.waits (received chunks) := by
  rw [toStdioState_runProcess, toStdioState_runProcess, chunks_stdout, chunks_stdout,
    sameConversation_iff, log_lineByLine, log_stageStdio, List.append_cancel_left_eq, hear_iff,
    (StdioState.pending_spawn input.toStdioInput).2.2]

/-! ### The steps of an MCP call -/

/-- What `McpToolAdapter` knows of its server and its tool. -/
structure McpTool where
  protocolVersion : String
  maxInputBytes : ℕ
  name : String

def waitForId (id : String) : StdoutCompletion := ⟨"id", .inl id⟩

def McpTool.steps (tool : McpTool) (callId : String) (input : Value) : List StdioStep :=
  let initializeId := callId ++ ":initialize"
  let invocationId := callId ++ ":call"
  let initializeMessage := .object [("jsonrpc", .string "2.0"), ("id", .string initializeId),
    ("method", .string "initialize"),
    ("params", .object [("protocolVersion", .string tool.protocolVersion),
      ("capabilities", .object []),
      ("clientInfo", .object [("name", .string "bee-agent"), ("version", .string "1.0.0")])])]
  let initializedMessage := .object [("jsonrpc", .string "2.0"),
    ("method", .string "notifications/initialized")]
  let callMessage := .object [("jsonrpc", .string "2.0"), ("id", .string invocationId),
    ("method", .string "tools/call"),
    ("params", .object [("name", .string tool.name), ("arguments", input)])]
  [⟨stringify initializeMessage ++ "\n", some (waitForId initializeId)⟩,
    ⟨stringify initializedMessage ++ "\n", none⟩,
    ⟨stringify callMessage ++ "\n", some (waitForId invocationId)⟩]

/-- The `commandStdio` that `describe` asks for. -/
def McpTool.commandStdio (tool : McpTool) (callId : String) (input : Value) :
    Except String (List StdioStep) :=
  let steps := tool.steps callId input
  if tool.maxInputBytes < steps.foldl (fun size step => size + step.input.utf8ByteSize) 0 then
    .error ("MCP request exceeds " ++ toString tool.maxInputBytes ++ " bytes")
  else .ok steps

def echoCall : StdioInput :=
  ⟨none, none, some ((McpTool.mk "2025-03-26" 4096 "echo").steps "c1" (.object []))⟩

/-- Both answers of a server in one chunk: the second one is never looked at. -/
theorem second_answer_lost :
    ¬∀ (input : ProcessInput) (chunks : List (List UInt8)),
      SameConversation (runProcess input (chunks.map .stdout)).toStdioState
        (runProcess input ((lineByLine chunks.flatten).map .stdout)).toStdioState := by
  intro h
  have hlog := (h ⟨echoCall, 1048576⟩ [Utf8.encode
    "\x7b\"id\":\"c1:initialize\"\x7d\n\x7b\"id\":\"c1:call\"\x7d\n".toList]).1
  revert hlog
  decide +kernel

end BeeAgent.Execution
