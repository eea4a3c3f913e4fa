import BeeAgent.Memory.Embedded
import BeeAgent.Runtime.Exclusive

/-! The system message of a loop: the calls on all its threads share one memo, which is flagged as
resolved before the prompt source is awaited. -/
namespace BeeAgent.Runtime
open BeeAgent.Data BeeAgent.Thread Transition

/-- The `systemPrompt` option: a text, or an assembler or a function that is awaited. -/
inductive SystemPromptSource where
  | missing
  | text (content : String)
  | awaited

/-- The content of the system message that a prompt gives: a blank one gives none. -/
def promptMessage (content : String) : Option String :=
  if content.toList.all Memory.isWhitespace then none else some content

/-- Where the `#systemMessage` call of a generation stands. -/
inductive Asked where
  | waiting
  | ready (system : Option String)

/-- All calls of one `AgentLoop` with its memo. `answer` is what the source has come to, `requests`
are the messages of the generations that were sent. -/
structure Prompting where
  loops : ℕ → Loop
  resolved : Bool := false
  cached : Option String := none
  asked : ℕ × ℕ → Option Asked := fun _ => none
  answer : Option (Option String) := none
  requests : List (List LlmMessage) := []

inductive PromptInput where
  | loop (thread : ℕ) (input : LoopInput)
  /-- The hooks are done and `#systemMessage` is called. -/
  | ask (thread task : ℕ)
  /-- The source resolves. It rejects when a call that waits for it fails. -/
  | resolve (thread task : ℕ) (content : String)
  | assemble (thread task : ℕ) (retrieved planned : List LlmMessage)

def Act.messages? : Act → Option (List LlmMessage)
  | .request _ messages => some messages
  | _ => none

/-- The requests of a generation's attempts; that of a summarization is none. -/
def generationRequests (task : Task) (step : TaskStep) : List (List LlmMessage) :=
  match task.pc with
  | .attempting .. => step.acts.filterMap Act.messages?
  | _ => []

section Machine
variable (o : AgentLoopOptions) (source : SystemPromptSource)

def requestsOf (s : Loop) : LoopInput → List (List LlmMessage)
  | .advance t input =>
    ((s.tasks t).bind fun task =>
      (taskStep o s.log s.nextId task input).map (generationRequests task)).getD []
  | _ => []

namespace Prompting

def advance (s : Prompting) (thread : ℕ) (input : LoopInput) : Option Prompting :=
  (loopStep o (s.loops thread) input).map fun loop =>
    { s with
      loops := Function.update s.loops thread loop
      requests := s.requests ++ requestsOf o (s.loops thread) input }

def setAsked (s : Prompting) (thread task : ℕ) (asked : Option Asked) : Prompting :=
  { s with asked := Function.update s.asked (thread, task) asked }

def cache (s : Prompting) (content : String) : Prompting :=
  { s with cached := promptMessage content, answer := some (promptMessage content) }

/-- `#systemMessage` up to its await. -/
def systemMessage (s : Prompting) (thread task : ℕ) : Prompting :=
  if s.resolved then s.setAsked thread task (some (.ready s.cached))
  else
    let s := { s with resolved := true }
    match source with
    | .missing => { s with answer := some none }.setAsked thread task (some (.ready none))
    | .text content =>
      (s.cache content).setAsked thread task (some (.ready (promptMessage content)))
    | .awaited => s.setAsked thread task (some .waiting)

def generating (s : Prompting) (thread task : ℕ) : Bool :=
  match ((s.loops thread).tasks task).map Task.pc with
  | some .generating => true
  | _ => false

def step (s : Prompting) : PromptInput → Option Prompting
  | .loop _ (.advance _ (.assembled ..)) => none
  | .loop thread (.fail t) =>
    (s.advance o thread (.fail t)).map fun s => s.setAsked thread t none
  | .loop thread input => s.advance o thread input
  | .ask thread t =>
    match s.generating thread t, s.asked (thread, t) with
    | true, none => some (s.systemMessage source thread t)
    | _, _ => none
  | .resolve thread t content =>
    match s.asked (thread, t) with
    | some .waiting =>
      some ((s.cache content).setAsked thread t (some (.ready (promptMessage content))))
    | _ => none
  | .assemble thread t retrieved planned =>
    match s.asked (thread, t) with
    | some (.ready system) =>
      (s.advance o thread (.advance t (.assembled retrieved planned system))).map fun s =>
        s.setAsked thread t none
    | _ => none

end Prompting

def prompting : Machine Prompting PromptInput := ⟨Prompting.step o source⟩

/-- Messages that were assembled behind this system message. -/
structure Carries (system : Option String) (messages : List LlmMessage) : Prop where
  assembled : ∃ state retrieved planned, messages = (projectHistory o.sha256
    (assemble o state retrieved planned system) o.toolResultCompaction).messages
  first : ∀ content, system = some content → messages.head? = some (.system content)

/-- The requests of all generations carry one system message. None is sent before the source has
come to a text, and none without the message of that text. -/
structure StablePrefix (s : Prompting) : Prop where
  same : ∃ system, ∀ messages ∈ s.requests, Carries o system messages
  complete : ∀ messages ∈ s.requests, ∃ system, s.answer = some system ∧ Carries o system messages

end Machine

/-- When a generation asks for the system message and the memo is flagged, the source has come to a
text: it is neither pending, nor has it rejected. -/
def AsksSettled (s : Prompting) : PromptInput → Prop
  | .ask .. => s.resolved = true → s.answer.isSome
  | _ => True

variable {o : AgentLoopOptions} {source : SystemPromptSource} {s s' : Prompting}

theorem carries_messages (state : LoopState) (retrieved planned : List LlmMessage)
    (system : Option String) : Carries o system (projectHistory o.sha256
      (assemble o state retrieved planned system) o.toolResultCompaction).messages := by
  refine ⟨⟨state, retrieved, planned, rfl⟩, ?_⟩
  rintro content rfl
  simp [projectHistory, assemble, List.zipIdx_cons, elideMessage]

/-- What a live call was given as its system message, and what it goes on with. -/
def Pc.Prompted (o : AgentLoopOptions) (answer : Option (Option String)) : Pc → Prop
  | .summarizing _ _ system _ => answer = some system
  | .attempting _ messages => ∃ system, answer = some system ∧ Carries o system messages
  | .streaming attempt | .awaitingResult attempt =>
    ∃ system, answer = some system ∧ Carries o system attempt.messages
  | _ => True

theorem prompted_of_attempt? {answer : Option (Option String)} {pc : Pc} {retry : ℕ}
    {messages : List LlmMessage} (h : pc.attempt? = some (retry, messages))
    (hp : pc.Prompted o answer) : ∃ system, answer = some system ∧ Carries o system messages := by
  cases pc <;> simp only [Pc.attempt?, Option.some.injEq, Prod.mk.injEq, reduceCtorEq] at h <;>
    obtain ⟨-, rfl⟩ := h <;> exact hp

section Step
variable {log : List ThreadEvent} {nextId : ℕ} {task task' : Task} {input : TaskInput}
  {step : TaskStep} {answer : Option (Option String)}

theorem prompted_move (hmove : Move o log nextId task input step) (h : task.pc.Prompted o answer)
    (hinput : ∀ retrieved planned system, input = .assembled retrieved planned system →
      answer = some system)
    (hnext : step.next = .continue task') : task'.pc.Prompted o answer := by
  have hstart : ∀ {task : Task} {retrieved planned : List LlmMessage} {system : Option String},
      answer = some system → (startAttempts o task retrieved planned system).pc.Prompted o answer :=
    fun hanswer => ⟨_, hanswer, carries_messages ..⟩
  cases hmove with
  | throw | suspendTurn | terminate => cases hnext
  | read | recordInput | decide | answerApproved | giveUp | generate | redispatch | finishIntents
  | batch | slot | commit | complete | escalate | recordAssistant =>
    cases hnext
    trivial
  | checkpointed _ hpc =>
    cases hnext
    obtain rfl | rfl := hpc <;> trivial
  | assemble _ heq =>
    cases hnext
    exact hstart (hinput _ _ _ heq)
  | summarize _ heq =>
    cases hnext
    exact hinput _ _ _ heq
  | unsummarized hpc | compacted hpc =>
    cases hnext
    rw [hpc] at h
    exact hstart h
  | attempt hpc | intent hpc =>
    cases hnext
    rw [hpc] at h
    exact h
  | retry hpc =>
    cases hnext
    exact prompted_of_attempt? hpc h
  | stream hpc _ hnext' =>
    cases hnext
    rw [hpc] at h
    obtain ⟨_, rfl | rfl, hmessages, -⟩ := hnext' <;>
      simpa only [Pc.Prompted, Task.pc_goto, hmessages] using h

theorem prompted_requests (hmove : Move o log nextId task input step)
    (h : task.pc.Prompted o answer) {messages : List LlmMessage}
    (hm : messages ∈ generationRequests task step) :
    ∃ system, answer = some system ∧ Carries o system messages := by
  rw [generationRequests] at hm
  split at hm
  · next retry messages' hpc =>
    rw [hpc] at h
    have hstream : task.pc.stream? = none := by rw [hpc]; rfl
    have hfailed : ∀ acts : List Act, (∀ a ∈ acts, ∃ attempt error,
        task.pc.stream? = some attempt ∧ a = itemFailedAct task attempt error) → acts = [] := by
      intro acts hacts
      refine List.eq_nil_iff_forall_not_mem.mpr fun a ha => ?_
      obtain ⟨_, _, hattempt, -⟩ := hacts a ha
      rw [hstream] at hattempt
      cases hattempt
    obtain ⟨a, ha, hmessages⟩ := List.mem_filterMap.mp hm
    cases hmove with
    | giveUp _ hacts | retry _ hacts =>
      rw [hfailed _ hacts] at ha
      cases ha
    | attempt hpc' =>
      rw [hpc, Pc.attempting.injEq] at hpc'
      obtain ⟨-, rfl⟩ := hpc'
      simp only [List.mem_cons, List.not_mem_nil, or_false] at ha
      obtain rfl | rfl := ha
      · cases hmessages
      · cases hmessages
        exact h
    | throw => cases ha
    | _ => simp_all
  · cases hm

end Step

/-- The memo holds what the source has come to, and one call at most waits for it. -/
structure Memoized (s : Prompting) : Prop where
  fresh : s.resolved = false → s.cached = none ∧ s.answer = none ∧ ∀ p, s.asked p = none
  cached : ∀ system, s.answer = some system → s.cached = system
  ready : ∀ p system, s.asked p = some (.ready system) → s.answer = some system
  pending : ∀ p, s.asked p = some .waiting → s.answer = none
  single : ∀ p q, s.asked p = some .waiting → s.asked q = some .waiting → p = q

/-- Every live call and every request goes by what the source has come to. -/
structure Given (o : AgentLoopOptions) (s : Prompting) : Prop where
  calls : ∀ thread t task, (s.loops thread).tasks t = some task → task.pc.Prompted o s.answer
  requests : ∀ messages ∈ s.requests, ∃ system, s.answer = some system ∧ Carries o system messages

theorem prompted_of_none {answer : Option (Option String)} {pc : Pc} (h : pc.Prompted o none) :
    pc.Prompted o answer := by
  cases pc <;> first | exact (Option.noConfusion h) | (obtain ⟨_, h, -⟩ := h; cases h) | trivial

theorem Given.answered (h : Given o s) (hloops : s'.loops = s.loops)
    (hrequests : s'.requests = s.requests) (hanswer : s.answer = none ∨ s'.answer = s.answer) :
    Given o s' := by
  obtain hnone | hsame := hanswer
  · refine ⟨fun thread t task ht => ?_, fun messages hm => ?_⟩
    · rw [hloops] at ht
      exact prompted_of_none (hnone ▸ h.calls thread t task ht)
    · rw [hrequests] at hm
      obtain ⟨_, hanswer, -⟩ := h.requests messages hm
      rw [hnone] at hanswer
      cases hanswer
  · exact ⟨fun thread t task ht => hsame ▸ h.calls thread t task (hloops ▸ ht),
      fun messages hm => hsame ▸ h.requests messages (hrequests ▸ hm)⟩

theorem Given.advance (h : Given o s) {thread : ℕ} {input : LoopInput}
    (hs : s.advance o thread input = some s')
    (hinput : ∀ t retrieved planned system,
      input = .advance t (.assembled retrieved planned system) → s.answer = some system) :
    Given o s' := by
  obtain ⟨loop, hloop, rfl⟩ := Option.map_eq_some_iff.mp hs
  refine ⟨fun thread' t task ht => ?_, fun messages hm => ?_⟩
  · by_cases heq : thread' = thread
    · subst heq
      simp only [Function.update_self] at ht
      cases loopStep_origin hloop ht with
      | kept ht => exact h.calls _ _ _ ht
      | run heq =>
        subst heq
        trivial
      | rebuilt heq hpc =>
        subst heq
        obtain rfl | ⟨_, _, rfl⟩ := hpc <;> trivial
      | @aborted before hbefore heq =>
        subst heq
        exact h.calls thread' t before hbefore
      | moved heq ht hstep hnext =>
        exact prompted_move (taskStep_move hstep) (h.calls _ _ _ ht)
          (fun _ _ _ hassembled => hinput _ _ _ _ (hassembled ▸ heq)) hnext
    · simp only [Function.update_of_ne heq] at ht
      exact h.calls _ _ _ ht
  · obtain hm | hm := List.mem_append.mp hm
    · exact h.requests messages hm
    · cases input with
      | advance t input =>
        rw [requestsOf] at hm
        cases ht : (s.loops thread).tasks t with
        | none => simp [ht] at hm
        | some task =>
          cases hstep : taskStep o (s.loops thread).log (s.loops thread).nextId task input with
          | none => simp [ht, hstep] at hm
          | some step =>
            simp only [ht, hstep, Option.bind_some, Option.map_some, Option.getD_some] at hm
            exact prompted_requests (taskStep_move hstep) (h.calls _ _ _ ht) hm
      | _ => cases hm

theorem advance_memo {thread : ℕ} {input : LoopInput} (hs : s.advance o thread input = some s') :
    s'.resolved = s.resolved ∧ s'.cached = s.cached ∧ s'.asked = s.asked ∧
      s'.answer = s.answer := by
  obtain ⟨_, -, rfl⟩ := Option.map_eq_some_iff.mp hs
  exact ⟨rfl, rfl, rfl, rfl⟩

theorem Memoized.advance (h : Memoized s) {thread : ℕ} {input : LoopInput}
    (hs : s.advance o thread input = some s') : Memoized s' := by
  obtain ⟨loops, resolved, cached, asked, answer, requests⟩ := s'
  obtain ⟨rfl, rfl, rfl, rfl⟩ := advance_memo hs
  exact ⟨h.fresh, h.cached, h.ready, h.pending, h.single⟩

theorem Memoized.clear (h : Memoized s) (thread t : ℕ) : Memoized (s.setAsked thread t none) := by
  have hsub : ∀ p asked, (s.setAsked thread t none).asked p = some asked →
      s.asked p = some asked := by
    intro p asked hp
    by_cases heq : p = (thread, t)
    · simp [Prompting.setAsked, heq] at hp
    · simpa [Prompting.setAsked, Function.update_of_ne heq] using hp
  refine ⟨fun hfresh => ⟨(h.fresh hfresh).1, (h.fresh hfresh).2.1, fun p => ?_⟩, h.cached,
    fun p system hp => h.ready p system (hsub p _ hp), fun p hp => h.pending p (hsub p _ hp),
    fun p q hp hq => h.single p q (hsub p _ hp) (hsub q _ hq)⟩
  cases hp : (s.setAsked thread t none).asked p with
  | none => rfl
  | some asked => exact absurd (hsub p _ hp) (by simp [(h.fresh hfresh).2.2 p])

theorem Memoized.give (h : Memoized s) (thread t : ℕ) {system : Option String}
    (hresolved : s.resolved = true) (hanswer : s.answer = some system) :
    Memoized (s.setAsked thread t (some (.ready system))) := by
  have hwaiting : ∀ p, (s.setAsked thread t (some (.ready system))).asked p ≠ some .waiting := by
    intro p hp
    by_cases heq : p = (thread, t)
    · simp [Prompting.setAsked, heq] at hp
    · have := h.pending p (by simpa [Prompting.setAsked, Function.update_of_ne heq] using hp)
      rw [hanswer] at this
      cases this
  refine ⟨fun hfresh => absurd (hresolved.symm.trans hfresh) (by simp), h.cached,
    fun p system' hp => ?_, fun p hp => absurd hp (hwaiting p),
    fun p _ hp => absurd hp (hwaiting p)⟩
  by_cases heq : p = (thread, t)
  · simp only [Prompting.setAsked, heq, Function.update_self, Option.some.injEq,
      Asked.ready.injEq] at hp
    exact hp ▸ hanswer
  · exact h.ready p system' (by simpa [Prompting.setAsked, Function.update_of_ne heq] using hp)

theorem memoized_of_settled {system : Option String} (hresolved : s.resolved = true)
    (hcached : s.cached = system) (hanswer : s.answer = some system)
    (hasked : ∀ p, s.asked p = none) : Memoized s where
  fresh hfresh := absurd (hresolved.symm.trans hfresh) (by simp)
  cached system' h := hcached.trans (Option.some.inj (hanswer.symm.trans h))
  ready p _ hp := absurd hp (by simp [hasked p])
  pending p hp := absurd hp (by simp [hasked p])
  single p _ hp := absurd hp (by simp [hasked p])

theorem memoized_of_waiting (thread t : ℕ) (hresolved : s.resolved = true)
    (hanswer : s.answer = none) (hasked : ∀ p, s.asked p = none) :
    Memoized (s.setAsked thread t (some .waiting)) := by
  have hwaiting : ∀ p asked, (s.setAsked thread t (some .waiting)).asked p = some asked →
      p = (thread, t) ∧ asked = .waiting := by
    intro p asked hp
    by_cases heq : p = (thread, t)
    · simp only [Prompting.setAsked, heq, Function.update_self, Option.some.injEq] at hp
      exact ⟨heq, hp.symm⟩
    · simp [Prompting.setAsked, Function.update_of_ne heq, hasked p] at hp
  refine ⟨fun hfresh => absurd (hresolved.symm.trans hfresh) (by simp),
    fun system h => absurd (hanswer.symm.trans h) (by simp),
    fun p _ hp => absurd (hwaiting p _ hp).2 (by simp), fun _ _ => hanswer,
    fun p q hp hq => (hwaiting p _ hp).1.trans (hwaiting q _ hq).1.symm⟩

theorem Memoized.systemMessage (source : SystemPromptSource) (h : Memoized s) (thread t : ℕ)
    (hguard : s.resolved = true → s.answer.isSome) :
    Memoized (s.systemMessage source thread t) ∧
      (s.answer = none ∨ (s.systemMessage source thread t).answer = s.answer) := by
  rw [Prompting.systemMessage]
  cases hresolved : s.resolved with
  | true =>
    obtain ⟨system, hanswer⟩ := Option.isSome_iff_exists.mp (hguard hresolved)
    rw [if_pos rfl, h.cached system hanswer]
    exact ⟨h.give thread t hresolved hanswer, .inr rfl⟩
  | false =>
    obtain ⟨hcached, hanswer, hasked⟩ := h.fresh hresolved
    refine ⟨?_, .inl hanswer⟩
    rw [if_neg (by simp)]
    cases source with
    | missing =>
      have hsettled : Memoized { s with resolved := true, answer := some none } :=
        memoized_of_settled rfl hcached rfl hasked
      exact hsettled.give _ _ rfl rfl
    | text content =>
      have hsettled : Memoized ({ s with resolved := true }.cache content) :=
        memoized_of_settled rfl rfl rfl hasked
      exact hsettled.give _ _ rfl rfl
    | awaited => exact memoized_of_waiting thread t rfl hanswer hasked

theorem Memoized.resolve (h : Memoized s) {thread t : ℕ} (content : String)
    (hwaiting : s.asked (thread, t) = some .waiting) :
    Memoized ((s.cache content).setAsked thread t (some (.ready (promptMessage content)))) := by
  have hresolved : s.resolved = true := by
    by_contra hfresh
    rw [(h.fresh (by simpa using hfresh)).2.2] at hwaiting
    cases hwaiting
  have hasked : ∀ p, (s.setAsked thread t none).asked p = none := by
    intro p
    by_cases heq : p = (thread, t)
    · simp [Prompting.setAsked, heq]
    · simp only [Prompting.setAsked, Function.update_of_ne heq]
      rcases hp : s.asked p with _ | _ | system
      · rfl
      · exact absurd (h.single p _ hp hwaiting) heq
      · have := (h.pending _ hwaiting).symm.trans (h.ready p system hp)
        cases this
  have hcleared : Memoized ((s.setAsked thread t none).cache content) :=
    memoized_of_settled hresolved rfl rfl hasked
  have hgiven := hcleared.give thread t hresolved rfl
  rwa [show ((s.setAsked thread t none).cache content).setAsked thread t
      (some (.ready (promptMessage content))) =
    (s.cache content).setAsked thread t (some (.ready (promptMessage content))) by
    simp [Prompting.setAsked, Prompting.cache, Function.update_idem]] at hgiven

theorem prompting_step {input : PromptInput} (hm : Memoized s) (hg : Given o s)
    (hguard : AsksSettled s input) (hs : s.step o source input = some s') :
    Memoized s' ∧ Given o s' := by
  cases input with
  | loop thread input =>
    have hadvance : ∀ s' : Prompting, (∀ t retrieved planned system,
        input ≠ .advance t (.assembled retrieved planned system)) →
        s.advance o thread input = some s' → Memoized s' ∧ Given o s' := fun s' hne hs =>
      ⟨hm.advance hs, hg.advance hs fun _ _ _ _ heq => absurd heq (hne _ _ _ _)⟩
    rw [Prompting.step.eq_def] at hs
    split at hs
    · cases hs
    · next heq =>
      cases heq
      obtain ⟨s₁, hs₁, rfl⟩ := Option.map_eq_some_iff.mp hs
      obtain ⟨hm', hg'⟩ := hadvance s₁ (by simp) hs₁
      exact ⟨hm'.clear _ _, hg'.answered rfl rfl (.inr rfl)⟩
    · next hne _ heq =>
      cases heq
      exact hadvance s' (fun _ _ _ _ heq => hne _ _ _ _ (by rw [heq])) hs
    all_goals next heq => cases heq
  | ask thread t =>
    simp only [Prompting.step] at hs
    split at hs
    · cases hs
      obtain ⟨hm', hanswer⟩ := hm.systemMessage source thread t hguard
      refine ⟨hm', hg.answered ?_ ?_ hanswer⟩
      · rw [Prompting.systemMessage]
        split
        · rfl
        · cases source <;> rfl
      · rw [Prompting.systemMessage]
        split
        · rfl
        · cases source <;> rfl
    · cases hs
  | resolve thread t content =>
    simp only [Prompting.step] at hs
    split at hs
    · next hwaiting =>
      cases hs
      exact ⟨hm.resolve content hwaiting, hg.answered rfl rfl (.inl (hm.pending _ hwaiting))⟩
    · cases hs
  | assemble thread t retrieved planned =>
    simp only [Prompting.step] at hs
    split at hs
    · next system hready =>
      obtain ⟨s₁, hs₁, rfl⟩ := Option.map_eq_some_iff.mp hs
      refine ⟨(hm.advance hs₁).clear _ _, (hg.advance hs₁ fun _ _ _ _ heq => ?_).answered rfl rfl
        (.inr rfl)⟩
      cases heq
      exact hm.ready _ _ hready
    · cases hs

/-- While no generation asks for a system message that is pending or was given up, all of them carry
the same one. -/
theorem reaches_stablePrefix {loops : ℕ → Loop}
    (hloops : ∀ thread t, (loops thread).tasks t = none)
    (h : (prompting o source).Reaches AsksSettled { loops := loops } s) : StablePrefix o s := by
  have hinv : Memoized s ∧ Given o s := by
    refine h.invariant (P := fun s => Memoized s ∧ Given o s) ⟨⟨?_, ?_, ?_, ?_, ?_⟩, ?_, ?_⟩
      fun s input s' hs hguard hstep => prompting_step hs.1 hs.2 hguard hstep
    · exact fun _ => ⟨rfl, rfl, fun _ => rfl⟩
    all_goals simp [hloops]
  refine ⟨⟨s.answer.getD none, fun messages hm => ?_⟩, hinv.2.requests⟩
  obtain ⟨system, hanswer, hcarries⟩ := hinv.2.requests messages hm
  rwa [hanswer]

/-- The content of the system message that leads the messages. -/
def leading : List LlmMessage → Option String
  | .system content :: _ => some content
  | _ => none

def generatingInputs (thread : ℕ) : List PromptInput :=
  (startInputs 0 ++ advances 0 [.proceed]).map (.loop thread)

def sendInputs (thread : ℕ) : List PromptInput :=
  [.assemble thread 0 [] [], .loop thread (.advance 0 .proceed)]

/-- The turns of two threads, the second of which asks when the first has its prompt. -/
def settledRun : List PromptInput :=
  generatingInputs 0 ++ [.ask 0 0, .resolve 0 0 "You are Bee"] ++ generatingInputs 1 ++
    [.ask 1 0] ++ sendInputs 1 ++ sendInputs 0

/-- The second asks while the first awaits the prompt. -/
def overlappingRun : List PromptInput :=
  generatingInputs 0 ++ [.ask 0 0] ++ generatingInputs 1 ++ [.ask 1 0] ++ sendInputs 1 ++
    [.resolve 0 0 "You are Bee"] ++ sendInputs 0

def asksSettled (s : Prompting) : PromptInput → Bool
  | .ask .. => !s.resolved || s.answer.isSome
  | _ => true

theorem asksSettled_sound (s : Prompting) (input : PromptInput) (h : asksSettled s input) :
    AsksSettled s input := by
  cases input with
  | ask thread task =>
    intro hresolved
    simpa [asksSettled, hresolved] using h
  | _ => trivial

theorem reaches_stablePrefix_settled : ∃ s : Prompting,
    (prompting sampleOptions .awaited).Reaches AsksSettled { loops := fun _ => .initial } s ∧
      s.requests.map leading = [some "You are Bee", some "You are Bee"] ∧
      StablePrefix sampleOptions s := by
  have hguard : (prompting sampleOptions .awaited).Guarded AsksSettled
      { loops := fun _ => .initial } settledRun :=
    Machine.guarded_of_allSteps asksSettled_sound settledRun (by decide +kernel)
  obtain ⟨s, hreaches, hs⟩ := hguard.exists_reaches (f := fun s => s.requests.map leading)
    (a := [some "You are Bee", some "You are Bee"]) (by decide +kernel)
  exact ⟨s, hreaches, hs, reaches_stablePrefix (fun _ _ => rfl) hreaches⟩

/-- A generation that asks while another one awaits the prompt is sent without it. -/
theorem overlapping_unprompted : ¬ ∀ s : Prompting,
    (prompting sampleOptions .awaited).Reaches Machine.anyStep { loops := fun _ => .initial } s →
      StablePrefix sampleOptions s := by
  intro h
  obtain ⟨s, hreaches, hs⟩ := Machine.exists_reaches_of_exec_map
    (M := prompting sampleOptions .awaited) (s := { loops := fun _ => .initial })
    (f := fun s => (s.requests.map leading, s.answer)) overlappingRun
    (a := ([none, some "You are Bee"], some (some "You are Bee"))) (by decide +kernel)
  rw [Prod.mk.injEq] at hs
  obtain ⟨messages, hm, hleading⟩ := List.mem_map.mp (hs.1 ▸ List.mem_cons_self ..)
  obtain ⟨system, hanswer, hcarries⟩ := (h s hreaches).complete messages hm
  rw [hs.2, Option.some.injEq] at hanswer
  have hfirst := hcarries.first _ hanswer.symm
  obtain _ | ⟨message, messages⟩ := messages
  · cases hfirst
  · cases hfirst
    cases hleading

end BeeAgent.Runtime
