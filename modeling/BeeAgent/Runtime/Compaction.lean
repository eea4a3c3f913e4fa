import BeeAgent.Runtime.Rebuild
import Mathlib.Data.List.Induction

/-! The compactions of a thread: what the log records of them, which one a read of the thread loads,
and what one step of a call tells of them. -/
namespace BeeAgent.Runtime
open BeeAgent.Data BeeAgent.Thread BeeAgent.Execution Transition Transition.Machine

variable {o : AgentLoopOptions}

section Compactions
variable {log es : List ThreadEvent} {sha256 : String → String} {history : List LlmMessage}
  {c : CompactionView}

def compaction? : ThreadEvent → Option CompactionView
  | .contextCompacted _ summary coveredMessageCount coveredDigest _ =>
    some ⟨summary, coveredMessageCount, coveredDigest⟩
  | _ => none

def compactions (log : List ThreadEvent) : List CompactionView := log.filterMap compaction?

def newest? (log : List ThreadEvent) : Option CompactionView := (compactions log).getLast?

@[simp] theorem compactions_append (log es : List ThreadEvent) :
    compactions (log ++ es) = compactions log ++ compactions es :=
  List.filterMap_append

theorem newest?_append_quiet (h : compactions es = []) : newest? (log ++ es) = newest? log := by
  rw [newest?, compactions_append, h, List.append_nil, newest?]

theorem mem_of_newest? (h : newest? log = some c) : c ∈ compactions log :=
  List.mem_of_getLast? h

/-- The compaction covers messages of the history, and they have its digest. -/
structure CompactionView.Describes (sha256 : String → String) (c : CompactionView)
    (history : List LlmMessage) : Prop where
  pos : 0 < c.coveredMessageCount
  le : c.coveredMessageCount ≤ history.length
  digest_eq : digest sha256 (history.take c.coveredMessageCount) = c.coveredDigest

theorem CompactionView.Describes.append (h : c.Describes sha256 history)
    (messages : List LlmMessage) : c.Describes sha256 (history ++ messages) where
  pos := h.pos
  le := by
    rw [List.length_append]
    exact Nat.le_add_right_of_le h.le
  digest_eq := by
    rw [List.take_append_of_le_length h.le]
    exact h.digest_eq

/-- Where every compaction describes the history, the newest one is loaded. -/
theorem loadCompaction_eq_newest? (h : ∀ c ∈ compactions log, c.Describes sha256 history) :
    loadCompaction sha256 log history = newest? log := by
  induction log using List.reverseRecOn with
  | nil => rfl
  | append_singleton log e ih =>
    have hlog := ih fun c hc => h c (by simp [hc])
    rw [loadCompaction, List.foldl_append, ← loadCompaction, hlog, List.foldl_cons, List.foldl_nil]
    cases e with
    | contextCompacted turnId summary covered coveredDigest tokens =>
      have hc := h ⟨summary, covered, coveredDigest⟩ (by simp [compactions, compaction?])
      rw [newerView, if_pos ⟨hc.le, hc.digest_eq⟩, newest?, compactions_append]
      simp [compactions, compaction?]
    | _ => exact (newest?_append_quiet rfl).symm

/-- The history with a summary in place of the messages that it covers. -/
def folded (history : List LlmMessage) : Option CompactionView → List LlmMessage
  | none => history
  | some c => summaryMessage c :: history.drop c.coveredMessageCount

theorem compactView_eq_folded {compaction : Option CompactionView}
    (h : ∀ c, compaction = some c → c.Describes sha256 history) :
    compactView sha256 history compaction = folded history compaction := by
  cases compaction with
  | none => rfl
  | some c =>
    rw [compactView, if_neg (not_not.mpr (h c rfl).digest_eq), folded]
    split
    · next hle => rw [List.drop_eq_nil_of_le hle]
    · rfl

def StartsFirst (log : List ThreadEvent) : Prop :=
  log.Pairwise fun e e' => ∀ turn, e' = .turnStarted turn → e.turnId ≠ turn.id

theorem StartsFirst.append (h : StartsFirst log) (hes : ∀ turn, .turnStarted turn ∉ es) :
    StartsFirst (log ++ es) := by
  refine List.pairwise_append.mpr ⟨h, ?_, ?_⟩
  · refine List.pairwise_of_forall_mem_list fun _ _ e' he' turn heq => ?_
    exact absurd (heq ▸ he') (hes turn)
  · rintro _ - e' he' turn rfl
    exact absurd he' (hes turn)

/-- With nothing of another turn logged since the turn was started, the messages of the thread are
those carried into the turn and its own. -/
theorem StartsFirst.whole (h : StartsFirst log) {turnId : TurnId} {sequence : ℕ}
    (hsequence : startedSequence? log turnId = some sequence)
    (hown : ∀ e ∈ log.drop sequence, e.turnId ≠ turnId → eventMessage? e = none) :
    messagesFromEvents log = carriedMessages log turnId ++ ownMessages log turnId := by
  obtain ⟨index, hindex, rfl⟩ := Option.map_eq_some_iff.mp hsequence
  obtain ⟨hlt, hat, -⟩ := List.findIdx?_eq_some_iff_getElem.mp hindex
  obtain ⟨turn, hturn, hid⟩ : ∃ turn, log[index] = .turnStarted turn ∧ turn.id = turnId := by
    revert hat
    cases log[index] <;> simp [ThreadEvent.isTurnStarted]
  have hsplit : log = log.take index ++ log[index] :: log.drop (index + 1) := by
    rw [← List.drop_eq_getElem_cons hlt, List.take_append_drop]
  have hbefore : ∀ e ∈ log.take index, e.turnId ≠ turnId := by
    intro e he
    rw [StartsFirst, hsplit] at h
    rw [← hid]
    exact (List.pairwise_append.mp h).2.2 e he _ (List.mem_cons_self ..) turn hturn
  have hcarried : carriedMessages log turnId = messagesFromEvents (log.take index) := by
    rw [carriedMessages, hsequence]
    rfl
  have hrest : ownMessages (log.drop (index + 1)) turnId =
      messagesFromEvents (log.drop (index + 1)) := by
    rw [ownMessages, messagesFromEvents, messagesFromEvents, turnEvents, List.filterMap_filter]
    refine List.filterMap_congr fun e he => ?_
    by_cases hturnId : e.turnId = turnId
    · simp [hturnId]
    · simp [hturnId, hown e he hturnId]
  have hstart : messagesFromEvents [log[index]] = [] := by
    rw [hturn]
    rfl
  have hsingle : ownMessages [log[index]] turnId = [] :=
    ownMessages_eq_nil fun e he => .inr (List.filterMap_eq_nil_iff.mp hstart e he)
  have hparts : log = log.take index ++ [log[index]] ++ log.drop (index + 1) := by
    rw [List.append_assoc, List.singleton_append]
    exact hsplit
  have hall := congrArg messagesFromEvents hparts
  have howned := congrArg (ownMessages · turnId) hparts
  simp only [messagesFromEvents_append, hstart, List.append_nil] at hall
  simp only [ownMessages_append, hsingle, List.append_nil,
    ownMessages_eq_nil fun e he => .inl (hbefore e he), List.nil_append, hrest] at howned
  rw [hall, howned, hcarried]

end Compactions

/-! ### What the acts say -/

def Act.request? : Act → Option (List LlmMessage)
  | .request _ messages => some messages
  | _ => none

def lastRequest? (trace : List Act) : Option (List LlmMessage) :=
  (trace.filterMap Act.request?).getLast?

/-- The act requests nothing, and logs no message and no compaction. -/
structure Act.Silent (a : Act) : Prop where
  request : a.request? = none
  message : a.event?.bind eventMessage? = none
  compaction : a.event?.bind compaction? = none

theorem lastRequest?_append_silent {trace acts : List Act} (h : ∀ a ∈ acts, a.request? = none) :
    lastRequest? (trace ++ acts) = lastRequest? trace := by
  rw [lastRequest?, List.filterMap_append, List.filterMap_eq_nil_iff.mpr h, List.append_nil,
    lastRequest?]

theorem compactions_silent {acts : List Act} (h : ∀ a ∈ acts, a.event?.bind compaction? = none) :
    compactions (eventsOf acts) = [] :=
  List.filterMap_eq_nil_iff.mpr fun _ he => h _ (mem_eventsOf.mp he)

theorem messages_silent {acts : List Act} (h : ∀ a ∈ acts, a.event?.bind eventMessage? = none) :
    messagesFromEvents (eventsOf acts) = [] :=
  messagesFromEvents_eq_nil fun _ he => h _ (mem_eventsOf.mp he)

theorem recoveryFailed_silent {turnId : TurnId} {error : RebuildError} :
    ∀ a ∈ recoveryFailed turnId error, a.Silent := by
  intro a ha
  cases error with
  | notFound => cases ha
  | digestMismatch =>
    rw [List.mem_singleton.mp ha]
    exact ⟨rfl, rfl, rfl⟩

section Says
variable {log : List ThreadEvent} {nextId : ℕ} {task : Task} {input : TaskInput} {step : TaskStep}

/-- What a step tells of compactions: it asks for a summary, records one, or sends what it has at
hand; any other step requests nothing and records no compaction. -/
inductive Says (o : AgentLoopOptions) (task : Task) (step : TaskStep) : Prop where
  | nothing (hrequest : ∀ a ∈ step.acts, a.request? = none)
    (hcompaction : ∀ a ∈ step.acts, a.event?.bind compaction? = none)
  | summary {retrieved planned system covered} (hpc : task.pc = .generating)
    (hspan : compactionSpan o task.state (Runtime.assemble o task.state retrieved planned system) =
      some covered)
    (hacts : step.acts = [.request task.turnId (summaryRequest (task.history.take covered))])
    (hnext : step.next = .continue { task with
      state := { task.state with compactionAttempts := task.state.compactionAttempts + 1 }
      pc := .summarizing retrieved planned system covered })
  | compaction {retrieved planned system covered summary tokens}
    (hpc : task.pc = .summarizing retrieved planned system covered)
    (hacts : step.acts = [.append (.contextCompacted task.turnId summary covered
      (digest o.sha256 (task.history.take covered)) tokens)])
    (hnext : step.next = .continue (startAttempts o
      { task with state := { task.state with
          compaction := some ⟨summary, covered, digest o.sha256 (task.history.take covered)⟩ } }
      retrieved planned system))
  | attempt {retry messages item attempt} (hpc : task.pc = .attempting retry messages)
    (hacts : step.acts = [.append (.itemStarted item), .request task.turnId messages])
    (hnext : step.next = .continue (task.goto (.streaming attempt)))
    (hattempt : attempt.messages = messages)

theorem Move.says (h : Move o log nextId task input step) : Says o task step := by
  have hplain : (∀ a ∈ step.acts, a.request? = none ∧ a.event?.bind compaction? = none) →
      Says o task step := fun h => .nothing (fun a ha => (h a ha).1) fun a ha => (h a ha).2
  cases h with
  | summarize hpc _ hspan => exact .summary hpc hspan rfl rfl
  | compacted hpc => exact .compaction hpc rfl rfl
  | attempt hpc => exact .attempt hpc rfl rfl rfl
  | giveUp _ hacts | retry _ hacts =>
    refine hplain fun a ha => ?_
    obtain ⟨_, _, -, rfl⟩ := hacts a ha
    exact ⟨rfl, rfl⟩
  | stream _ hacts =>
    refine hplain fun a ha => ?_
    obtain ⟨_, rfl⟩ := hacts a ha
    exact ⟨rfl, rfl⟩
  | batch =>
    refine hplain fun a ha => ?_
    obtain ⟨intent, -, he⟩ := List.mem_filterMap.mp ha
    unfold dispatchOf? at he
    split at he <;> cases he
    exact ⟨rfl, rfl⟩
  | slot _ _ _ hmove =>
    refine hplain fun a ha => ?_
    cases hmove <;> simp only [List.mem_singleton, List.not_mem_nil] at ha <;> subst ha <;>
      exact ⟨rfl, rfl⟩
  | @terminate terminal =>
    refine hplain fun a ha => ?_
    rw [List.mem_singleton.mp ha]
    cases terminal <;> exact ⟨rfl, rfl⟩
  | throw | suspendTurn | read | generate | redispatch | finishIntents | commit | assemble
  | unsummarized => exact hplain fun a ha => by cases ha
  | recordInput | decide =>
    refine hplain fun a ha => ?_
    simp only [List.mem_cons, List.not_mem_nil, or_false] at ha
    obtain rfl | rfl := ha <;> exact ⟨rfl, rfl⟩
  | answerApproved | checkpointed | complete | intent | escalate | recordAssistant =>
    refine hplain fun a ha => ?_
    rw [List.mem_singleton.mp ha]
    exact ⟨rfl, rfl⟩

theorem Move.noStart (h : Move o log nextId task input step) :
    ∀ turn, .turnStarted turn ∉ eventsOf step.acts := by
  intro turn hmem
  rw [mem_eventsOf] at hmem
  cases h with
  | giveUp _ hacts | retry _ hacts =>
    obtain ⟨_, _, -, he⟩ := hacts _ hmem
    cases he
  | stream _ hacts =>
    obtain ⟨_, he⟩ := hacts _ hmem
    cases he
  | batch =>
    obtain ⟨intent, -, he⟩ := List.mem_filterMap.mp hmem
    unfold dispatchOf? at he
    split at he <;> cases he
  | slot _ _ _ hmove => cases hmove <;> simp [completedToolItem, checkpointEvent] at hmem
  | @terminate terminal => cases terminal <;> simp [Runtime.terminate] at hmem
  | _ => simp [completedToolItem, checkpointEvent, itemFailedAct, startedToolItem] at hmem

end Says

theorem reaches_startsFirst {G : Loop → LoopInput → Prop}
    (hG : ∀ s input, G s input → EntersIdle o s input) {s : Loop}
    (h : (loop o).Reaches G Loop.initial s) : StartsFirst s.log := by
  refine h.invariant₂ (P := fun s => StartsFirst s.log) (fun s hs => reaches_exclusive hG hs)
    (show StartsFirst [] from List.Pairwise.nil) ?_
  intro s input s' he hs _ hstep
  cases loopStep_move hstep with
  | runTurn =>
    rw [runStep, Loop.log_eq, eventsOf_append]
    refine List.pairwise_append.mpr ⟨hs, List.pairwise_singleton .., ?_⟩
    rintro e hmem e' he' turn rfl
    cases List.mem_singleton.mp he'
    exact Nat.ne_of_lt (he.acts _ (mem_eventsOf.mp hmem))
  | @rebuildFailed _ turnId error =>
    rw [Loop.rebuildFailed, Loop.log_eq, eventsOf_append]
    refine hs.append fun turn hmem => ?_
    cases error <;> simp [recoveryFailed, eventsOf, Act.event?] at hmem
  | advance ht hmove =>
    rw [log_apply]
    exact hs.append hmove.noStart
  | recover | resume | refuse | abort | fail => exact hs

end BeeAgent.Runtime
