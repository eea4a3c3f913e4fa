import BeeAgent.Runtime.Digest
import BeeAgent.Runtime.Log

/-! Tool-call pairing of the model's view: in the runs that start from paired messages, cut
histories between exchanges and find leftover calls by fresh ids, every message list sent to the
provider answers each call once, behind it and before the next assistant or user message. -/
namespace BeeAgent.Runtime
open BeeAgent.Data BeeAgent.Thread BeeAgent.Execution Transition Transition.Machine Pairing

variable {o : AgentLoopOptions}

/-- The condition on one step: a turn starts from paired messages, no call that is still open has
the id of a call answered before, the hooks' messages are paired, and a summary covers no call
without its answer. -/
def StepPaired (o : AgentLoopOptions) (log : List ThreadEvent) (task : Task) (input : TaskInput) :
    Prop :=
  match task.pc, input with
  | .reading, _ =>
    Paired (kinds (messagesFromEvents (if o.carryThreadHistory = some false then [] else log)))
  | .driving, _ => ∀ id ∈ owed task.history, id ∉ answeredIds task.history
  | .generating, .assembled retrieved planned _ => Paired (kinds (retrieved ++ planned))
  | .summarizing _ _ _ covered, .summarized (some _) => owed (task.history.take covered) = []
  | _, _ => True

/-- The guard: every step meets its condition, a turn without a checkpoint is entered on paired
messages, and a resumption answers a call that the turn's history leaves open. -/
structure PairsCalls (o : AgentLoopOptions) (s : Loop) (input : LoopInput) : Prop where
  step : ∀ t i task, input = .advance t i → s.tasks t = some task → StepPaired o s.log task i
  entry : ∀ turnId, Admits o s input turnId → lastCheckpoint? s.log turnId = none →
    Paired (kinds (carriedMessages s.log turnId))
  resume : ∀ turnId approvalId decision pending, input = .resumeTurn turnId approvalId decision →
    findPendingApproval o.uuid s.log turnId = some pending → pending.approvalId = approvalId →
    pending.toolItem.2.callId ∈ owed (rebuiltHistory s.log turnId)

/-- The digest is that of messages that leave no call open. -/
def CleanCut (o : AgentLoopOptions) (coveredDigest : String) : Prop :=
  ∃ covered, coveredDigest = digest o.sha256 covered ∧ owed covered = []

/-- What a checkpoint digests is in order, a compaction covers no call without its answer, and a
request is paired. -/
def ActPaired (o : AgentLoopOptions) : Act → Prop
  | .append (.agentCheckpoint _ _ stateDigest) =>
    ∃ history, stateDigest = digest o.sha256 history ∧ Along Kind.InOrder [] (kinds history)
  | .append (.contextCompacted _ _ _ coveredDigest _) => CleanCut o coveredDigest
  | .request _ messages => Paired (kinds messages)
  | _ => True

/-- The messages that a call has at hand for its next request are paired. -/
def Prepared : Pc → Prop
  | .summarizing retrieved planned _ _ => Paired (kinds (retrieved ++ planned))
  | pc => ∀ retry messages, pc.attempt? = some (retry, messages) → Paired (kinds messages)

structure PairsSoFar (o : AgentLoopOptions) (task : Task) : Prop where
  ordered : Along Kind.InOrder [] (kinds task.history)
  due : Due (owed task.history) task.pc
  compaction : ∀ c, task.state.compaction = some c → CleanCut o c.coveredDigest
  prepared : Prepared task.pc

def pairing (o : AgentLoopOptions) : TaskProperty where
  holds _ _ task := PairsSoFar o task
  frame h _ _ := h
  abort h := ⟨h.ordered, h.due, h.compaction, h.prepared⟩

section View

theorem paired_cons_user {content : String} {messages : List LlmMessage}
    (h : Paired (kinds messages)) : Paired (kinds (.user content :: messages)) :=
  Paired.append (show Paired (kinds [.user content]) from ⟨⟨rfl, trivial⟩, rfl⟩) h

theorem loadCompaction_mem {sha256 : String → String} {events : List ThreadEvent}
    {history : List LlmMessage} {c : CompactionView}
    (h : loadCompaction sha256 events history = some c) :
    ∃ turnId summary covered tokens,
      .contextCompacted turnId summary covered c.coveredDigest tokens ∈ events := by
  have hfold : ∀ (es : List ThreadEvent) (view : Option CompactionView),
      es.foldl (newerView sha256 history) view = some c →
      view = some c ∨ ∃ turnId summary covered tokens,
        .contextCompacted turnId summary covered c.coveredDigest tokens ∈ es := by
    intro es
    induction es with
    | nil => exact fun view h => .inl h
    | cons e es ih =>
      intro view h
      obtain hview | ⟨turnId, summary, covered, tokens, hmem⟩ := ih _ h
      · unfold newerView at hview
        split at hview
        · split at hview
          · cases hview
            exact .inr ⟨_, _, _, _, List.mem_cons_self ..⟩
          · exact .inl hview
        · exact .inl hview
      · exact .inr ⟨turnId, summary, covered, tokens, List.mem_cons_of_mem _ hmem⟩
  obtain h | h := hfold events none h
  · cases h
  · exact h

theorem loaded_cleanCut {log events : List ThreadEvent} {history : List LlmMessage}
    {c : CompactionView} (hlog : ∀ e ∈ log, ActPaired o (.append e))
    (hsub : ∀ e ∈ events, e ∈ log) (h : loadCompaction o.sha256 events history = some c) :
    CleanCut o c.coveredDigest := by
  obtain ⟨turnId, summary, covered, tokens, hmem⟩ := loadCompaction_mem h
  exact hlog _ (hsub _ hmem)

/-- Folding a covered prefix into its summary keeps the history paired. -/
theorem paired_compactView (hsha : Function.Injective o.sha256) {history : List LlmMessage}
    {compaction : Option CompactionView} (hpaired : Paired (kinds history))
    (hclean : ∀ c, compaction = some c → CleanCut o c.coveredDigest) :
    Paired (kinds (compactView o.sha256 history compaction)) := by
  cases compaction with
  | none => exact hpaired
  | some c =>
    rw [compactView]
    split
    · exact hpaired
    next hdigest =>
    split
    · exact paired_cons_user (show Paired (kinds []) by decide)
    · refine paired_cons_user ?_
      obtain ⟨covered, hcovered, hnone⟩ := hclean c rfl
      have hkinds := kinds_of_digest hsha ((not_not.mp hdigest).trans hcovered)
      rw [kinds, List.map_drop]
      refine hpaired.drop ?_
      rw [kinds, ← List.map_take]
      exact (congrArg (outstanding []) hkinds).trans hnone

theorem kind_elideMessage (sha256 : String → String) (elide : List ℕ) (m : LlmMessage × ℕ) :
    (elideMessage sha256 elide m).kind = m.1.kind := by
  unfold elideMessage
  split
  · next heq =>
    split <;> rw [heq]
    rfl
  · rfl

/-- The projection under the tool-result budget changes contents only. -/
theorem kinds_projectHistory (sha256 : String → String) (history : List LlmMessage)
    (policy : ToolResultCompactionPolicy) :
    kinds (projectHistory sha256 history policy).messages = kinds history := by
  have hfst : history.zipIdx.map (fun m => m.1.kind) = (history.zipIdx.map Prod.fst).map LlmMessage.kind := by
    rw [List.map_map]
    rfl
  rw [projectHistory, kinds, List.map_map, kinds]
  conv_rhs => rw [← List.zipIdx_map_fst 0 history, ← hfst]
  exact List.map_congr_left fun m _ => kind_elideMessage ..

theorem paired_assemble (hsha : Function.Injective o.sha256) {state : LoopState}
    {retrieved planned : List LlmMessage} {system : Option String}
    (hpaired : Paired (kinds state.history))
    (hclean : ∀ c, state.compaction = some c → CleanCut o c.coveredDigest)
    (hhooks : Paired (kinds (retrieved ++ planned))) :
    Paired (kinds (projectHistory o.sha256 (assemble o state retrieved planned system)
      o.toolResultCompaction).messages) := by
  rw [kinds_projectHistory, assemble, List.append_assoc, kinds_append, kinds_append]
  refine Paired.append (Paired.append ?_ (paired_compactView hsha hpaired hclean)) hhooks
  cases system with
  | none => exact ⟨trivial, rfl⟩
  | some content => exact ⟨⟨trivial, trivial⟩, rfl⟩

end View

section Step
variable {log : List ThreadEvent} {nextId : ℕ} {task task' : Task} {input : TaskInput}
  {step : TaskStep}

theorem PairsSoFar.settled (h : PairsSoFar o task) (hnone : owed task.history = []) :
    Paired (kinds task.history) :=
  ⟨h.ordered, hnone⟩

theorem PairsSoFar.paired_of_due (h : PairsSoFar o task) {pc : Pc} (hpc : task.pc = pc)
    (hdue : Due (owed task.history) pc → owed task.history = []) : Paired (kinds task.history) :=
  h.settled (hdue (hpc ▸ h.due))

theorem prepared_of_attempt {retry : ℕ} {messages : List LlmMessage} (h : Prepared task.pc)
    (hpc : task.pc.attempt? = some (retry, messages)) : Paired (kinds messages) := by
  unfold Prepared at h
  split at h
  · next heq =>
    rw [heq] at hpc
    cases hpc
  · exact h retry messages hpc

theorem Move.pairsSoFar (hsha : Function.Injective o.sha256)
    (hmove : Move o log nextId task input step) (hnext : step.next = .continue task')
    (h : PairsSoFar o task) (hlog : ∀ e ∈ log, ActPaired o (.append e))
    (hguard : StepPaired o log task input) : PairsSoFar o task' := by
  by_cases hreading : task.pc = .reading
  · cases hmove with
    | read hpc hevents hcompaction =>
      cases hnext
      simp only [StepPaired, hpc] at hguard
      rw [← hevents] at hguard
      refine ⟨hguard.1, hguard.2, fun c hc => ?_, fun _ _ hattempt => by cases hattempt⟩
      refine loaded_cleanCut hlog (fun e he => ?_) (hcompaction.symm.trans hc)
      rw [hevents] at he
      split at he
      · cases he
      · exact he
    | giveUp hpc | retry hpc => simp [hreading, Pc.plain, Pc.attempt?] at hpc
    | throw | suspendTurn | terminate => cases hnext
    | recordInput hpc | decide hpc | answerApproved hpc | generate hpc | redispatch hpc
    | finishIntents hpc | batch hpc | slot hpc | commit hpc | checkpointed hpc | complete hpc
    | assemble hpc | summarize hpc | unsummarized hpc | compacted hpc | attempt hpc | stream hpc
    | intent hpc | escalate hpc | recordAssistant hpc =>
      rw [hreading] at hpc
      cases hpc
  · obtain ⟨since, hsince, halong, hdue⟩ := hmove.due (n := 0) hnext hreading (Nat.zero_le _) h.due
      fun hpc => by
        simp only [StepPaired, hpc] at hguard
        exact unansweredCalls_eq_owed (fun _ => rfl) hguard
    have hordered : Along Kind.InOrder [] (kinds task'.history) := by
      rw [hsince, kinds_append, along_append]
      exact ⟨h.ordered, halong⟩
    have hkeep : task'.state.compaction = task.state.compaction → Prepared task'.pc →
        PairsSoFar o task' := fun hcompaction hprepared =>
      ⟨hordered, hdue, fun c hc => h.compaction c (hcompaction ▸ hc), hprepared⟩
    cases hmove with
    | throw | suspendTurn | terminate => cases hnext
    | read hpc => exact absurd hpc hreading
    | assemble hpc hinput =>
      cases hnext
      subst hinput
      simp only [StepPaired, hpc] at hguard
      refine hkeep rfl fun retry messages hattempt => ?_
      cases hattempt
      exact paired_assemble hsha (h.paired_of_due hpc id) h.compaction hguard
    | summarize hpc hinput =>
      cases hnext
      subst hinput
      simp only [StepPaired, hpc] at hguard
      exact hkeep rfl hguard
    | unsummarized hpc =>
      cases hnext
      have hhooks := h.prepared
      rw [hpc] at hhooks
      refine hkeep rfl fun retry messages hattempt => ?_
      cases hattempt
      exact paired_assemble hsha (h.paired_of_due hpc id) h.compaction hhooks
    | @compacted retrieved planned system covered summary hpc hinput =>
      cases hnext
      subst hinput
      simp only [StepPaired, hpc] at hguard
      have hhooks := h.prepared
      rw [hpc] at hhooks
      have hclean : ∀ c, some (⟨summary, covered, digest o.sha256 (task.history.take covered)⟩ :
          CompactionView) = some c → CleanCut o c.coveredDigest := by
        rintro _ ⟨⟩
        exact ⟨_, rfl, hguard⟩
      refine ⟨hordered, hdue, hclean, fun retry messages hattempt => ?_⟩
      cases hattempt
      exact paired_assemble hsha (h.paired_of_due hpc id) hclean hhooks
    | attempt hpc =>
      cases hnext
      refine hkeep rfl fun retry messages hattempt => ?_
      cases hattempt
      exact prepared_of_attempt h.prepared (by rw [hpc]; rfl)
    | retry hpc =>
      cases hnext
      refine hkeep rfl fun retry messages hattempt => ?_
      cases hattempt
      exact prepared_of_attempt h.prepared hpc
    | stream hpc _ hnext' =>
      cases hnext
      have hold := h.prepared
      rw [hpc] at hold
      obtain ⟨attempt', rfl | rfl, hmessages, -⟩ := hnext' <;>
      · refine hkeep rfl fun retry messages hattempt => ?_
        cases hattempt
        rw [hmessages]
        exact hold _ _ rfl
    | intent hpc =>
      cases hnext
      have hold := h.prepared
      rw [hpc] at hold
      refine hkeep rfl fun retry messages hattempt => ?_
      cases hattempt
      exact hold _ _ rfl
    | checkpointed hpc hpc' =>
      cases hnext
      obtain rfl | rfl := hpc' <;> exact hkeep rfl fun _ _ hattempt => by cases hattempt
    | _ =>
      cases hnext
      exact hkeep rfl fun _ _ hattempt => by cases hattempt

theorem Move.actsPaired (hmove : Move o log nextId task input step) (h : PairsSoFar o task)
    (hguard : StepPaired o log task input) : ∀ a ∈ step.acts, ActPaired o a := by
  intro a ha
  cases hmove with
  | giveUp _ hacts | retry _ hacts =>
    obtain ⟨_, _, -, rfl⟩ := hacts _ ha
    trivial
  | stream _ hacts =>
    obtain ⟨_, rfl⟩ := hacts _ ha
    trivial
  | batch =>
    obtain ⟨intent, -, he⟩ := List.mem_filterMap.mp ha
    unfold dispatchOf? at he
    split at he <;> cases he
    trivial
  | slot _ _ _ hmove =>
    cases hmove <;> simp only [List.mem_singleton, List.not_mem_nil] at ha <;> subst ha
    · trivial
    · trivial
    · exact ⟨_, rfl, h.ordered⟩
  | @terminate terminal =>
    rw [List.mem_singleton.mp ha]
    cases terminal <;> trivial
  | attempt hpc =>
    simp only [List.mem_cons, List.not_mem_nil, or_false] at ha
    obtain rfl | rfl := ha
    · trivial
    · exact prepared_of_attempt h.prepared (by rw [hpc]; rfl)
  | summarize =>
    rw [List.mem_singleton.mp ha]
    exact ⟨⟨trivial, rfl, trivial⟩, rfl⟩
  | compacted hpc hinput =>
    subst hinput
    simp only [StepPaired, hpc] at hguard
    rw [List.mem_singleton.mp ha]
    exact ⟨_, rfl, hguard⟩
  | checkpointed | complete =>
    rw [List.mem_singleton.mp ha]
    exact ⟨_, rfl, h.ordered⟩
  | throw | suspendTurn | read | generate | redispatch | finishIntents | commit | assemble
  | unsummarized => cases ha
  | recordInput | decide =>
    simp only [List.mem_cons, List.not_mem_nil, or_false] at ha
    obtain rfl | rfl := ha <;> trivial
  | answerApproved | intent | escalate | recordAssistant =>
    rw [List.mem_singleton.mp ha]
    trivial

end Step

theorem rebuild_digest {log : List ThreadEvent} {turnId : TurnId} {rebuilt : Rebuilt}
    {last : Checkpoint} (h : rebuild o log turnId = .ok rebuilt)
    (hlast : lastCheckpoint? log turnId = some last) :
    digest o.sha256 (rebuiltHistory log turnId) = last.stateDigest := by
  unfold rebuild at h
  split at h
  · cases h
  · simp only [hlast] at h
    split at h
    · cases h
    next hdigest => exact not_not.mp hdigest

/-- A history that is rebuilt is in order: it has the digest of one that was. -/
theorem rebuilt_ordered (hsha : Function.Injective o.sha256) {log : List ThreadEvent}
    {turnId : TurnId} {rebuilt : Rebuilt} (hlog : ∀ e ∈ log, ActPaired o (.append e))
    (hrebuild : rebuild o log turnId = .ok rebuilt)
    (hentry : lastCheckpoint? log turnId = none → Paired (kinds (carriedMessages log turnId))) :
    Along Kind.InOrder [] (kinds (rebuiltHistory log turnId)) := by
  cases hlast : lastCheckpoint? log turnId with
  | none =>
    have hnone : rebuiltHistory log turnId = carriedMessages log turnId := by
      rw [rebuiltHistory, commitSequence, hlast, rebuildHistory]
      simp [turnEvents, messagesFromEvents]
    rw [hnone]
    exact (hentry hlast).1
  | some last =>
    obtain ⟨history, hdigest, hordered⟩ := hlog _ (lastCheckpoint?_mem hlast).1
    rw [kinds_of_digest hsha ((rebuild_digest hrebuild hlast).trans hdigest)]
    exact hordered

theorem rebuilt_pairsSoFar (hsha : Function.Injective o.sha256) {log : List ThreadEvent}
    {turnId : TurnId} {rebuilt : Rebuilt} {pc : Pc} (hlog : ∀ e ∈ log, ActPaired o (.append e))
    (hrebuild : rebuild o log turnId = .ok rebuilt)
    (hentry : lastCheckpoint? log turnId = none → Paired (kinds (carriedMessages log turnId)))
    (hdue : Due (owed (rebuiltHistory log turnId)) pc) (hprepared : Prepared pc) :
    PairsSoFar o (rebuilt.task o pc) := by
  obtain ⟨-, hhistory, -, -, hcompaction⟩ := rebuild_ok hrebuild
  have hsame : (rebuilt.task o pc).history = rebuiltHistory log turnId := hhistory
  refine ⟨?_, ?_, fun c hc => ?_, hprepared⟩
  · rw [hsame]
    exact rebuilt_ordered hsha hlog hrebuild hentry
  · rw [hsame]
    exact hdue
  · exact loaded_cleanCut hlog (fun _ he => he) (hcompaction.symm.trans hc)

theorem pairing_kept (hsha : Function.Injective o.sha256) :
    (pairing o).Kept o (PairsCalls o) (fun s => ∀ a ∈ s.trace, ActPaired o a) where
  run _ _ :=
    { ordered := trivial
      due := rfl
      compaction := fun _ hc => nomatch hc
      prepared := fun _ _ hattempt => nomatch hattempt }
  recover {_ turnId _} hacts hg hrebuild hpending hactive :=
    rebuilt_pairsSoFar hsha (fun _ he => hacts _ (mem_eventsOf.mp he)) hrebuild
      (hg.entry turnId (.recover hrebuild hpending hactive)) trivial
      (fun _ _ hattempt => nomatch hattempt)
  resume {_ turnId approvalId decision _ pending} hacts hg hrebuild hpending hid :=
    rebuilt_pairsSoFar hsha (fun _ he => hacts _ (mem_eventsOf.mp he)) hrebuild
      (hg.entry turnId (.resume hrebuild hpending hid))
      (hg.resume turnId approvalId decision pending rfl
        ((rebuild_ok hrebuild).2.2.2.1 ▸ hpending) hid)
      (fun _ _ hattempt => nomatch hattempt)
  move {_ t task input _ _} hacts ht h hg hmove hnext :=
    hmove.pairsSoFar hsha hnext h (fun _ he => hacts _ (mem_eventsOf.mp he))
      (hg.step t input task rfl ht)

theorem reaches_actsPaired (hsha : Function.Injective o.sha256) {s : Loop}
    (h : (loop o).Reaches (PairsCalls o) Loop.initial s) :
    (∀ a ∈ s.trace, ActPaired o a) ∧ s.Holds (pairing o) := by
  refine h.invariant (P := fun s => (∀ a ∈ s.trace, ActPaired o a) ∧ s.Holds (pairing o))
    ⟨fun _ ha => (nomatch ha), fun _ _ ht => nomatch ht⟩ ?_
  rintro s input s' ⟨hacts, hpairs⟩ hg hstep
  have hmove := loopStep_move hstep
  refine ⟨?_, loopMove_holds (pairing_kept hsha) hacts (fun _ _ _ _ _ _ _ _ => trivial) hpairs hg
    hmove⟩
  have happend : ∀ acts : List Act, (∀ a ∈ acts, ActPaired o a) →
      ∀ a ∈ s.trace ++ acts, ActPaired o a := fun acts hnew a ha =>
    (List.mem_append.mp ha).elim (hacts a) (hnew a)
  cases hmove with
  | runTurn =>
    refine happend _ fun a ha => ?_
    rw [List.mem_singleton.mp ha]
    trivial
  | @rebuildFailed _ _ error =>
    refine happend _ fun a ha => ?_
    cases error with
    | notFound => cases ha
    | digestMismatch =>
      rw [List.mem_singleton.mp ha]
      trivial
  | @advance t task input step ht hmove =>
    rw [trace_apply]
    exact happend _ (hmove.actsPaired (hpairs t task ht) (hg.step t input task rfl ht))
  | recover | resume | refuse | abort | fail => exact hacts

/-- The messages that end the answers to the calls before them. -/
def LlmMessage.endsAnswers : LlmMessage → Bool
  | .user _ | .assistant .. => true
  | _ => false

/-- Each tool message follows an assistant message with its call id, and each call of an assistant
message is answered by one tool message before the next assistant or user message. -/
def WellPaired (messages : List LlmMessage) : Prop :=
  (∀ before callId toolId content isError after,
    messages = before ++ .tool callId toolId content isError :: after →
    ∃ m ∈ before, callId ∈ m.calls.map ToolCall.callId) ∧
  ∀ before m after, messages = before ++ m :: after → m.calls ≠ [] →
    (answeredIds (after.takeWhile fun m' => !m'.endsAnswers)).Perm (m.calls.map ToolCall.callId)

theorem LlmMessage.isBarrier_kind (message : LlmMessage) :
    message.kind.isBarrier = message.endsAnswers := by
  cases message with
  | assistant content toolCalls =>
    unfold kind
    simp only
    split <;> rfl
  | _ => rfl

theorem LlmMessage.calls_of_kind {message : LlmMessage} {keys : List String}
    (h : message.kind = .ask keys) : message.calls ≠ [] ∧ keys = message.calls.map ToolCall.callId := by
  have hcalls : message.calls ≠ [] := by
    intro hnil
    have := LlmMessage.isAsk_kind hnil
    rw [h] at this
    cases this
  exact ⟨hcalls, Kind.ask.inj (h.symm.trans (LlmMessage.kind_of_calls hcalls))⟩

theorem wellPaired_of_paired {messages : List LlmMessage} (h : Paired (kinds messages)) :
    WellPaired messages := by
  refine ⟨?_, ?_⟩
  · rintro before callId toolId content isError after rfl
    rw [kinds_append] at h
    obtain ⟨keys, hmem, hkey⟩ : ∃ keys, .ask keys ∈ kinds before ∧ callId ∈ keys := Paired.asked h
    obtain ⟨m, hm, hkind⟩ := List.mem_map.mp hmem
    obtain ⟨-, rfl⟩ := LlmMessage.calls_of_kind hkind
    exact ⟨m, hm, hkey⟩
  · rintro before m after rfl hcalls
    rw [kinds_append, kinds, kinds, List.map_cons, LlmMessage.kind_of_calls hcalls] at h
    have hperm := Paired.answered h
    rw [List.takeWhile_map, ← kinds, answerKeys_kinds] at hperm
    have hsame : (fun kind : Kind String => !kind.isBarrier) ∘ LlmMessage.kind =
        fun m' => !m'.endsAnswers :=
      funext fun m' => congrArg not m'.isBarrier_kind
    rwa [hsame] at hperm

/-- In a run whose steps meet their conditions, every message list that is sent to the provider is
well paired. -/
theorem requests_wellPaired (hsha : Function.Injective o.sha256) {s : Loop}
    (h : (loop o).Reaches (PairsCalls o) Loop.initial s) {turnId : TurnId}
    {messages : List LlmMessage} (hmem : .request turnId messages ∈ s.trace) :
    WellPaired messages :=
  wellPaired_of_paired ((reaches_actsPaired hsha h).1 _ hmem)

/-- A step that meets its condition because nothing is open, carried or summarized. -/
def nothingOpen (s : Loop) : LoopInput → Bool
  | .advance t input => (s.tasks t).all fun task =>
    match task.pc, input with
    | .reading, _ => (messagesFromEvents s.log).isEmpty
    | .driving, _ => (owed task.history).isEmpty
    | .generating, .assembled retrieved planned _ => (retrieved ++ planned).isEmpty
    | .summarizing .., _ => false
    | _, _ => true
  | .recoverTurn _ | .resumeTurn .. => false
  | _ => true

theorem pairsCalls_of_nothingOpen (s : Loop) (input : LoopInput) (h : nothingOpen s input) :
    PairsCalls sampleOptions s input where
  step t i task hinput ht := by
    subst hinput
    simp only [nothingOpen, ht, Option.all_some] at h
    unfold StepPaired
    split
    · next hpc =>
      simp only [hpc, List.isEmpty_iff] at h
      rw [if_neg (by decide), h]
      decide
    · next hpc =>
      simp only [hpc, List.isEmpty_iff] at h
      rw [h]
      exact fun _ hid => nomatch hid
    · next hpc =>
      simp only [hpc, List.isEmpty_iff] at h
      rw [h]
      decide
    · next hpc =>
      simp only [hpc] at h
      cases h
    · trivial
  entry turnId hadmits _ := by cases hadmits <;> cases h
  resume turnId approvalId decision pending hinput := by
    subst hinput
    cases h

def Act.requestKinds? : Act → Option (List (Kind String))
  | .request _ messages => some (kinds messages)
  | _ => none

theorem requests_wellPaired_sample :
    ∃ turnId messages, kinds messages = [.plain, .ask ["a"], .answer "a"] ∧
      (∃ s, (loop sampleOptions).Reaches (PairsCalls sampleOptions) Loop.initial s ∧
        .request turnId messages ∈ s.trace) ∧ WellPaired messages := by
  have hguarded : (loop sampleOptions).Guarded (PairsCalls sampleOptions) Loop.initial
      answeredCallRun :=
    guarded_of_allSteps pairsCalls_of_nothingOpen answeredCallRun
      (by rw [loop_eq_quick]; decide +kernel)
  have hread : ((loop sampleOptions).exec Loop.initial answeredCallRun).map
      (fun s => s.trace.filterMap Act.requestKinds?) =
        some [[.plain], [.plain, .ask ["a"], .answer "a"]] := by
    rw [loop_eq_quick]
    decide +kernel
  obtain ⟨s, hreaches, hread⟩ := hguarded.exists_reaches hread
  obtain ⟨a, ha, hkinds⟩ := List.mem_filterMap.mp
    (hread ▸ List.mem_cons_of_mem _ (List.mem_singleton_self _))
  cases a with
  | request turnId messages =>
    exact ⟨turnId, messages, Option.some.inj hkinds, ⟨s, hreaches, ha⟩,
      requests_wellPaired (fun _ _ h => h) hreaches ha⟩
  | append | dispatch => cases hkinds

/-- The leftover call of the cancelled turn, answered in the next turn, up to its request. -/
def leftoverRequestRun : List LoopInput :=
  leftoverRun ++ advances 1 [.slot 0 (sampleAnswer "A"), .proceed, .proceed, .proceed,
    .assembled [] [] none, .proceed]

/-- The request holds a user message between the call and its answer. -/
theorem leftover_requestUnpaired :
    ∃ s turnId messages, (loop sampleOptions).Reaches anyStep Loop.initial s ∧
      .request turnId messages ∈ s.trace ∧ ¬WellPaired messages := by
  have hread : ((loop sampleOptions).exec Loop.initial leftoverRequestRun).map
      (fun s => s.trace.filterMap Act.requestKinds?) =
        some [[.plain], [.plain, .ask ["a"], .plain, .answer "a"]] := by
    rw [loop_eq_quick]
    decide +kernel
  obtain ⟨s, hreaches, hread⟩ := exists_reaches_of_exec_map leftoverRequestRun hread
  obtain ⟨a, ha, hkinds⟩ := List.mem_filterMap.mp
    (hread ▸ List.mem_cons_of_mem _ (List.mem_singleton_self _))
  cases a with
  | request turnId messages =>
    refine ⟨s, turnId, messages, hreaches, ha, fun hpaired => ?_⟩
    obtain ⟨m₀, rest, rfl, -, hrest⟩ := List.map_eq_cons_iff.mp (Option.some.inj hkinds)
    obtain ⟨m₁, rest, rfl, hask, hrest⟩ := List.map_eq_cons_iff.mp hrest
    obtain ⟨m₂, rest, rfl, hplain, -⟩ := List.map_eq_cons_iff.mp hrest
    obtain ⟨hcalls, hids⟩ := LlmMessage.calls_of_kind hask
    have hends : m₂.endsAnswers := by
      rw [← m₂.isBarrier_kind, hplain]
      rfl
    have hperm := hpaired.2 [m₀] m₁ (m₂ :: rest) rfl hcalls
    rw [List.takeWhile_cons_of_neg (by simp [hends]), ← hids] at hperm
    exact absurd hperm.length_eq (by decide)
  | append | dispatch => cases hkinds

end BeeAgent.Runtime
