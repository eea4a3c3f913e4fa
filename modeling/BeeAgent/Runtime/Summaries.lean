import BeeAgent.Runtime.Compaction

/-! Compaction along runs: where a thread has one live call at a time and its log holds what the
calls hold, a summary stands for the messages that it was made of, and the newest one is applied. -/
namespace BeeAgent.Runtime
open BeeAgent.Data BeeAgent.Thread BeeAgent.Execution Transition Transition.Machine

variable {o : AgentLoopOptions}

/-! ### The guard -/

def Loop.Quiet (s : Loop) : Prop := ∀ t, s.tasks t = none

/-- The guard: the runs commit in order, a turn is started, recovered or resumed only while no call
is live on the thread, and a turn is gone on with only while no other turn logged a message since
it was started. -/
structure Serially (o : AgentLoopOptions) (s : Loop) (input : LoopInput) : Prop where
  inOrder : CommitsInOrder o s input
  run : ∀ text structureVersion, input = .runTurn text structureVersion → s.Quiet
  entry : ∀ turnId, Admits o s input turnId → s.Quiet ∧
    ∀ sequence, startedSequence? s.log turnId = some sequence →
      ∀ e ∈ s.log.drop sequence, e.turnId ≠ turnId → eventMessage? e = none

def Loop.Alone (s : Loop) : Prop :=
  ∀ t t' task task', s.tasks t = some task → s.tasks t' = some task' → t = t'

theorem Loop.Quiet.alone_start {s : Loop} (h : s.Quiet) (task : Task) : (s.start task).Alone := by
  have hnext : ∀ t task', (s.start task).tasks t = some task' → t = s.nextTask := by
    intro t task' ht
    by_contra hne
    simp [Loop.start, Function.update_of_ne hne, h t] at ht
  intro t t' task₁ task₂ h₁ h₂
  rw [hnext t task₁ h₁, hnext t' task₂ h₂]

theorem Loop.Alone.of_live {s s' : Loop} (h : s.Alone)
    (hlive : ∀ t task', s'.tasks t = some task' → ∃ task, s.tasks t = some task) : s'.Alone := by
  intro t t' task₁ task₂ h₁ h₂
  obtain ⟨_, hold₁⟩ := hlive t task₁ h₁
  obtain ⟨_, hold₂⟩ := hlive t' task₂ h₂
  exact h t t' _ _ hold₁ hold₂

theorem exists_of_update {tasks : ℕ → Option Task} {t t' : ℕ} {task task' : Task}
    {next : Option Task} (ht : tasks t = some task)
    (h : Function.update tasks t next t' = some task') : ∃ task, tasks t' = some task := by
  by_cases hne : t' = t
  · exact ⟨task, hne ▸ ht⟩
  · exact ⟨task', by simpa [Function.update_of_ne hne] using h⟩

theorem Loop.Alone.step {s s' : Loop} {input : LoopInput} (h : s.Alone) (hg : Serially o s input)
    (hmove : LoopMove o s input s') : s'.Alone := by
  cases hmove with
  | runTurn => exact (hg.run _ _ rfl).alone_start _
  | recover hrebuild hpending hactive =>
    exact (hg.entry _ (.recover hrebuild hpending hactive)).1.alone_start _
  | resume hrebuild hpending hid =>
    exact (hg.entry _ (.resume hrebuild hpending hid)).1.alone_start _
  | rebuildFailed | refuse => exact h
  | abort ht | fail ht => exact h.of_live fun t' task' ht' => exists_of_update ht ht'
  | advance ht =>
    refine h.of_live fun t' task' ht' => ?_
    obtain ⟨rfl, -⟩ | ⟨-, ht'⟩ := apply_tasks_cases ht'
    · exact ⟨_, ht⟩
    · exact ⟨task', ht'⟩

/-! ### What a live call holds -/

/-- A live call holds the whole thread: its messages are those carried into its turn and the turn's
own, and its compaction is the newest one. -/
structure Follows (o : AgentLoopOptions) (trace : List Act) (task : Task) : Prop where
  started : Started (eventsOf trace) task.turnId
  whole : messagesFromEvents (eventsOf trace) =
    carriedMessages (eventsOf trace) task.turnId ++ ownMessages (eventsOf trace) task.turnId
  compaction : task.pc ≠ .reading → task.state.compaction = newest? (eventsOf trace)
  span : ∀ retrieved planned system covered,
    task.pc = .summarizing retrieved planned system covered →
    (task.state.compaction.map CompactionView.coveredMessageCount).getD 0 < covered ∧
      covered ≤ task.history.length ∧
      lastRequest? trace = some (summaryRequest (task.history.take covered))
  prepared : ∀ retry messages, task.pc.attempt? = some (retry, messages) →
    ∃ retrieved planned system, messages = (projectHistory o.sha256
      (assemble o task.state retrieved planned system) o.toolResultCompaction).messages

section Follows
variable {trace acts : List Act} {task task' : Task}

theorem Follows.silent (h : Follows o trace task) (hacts : ∀ a ∈ acts, a.Silent) :
    Follows o (trace ++ acts) task where
  started := by
    rw [eventsOf_append]
    exact h.started.append
  whole := by
    have hmessages := messages_silent fun a ha => (hacts a ha).message
    rw [eventsOf_append, messagesFromEvents_append, hmessages, carriedMessages_append h.started,
      ownMessages_append, ownMessages_eq_nil fun e he =>
        .inr ((hacts _ (mem_eventsOf.mp he)).message), List.append_nil, List.append_nil, h.whole]
  compaction hpc := by
    have hnone := compactions_silent fun a ha => (hacts a ha).compaction
    rw [eventsOf_append, newest?_append_quiet hnone]
    exact h.compaction hpc
  span retrieved planned system covered hpc := by
    rw [lastRequest?_append_silent fun a ha => (hacts a ha).request]
    exact h.span retrieved planned system covered hpc
  prepared := h.prepared

def following (o : AgentLoopOptions) : TaskProperty where
  undisturbing _ a := a.Silent
  holds trace _ task := Follows o trace task
  frame h hacts _ := h.silent hacts
  abort h := ⟨h.started, h.whole, h.compaction, h.span, h.prepared⟩

theorem Follows.advance (h : Follows o trace task) (hturn : task'.turnId = task.turnId)
    (hacts : ∀ e ∈ eventsOf acts, e.turnId = task.turnId) :
    Started (eventsOf (trace ++ acts)) task'.turnId ∧
      messagesFromEvents (eventsOf (trace ++ acts)) =
        carriedMessages (eventsOf (trace ++ acts)) task'.turnId ++
          ownMessages (eventsOf (trace ++ acts)) task'.turnId := by
  rw [eventsOf_append, hturn]
  refine ⟨h.started.append, ?_⟩
  rw [messagesFromEvents_append, carriedMessages_append h.started, ownMessages_append_self hacts,
    ← List.append_assoc, h.whole]

theorem compactionSpan_some {state : LoopState} {assembled : List LlmMessage} {covered : ℕ}
    (h : compactionSpan o state assembled = some covered) :
    (state.compaction.map CompactionView.coveredMessageCount).getD 0 < covered ∧
      covered ≤ state.history.length := by
  unfold compactionSpan at h
  simp only at h
  split at h <;> [cases h; skip]
  split at h <;> [cases h; skip]
  split at h <;> [cases h; skip]
  split at h <;> cases h
  omega

/-- A step of a call keeps what the call holds, when a call that reads the thread loads the newest
compaction. -/
theorem Move.follows {nextId : ℕ} {input : TaskInput} {step : TaskStep}
    (hmove : Move o (eventsOf trace) nextId task input step) (hnext : step.next = .continue task')
    (h : Follows o trace task)
    (hread : task.pc = .reading → ∀ events,
      events = (if o.carryThreadHistory = some false then [] else eventsOf trace) →
      loadCompaction o.sha256 events (messagesFromEvents events) = newest? (eventsOf trace)) :
    Follows o (trace ++ step.acts) task' := by
  obtain ⟨hstarted, hwhole⟩ :=
    h.advance (hmove.turnId.2 _ hnext) fun e he => hmove.turnId_events e he
  cases hmove.says with
  | summary hpc hspan hacts hnext' =>
    obtain ⟨hlt, hle⟩ := compactionSpan_some hspan
    rw [hnext'] at hnext
    cases hnext
    refine ⟨hstarted, hwhole, fun _ => ?_, ?_, fun _ _ hattempt => by cases hattempt⟩
    · rw [hacts, eventsOf_append, newest?_append_quiet rfl]
      exact h.compaction (by simp [hpc])
    · rintro _ _ _ _ ⟨⟩
      refine ⟨hlt, hle, ?_⟩
      rw [hacts, lastRequest?, List.filterMap_append]
      exact List.getLast?_concat
  | compaction hpc hacts hnext' =>
    rw [hnext'] at hnext
    cases hnext
    refine ⟨hstarted, hwhole, fun _ => ?_, fun _ _ _ _ hpc' => (by cases hpc'), ?_⟩
    · rw [hacts, eventsOf_append, newest?, compactions_append]
      exact List.getLast?_concat.symm
    · rintro _ _ ⟨⟩
      exact ⟨_, _, _, rfl⟩
  | attempt hpc hacts hnext' hattempt =>
    rw [hnext'] at hnext
    cases hnext
    refine ⟨hstarted, hwhole, fun _ => ?_, fun _ _ _ _ hpc' => (by cases hpc'), ?_⟩
    · rw [hacts, eventsOf_append, newest?_append_quiet rfl]
      exact h.compaction (by simp [hpc])
    · rintro _ _ ⟨⟩
      rw [hattempt]
      exact h.prepared _ _ (by rw [hpc]; rfl)
  | nothing hrequest hcompaction =>
    have hnewest : newest? (eventsOf (trace ++ step.acts)) = newest? (eventsOf trace) := by
      rw [eventsOf_append, newest?_append_quiet (compactions_silent hcompaction)]
    have hkeep : task.pc ≠ .reading → task'.state.compaction = task.state.compaction →
        (∀ retrieved planned system covered,
          task'.pc ≠ .summarizing retrieved planned system covered) →
        (∀ retry messages, task'.pc.attempt? = some (retry, messages) →
          ∃ retrieved planned system, messages = (projectHistory o.sha256
            (Runtime.assemble o task'.state retrieved planned system)
              o.toolResultCompaction).messages) →
        Follows o (trace ++ step.acts) task' := fun hpc hsame hspan hprepared =>
      ⟨hstarted, hwhole, fun _ => by rw [hsame, hnewest, h.compaction hpc],
        fun _ _ _ _ hpc' => absurd hpc' (hspan _ _ _ _), hprepared⟩
    cases hmove with
    | throw | suspendTurn | terminate => cases hnext
    | summarize | attempt => simp [Act.request?] at hrequest
    | compacted => simp [Act.event?, compaction?] at hcompaction
    | read hpc hevents hloaded =>
      cases hnext
      refine ⟨hstarted, hwhole, fun _ => ?_, fun _ _ _ _ hpc' => (by cases hpc'),
        fun _ _ hattempt => by cases hattempt⟩
      rw [hnewest]
      exact hloaded.trans (hread hpc _ hevents)
    | assemble hpc | unsummarized hpc =>
      cases hnext
      refine hkeep (by simp [hpc]) rfl (by simp [startAttempts]) ?_
      rintro _ _ ⟨⟩
      exact ⟨_, _, _, rfl⟩
    | retry hpc =>
      cases hnext
      refine hkeep (fun hreading => by simp [hreading, Pc.attempt?] at hpc) rfl (by simp) ?_
      rintro _ _ ⟨⟩
      exact h.prepared _ _ hpc
    | stream hpc _ hnext' =>
      cases hnext
      obtain ⟨attempt', rfl | rfl, hmessages, -⟩ := hnext' <;>
      · refine hkeep (by simp [hpc]) rfl (by simp) ?_
        rintro _ _ ⟨⟩
        rw [hmessages]
        exact h.prepared _ _ (by rw [hpc]; rfl)
    | intent hpc =>
      cases hnext
      refine hkeep (by simp [hpc]) rfl (by simp) ?_
      rintro _ _ ⟨⟩
      exact h.prepared _ _ (by rw [hpc]; rfl)
    | giveUp hpc =>
      cases hnext
      exact hkeep (fun hreading => by simp [hreading, Pc.plain] at hpc) rfl (by simp)
        fun _ _ hattempt => by cases hattempt
    | checkpointed hpc hpc' =>
      cases hnext
      obtain rfl | rfl := hpc' <;>
        exact hkeep (by simp [hpc]) rfl (by simp) fun _ _ hattempt => by cases hattempt
    | recordInput hpc | decide hpc | answerApproved hpc | generate hpc | redispatch hpc
    | finishIntents hpc | batch hpc | slot hpc | commit hpc | complete hpc | escalate hpc
    | recordAssistant hpc =>
      cases hnext
      exact hkeep (by simp [hpc]) rfl (by simp) fun _ _ hattempt => by cases hattempt

end Follows
/-! ### Compactions along a run -/

/-- The summary was asked for with the messages that the compaction covers. -/
def MadeOf (trace : List Act) (c : CompactionView) : Prop :=
  c.coveredMessageCount ≤ (messagesFromEvents (eventsOf trace)).length ∧
    ∃ before turnId tokens after, trace = before ++
        .append (.contextCompacted turnId c.summary c.coveredMessageCount c.coveredDigest tokens) ::
          after ∧
      lastRequest? before = some (summaryRequest
        ((messagesFromEvents (eventsOf trace)).take c.coveredMessageCount))

/-- The messages are those of the thread with the newest compaction applied, or ask for the summary
of a first part of them. -/
def Applies (o : AgentLoopOptions) (before : List Act) (messages : List LlmMessage) : Prop :=
  (∃ covered, messages =
    summaryRequest ((messagesFromEvents (eventsOf before)).take covered)) ∨
  (∃ retrieved planned system, messages = (projectHistory o.sha256
    (((system : Option String).map .system).toList ++
      folded (messagesFromEvents (eventsOf before)) (newest? (eventsOf before)) ++
      retrieved ++ planned) o.toolResultCompaction).messages) ∧
    ∀ c, newest? (eventsOf before) = some c → MadeOf before c

/-- Every recorded compaction was made of the messages it covers, each covers more than the one
before it, and every request has the newest one applied. -/
structure Compacts (o : AgentLoopOptions) (trace : List Act) : Prop where
  made : ∀ c ∈ compactions (eventsOf trace), MadeOf trace c
  grows : (compactions (eventsOf trace)).Pairwise fun c c' =>
    c.coveredMessageCount < c'.coveredMessageCount
  applied : ∀ before turnId messages after, trace = before ++ .request turnId messages :: after →
    Applies o before messages

section Compacts
variable {trace acts : List Act} {c : CompactionView}

theorem MadeOf.append (h : MadeOf trace c) (acts : List Act) : MadeOf (trace ++ acts) c := by
  obtain ⟨hle, before, turnId, tokens, after, rfl, hlast⟩ := h
  refine ⟨?_, before, turnId, tokens, after ++ acts, by simp, ?_⟩
  · rw [eventsOf_append, messagesFromEvents_append, List.length_append]
    exact Nat.le_add_right_of_le hle
  · rw [eventsOf_append, messagesFromEvents_append, List.take_append_of_le_length hle]
    exact hlast

theorem Compacts.append (h : Compacts o trace)
    (hmade : ∀ c ∈ compactions (eventsOf acts), MadeOf (trace ++ acts) c)
    (hgrows : (compactions (eventsOf acts)).Pairwise fun c c' =>
      c.coveredMessageCount < c'.coveredMessageCount)
    (hlater : ∀ c ∈ compactions (eventsOf trace), ∀ c' ∈ compactions (eventsOf acts),
      c.coveredMessageCount < c'.coveredMessageCount)
    (happlied : ∀ before turnId messages after, acts = before ++ .request turnId messages :: after →
      Applies o (trace ++ before) messages) : Compacts o (trace ++ acts) where
  made c hc := by
    rw [eventsOf_append, compactions_append, List.mem_append] at hc
    obtain hc | hc := hc
    · exact (h.made c hc).append acts
    · exact hmade c hc
  grows := by
    rw [eventsOf_append, compactions_append]
    exact List.pairwise_append.mpr ⟨h.grows, hgrows, hlater⟩
  applied before turnId messages after heq := by
    obtain ⟨rest, rfl, hacts⟩ | ⟨rest, htrace, hrest⟩ := List.append_eq_append_iff.mp heq
    · exact happlied rest turnId messages after hacts
    · cases rest with
      | nil =>
        rw [List.append_nil] at htrace
        subst htrace
        have hacts := happlied [] turnId messages after hrest.symm
        rwa [List.append_nil] at hacts
      | cons a rest =>
        obtain ⟨rfl, -⟩ := List.cons.inj hrest
        exact h.applied before turnId messages rest htrace

theorem Compacts.quiet (h : Compacts o trace) (hrequest : ∀ a ∈ acts, a.request? = none)
    (hcompaction : ∀ a ∈ acts, a.event?.bind compaction? = none) : Compacts o (trace ++ acts) := by
  have hnone := compactions_silent hcompaction
  refine h.append ?_ ?_ ?_ ?_
  · simp [hnone]
  · simp [hnone]
  · simp [hnone]
  · rintro before turnId messages after rfl
    have := hrequest (.request turnId messages) (by simp)
    cases this

end Compacts

structure Sound (o : AgentLoopOptions) (s : Loop) : Prop where
  alone : s.Alone
  described : ∀ c ∈ compactions s.log, c.Describes o.sha256 (messagesFromEvents s.log)
  compacts : Compacts o s.trace
  follows : s.Holds (following o)

namespace Sound
variable {s s' : Loop} {t : ℕ} {task : Task} {input : TaskInput} {step : TaskStep}

theorem history_eq (h : Sound o s) (hagrees : s.Holds agreement) (ht : s.tasks t = some task)
    (hpc : task.pc.plain) : messagesFromEvents s.log = task.history :=
  (h.follows t task ht).whole.trans ((hagrees t task ht).2.of_plain hpc)

theorem newest_lt (h : Sound o s) {covered : ℕ}
    (hlt : ((newest? s.log).map CompactionView.coveredMessageCount).getD 0 < covered) :
    ∀ c ∈ compactions s.log, c.coveredMessageCount < covered := by
  intro c hc
  obtain ⟨last, hlast⟩ := Option.isSome_iff_exists.mp
    (List.getLast?_isSome.mpr (List.ne_nil_of_mem hc))
  rw [newest?, hlast, Option.map_some, Option.getD_some] at hlt
  refine lt_of_le_of_lt ?_ hlt
  have hsplit := List.dropLast_append_getLast? last hlast
  have hgrows := h.compacts.grows
  rw [← Loop.log_eq, ← hsplit, List.pairwise_append] at hgrows
  rw [← hsplit, List.mem_append] at hc
  obtain hc | hc := hc
  · exact (hgrows.2.2 c hc last (List.mem_singleton_self _)).le
  · rw [List.mem_singleton.mp hc]

/-- A call that sends its messages sends those of the thread with the newest compaction applied. -/
theorem applies (h : Sound o s) (hagrees : s.Holds agreement) (ht : s.tasks t = some task)
    {retry : ℕ} {messages : List LlmMessage} (hpc : task.pc = .attempting retry messages)
    (item : Item) :
    Applies o (s.trace ++ [.append (.itemStarted item)]) messages := by
  have hfollows := h.follows t task ht
  obtain ⟨retrieved, planned, system, rfl⟩ := hfollows.prepared retry messages (by rw [hpc]; rfl)
  have hcompaction := hfollows.compaction (by simp [hpc])
  have hlog : eventsOf (s.trace ++ [.append (.itemStarted item)]) =
      s.log ++ [.itemStarted item] := eventsOf_append ..
  have hnewest : newest? (s.log ++ [.itemStarted item]) = newest? s.log := newest?_append_quiet rfl
  have hmessages : messagesFromEvents (s.log ++ [.itemStarted item]) =
      messagesFromEvents s.log := by
    rw [messagesFromEvents_append]
    exact List.append_nil _
  refine .inr ⟨⟨retrieved, planned, system, ?_⟩, fun c hc => ?_⟩
  · have hhistory := h.history_eq hagrees ht (by rw [hpc]; rfl)
    have hview := compactView_eq_folded fun c hc => h.described c (mem_of_newest? hc)
    rw [hlog, hnewest, hmessages, ← hview, hhistory, assemble, hcompaction]
    rfl
  · rw [hlog, hnewest] at hc
    exact (h.compacts.made c (mem_of_newest? hc)).append _

end Sound
namespace Sound
variable {s s' : Loop} {t : ℕ} {task : Task} {input : TaskInput} {step : TaskStep}

theorem quiet (h : Sound o s) (acts : List Act) (hrequest : ∀ a ∈ acts, a.request? = none)
    (hcompaction : ∀ a ∈ acts, a.event?.bind compaction? = none) :
    Compacts o (s.trace ++ acts) ∧ ∀ c ∈ compactions (eventsOf (s.trace ++ acts)),
      c.Describes o.sha256 (messagesFromEvents (eventsOf (s.trace ++ acts))) := by
  refine ⟨h.compacts.quiet hrequest hcompaction, fun c hc => ?_⟩
  rw [eventsOf_append, compactions_append, compactions_silent hcompaction, List.append_nil] at hc
  rw [eventsOf_append, messagesFromEvents_append]
  exact (h.described c hc).append _

theorem advance (h : Sound o s) (hagrees : s.Holds agreement) (ht : s.tasks t = some task)
    (hmove : Move o s.log s.nextId task input step) :
    Compacts o (s.trace ++ step.acts) ∧ ∀ c ∈ compactions (eventsOf (s.trace ++ step.acts)),
      c.Describes o.sha256 (messagesFromEvents (eventsOf (s.trace ++ step.acts))) := by
  have hold : ∀ c ∈ compactions s.log,
      c.Describes o.sha256 (messagesFromEvents (s.log ++ eventsOf step.acts)) := fun c hc => by
    rw [messagesFromEvents_append]
    exact (h.described c hc).append _
  have hhistory : task.pc.plain → messagesFromEvents s.log = task.history :=
    h.history_eq hagrees ht
  cases hmove.says with
  | nothing hrequest hcompaction => exact h.quiet _ hrequest hcompaction
  | summary hpc hspan hacts =>
    have hnone : compactions (eventsOf step.acts) = [] := by
      rw [hacts]
      rfl
    refine ⟨h.compacts.append (by simp [hnone]) (by simp [hnone]) (by simp [hnone]) ?_, ?_⟩
    · rintro before turnId messages after heq
      rw [hacts] at heq
      cases before with
      | nil =>
        cases heq
        rw [List.append_nil]
        exact .inl ⟨_, by rw [← Loop.log_eq, hhistory (by rw [hpc]; rfl)]⟩
      | cons a before => simp at heq
    · intro c hc
      rw [eventsOf_append, compactions_append, hnone, List.append_nil] at hc
      rw [eventsOf_append]
      exact hold c hc
  | attempt hpc hacts =>
    have hnone : compactions (eventsOf step.acts) = [] := by
      rw [hacts]
      rfl
    refine ⟨h.compacts.append (by simp [hnone]) (by simp [hnone]) (by simp [hnone]) ?_, ?_⟩
    · rintro before turnId messages after heq
      rw [hacts] at heq
      cases before with
      | nil => cases heq
      | cons a before =>
        obtain ⟨rfl, hrest⟩ := List.cons.inj heq
        cases before with
        | nil =>
          obtain ⟨-, rfl⟩ := Act.request.inj (List.cons.inj hrest).1
          exact h.applies hagrees ht hpc _
        | cons a before => simp at hrest
    · intro c hc
      rw [eventsOf_append, compactions_append, hnone, List.append_nil] at hc
      rw [eventsOf_append]
      exact hold c hc
  | @compaction retrieved planned system covered summary tokens hpc hacts =>
    have hfollows := h.follows t task ht
    obtain ⟨hlt, hle, hlast⟩ := hfollows.span _ _ _ _ hpc
    have hsame := hhistory (by rw [hpc]; rfl)
    have hcompaction := hfollows.compaction (by simp [hpc])
    have hmessages : messagesFromEvents (eventsOf (s.trace ++ step.acts)) = task.history := by
      rw [eventsOf_append, messagesFromEvents_append, hacts, ← hsame]
      exact List.append_nil _
    have hrecorded : compactions (eventsOf step.acts) =
        [⟨summary, covered, digest o.sha256 (task.history.take covered)⟩] := by
      rw [hacts]
      rfl
    refine ⟨h.compacts.append ?_ ?_ ?_ ?_, ?_⟩
    · intro c hc
      rw [hrecorded, List.mem_singleton] at hc
      subst hc
      refine ⟨by rw [hmessages]; exact hle, s.trace, task.turnId, tokens, [], by rw [hacts], ?_⟩
      rw [hmessages]
      exact hlast
    · rw [hrecorded]
      exact List.pairwise_singleton ..
    · intro c hc c' hc'
      rw [hrecorded, List.mem_singleton] at hc'
      subst hc'
      rw [hcompaction] at hlt
      exact h.newest_lt hlt c hc
    · rintro before turnId messages after heq
      rw [hacts] at heq
      cases before with
      | nil => cases heq
      | cons a before => simp at heq
    · intro c hc
      rw [hmessages]
      rw [eventsOf_append, compactions_append, hrecorded, List.mem_append, List.mem_singleton] at hc
      obtain hc | rfl := hc
      · rw [← hsame]
        exact h.described c hc
      · exact ⟨Nat.zero_lt_of_lt hlt, hle, rfl⟩

end Sound

theorem carriedMessages_append_turnStarted {log : List ThreadEvent} {turn : Turn}
    (h : ∀ e ∈ log, e.turnId ≠ turn.id) :
    carriedMessages (log ++ [.turnStarted turn]) turn.id = messagesFromEvents log := by
  have hnone : log.findIdx? (ThreadEvent.isTurnStarted turn.id) = none := by
    refine List.findIdx?_eq_none_iff.mpr fun e he => ?_
    cases e with
    | turnStarted turn' => simpa [ThreadEvent.isTurnStarted, ThreadEvent.turnId] using h _ he
    | _ => rfl
  have hsequence : startedSequence? (log ++ [.turnStarted turn]) turn.id =
      some (log.length + 1) := by
    rw [startedSequence?, List.findIdx?_append, hnone]
    simp [ThreadEvent.isTurnStarted]
  rw [carriedMessages, hsequence]
  simp

theorem rebuilt_follows {s : Loop} (h : Sound o s) (hrooted : Rooted s)
    (hfirst : StartsFirst s.log) {input : LoopInput} {turnId : TurnId} {rebuilt : Rebuilt}
    (hg : Serially o s input) (hadmits : Admits o s input turnId)
    (hrebuild : rebuild o s.log turnId = .ok rebuilt) {pc : Pc} (hattempt : pc.attempt? = none)
    (hspan : ∀ retrieved planned system covered,
      pc ≠ .summarizing retrieved planned system covered) :
    Follows o s.trace (rebuilt.task o pc) := by
  have hstarted := rebuild_started hrooted hrebuild
  obtain ⟨sequence, hsequence⟩ := Option.isSome_iff_exists.mp hstarted
  have hwhole := hfirst.whole hsequence ((hg.entry turnId hadmits).2 sequence hsequence)
  have hhistory : rebuiltHistory s.log turnId = messagesFromEvents s.log :=
    (rebuiltHistory_eq (hg.inOrder.1 turnId hadmits).2).trans hwhole.symm
  refine ⟨?_, ?_, fun _ => ?_, fun _ _ _ _ hpc => absurd hpc (hspan _ _ _ _), ?_⟩
  · rw [rebuilt_task_turnId hrebuild]
    exact hstarted
  · rw [rebuilt_task_turnId hrebuild]
    exact hwhole
  · have hcompaction := (rebuild_ok hrebuild).2.2.2.2
    rw [hhistory, loadCompaction_eq_newest? h.described] at hcompaction
    exact hcompaction
  · intro retry messages hsome
    rw [show (rebuilt.task o pc).pc = pc from rfl, hattempt] at hsome
    cases hsome

theorem following_kept : (following o).Kept o (Serially o) fun s =>
    Sound o s ∧ s.Holds agreement ∧ Rooted s ∧ Exclusive s ∧ StartsFirst s.log where
  run {s input structureVersion} hq _ := by
    have hother : ∀ e ∈ s.log, e.turnId ≠ s.nextId :=
      fun e he => Nat.ne_of_lt (hq.2.2.2.1.acts _ (mem_eventsOf.mp he))
    have hcarried := @carriedMessages_append_turnStarted s.log
      (newTurn s.nextId input structureVersion) hother
    have hown : ownMessages s.log s.nextId = [] :=
      ownMessages_eq_nil fun e he => .inl (hother e he)
    refine ⟨?_, ?_, fun hpc => absurd rfl hpc, fun _ _ _ _ hpc' => (by cases hpc'),
      fun _ _ hattempt => by cases hattempt⟩
    · rw [eventsOf_append]
      exact started_append_turnStarted _ _
    · rw [eventsOf_append]
      refine Eq.trans ?_ (congrArg (· ++ _) hcarried.symm)
      show _ = _ ++ ownMessages (s.log ++ _) s.nextId
      rw [messagesFromEvents_append, ownMessages_append, hown]
      simp [Loop.log_eq, eventsOf, Act.event?, ownMessages, turnEvents, messagesFromEvents, newTurn,
        ThreadEvent.turnId, eventMessage?, ThreadEvent.completedItem?]
  recover {s turnId rebuilt} hq hg hrebuild hpending hactive :=
    rebuilt_follows hq.1 hq.2.2.1 hq.2.2.2.2 hg (.recover hrebuild hpending hactive) hrebuild rfl
      (by simp)
  resume {s turnId approvalId decision rebuilt pending} hq hg hrebuild hpending hid :=
    rebuilt_follows hq.1 hq.2.2.1 hq.2.2.2.2 hg (.resume hrebuild hpending hid) hrebuild rfl
      (by simp)
  move {s t task input step task'} hq ht h hg hmove hnext := by
    refine hmove.follows hnext h ?_
    rintro hpc _ rfl
    have hguard := hg.inOrder.2 t input task rfl ht
    simp only [StepInOrder, hpc] at hguard
    by_cases hcarry : o.carryThreadHistory = some false
    · have hcarried := read_carried h.started hguard
      have hown := (hq.2.1 t task ht).2
      simp only [Agrees, hpc] at hown
      rw [if_pos hcarry] at hcarried ⊢
      have hnil : messagesFromEvents s.log = [] := by
        rw [Loop.log_eq, h.whole, hown, ← hcarried]
        rfl
      refine (List.getLast?_eq_none_iff.mpr (List.eq_nil_iff_forall_not_mem.mpr ?_)).symm
      intro c hc
      have hdescribed := hq.1.described c hc
      have hle := hdescribed.le
      rw [hnil] at hle
      exact absurd hdescribed.pos (Nat.not_lt.mpr hle)
    · rw [if_neg hcarry]
      exact loadCompaction_eq_newest? hq.1.described

theorem reaches_sound {s : Loop} (h : (loop o).Reaches (Serially o) Loop.initial s) :
    Sound o s := by
  have hidle : ∀ s input, Serially o s input → EntersIdle o s input :=
    fun _ _ hg => hg.inOrder.entersIdle
  refine h.invariant₂ (Q := fun s => s.Holds agreement ∧ Rooted s ∧ Exclusive s ∧
    StartsFirst s.log) (fun s hs => ?_) ?_ ?_
  · exact ⟨reaches_agreement (hs.mono fun _ _ hg => hg.inOrder), reaches_rooted hs,
      reaches_exclusive hidle hs, reaches_startsFirst hidle hs⟩
  · refine ⟨fun _ _ _ _ ht => (by cases ht), fun _ hc => (by cases hc), ⟨fun _ hc => (by cases hc),
      List.Pairwise.nil, ?_⟩, fun _ _ ht => by cases ht⟩
    intro before turnId messages after heq
    simp [Loop.initial] at heq
  intro s input s' hq hs hg hstep
  have hmove := loopStep_move hstep
  have hundisturbed : s.Undisturbed o (following o) := by
    intro t task input acts ht hbeside
    cases hbeside with
    | runTurn =>
      intro a ha
      rw [List.mem_singleton.mp ha]
      exact ⟨rfl, rfl, rfl⟩
    | rebuildFailed => exact recoveryFailed_silent
    | advance hne ht' => exact absurd (hs.alone _ _ _ _ ht ht') hne
  have hfollows := loopMove_holds following_kept ⟨hs, hq⟩ hundisturbed hs.follows hg hmove
  have halone := hs.alone.step hg hmove
  cases hmove with
  | @runTurn text structureVersion =>
    have hquiet := hs.quiet [.append (.turnStarted (newTurn s.nextId text structureVersion))]
      (by simp [Act.request?])
      (by simp [Act.event?, compaction?])
    exact ⟨halone, hquiet.2, hquiet.1, hfollows⟩
  | @rebuildFailed _ turnId error =>
    have hquiet := hs.quiet (recoveryFailed turnId error)
      (fun a ha => (recoveryFailed_silent a ha).request)
      (fun a ha => (recoveryFailed_silent a ha).compaction)
    exact ⟨halone, hquiet.2, hquiet.1, hfollows⟩
  | @advance t task _ step ht hmove =>
    obtain ⟨hcompacts, hdescribed⟩ := hs.advance hq.1 ht hmove
    refine ⟨halone, ?_, ?_, hfollows⟩
    · rw [Loop.log_eq, trace_apply]
      exact hdescribed
    · rw [trace_apply]
      exact hcompacts
  | recover | resume | refuse | abort | fail =>
    exact ⟨halone, hs.described, hs.compacts, hfollows⟩

/-- In a run in which one call at a time goes on with the thread, in order and with the thread's
whole history, every compaction was made of the messages it covers, covers more than the one before
it, and is applied until the next one is recorded. -/
theorem reaches_compacts {s : Loop} (h : (loop o).Reaches (Serially o) Loop.initial s) :
    Compacts o s.trace :=
  (reaches_sound h).compacts

/-! ### Runs -/

/-- Options under which every message is summarized. -/
def compactingOptions : AgentLoopOptions :=
  { sampleOptions with
    compactionThresholdTokens := 0, keepRecentMessages := 0, minCoveredMessages := 1 }

/-- A fresh step of a call that has started. -/
def goesOn (s : Loop) (input : LoopInput) : Bool :=
  fresh s input &&
    match input with
    | .runTurn .. => false
    | _ => true

theorem serially_of_goesOn (s : Loop) (input : LoopInput) (h : goesOn s input) :
    Serially o s input := by
  obtain ⟨hfresh, hrun⟩ := Bool.and_eq_true_iff.mp h
  refine ⟨commitsInOrder_of_fresh s input hfresh, ?_, fun turnId hadmits => ?_⟩
  · rintro text structureVersion rfl
    cases hrun
  · cases hadmits <;> cases hfresh

/-- A turn whose first message is summarized, up to its request. -/
def summarizedRun : List LoopInput :=
  startInputs 0 ++
    advances 0 [.proceed, .assembled [] [] none, .summarized (some "summary"), .proceed]

theorem reaches_compacts_summarized : ∃ s, (loop compactingOptions).Reaches
    (Serially compactingOptions) Loop.initial s ∧ newest? s.log ≠ none ∧
      Compacts compactingOptions s.trace := by
  have hguarded : (loop compactingOptions).Guarded (Serially compactingOptions) Loop.initial
      summarizedRun := by
    refine ⟨⟨commitsInOrder_of_fresh _ _ rfl, fun _ _ _ _ => rfl, fun _ hadmits => ?_⟩, ?_⟩
    · cases hadmits
    · exact guarded_of_allSteps serially_of_goesOn summarizedRun.tail (by decide +kernel)
  obtain ⟨s, hreaches, hnewest⟩ := hguarded.exists_reaches
    (f := fun s => (newest? s.log).isSome) (a := true) (by decide +kernel)
  exact ⟨s, hreaches, Option.isSome_iff_ne_none.mp hnewest, reaches_compacts hreaches⟩

/-- The answers of a batch are logged against the model's order and summarized; the next turn is
taken up to its request. -/
def droppedRun : List LoopInput :=
  startInputs 0 ++ advances 0 [.proceed, .assembled [] [] none, .summarized none, .proceed,
    .streamEvent (.toolIntent (sampleCall "a")), .streamEvent (.toolIntent (sampleCall "b")),
    .streamEnd, .result .toolCalls, .proceed, .slot 1 (sampleAnswer "B"),
    .slot 0 (sampleAnswer "A"), .proceed, .proceed, .proceed, .proceed, .assembled [] [] none,
    .summarized (some "summary"), .proceed, .streamEnd, .result .endTurn, .proceed, .proceed,
    .proceed] ++
  startInputs 1 ++ advances 1 [.proceed, .assembled [] [] none, .summarized none, .proceed]

def LlmMessage.userContent? : LlmMessage → Option String
  | .user content => some content
  | _ => none

theorem head_projectHistory (sha256 : String → String) {message : LlmMessage}
    (rest : List LlmMessage) (policy : ToolResultCompactionPolicy) (h : message.isTool = false) :
    (projectHistory sha256 (message :: rest) policy).messages.head? = some message := by
  cases message with
  | tool => cases h
  | _ => rfl

theorem not_applies {before : List Act} {messages : List LlmMessage}
    (hnewest : (newest? (eventsOf before)).isSome)
    (hfirst : messages.head?.bind LlmMessage.userContent? = some "hello") :
    ¬ Applies o before messages := by
  rintro (⟨covered, rfl⟩ | ⟨⟨retrieved, planned, system, rfl⟩, -⟩)
  · cases hfirst
  · obtain ⟨c, hc⟩ := Option.isSome_iff_exists.mp hnewest
    rw [hc, folded] at hfirst
    cases system with
    | some content =>
      rw [Option.map_some, Option.toList_some, List.append_assoc, List.append_assoc,
        List.singleton_append, head_projectHistory _ _ _ rfl] at hfirst
      cases hfirst
    | none =>
      rw [Option.map_none, Option.toList_none, List.nil_append, List.cons_append, List.cons_append,
        head_projectHistory _ _ _ rfl] at hfirst
      have hcontent := congrArg String.toList (Option.some.inj hfirst)
      simp [String.toList_append] at hcontent

/-- The compaction is dropped from the next turn's request. -/
theorem compaction_dropped : ∃ s, (loop compactingOptions).Reaches anyStep Loop.initial s ∧
    ¬ Compacts compactingOptions s.trace := by
  obtain ⟨s, hreaches, hend⟩ := exists_reaches_of_exec_map (M := loop compactingOptions)
    (s := Loop.initial) (f := fun s => ((s.trace.getLast?.bind Act.request?).bind fun messages =>
        messages.head?.bind LlmMessage.userContent?, (newest? (eventsOf s.trace.dropLast)).isSome))
    (a := (some "hello", true)) droppedRun (by rw [loop_eq_quick]; decide +kernel)
  obtain ⟨hfirst, hnewest⟩ := Prod.mk.inj hend
  obtain ⟨messages, hrequest, hfirst⟩ := Option.bind_eq_some_iff.mp hfirst
  obtain ⟨a, hlast, ha⟩ := Option.bind_eq_some_iff.mp hrequest
  have hsplit := (List.dropLast_append_getLast? a hlast).symm
  cases a with
  | append | dispatch => cases ha
  | request turnId messages' =>
    cases ha
    exact ⟨s, hreaches, fun h => not_applies hnewest hfirst (h.applied _ turnId messages [] hsplit)⟩

end BeeAgent.Runtime
