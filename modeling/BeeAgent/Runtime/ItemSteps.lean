import BeeAgent.Runtime.Items

/-! What a step of a call makes of the items of its turn: the items that are open at each of its
awaits, and the steps that give up items they leave open. -/
namespace BeeAgent.Runtime
open BeeAgent.Data BeeAgent.Thread BeeAgent.Execution Transition Transition.Machine Ledger

variable {o : AgentLoopOptions}

def toolItem (turnId : TurnId) (intent : GenerationIntent) : Item :=
  ⟨intent.item, turnId, .toolCall (toolItemPayload intent.call)⟩

/-- The tool call of a batch that has no answer. -/
def unanswered? (slot : Slot) : Option GenerationIntent :=
  match slot.state with
  | .answered _ => none
  | _ => some slot.intent

/-- The tool call of a batch that waits for an approval. -/
def asking? (slot : Slot) : Option GenerationIntent :=
  match slot.state with
  | .suspending .. | .suspended .. => some slot.intent
  | _ => none

/-- The items that a call has open at an await, the approvals of a batch apart. -/
def itemsAt (turnId : TurnId) : Pc → List Item
  | .deciding pending _ =>
    [⟨pending.approvalItem.1, turnId, .approval pending.approvalItem.2⟩,
      ⟨pending.toolItem.1, turnId, .toolCall pending.toolItem.2⟩]
  | .approved pending _ => [⟨pending.toolItem.1, turnId, .toolCall pending.toolItem.2⟩]
  | .running _ segments => (segmentsIntents segments).map (toolItem turnId)
  | .settling _ slots segments =>
    (slots.filterMap unanswered? ++ segmentsIntents segments).map (toolItem turnId)
  | .streaming attempt | .awaitingResult attempt =>
    ⟨attempt.item, turnId, .message { role := .assistant, content := "" }⟩ ::
      attempt.intents.map (toolItem turnId)
  | _ => []

/-- The approval is asked for the tool call. -/
def AsksFor (turnId : TurnId) (intent : GenerationIntent) (approval : Item) : Prop :=
  ∃ id payload, approval = ⟨id, turnId, .approval payload⟩ ∧
    payload.callId = some intent.call.callId ∧ payload.status = .pending

/-- The approvals that a batch has open. -/
def Approvals (turnId : TurnId) (approvals : List Item) : Pc → Prop
  | .settling _ slots _ => approvals.length = (slots.filterMap asking?).length ∧
      (∀ approval ∈ approvals, ∃ intent ∈ slots.filterMap asking?, AsksFor turnId intent approval) ∧
      ∀ slot ∈ slots, ¬ slot.rejected
  | .deciding pending _ => approvals = [] ∧
      pending.approvalItem.2.callId = some pending.toolItem.2.callId ∧
      pending.approvalItem.2.status = .pending
  | _ => approvals = []

/-- The items that a live call has open are those that its await accounts for. -/
def Tracks (log : List ThreadEvent) (task : Task) : Prop :=
  ∃ approvals, (opened log task.turnId).Perm (itemsAt task.turnId task.pc ++ approvals) ∧
    Approvals task.turnId approvals task.pc

/-- Nothing of the turn is open, or a tool call that waits for its approval. -/
def Rests (log : List ThreadEvent) (turnId : TurnId) : Prop :=
  opened log turnId = [] ∨
    ∃ tool approval call payload, (opened log turnId).Perm
        [⟨approval, turnId, .approval payload⟩, ⟨tool, turnId, .toolCall call⟩] ∧
      payload.callId = some call.callId ∧ payload.status = .pending

/-- A batch that ends the call has nothing open but one call that waits for its approval. -/
def LeavesOne (slots : List Slot) (segments : List Segment) : Prop :=
  segmentsIntents segments = [] ∧ (slots.filterMap asking?).length ≤ 1 ∧
    slots.filterMap unanswered? = slots.filterMap asking?

/-- The condition on a step of a call: an attempt is thrown away only while it has asked for no
tool call, and never without its item; a cancellation leaves no tool call behind; no call is
dispatched again under a new item; and a suspension leaves its own call only. -/
def ClosesItems (o : AgentLoopOptions) (task : Task) (input : TaskInput) : Prop :=
  match task.pc, input with
  | .approved .., .tool answer => (answerResult? answer).isSome
  | .driving, _ => ¬ task.aborted → task.state.stepIndex < o.maxSteps →
      unansweredCalls task.history = []
  | .running _ segments, _ => task.aborted → segmentsIntents segments = []
  | .settling _ slots segments, .proceed => slots.filterMap asking? ≠ [] → LeavesOne slots segments
  | .settling .., .slotRejected _ => False
  | .streaming attempt, .streamEvent _ => task.aborted → attempt.intents = []
  | .awaitingResult attempt, .result .cancelled | .awaitingResult attempt, .result .maxTokens
  | .awaitingResult attempt, .resultThrown _ => attempt.intents = []
  | .streaming _, .attemptThrown _ | .awaitingResult _, .attemptThrown _ => False
  | _, _ => True

/-- The condition on a call that throws or whose process ends. -/
def Pc.Abandons : Pc → Prop
  | .approved .. | .streaming _ | .awaitingResult _ => False
  | .running _ segments => segmentsIntents segments = []
  | .settling _ slots segments => LeavesOne slots segments
  | _ => True

/-- The guard: a turn is gone on with only while no other call is live on it, every step closes what
it gives up, and a call fails only where it leaves nothing but a suspension. -/
structure ClosesAll (o : AgentLoopOptions) (s : Loop) (input : LoopInput) : Prop where
  entry : EntersIdle o s input
  step : ∀ t i task, input = .advance t i → s.tasks t = some task → ClosesItems o task i
  fail : ∀ t task, input = .fail t → s.tasks t = some task → task.pc.Abandons

section Opened
variable {log : List ThreadEvent} {turnId : TurnId}

theorem opened_append_other {es : List ThreadEvent} (h : ∀ e ∈ es, e.turnId ≠ turnId) :
    opened (log ++ es) turnId = opened log turnId := by
  rw [opened, turnEvents_append, turnEvents_other h, List.append_nil, opened]

/-- The event starts, closes and ends nothing. -/
structure Quiet (e : ThreadEvent) : Prop where
  started : startedItem? e = none
  closed : closedItemId? e = none
  ended : e.terminalTurn? = none

theorem quiet_checkpoint {stepIndex : ℕ} {stateDigest : String} :
    Quiet (.agentCheckpoint turnId stepIndex stateDigest) := ⟨rfl, rfl, rfl⟩

theorem quiet_delta {itemId : ItemId} {delta : String} : Quiet (.itemDelta turnId itemId delta) :=
  ⟨rfl, rfl, rfl⟩

theorem quiet_compacted {summary coveredDigest : String} {covered tokens : ℕ} :
    Quiet (.contextCompacted turnId summary covered coveredDigest tokens) := ⟨rfl, rfl, rfl⟩

theorem tidy_append_quiet {es : List ThreadEvent} (h : Tidy (turnEvents log turnId))
    (hes : ∀ e ∈ es, Quiet e) : Tidy (turnEvents (log ++ es) turnId) := by
  rw [turnEvents_append]
  refine h.append fun before e after heq => ?_
  have he : e ∈ turnEvents es turnId := by
    rw [heq]
    simp
  have hquiet := hes e (mem_turnEvents.mp he).1
  exact clean_of_quiet hquiet.started hquiet.closed hquiet.ended

theorem opened_append_quiet {es : List ThreadEvent} (hes : ∀ e ∈ es, Quiet e) :
    opened (log ++ es) turnId = opened log turnId := by
  rw [opened, turnEvents_append, Account.opened, List.foldl_append, opened, Account.opened]
  have hown : ∀ e ∈ turnEvents es turnId, Quiet e := fun e he => hes e (mem_turnEvents.mp he).1
  revert hown
  induction turnEvents es turnId using List.reverseRecOn with
  | nil => exact fun _ => rfl
  | append_singleton own e ih =>
    intro hown
    have hquiet := hown e (by simp)
    rw [List.foldl_append, ih fun e' he' => hown e' (by simp [he'])]
    exact Account.post_quiet hquiet.started hquiet.closed

theorem turnEvents_concat {e : ThreadEvent} (h : e.turnId = turnId) :
    turnEvents (log ++ [e]) turnId = turnEvents log turnId ++ [e] := by
  have hself : turnEvents [e] turnId = [e] := turnEvents_self (by simpa using h)
  rw [turnEvents_append, hself]

theorem opens_item {item : Item} (h : Tidy (turnEvents log turnId)) (hturn : item.turnId = turnId)
    (hfresh : ∀ item', .itemStarted item' ∈ log → item'.id ≠ item.id) :
    Tidy (turnEvents (log ++ [.itemStarted item]) turnId) ∧
      opened (log ++ [.itemStarted item]) turnId = opened log turnId ++ [item] := by
  have hsplit : turnEvents (log ++ [.itemStarted item]) turnId =
      turnEvents log turnId ++ [.itemStarted item] := turnEvents_concat hturn
  have hnew : item.id ∉ items.openedKeys (turnEvents log turnId) := by
    intro hmem
    obtain ⟨item', hitem', hid⟩ := List.mem_map.mp hmem
    obtain ⟨e, he, hstarted⟩ := List.mem_filterMap.mp hitem'
    refine hfresh item' ?_ hid
    have heq : e = .itemStarted item' := by
      cases e <;> cases hstarted
      rfl
    exact heq ▸ (mem_turnEvents.mp he).1
  rw [hsplit, opened, hsplit, Account.opened_concat]
  exact ⟨h.concat (clean_of_started hnew), Account.post_opens rfl rfl⟩

theorem completes_item {item open' : Item} {rest : List Item} (h : Tidy (turnEvents log turnId))
    (hturn : item.turnId = turnId) (hperm : (opened log turnId).Perm (open' :: rest))
    (hid : open'.id = item.id) :
    Tidy (turnEvents (log ++ [.itemCompleted item]) turnId) ∧
      (opened (log ++ [.itemCompleted item]) turnId).Perm rest := by
  have hsplit : turnEvents (log ++ [.itemCompleted item]) turnId =
      turnEvents log turnId ++ [.itemCompleted item] := turnEvents_concat hturn
  have hopen : open' ∈ opened log turnId := hperm.mem_iff.mpr (List.mem_cons_self ..)
  rw [hsplit, opened, hsplit, Account.opened_concat]
  exact ⟨h.concat (clean_of_completed ⟨open', hopen, hid⟩),
    Account.post_closes rfl (congrArg some hid.symm) h.fair.opened_keys_nodup hperm⟩

theorem fails_item {message : Item} {rest : List Item} {error : String}
    (h : Tidy (turnEvents log turnId)) (hperm : (opened log turnId).Perm (message :: rest))
    (hmessage : isMessage message) :
    Tidy (turnEvents (log ++ [.itemFailed turnId message.id error]) turnId) ∧
      (opened (log ++ [.itemFailed turnId message.id error]) turnId).Perm rest := by
  have hsplit : turnEvents (log ++ [.itemFailed turnId message.id error]) turnId =
      turnEvents log turnId ++ [.itemFailed turnId message.id error] := turnEvents_concat rfl
  have hopen : message ∈ opened log turnId := hperm.mem_iff.mpr (List.mem_cons_self ..)
  rw [hsplit, opened, hsplit, Account.opened_concat]
  exact ⟨h.concat (clean_of_failed ⟨message, hopen, rfl, hmessage⟩),
    Account.post_closes rfl rfl h.fair.opened_keys_nodup hperm⟩

theorem ends_turn {e : ThreadEvent} {turn : Turn} (h : Tidy (turnEvents log turnId))
    (hturn : e.turnId = turnId) (hended : e.terminalTurn? = some turn)
    (hnone : opened log turnId = []) :
    Tidy (turnEvents (log ++ [e]) turnId) ∧ opened (log ++ [e]) turnId = [] := by
  have hstarted : startedItem? e = none := by cases e <;> first | rfl | cases hended
  have hclosed : closedItemId? e = none := by cases e <;> first | rfl | cases hended
  have hclean : Clean (turnEvents log turnId) e := by
    refine ⟨⟨fun x hx => (by cases hstarted.symm.trans hx),
      fun k hk => (by cases hclosed.symm.trans hk)⟩, ?_, fun _ _ => hnone⟩
    rintro turnId' id error rfl
    cases hended
  rw [turnEvents_concat hturn, opened, turnEvents_concat hturn, Account.opened_concat]
  refine ⟨h.concat hclean, ?_⟩
  rw [Account.post_quiet hstarted hclosed]
  exact hnone

end Opened

section Step
variable {log : List ThreadEvent} {nextId : ℕ} {task task' : Task} {input : TaskInput}
  {step : TaskStep}

/-- What a step makes of the items of its turn. -/
structure Goes (log : List ThreadEvent) (task : Task) (step : TaskStep) : Prop where
  tidy : Tidy (turnEvents (log ++ eventsOf step.acts) task.turnId)
  tracks : ∀ task', step.next = .continue task' → Tracks (log ++ eventsOf step.acts) task'
  rests : ∀ result, step.next = .settle result → Rests (log ++ eventsOf step.acts) task.turnId

def Pc.settles : Pc → Bool
  | .settling .. => true
  | _ => false

theorem Tracks.perm (h : Tracks log task) (hpc : task.pc.settles = false) :
    (opened log task.turnId).Perm (itemsAt task.turnId task.pc) := by
  obtain ⟨approvals, hperm, happrovals⟩ := h
  have hnone : approvals = [] := by
    cases hp : task.pc <;> simp_all [Approvals, Pc.settles]
  rwa [hnone, List.append_nil] at hperm

theorem tracks_of_perm (hpc : Approvals task.turnId [] task.pc)
    (h : (opened log task.turnId).Perm (itemsAt task.turnId task.pc)) : Tracks log task :=
  ⟨[], by rwa [List.append_nil], hpc⟩

theorem Goes.of_perm (hnext : step.next = .continue task') (hturn : task'.turnId = task.turnId)
    (hpc : Approvals task'.turnId [] task'.pc)
    (h : Tidy (turnEvents (log ++ eventsOf step.acts) task.turnId) ∧
      (opened (log ++ eventsOf step.acts) task.turnId).Perm (itemsAt task.turnId task'.pc)) :
    Goes log task step where
  tidy := h.1
  tracks task₂ hnext₂ := by
    rw [hnext] at hnext₂
    cases hnext₂
    refine tracks_of_perm hpc ?_
    rw [hturn]
    exact h.2
  rests result hsettle := by
    rw [hnext] at hsettle
    cases hsettle

theorem Goes.quietly (htidy : Tidy (turnEvents log task.turnId))
    (hes : ∀ e ∈ eventsOf step.acts, Quiet e) (hnext : step.next = .continue task')
    (hturn : task'.turnId = task.turnId) (hpc : Approvals task'.turnId [] task'.pc)
    (h : (opened log task.turnId).Perm (itemsAt task.turnId task'.pc)) : Goes log task step :=
  .of_perm hnext hturn hpc ⟨tidy_append_quiet htidy hes, by rwa [opened_append_quiet hes]⟩

theorem not_rejected_set {slots : List Slot} {index : ℕ} {slot : Slot}
    (h : ∀ slot ∈ slots, ¬ slot.rejected) (hslot : ¬ slot.rejected) :
    ∀ slot' ∈ slots.set index slot, ¬ slot'.rejected := by
  intro slot' hmem
  obtain hmem | rfl := List.mem_or_eq_of_mem_set hmem
  · exact h slot' hmem
  · exact hslot

section Batch
variable {after : AfterIntents} {slots : List Slot} {segments : List Segment} {index : ℕ}
  {slot : Slot}

theorem Tracks.answer (h : Tracks log task) (htidy : Tidy (turnEvents log task.turnId))
    (hpc : task.pc = .settling after slots segments) (hslot : slots[index]? = some slot)
    (hs : slot.state = .executing) {item : Item} (hturn : item.turnId = task.turnId)
    (hid : slot.intent.item = item.id) (message : LlmMessage) :
    Tidy (turnEvents (log ++ [.itemCompleted item]) task.turnId) ∧
      Tracks (log ++ [.itemCompleted item]) (task.goto
        (.settling after (slots.set index { slot with state := .answered message }) segments)) := by
  obtain ⟨approvals, hperm, happrovals⟩ := h
  simp only [hpc, Approvals, itemsAt] at hperm happrovals
  obtain ⟨hlength, hasks, hrejected⟩ := happrovals
  obtain ⟨hold, hnew⟩ := filterMap_set unanswered? hslot { slot with state := .answered message }
  obtain ⟨holdAsking, hnewAsking⟩ :=
    filterMap_set asking? hslot { slot with state := .answered message }
  have hsame : (slots.set index { slot with state := .answered message }).filterMap asking? =
      slots.filterMap asking? := by
    rw [hnewAsking, holdAsking]
    simp [asking?, hs]
  have hopen : (opened log task.turnId).Perm (toolItem task.turnId slot.intent ::
      (((slots.set index { slot with state := .answered message }).filterMap unanswered? ++
        segmentsIntents segments).map (toolItem task.turnId) ++ approvals)) := by
    refine hperm.trans ?_
    rw [hold, hnew]
    simp only [unanswered?, hs, Option.toList_some, Option.toList_none, List.append_nil,
      List.map_append, List.append_assoc, List.map_cons, List.cons_append, List.nil_append]
    exact List.perm_middle
  obtain ⟨htidy', hperm'⟩ := completes_item htidy hturn hopen hid
  refine ⟨htidy', approvals, hperm', ?_, ?_, not_rejected_set hrejected (by simp [Slot.rejected])⟩
  · rw [hsame]
    exact hlength
  · rw [hsame]
    exact hasks

theorem Tracks.ask (h : Tracks log task) (htidy : Tidy (turnEvents log task.turnId))
    (hfresh : ∀ item, .itemStarted item ∈ log → item.id < nextId)
    (hpc : task.pc = .settling after slots segments) (hslot : slots[index]? = some slot)
    (hs : slot.state = .executing) {payload : ApprovalItemPayload}
    (hcallId : payload.callId = some slot.intent.call.callId)
    (hpending : payload.status = .pending) (approvalId title : String) :
    Tidy (turnEvents (log ++ [.itemStarted ⟨nextId, task.turnId, .approval payload⟩]) task.turnId) ∧
      Tracks (log ++ [.itemStarted ⟨nextId, task.turnId, .approval payload⟩])
        (task.goto (.settling after
          (slots.set index { slot with state := .suspending approvalId title }) segments)) := by
  obtain ⟨approvals, hperm, happrovals⟩ := h
  simp only [hpc, Approvals, itemsAt] at hperm happrovals
  obtain ⟨hlength, hasks, hrejected⟩ := happrovals
  obtain ⟨hold, hnew⟩ :=
    filterMap_set unanswered? hslot { slot with state := .suspending approvalId title }
  obtain ⟨holdAsking, hnewAsking⟩ :=
    filterMap_set asking? hslot { slot with state := .suspending approvalId title }
  have hsame : (slots.set index { slot with state := .suspending approvalId title }).filterMap
      unanswered? = slots.filterMap unanswered? := by
    rw [hnew, hold]
    simp [unanswered?, hs]
  have hasking : ((slots.set index { slot with state := .suspending approvalId title }).filterMap
      asking?).Perm (slot.intent :: slots.filterMap asking?) := by
    rw [hnewAsking, holdAsking]
    simp only [asking?, hs, Option.toList_some, Option.toList_none, List.append_nil,
      List.append_assoc, List.cons_append, List.nil_append]
    exact List.perm_middle
  have hturn : (⟨nextId, task.turnId, .approval payload⟩ : Item).turnId = task.turnId := rfl
  obtain ⟨htidy', hopen⟩ :=
    opens_item htidy hturn fun item hitem => Nat.ne_of_lt (hfresh item hitem)
  refine ⟨htidy', approvals ++ [⟨nextId, task.turnId, .approval payload⟩], ?_, ?_, ?_,
    not_rejected_set hrejected (by simp [Slot.rejected])⟩
  · show (opened _ task.turnId).Perm _
    rw [hopen, ← List.append_assoc]
    simp only [itemsAt, Task.pc_goto, hsame]
    exact hperm.append_right _
  · rw [hasking.length_eq, List.length_append, hlength]
    rfl
  · intro approval hmem
    obtain hmem | hmem := List.mem_append.mp hmem
    · obtain ⟨intent, hintent, hask⟩ := hasks approval hmem
      exact ⟨intent, hasking.mem_iff.mpr (List.mem_cons_of_mem _ hintent), hask⟩
    · rw [List.mem_singleton.mp hmem]
      exact ⟨slot.intent, hasking.mem_iff.mpr (List.mem_cons_self ..), nextId, payload, rfl,
        hcallId, hpending⟩

theorem Tracks.suspend (h : Tracks log task) {es : List ThreadEvent} (hes : ∀ e ∈ es, Quiet e)
    (hpc : task.pc = .settling after slots segments) (hslot : slots[index]? = some slot)
    {approvalId title : String} (hs : slot.state = .suspending approvalId title) :
    Tracks (log ++ es) (task.goto (.settling after
      (slots.set index { slot with state := .suspended approvalId title }) segments)) := by
  obtain ⟨approvals, hperm, happrovals⟩ := h
  simp only [hpc, Approvals, itemsAt] at hperm happrovals
  obtain ⟨hlength, hasks, hrejected⟩ := happrovals
  obtain ⟨hold, hnew⟩ :=
    filterMap_set unanswered? hslot { slot with state := .suspended approvalId title }
  obtain ⟨holdAsking, hnewAsking⟩ :=
    filterMap_set asking? hslot { slot with state := .suspended approvalId title }
  have hunanswered : (slots.set index { slot with state := .suspended approvalId title }).filterMap
      unanswered? = slots.filterMap unanswered? := by
    rw [hnew, hold]
    simp [unanswered?, hs]
  have hasking : (slots.set index { slot with state := .suspended approvalId title }).filterMap
      asking? = slots.filterMap asking? := by
    rw [hnewAsking, holdAsking]
    simp [asking?, hs]
  refine ⟨approvals, ?_, ?_, ?_, not_rejected_set hrejected (by simp [Slot.rejected])⟩
  · rw [opened_append_quiet hes]
    simp only [itemsAt, Task.pc_goto, hunanswered]
    exact hperm
  · rw [hasking]
    exact hlength
  · rw [hasking]
    exact hasks

/-- A batch that ends the call leaves a call that waits for its approval, or nothing. -/
theorem Tracks.rests (h : Tracks log task) (hpc : task.pc = .settling after slots segments)
    (hleaves : LeavesOne slots segments) : Rests log task.turnId := by
  obtain ⟨approvals, hperm, happrovals⟩ := h
  simp only [hpc, Approvals, itemsAt] at hperm happrovals
  obtain ⟨hlength, hasks, -⟩ := happrovals
  obtain ⟨hsegments, hone, hunanswered⟩ := hleaves
  rw [hsegments, List.append_nil, hunanswered] at hperm
  cases hasking : slots.filterMap asking? with
  | nil =>
    rw [hasking] at hlength hperm
    rw [List.length_eq_zero_iff.mp hlength] at hperm
    exact .inl (List.perm_nil.mp hperm)
  | cons intent rest =>
    rw [hasking] at hlength hperm hasks hone
    obtain rfl : rest = [] := List.length_eq_zero_iff.mp (by simpa using hone)
    obtain ⟨approval, rfl⟩ := List.length_eq_one_iff.mp hlength
    obtain ⟨_, hmem, id, payload, rfl, hcallId, hpending⟩ := hasks approval (by simp)
    rw [List.mem_singleton] at hmem
    subst hmem
    refine .inr ⟨_, id, _, payload, hperm.trans (List.Perm.swap _ _ _), hcallId, hpending⟩

end Batch

theorem eventsOf_dispatches (turnId : TurnId) (batch : List GenerationIntent) :
    eventsOf (batch.filterMap (dispatchOf? turnId)) = [] := by
  refine List.filterMap_eq_nil_iff.mpr fun a ha => ?_
  obtain ⟨intent, -, ha⟩ := List.mem_filterMap.mp ha
  unfold dispatchOf? at ha
  split at ha <;> cases ha
  rfl

theorem slotStep_goes {after : AfterIntents} {slots : List Slot} {segments : List Segment}
    {index : ℕ} {slot : Slot} {acts : List Act} {state : SlotState} {drawn : ℕ}
    (h : Tracks log task) (htidy : Tidy (turnEvents log task.turnId))
    (hfresh : ∀ item, .itemStarted item ∈ log → item.id < nextId)
    (hpc : task.pc = .settling after slots segments) (hslot : slots[index]? = some slot)
    (hinput : ∀ index, input ≠ .slotRejected index)
    (hstep : slotStep o nextId task slot input = some (acts, state, drawn)) :
    Tidy (turnEvents (log ++ eventsOf acts) task.turnId) ∧ Tracks (log ++ eventsOf acts)
      (task.goto (.settling after (slots.set index { slot with state }) segments)) := by
  cases input with
  | slot index answer =>
    simp only [slotStep] at hstep
    split at hstep
    · next hs _ =>
      split at hstep <;> cases hstep
      · exact h.ask htidy hfresh hpc hslot hs rfl rfl _ _
      · exact h.answer htidy hpc hslot hs rfl rfl _
      · exact h.answer htidy hpc hslot hs rfl rfl _
    · cases hstep
  | slotRecorded index =>
    simp only [slotStep] at hstep
    split at hstep <;> cases hstep
    · next hs _ => exact h.answer htidy hpc hslot hs rfl rfl _
    · next hs =>
      have hquiet : ∀ e ∈ eventsOf [.append (checkpointEvent o task)], Quiet e := by
        simp [eventsOf, Act.event?, checkpointEvent, quiet_checkpoint]
      exact ⟨tidy_append_quiet htidy hquiet, h.suspend hquiet hpc hslot hs⟩
  | slotRejected index => exact absurd rfl (hinput index)
  | _ => cases hstep

theorem driveStep_goes (h : Tracks log task) (htidy : Tidy (turnEvents log task.turnId))
    (hpc : task.pc = .driving) (hguard : ¬ task.aborted → task.state.stepIndex < o.maxSteps →
      unansweredCalls task.history = []) : Goes log task (driveStep o nextId task) := by
  have hopen := h.perm (by rw [hpc]; rfl)
  rw [hpc] at hopen
  rw [driveStep]
  split
  · exact .quietly htidy (by simp [eventsOf]) rfl rfl rfl hopen
  next haborted =>
  split
  · exact .quietly htidy (by simp [eventsOf]) rfl rfl rfl hopen
  next hsteps =>
  split
  · exact .quietly htidy (by simp [eventsOf]) rfl rfl rfl hopen
  · next hsome =>
    refine absurd ?_ hsome
    rw [unansweredIntents, hguard haborted (Nat.lt_of_not_le hsteps)]
    rfl

theorem runningStep_goes {after : AfterIntents} {segments : List Segment} (h : Tracks log task)
    (htidy : Tidy (turnEvents log task.turnId)) (hpc : task.pc = .running after segments)
    (hguard : task.aborted → segmentsIntents segments = []) :
    Goes log task (runningStep o task after segments) := by
  have hopen := h.perm (by rw [hpc]; rfl)
  rw [hpc, itemsAt] at hopen
  rw [runningStep]
  split
  · next hnone =>
    rw [nextBatch_none o hnone] at hopen
    exact .quietly htidy (by simp [eventsOf]) rfl rfl rfl hopen
  next batch rest hbatch =>
  split
  · next haborted =>
    rw [hguard haborted] at hopen
    exact .quietly htidy (by simp [eventsOf]) rfl rfl rfl hopen
  · have hnone : eventsOf (batch.filterMap (dispatchOf? task.turnId)) = [] :=
      eventsOf_dispatches task.turnId batch
    have hunanswered : (batch.map fun i => (⟨i, .executing⟩ : Slot)).filterMap unanswered? =
        batch := by
      rw [List.filterMap_map]
      exact List.filterMap_some
    have hasking : (batch.map fun i => (⟨i, .executing⟩ : Slot)).filterMap asking? = [] := by
      rw [List.filterMap_map]
      exact List.filterMap_eq_nil_iff.mpr fun _ _ => rfl
    refine ⟨?_, fun task' hnext => ?_, fun result hsettle => by cases hsettle⟩
    · rw [hnone, List.append_nil]
      exact htidy
    · cases hnext
      rw [hnone, List.append_nil]
      refine ⟨[], ?_, ?_, by simp, ?_⟩
      · rw [List.append_nil]
        simp only [Task.turnId_goto, Task.pc_goto, itemsAt, hunanswered]
        rwa [← nextBatch_some o hbatch]
      · rw [hasking]
        rfl
      · intro slot hslot
        obtain ⟨i, -, rfl⟩ := List.mem_map.mp hslot
        simp [Slot.rejected]

theorem commitStep_goes {after : AfterIntents} {slots : List Slot} {segments : List Segment}
    (h : Tracks log task) (htidy : Tidy (turnEvents log task.turnId))
    (hpc : task.pc = .settling after slots segments) (hsettled : slots.all Slot.settled)
    (hguard : slots.filterMap asking? ≠ [] → LeavesOne slots segments) :
    Goes log task (commitStep task after slots segments) := by
  obtain ⟨approvals, hperm, happrovals⟩ := id h
  simp only [hpc, Approvals, itemsAt] at hperm happrovals
  obtain ⟨hlength, -, hrejected⟩ := happrovals
  rw [commitStep]
  split
  · next hany =>
    obtain ⟨slot, hslot, hr⟩ := List.any_eq_true.mp hany
    exact absurd hr (hrejected slot hslot)
  split
  · next approvalId title hsome =>
    obtain ⟨slot, hslot, hsuspension⟩ := List.exists_of_findSome?_eq_some hsome
    have hasks : asking? slot = some slot.intent := by
      unfold suspension? at hsuspension
      unfold asking?
      split at hsuspension
      · next hs => simp [hs]
      · cases hsuspension
    have hleaves := hguard (List.ne_nil_of_mem (List.mem_filterMap.mpr ⟨slot, hslot, hasks⟩))
    refine ⟨by simpa [eventsOf] using htidy, fun _ hnext => (by cases hnext), fun _ _ => ?_⟩
    simpa [eventsOf] using h.rests hpc hleaves
  · next hsuspension =>
    have hanswered : ∀ slot ∈ slots, ∃ message, slot.state = .answered message := by
      intro slot hslot
      have hs := List.all_eq_true.mp hsettled slot hslot
      have hr := hrejected slot hslot
      have hu := List.findSome?_eq_none_iff.mp hsuspension slot hslot
      cases hstate : slot.state with
      | answered message => exact ⟨message, rfl⟩
      | executing | suspending => simp [Slot.settled, hstate] at hs
      | suspended => simp [suspension?, hstate] at hu
      | rejected => simp [Slot.rejected, hstate] at hr
    have hunanswered : slots.filterMap unanswered? = [] :=
      List.filterMap_eq_nil_iff.mpr fun slot hslot => by
        obtain ⟨message, hs⟩ := hanswered slot hslot
        simp [unanswered?, hs]
    have hasking : slots.filterMap asking? = [] :=
      List.filterMap_eq_nil_iff.mpr fun slot hslot => by
        obtain ⟨message, hs⟩ := hanswered slot hslot
        simp [asking?, hs]
    rw [hasking] at hlength
    rw [hunanswered, List.length_eq_zero_iff.mp hlength, List.nil_append, List.append_nil] at hperm
    exact .quietly htidy (by simp [eventsOf]) rfl rfl rfl hperm

theorem checkpointStep_goes {after : AfterIntents} (h : Tracks log task)
    (htidy : Tidy (turnEvents log task.turnId)) (hpc : task.pc = .checkpointing after) :
    Goes log task (checkpointStep o task after) := by
  have hopen := h.perm (by rw [hpc]; rfl)
  rw [hpc] at hopen
  have hquiet : ∀ e ∈ eventsOf (checkpointStep o task after).acts, Quiet e := by
    simp [checkpointStep, eventsOf, Act.event?, checkpointEvent, quiet_checkpoint]
  cases after with
  | recovered => exact .quietly htidy hquiet rfl rfl rfl hopen
  | generated stopReason output =>
    cases stopReason <;> exact .quietly htidy hquiet rfl rfl rfl hopen

theorem attemptCaught_items (retry : ℕ) (messages : List LlmMessage) (error : LoopError) :
    (attemptCaught o task retry messages error).turnId = task.turnId ∧
      Approvals task.turnId [] (attemptCaught o task retry messages error).pc ∧
      itemsAt task.turnId (attemptCaught o task retry messages error).pc = [] := by
  unfold attemptCaught
  split
  · exact ⟨rfl, rfl, rfl⟩
  split <;> exact ⟨rfl, rfl, rfl⟩

theorem Tracks.fails (h : Tracks log task) (htidy : Tidy (turnEvents log task.turnId))
    {attempt : Attempt} (hpc : task.pc = .streaming attempt ∨ task.pc = .awaitingResult attempt)
    (hintents : attempt.intents = []) (error : String) :
    Tidy (turnEvents (log ++ eventsOf [itemFailedAct task attempt error]) task.turnId) ∧
      (opened (log ++ eventsOf [itemFailedAct task attempt error]) task.turnId).Perm [] := by
  have hopen : (opened log task.turnId).Perm
      [⟨attempt.item, task.turnId, .message { role := .assistant, content := "" }⟩] := by
    obtain hpc | hpc := hpc <;>
    · have hopen := h.perm (by rw [hpc]; rfl)
      rw [hpc, itemsAt, hintents] at hopen
      exact hopen
  exact fails_item htidy hopen rfl

theorem streamStep_goes {attempt : Attempt} {event : LlmStreamEvent} (h : Tracks log task)
    (htidy : Tidy (turnEvents log task.turnId))
    (hfresh : ∀ item, .itemStarted item ∈ log → item.id < nextId)
    (hpc : task.pc = .streaming attempt) :
    Goes log task (streamStep nextId task attempt event) := by
  have hopen := h.perm (by rw [hpc]; rfl)
  rw [hpc] at hopen
  cases event with
  | messageDelta delta =>
    simp only [streamStep]
    split
    · refine .quietly htidy ?_ rfl rfl rfl hopen
      simp [eventsOf, Act.event?, quiet_delta]
    · exact .quietly htidy (by simp [eventsOf]) rfl rfl rfl hopen
  | decision decision => exact .quietly htidy (by simp [streamStep, eventsOf]) rfl rfl rfl hopen
  | toolIntent call =>
    have hopens := opens_item htidy (rfl : (toolItem task.turnId ⟨call, nextId⟩).turnId = _)
      fun item hitem => Nat.ne_of_lt (hfresh item hitem)
    refine .of_perm rfl rfl rfl ⟨hopens.1, ?_⟩
    show (opened (log ++ [.itemStarted (toolItem task.turnId ⟨call, nextId⟩)]) task.turnId).Perm _
    rw [hopens.2]
    simp only [Task.pc_goto, itemsAt, List.map_append, List.map_cons, List.map_nil]
    exact hopen.append_right _

theorem resultStep_goes {attempt : Attempt} {stopReason : StopReason} (h : Tracks log task)
    (htidy : Tidy (turnEvents log task.turnId)) (hpc : task.pc = .awaitingResult attempt)
    (hguard : stopReason = .cancelled ∨ stopReason = .maxTokens → attempt.intents = []) :
    Goes log task (resultStep o task attempt stopReason) := by
  have hrecords : ∀ after, Goes log task
      { acts := [.append (.itemCompleted (assistantItem task.turnId attempt
          (assistantPayload attempt)))]
        next := .continue ((task.push [assistantMessage attempt]).goto
          (.running after (segmentIntents o attempt.intents))) } := by
    intro after
    have hopen := h.perm (by rw [hpc]; rfl)
    rw [hpc] at hopen
    have hcompletes := completes_item htidy
      (rfl : (assistantItem task.turnId attempt (assistantPayload attempt)).turnId = _) hopen rfl
    refine .of_perm rfl rfl rfl ⟨hcompletes.1, ?_⟩
    simp only [Task.pc_goto, itemsAt, segmentsIntents_segmentIntents]
    exact hcompletes.2
  cases stopReason with
  | cancelled =>
    have hfails := h.fails htidy (.inr hpc) (hguard (.inl rfl)) "cancelled"
    exact .of_perm rfl rfl rfl hfails
  | maxTokens =>
    have hfails := h.fails htidy (.inr hpc) (hguard (.inr rfl))
    simp only [resultStep]
    split
    · exact .of_perm rfl rfl rfl (hfails _)
    · exact .of_perm rfl rfl rfl (hfails _)
  | endTurn | toolCalls | decision => exact hrecords _

theorem resultThrownStep_goes {attempt : Attempt} {error : LoopError} (h : Tracks log task)
    (htidy : Tidy (turnEvents log task.turnId)) (hpc : task.pc = .awaitingResult attempt)
    (hguard : attempt.intents = []) : Goes log task (resultThrownStep o task attempt error) := by
  have hfails := h.fails htidy (.inr hpc) hguard error.message
  rw [resultThrownStep]
  split
  · exact .of_perm rfl rfl rfl hfails
  split
  · exact .of_perm rfl rfl rfl hfails
  · exact .of_perm rfl rfl rfl hfails
  · obtain ⟨hturn, hnone, hitems⟩ :=
      attemptCaught_items attempt.retry attempt.messages error
    exact .of_perm rfl hturn (hturn ▸ hnone) ⟨hfails.1, by rw [hitems]; exact hfails.2⟩

/-- A step that closes what it gives up keeps the items of its turn in order. -/
theorem taskStep_goes (h : Tracks log task) (htidy : Tidy (turnEvents log task.turnId))
    (hfresh : ∀ item, .itemStarted item ∈ log → item.id < nextId)
    (hguard : ClosesItems o task input)
    (hstep : taskStep o log nextId task input = some step) : Goes log task step := by
  have hstill : ∀ {task' : Task} {acts : List Act} {drawn : ℕ},
      (∀ e ∈ eventsOf acts, Quiet e) → task.pc.settles = false → task'.turnId = task.turnId →
      Approvals task'.turnId [] task'.pc →
      itemsAt task.turnId task'.pc = itemsAt task.turnId task.pc →
      Goes log task { acts, next := .continue task', drawn } :=
    fun hquiet hpc hturn hpc' hitems =>
      .quietly htidy hquiet rfl hturn hpc' (by rw [hitems]; exact h.perm hpc)
  rw [taskStep.eq_def] at hstep
  split at hstep
  · next hpc =>
    cases hstep
    exact hstill (by simp [eventsOf]) (by rw [hpc]; rfl) rfl rfl (by rw [hpc]; rfl)
  · next hpc =>
    cases hstep
    have hopen := h.perm (by rw [hpc]; rfl)
    rw [hpc] at hopen
    have hopens := opens_item htidy (rfl : (⟨nextId, task.turnId, .message
      { role := .user, content := task.state.turn.input }⟩ : Item).turnId = task.turnId)
      fun item hitem => Nat.ne_of_lt (hfresh item hitem)
    have hnone : opened log task.turnId = [] := List.perm_nil.mp hopen
    have hcompletes := completes_item hopens.1 (rfl : (⟨nextId, task.turnId, .message
      { role := .user, content := task.state.turn.input }⟩ : Item).turnId = task.turnId)
      (by rw [hopens.2, hnone]; exact List.Perm.refl _) rfl
    rw [List.append_assoc] at hcompletes
    exact .of_perm rfl rfl rfl hcompletes
  · next hpc =>
    cases hstep
    have hopen := h.perm (by rw [hpc]; rfl)
    rw [hpc] at hopen
    exact .of_perm rfl rfl rfl (completes_item htidy rfl hopen rfl)
  · next pending _ answer hpc =>
    have hopen := h.perm (by rw [hpc]; rfl)
    rw [hpc] at hopen
    simp only [ClosesItems, hpc] at hguard
    split at hstep
    · cases hstep
      exact .of_perm rfl rfl rfl (completes_item htidy rfl hopen rfl)
    · next hnone => simp [hnone] at hguard
  · next hpc =>
    cases hstep
    simp only [ClosesItems, hpc] at hguard
    exact driveStep_goes h htidy hpc hguard
  · next hpc =>
    cases hstep
    simp only [ClosesItems, hpc] at hguard
    exact runningStep_goes h htidy hpc hguard
  · next hpc =>
    simp only [ClosesItems, hpc] at hguard
    split at hstep <;> cases hstep
    next hsettled => exact commitStep_goes h htidy hpc hsettled hguard
  · next input _ _ _ _ _ hpc hproceed =>
    split at hstep <;> [cases hstep; skip]
    next index hindex =>
    split at hstep <;> [cases hstep; skip]
    next slot hslot =>
    split at hstep <;> cases hstep
    next acts state drawn hstep =>
    have hinput : ∀ index, input ≠ .slotRejected index := by
      rintro index rfl
      simp only [ClosesItems, hpc] at hguard
    have hgoes := slotStep_goes h htidy hfresh hpc hslot hinput hstep
    refine ⟨hgoes.1, fun task' hnext => ?_, fun _ hsettle => by cases hsettle⟩
    cases hnext
    exact hgoes.2
  · next hpc =>
    cases hstep
    exact checkpointStep_goes h htidy hpc
  · next hpc =>
    split at hstep <;> cases hstep <;>
      exact hstill (by simp [eventsOf, Act.event?]) (by rw [hpc]; rfl) rfl rfl (by rw [hpc]; rfl)
  · next hpc =>
    split at hstep <;> cases hstep
    · exact hstill (by simp [eventsOf]) (by rw [hpc]; rfl) rfl rfl (by rw [hpc]; rfl)
    · exact hstill (by simp [eventsOf, Act.event?, quiet_compacted]) (by rw [hpc]; rfl) rfl rfl
        (by rw [hpc]; rfl)
  · next hpc =>
    split at hstep <;> cases hstep
    · exact hstill (by simp [eventsOf]) (by rw [hpc]; rfl) rfl rfl (by rw [hpc]; rfl)
    · have hopen := h.perm (by rw [hpc]; rfl)
      rw [hpc] at hopen
      have hopens := opens_item htidy (rfl : (⟨nextId, task.turnId, .message
        { role := .assistant, content := "" }⟩ : Item).turnId = task.turnId)
        fun item hitem => Nat.ne_of_lt (hfresh item hitem)
      rw [List.perm_nil.mp hopen] at hopens
      exact .of_perm rfl rfl rfl ⟨hopens.1, List.Perm.of_eq hopens.2⟩
  · next retry messages error hpc =>
    cases hstep
    obtain ⟨hturn, hnone, hitems⟩ :=
      attemptCaught_items retry messages error
    exact hstill (by simp [eventsOf]) (by rw [hpc]; rfl) hturn (hturn ▸ hnone)
      (by rw [hitems, hpc]; rfl)
  · next attempt event hpc =>
    simp only [ClosesItems, hpc] at hguard
    split at hstep <;> cases hstep
    · next haborted => exact .of_perm rfl rfl rfl (h.fails htidy (.inl hpc) (hguard haborted) _)
    · exact streamStep_goes h htidy hfresh hpc
  · next attempt hpc =>
    cases hstep
    refine hstill ?_ (by rw [hpc]; rfl) rfl rfl (by rw [hpc]; rfl)
    split <;> simp [eventsOf, Act.event?, quiet_delta]
  · next attempt stopReason hpc =>
    cases hstep
    refine resultStep_goes h htidy hpc ?_
    rintro (rfl | rfl) <;> simpa only [ClosesItems, hpc] using hguard
  · next attempt error hpc =>
    cases hstep
    simp only [ClosesItems, hpc] at hguard
    exact resultThrownStep_goes h htidy hpc hguard
  · next hpc => simp only [ClosesItems, hpc] at hguard
  · next hpc => simp only [ClosesItems, hpc] at hguard
  · next terminal hpc =>
    cases hstep
    have hopen := h.perm (by rw [hpc]; rfl)
    rw [hpc] at hopen
    have hends : Tidy (turnEvents (log ++ [(terminate task.state.turn terminal).1]) task.turnId) ∧
        opened (log ++ [(terminate task.state.turn terminal).1]) task.turnId = [] := by
      cases terminal <;> exact ends_turn htidy rfl rfl (List.perm_nil.mp hopen)
    exact ⟨hends.1, fun _ hnext => (by cases hnext), fun _ _ => .inl hends.2⟩
  · cases hstep

end Step

end BeeAgent.Runtime
