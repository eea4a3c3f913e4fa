import BeeAgent.Pairing.Ledger
import BeeAgent.Runtime.Exclusive

/-! The tool calls that a history leaves unanswered, how the loop's search for them compares, and
what each step of a call answers or adds. -/
namespace BeeAgent.Runtime
open BeeAgent.Data BeeAgent.Thread BeeAgent.Execution Pairing

variable {o : AgentLoopOptions}

/-- A message as an entry under call ids. -/
def LlmMessage.kind (message : LlmMessage) : Kind String :=
  match message with
  | .system _ => .neutral
  | .user _ => .plain
  | .assistant .. =>
    if message.calls.isEmpty then .plain else .ask (message.calls.map ToolCall.callId)
  | .tool callId .. => .answer callId

def kinds (messages : List LlmMessage) : List (Kind String) := messages.map LlmMessage.kind

def owed (messages : List LlmMessage) : List String := outstanding [] (kinds messages)

def answeredIds (messages : List LlmMessage) : List String :=
  messages.filterMap LlmMessage.answeredCallId?

@[simp] theorem kinds_append (messages messages' : List LlmMessage) :
    kinds (messages ++ messages') = kinds messages ++ kinds messages' :=
  List.map_append

@[simp] theorem owed_append (messages messages' : List LlmMessage) :
    owed (messages ++ messages') = outstanding (owed messages) (kinds messages') := by
  rw [owed, kinds_append, outstanding_append, owed]

theorem LlmMessage.kind_of_calls {message : LlmMessage} (h : message.calls ≠ []) :
    message.kind = .ask (message.calls.map ToolCall.callId) := by
  cases message with
  | assistant => simp [kind, h]
  | _ => exact absurd rfl h

theorem LlmMessage.isAsk_kind {message : LlmMessage} (h : message.calls = []) :
    message.kind.isAsk = false := by
  cases message with
  | assistant => simp [kind, h, Kind.isAsk]
  | _ => rfl

theorem isAsk_kinds {messages : List LlmMessage} (h : ∀ m ∈ messages, m.calls = []) :
    ∀ kind ∈ kinds messages, kind.isAsk = false := by
  intro kind hkind
  obtain ⟨m, hm, rfl⟩ := List.mem_map.mp hkind
  exact LlmMessage.isAsk_kind (h m hm)

theorem answerKeys_kinds (messages : List LlmMessage) :
    answerKeys (kinds messages) = answeredIds messages := by
  rw [answerKeys, kinds, List.filterMap_map, answeredIds]
  congr 1
  funext m
  cases m with
  | assistant content toolCalls =>
    simp only [Function.comp_apply, LlmMessage.kind]
    split <;> rfl
  | _ => rfl

theorem exists_lastAsk {messages : List LlmMessage} (h : ∃ m ∈ messages, m.calls ≠ []) :
    ∃ before last after, messages = before ++ last :: after ∧ last.calls ≠ [] ∧
      ∀ m ∈ after, m.calls = [] := by
  induction messages with
  | nil => obtain ⟨_, h, -⟩ := h; cases h
  | cons m messages ih =>
    by_cases hrest : ∃ m ∈ messages, m.calls ≠ []
    · obtain ⟨before, last, after, rfl, hlast, hafter⟩ := ih hrest
      exact ⟨m :: before, last, after, rfl, hlast, hafter⟩
    · push Not at hrest
      obtain ⟨m', hm, hcalls⟩ := h
      obtain rfl | hm := List.mem_cons.mp hm
      · exact ⟨[], _, messages, rfl, hcalls, hrest⟩
      · exact absurd (hrest m' hm) hcalls

theorem unansweredCalls_append {before after : List LlmMessage} {last : LlmMessage}
    (hlast : last.calls ≠ []) (hafter : ∀ m ∈ after, m.calls = []) :
    unansweredCalls (before ++ last :: after) =
      last.calls.filter fun call => call.callId ∉ answeredIds (before ++ last :: after) := by
  have hfind : (before ++ last :: after).reverse.find? (fun m => !m.calls.isEmpty) = some last := by
    rw [List.find?_eq_some_iff_append]
    refine ⟨by simpa using hlast, after.reverse, before.reverse, by simp, fun m hm => ?_⟩
    simpa using hafter m (List.mem_reverse.mp hm)
  rw [unansweredCalls, hfind]
  rfl

theorem unansweredCalls_eq_nil {messages : List LlmMessage} (h : ∀ m ∈ messages, m.calls = []) :
    unansweredCalls messages = [] := by
  have hfind : messages.reverse.find? (fun m => !m.calls.isEmpty) = none := by
    rw [List.find?_eq_none]
    intro m hm
    simpa using h m (List.mem_reverse.mp hm)
  rw [unansweredCalls, hfind]

section Search
variable {history : List LlmMessage} {n : ℕ}

/-- What the search finds in the whole history belongs to the messages from `n` on, when those
ask for nothing only if the search finds nothing in the messages before. -/
theorem unansweredCalls_suffix
    (hcarried : (∀ m ∈ history.drop n, m.calls = []) → unansweredCalls (history.take n) = []) :
    unansweredCalls history = [] ∧ (∀ m ∈ history.drop n, m.calls = []) ∨
      ∃ before last after, history.drop n = before ++ last :: after ∧ last.calls ≠ [] ∧
        (∀ m ∈ after, m.calls = []) ∧
        unansweredCalls history = last.calls.filter fun call => call.callId ∉ answeredIds history := by
  by_cases hown : ∃ m ∈ history.drop n, m.calls ≠ []
  · obtain ⟨before, last, after, hsplit, hlast, hafter⟩ := exists_lastAsk hown
    refine .inr ⟨before, last, after, hsplit, hlast, hafter, ?_⟩
    have hhistory : history = (history.take n ++ before) ++ last :: after := by
      rw [List.append_assoc, ← hsplit, List.take_append_drop]
    rw [hhistory]
    exact unansweredCalls_append hlast hafter
  · push Not at hown
    refine .inl ⟨?_, hown⟩
    have hnone := hcarried hown
    by_cases hask : ∃ m ∈ history.take n, m.calls ≠ []
    · obtain ⟨before, last, after, hsplit, hlast, hafter⟩ := exists_lastAsk hask
      have hhistory : history = before ++ last :: (after ++ history.drop n) := by
        conv_lhs => rw [← List.take_append_drop n history, hsplit]
        simp
      have hafter' : ∀ m ∈ after ++ history.drop n, m.calls = [] := fun m hm =>
        (List.mem_append.mp hm).elim (hafter m) (hown m)
      rw [hsplit, unansweredCalls_append hlast hafter, List.filter_eq_nil_iff] at hnone
      rw [hhistory, unansweredCalls_append hlast hafter', List.filter_eq_nil_iff]
      intro call hcall
      have hanswered := hnone call hcall
      simp only [decide_not, Bool.not_eq_true', decide_eq_false_iff_not, not_not] at hanswered ⊢
      rw [show before ++ last :: (after ++ history.drop n) =
        (before ++ last :: after) ++ history.drop n by simp, answeredIds, List.filterMap_append]
      exact List.mem_append_left _ hanswered
    · push Not at hask
      refine unansweredCalls_eq_nil fun m hm => ?_
      rw [← List.take_append_drop n history] at hm
      exact (List.mem_append.mp hm).elim (hask m) (hown m)

theorem mem_unansweredCalls
    (hcarried : (∀ m ∈ history.drop n, m.calls = []) → unansweredCalls (history.take n) = [])
    {call : ToolCall} (h : call ∈ unansweredCalls history) :
    ∃ m ∈ history.drop n, call ∈ m.calls := by
  obtain ⟨hnone, -⟩ | ⟨before, last, after, hsplit, -, -, heq⟩ := unansweredCalls_suffix hcarried
  · rw [hnone] at h
    cases h
  · rw [heq] at h
    exact ⟨last, by simp [hsplit], (List.mem_filter.mp h).1⟩

/-- The search by call id finds exactly what is unanswered from `n` on, when no call unanswered
there has an id that the history answers. -/
theorem unansweredCalls_eq_owed
    (hcarried : (∀ m ∈ history.drop n, m.calls = []) → unansweredCalls (history.take n) = [])
    (hfresh : ∀ id ∈ owed (history.drop n), id ∉ answeredIds history) :
    (unansweredCalls history).map ToolCall.callId = owed (history.drop n) := by
  obtain ⟨hnone, hown⟩ | ⟨before, last, after, hsplit, hlast, hafter, heq⟩ :=
    unansweredCalls_suffix hcarried
  · rw [hnone]
    exact (List.sublist_nil.mp (outstanding_sublist (isAsk_kinds hown))).symm
  · have howed : owed (history.drop n) =
        outstanding (last.calls.map ToolCall.callId) (kinds after) := by
      rw [hsplit, owed_append]
      show outstanding (last.kind.next _) (kinds after) = _
      rw [LlmMessage.kind_of_calls hlast]
      rfl
    have hsub : ∀ id ∈ answerKeys (kinds after), id ∈ answeredIds history := ?_
    · rw [heq, howed, outstanding_eq_filter (isAsk_kinds hafter) hsub (howed ▸ hfresh),
        List.filter_map]
      rfl
    · intro id hid
      rw [answerKeys_kinds] at hid
      obtain ⟨m, hm, hanswer⟩ := List.mem_filterMap.mp hid
      refine List.mem_filterMap.mpr ⟨m, List.mem_of_mem_drop (i := n) ?_, hanswer⟩
      rw [hsplit]
      exact List.mem_append_right _ (List.mem_cons_of_mem _ hm)

end Search

def intentIds (intents : List GenerationIntent) : List String :=
  intents.map fun intent => intent.call.callId

/-- What a call that stands at an await may have left unanswered. -/
def Due (owed : List String) : Pc → Prop
  | .deciding pending _ | .approved pending _ => pending.toolItem.2.callId ∈ owed
  | .driving | .terminating (.failed _) | .terminating .cancelled => True
  | .running _ segments => owed = intentIds (segmentsIntents segments)
  | .settling _ slots segments =>
    owed = intentIds (slots.map Slot.intent) ++ intentIds (segmentsIntents segments) ∧
      ∀ slot ∈ slots, ∀ message, slot.state = .answered message →
        message.kind = .answer slot.intent.call.callId
  | _ => owed = []

theorem slotMove_answered {nextId : ℕ} {task : Task} {slot : Slot} {input : TaskInput}
    {acts : List Act} {state : SlotState} {drawn : ℕ}
    (h : SlotMove o nextId task slot input acts state drawn) {message : LlmMessage}
    (hstate : state = .answered message) : message.kind = .answer slot.intent.call.callId := by
  cases h <;> cases hstate
  rfl

theorem assistantMessage_kind (attempt : Attempt) :
    attempt.intents = [] ∧ (assistantMessage attempt).kind = .plain ∨
      (assistantMessage attempt).kind = .ask (intentIds attempt.intents) := by
  cases hintents : attempt.intents with
  | nil =>
    refine .inl ⟨rfl, ?_⟩
    simp [assistantMessage, assistantCalls, hintents, LlmMessage.kind, LlmMessage.calls]
  | cons =>
    refine .inr ?_
    simp [assistantMessage, assistantCalls, hintents, LlmMessage.kind, LlmMessage.calls, intentIds]

/-- A step of a call extends its history in order, and leaves unanswered what it may. -/
theorem Move.due {log : List ThreadEvent} {nextId : ℕ} {task task' : Task} {input : TaskInput}
    {step : TaskStep} {n : ℕ} (hmove : Move o log nextId task input step)
    (hnext : step.next = .continue task') (hreading : task.pc ≠ .reading)
    (hn : n ≤ task.history.length) (h : Due (owed (task.history.drop n)) task.pc)
    (hdrive : task.pc = .driving →
      (unansweredCalls task.history).map ToolCall.callId = owed (task.history.drop n)) :
    ∃ since, task'.history = task.history ++ since ∧
      Along Kind.InOrder (owed (task.history.drop n)) (kinds since) ∧
      Due (owed (task'.history.drop n)) task'.pc := by
  have hkeep : task'.history = task.history → Due (owed (task.history.drop n)) task'.pc →
      ∃ since, task'.history = task.history ++ since ∧
        Along Kind.InOrder (owed (task.history.drop n)) (kinds since) ∧
        Due (owed (task'.history.drop n)) task'.pc := by
    intro heq hdue
    exact ⟨[], by rw [heq, List.append_nil], trivial, by rw [heq]; exact hdue⟩
  have hpush : ∀ since, task'.history = task.history ++ since →
      Along Kind.InOrder (owed (task.history.drop n)) (kinds since) →
      Due (outstanding (owed (task.history.drop n)) (kinds since)) task'.pc →
      ∃ since, task'.history = task.history ++ since ∧
        Along Kind.InOrder (owed (task.history.drop n)) (kinds since) ∧
        Due (owed (task'.history.drop n)) task'.pc := by
    intro since heq halong hdue
    refine ⟨since, heq, halong, ?_⟩
    rwa [heq, List.drop_append_of_le_length hn, owed_append]
  cases hmove with
  | throw | suspendTurn | terminate => cases hnext
  | read hpc => exact absurd hpc hreading
  | recordInput hpc =>
    cases hnext
    rw [hpc] at h
    exact hpush [_] rfl ⟨h, trivial⟩ trivial
  | decide hpc =>
    cases hnext
    rw [hpc] at h
    exact hkeep rfl h
  | answerApproved hpc =>
    cases hnext
    rw [hpc] at h
    exact hpush [_] rfl ⟨h, trivial⟩ trivial
  | @giveUp acts terminal _ _ hterminal =>
    cases hnext
    refine hkeep rfl ?_
    cases terminal with
    | completed output => exact absurd rfl (hterminal output)
    | failed | cancelled => trivial
  | generate hpc hnone =>
    cases hnext
    exact hkeep rfl (by rw [← hdrive hpc, hnone]; rfl)
  | redispatch hpc =>
    cases hnext
    refine hkeep rfl ?_
    show owed _ = intentIds (segmentsIntents _)
    rw [← hdrive hpc, segmentsIntents_segmentIntents]
    refine List.ext_getElem (by simp [unansweredIntents, intentIds]) fun i _ _ => ?_
    simp [unansweredIntents, intentIds]
  | finishIntents hpc hnone =>
    cases hnext
    rw [hpc] at h
    refine hkeep rfl ?_
    show owed _ = []
    rw [h, nextBatch_none o hnone]
    rfl
  | batch hpc hbatch =>
    cases hnext
    rw [hpc] at h
    refine hkeep rfl ⟨?_, ?_⟩
    · rw [h, nextBatch_some o hbatch]
      simp [intentIds]
    · intro slot hslot message hstate
      obtain ⟨i, -, rfl⟩ := List.mem_map.mp hslot
      cases hstate
  | @slot after slots segments index slot acts state drawn hpc hindex hslot hmove =>
    cases hnext
    rw [hpc] at h
    obtain ⟨hlt, rfl⟩ := List.getElem?_eq_some_iff.mp hslot
    refine hkeep rfl ⟨?_, ?_⟩
    · rw [h.1]
      congr 2
      refine List.ext_getElem (by simp) fun i _ _ => ?_
      simp only [List.getElem_map, List.getElem_set]
      split
      · next heq => subst heq; rfl
      · rfl
    · intro slot' hslot' message hstate
      obtain hmem | rfl := List.mem_or_eq_of_mem_set hslot'
      · exact h.2 slot' hmem message hstate
      · exact slotMove_answered hmove hstate
  | @commit after slots segments hpc hanswered =>
    cases hnext
    rw [hpc] at h
    have hkinds : kinds (slots.filterMap answeredMessage?) =
        (intentIds (slots.map Slot.intent)).map .answer := by
      have hkind := h.2
      clear h hkeep hpush hpc
      induction slots with
      | nil => rfl
      | cons slot slots ih =>
        obtain ⟨message, hstate⟩ := hanswered slot (List.mem_cons_self ..)
        have hrest := ih (fun s hs => hanswered s (List.mem_cons_of_mem _ hs))
          (fun s hs => hkind s (List.mem_cons_of_mem _ hs))
        have hfirst := hkind slot (List.mem_cons_self ..) message hstate
        rw [List.filterMap_cons_some (b := message) (by rw [answeredMessage?, hstate])]
        simp only [kinds, List.map_cons, intentIds] at hrest ⊢
        rw [hfirst, hrest]
    refine hpush _ rfl ?_ ?_
    · rw [hkinds, h.1]
      exact along_answers ..
    · rw [hkinds, h.1, outstanding_answers]
      rfl
  | checkpointed hpc hpc' =>
    cases hnext
    rw [hpc] at h
    refine hkeep rfl ?_
    obtain rfl | rfl := hpc'
    · exact h
    · trivial
  | complete hpc | assemble hpc | summarize hpc | unsummarized hpc | compacted hpc | attempt hpc
  | intent hpc =>
    cases hnext
    rw [hpc] at h
    exact hkeep rfl h
  | escalate hpc =>
    cases hnext
    exact hkeep rfl trivial
  | retry hpc =>
    cases hnext
    refine hkeep rfl ?_
    show owed _ = []
    cases hp : task.pc <;> simp only [hp, Pc.attempt?, reduceCtorEq] at hpc <;> rwa [hp] at h
  | stream hpc _ hnext' =>
    cases hnext
    rw [hpc] at h
    refine hkeep rfl ?_
    obtain ⟨_, rfl | rfl, -⟩ := hnext' <;> exact h
  | @recordAssistant attempt stopReason hpc =>
    cases hnext
    rw [hpc] at h
    have hnone : owed (task.history.drop n) = [] := h
    have hdue : Due ((assistantMessage attempt).kind.next [])
        (.running (.generated stopReason (generationOutput attempt))
          (segmentIntents o attempt.intents)) := by
      show _ = intentIds (segmentsIntents _)
      rw [segmentsIntents_segmentIntents]
      obtain ⟨hnil, hkind⟩ | hkind := assistantMessage_kind attempt
      · rw [hkind, hnil]
        rfl
      · rw [hkind]
        rfl
    refine hpush [assistantMessage attempt] rfl ⟨?_, trivial⟩ ?_
    · obtain ⟨-, hkind⟩ | hkind := assistantMessage_kind attempt <;> rw [hkind] <;> exact hnone
    · rw [hnone]
      exact hdue

end BeeAgent.Runtime
