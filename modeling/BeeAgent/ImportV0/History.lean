import BeeAgent.ImportV0.Accepted

/-! The history that the loop reconstructs from an imported stream. -/
namespace BeeAgent.ImportV0
open Data Thread BeeAgent.Runtime

/-- Every tool message stands behind an assistant message that carries its call. -/
def Supported (messages : List LlmMessage) : Prop :=
  ∀ before callId toolId content isError after,
    messages = before ++ .tool callId toolId content isError :: after →
      ∃ text calls, LlmMessage.assistant text (some calls) ∈ before ∧
        ∃ call ∈ calls, call.callId = callId

/-- No imported message carries calls. -/
def PlainMessages (events : List NewChronicleEvent) : Prop :=
  ∀ item stamp, .itemCompleted item stamp ∈ events → item.type = .message →
    property "toolCalls" item.payload = .undefined

theorem draftItem_plain {uuid : ℕ → String} {i : ℕ} {row : V0Row} {item : ItemDraft}
    (h : draftItem uuid i row = some item) (htype : item.type = .message) :
    property "toolCalls" item.payload = .undefined := by
  unfold draftItem at h
  split at h
  · cases h; simp [property]
  · dsimp only at h
    split at h
    · cases h
    · cases h; simp [property]
  · cases h; cases htype
  · cases h; cases htype
  · cases h

theorem PlainMessages.append {events more : List NewChronicleEvent} (h : PlainMessages events)
    (hmore : PlainMessages more) : PlainMessages (events ++ more) := fun item stamp hmem =>
  (List.mem_append.mp hmem).elim (h item stamp) (hmore item stamp)

theorem PlainMessages.finish {task : TaskDraft} (h : PlainMessages task.events)
    {meant : ItemDraft → Bool} {complete : ItemDraft → ItemDraft} (stamp : Option String)
    (htype : ∀ item, meant item → (complete item).type ≠ .message) :
    PlainMessages (task.finish meant complete stamp).events := by
  cases hfind : task.openItems.find? meant with
  | none => rwa [finish_none _ _ hfind]
  | some found =>
    rw [finish_some _ _ hfind]
    refine h.append fun item stamp hmem hmessage => ?_
    obtain ⟨rfl, -⟩ := NewChronicleEvent.itemCompleted.inj (List.mem_singleton.mp hmem)
    exact absurd hmessage (htype found (find?_split hfind).1)

theorem PlainMessages.step {uuid : ℕ → String} {task : TaskDraft} (h : PlainMessages task.events)
    (row : V0Row) : PlainMessages (task.step uuid row).events := by
  rcases read_cases uuid task row with ⟨item, hdraft, -, ⟨-, hread⟩ | ⟨-, hread⟩⟩ |
    ⟨-, ⟨-, hread⟩ | ⟨-, hread⟩ | ⟨-, -, hevents⟩⟩
  · rw [TaskDraft.step, hread]
    refine h.append fun other stamp hmem htype => ?_
    obtain ⟨rfl, -⟩ : other = item ∧ stamp = row.createdAt.or task.createdAt := by simpa using hmem
    exact draftItem_plain hdraft htype
  · rw [TaskDraft.step, hread]
    refine h.append fun other stamp hmem => ?_
    simp at hmem
  · rw [TaskDraft.step, hread]
    refine h.finish _ fun item hmeant => ?_
    have htype : item.type = .toolCall := answers_type hmeant
    rw [withResult, htype]
    decide
  · rw [TaskDraft.step, hread]
    refine h.finish _ fun item hmeant => ?_
    have htype : item.type = .approval := by simpa using hmeant
    rw [decided, htype]
    decide
  · rw [TaskDraft.step, hevents]
    exact h

theorem PlainMessages.foldl {uuid : ℕ → String} {task : TaskDraft} (h : PlainMessages task.events)
    (rows : List V0Row) : PlainMessages (rows.foldl (TaskDraft.step uuid) task).events := by
  induction rows generalizing task with
  | nil => exact h
  | cons row rows ih => exact ih (h.step row)

theorem mem_messages {events : List NewChronicleEvent} {parsed : List ThreadEvent}
    (h : parseStream events = some parsed) {message : LlmMessage} :
    message ∈ messagesFromEvents parsed ↔ ∃ item stamp, .itemCompleted item stamp ∈ events ∧
      ∃ own, parseItem item = some own ∧ messageOf? own.payload = some message := by
  obtain ⟨lists, hlists, rfl⟩ := Option.map_eq_some_iff.mp h
  rw [messagesFromEvents, List.mem_filterMap]
  constructor
  · rintro ⟨event, hevent, hmessage⟩
    obtain ⟨list, hlist, hmem⟩ := List.mem_flatten.mp hevent
    obtain ⟨e, he, hparse⟩ := (mem_mapM hlists).mp hlist
    cases e with
    | itemCompleted item stamp =>
      obtain ⟨time, -, hitem⟩ := Option.bind_eq_some_iff.mp hparse
      obtain ⟨own, hown, rfl⟩ := Option.map_eq_some_iff.mp hitem
      obtain rfl := List.mem_singleton.mp hmem
      exact ⟨item, stamp, he, own, hown, hmessage⟩
    | itemStarted item stamp =>
      obtain ⟨time, -, hitem⟩ := Option.bind_eq_some_iff.mp hparse
      obtain ⟨own, hown, rfl⟩ := Option.map_eq_some_iff.mp hitem
      obtain rfl := List.mem_singleton.mp hmem
      cases hmessage
    | turnFailed stamp error =>
      obtain ⟨time, -, herror⟩ := Option.bind_eq_some_iff.mp hparse
      split at herror
      · cases herror
      · cases herror
        obtain rfl := List.mem_singleton.mp hmem
        cases hmessage
    | threadCreated stamp =>
      obtain ⟨time, -, rfl⟩ := Option.map_eq_some_iff.mp hparse
      cases hmem
    | turnStarted stamp | turnCompleted stamp | turnCancelled stamp =>
      obtain ⟨time, -, rfl⟩ := Option.map_eq_some_iff.mp hparse
      obtain rfl := List.mem_singleton.mp hmem
      cases hmessage
  · rintro ⟨item, stamp, hmem, own, hown, hmessage⟩
    have hsome : (parseEvent (.itemCompleted item stamp)).isSome :=
      (parseStream_isSome events).mp (by rw [h]; rfl) _ hmem
    have hat : stamp.isSome := by
      cases stamp with
      | none => simp [parseEvent] at hsome
      | some time => rfl
    obtain ⟨time, rfl⟩ := Option.isSome_iff_exists.mp hat
    refine ⟨.itemCompleted own, List.mem_flatten.mpr ⟨[.itemCompleted own], ?_,
      List.mem_singleton_self _⟩, hmessage⟩
    exact (mem_mapM hlists).mpr ⟨_, hmem, by simp [parseEvent, hown]⟩

theorem message_of_call {item : ItemDraft} {own : Item} (h : parseItem item = some own)
    (htype : item.type = .toolCall) : ∃ callId toolId content isError,
      messageOf? own.payload = some (.tool callId toolId content isError) := by
  obtain ⟨payload, hpayload, rfl⟩ := Option.map_eq_some_iff.mp h
  rw [htype, parsePayload] at hpayload
  simp only [bind, Option.bind_eq_some_iff, pure, Option.some.injEq] at hpayload
  obtain ⟨toolId, -, callId, -, inputError, -, output, -, content, -, isError, -, rfl⟩ := hpayload
  exact ⟨_, _, _, _, rfl⟩

theorem assistant_of_message {item : ItemDraft} {own : Item} (h : parseItem item = some own)
    {text : String} {calls : Option (List ToolCall)}
    (hmessage : messageOf? own.payload = some (.assistant text calls)) :
    item.type = .message ∧ (property "toolCalls" item.payload = .undefined → calls = none) := by
  obtain ⟨payload, hpayload, rfl⟩ := Option.map_eq_some_iff.mp h
  cases htype : item.type with
  | message =>
    refine ⟨rfl, fun hplain => ?_⟩
    rw [htype, parsePayload] at hpayload
    simp only [hplain, optionally, bind, Option.bind_eq_some_iff, pure, Option.some.injEq]
      at hpayload
    obtain ⟨role, -, content, -, toolCalls, rfl, rfl⟩ := hpayload
    cases role with
    | assistant => cases hmessage; rfl
    | _ => cases hmessage
  | toolCall =>
    obtain ⟨callId, toolId, content, isError, htool⟩ := message_of_call h htype
    rw [htool] at hmessage
    cases hmessage
  | approval =>
    rw [htype, parsePayload] at hpayload
    simp only [bind, Option.bind_eq_some_iff, pure, Option.some.injEq] at hpayload
    obtain ⟨title, -, detail, -, status, -, approvalId, -, callId, -, toolId, -, rfl⟩ := hpayload
    cases hmessage

theorem tool_of_message {item : ItemDraft} {own : Item} (h : parseItem item = some own)
    {callId toolId content : String} {isError : Option Bool}
    (hmessage : messageOf? own.payload = some (.tool callId toolId content isError)) :
    item.type = .toolCall := by
  obtain ⟨payload, hpayload, rfl⟩ := Option.map_eq_some_iff.mp h
  cases htype : item.type with
  | toolCall => rfl
  | message =>
    rw [htype, parsePayload] at hpayload
    simp only [bind, Option.bind_eq_some_iff, pure, Option.some.injEq] at hpayload
    obtain ⟨role, -, content, -, toolCalls, -, rfl⟩ := hpayload
    cases role <;> cases hmessage
  | approval =>
    rw [htype, parsePayload] at hpayload
    simp only [bind, Option.bind_eq_some_iff, pure, Option.some.injEq] at hpayload
    obtain ⟨title, -, detail, -, status, -, approvalId, -, callId, -, toolId, -, rfl⟩ := hpayload
    cases hmessage

/-- The loop finds the calls of an imported history only when it has no tool message. -/
theorem supported_iff {events : List NewChronicleEvent} {parsed : List ThreadEvent}
    (h : parseStream events = some parsed) (hplain : PlainMessages events) :
    Supported (messagesFromEvents parsed) ↔ completedCalls events = [] := by
  constructor
  · intro hsupported
    refine List.filterMap_eq_nil_iff.mpr fun e he => ?_
    cases e with
    | itemCompleted item stamp =>
      by_contra hcall
      have htype : item.type = .toolCall := by
        by_contra htype
        exact hcall (if_neg htype)
      have hparse := (parseStream_isSome events).mp (by rw [h]; rfl) _ he
      have hitem : (parseItem item).isSome := by
        cases hitem : parseItem item with
        | none => cases stamp <;> simp [parseEvent, hitem] at hparse
        | some own => rfl
      obtain ⟨own, hown⟩ := Option.isSome_iff_exists.mp hitem
      obtain ⟨callId, toolId, content, isError, htool⟩ := message_of_call hown htype
      have hmem := (mem_messages h).mpr ⟨item, stamp, he, own, hown, htool⟩
      obtain ⟨before, after, hsplit⟩ := List.append_of_mem hmem
      obtain ⟨text, calls, hassistant, -⟩ := hsupported _ _ _ _ _ _ hsplit
      have hcarried : LlmMessage.assistant text (some calls) ∈ messagesFromEvents parsed := by
        rw [hsplit]
        exact List.mem_append_left _ hassistant
      obtain ⟨message, at', hmessage, own', hown', htext⟩ := (mem_messages h).mp hcarried
      obtain ⟨hmessageType, hcalls⟩ := assistant_of_message hown' htext
      cases hcalls (hplain message at' hmessage hmessageType)
    | _ => rfl
  · intro hnone before callId toolId content isError after hsplit
    have hmem : LlmMessage.tool callId toolId content isError ∈ messagesFromEvents parsed := by
      rw [hsplit]
      exact List.mem_append_right _ (List.mem_cons_self ..)
    obtain ⟨item, stamp, hitem, own, hown, htool⟩ := (mem_messages h).mp hmem
    have hcall := List.filterMap_eq_nil_iff.mp hnone _ hitem
    rw [completedCall?, if_pos (tool_of_message hown htool)] at hcall
    cases hcall

end BeeAgent.ImportV0
