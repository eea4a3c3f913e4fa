import BeeAgent.Data.Ledger
import BeeAgent.Runtime.Exclusive
import BeeAgent.Runtime.Log

/-! The items of a turn as a ledger: its events start items and complete or fail them. -/
namespace BeeAgent.Runtime
open BeeAgent.Data BeeAgent.Thread BeeAgent.Execution Ledger

def startedItem? : ThreadEvent → Option Item
  | .itemStarted item => some item
  | _ => none

/-- The item that an event completes or fails. -/
def closedItemId? : ThreadEvent → Option ItemId
  | .itemCompleted item => some item.id
  | .itemFailed _ itemId _ => some itemId
  | _ => none

def items : Account ThreadEvent Item ItemId where
  opens := startedItem?
  closes := closedItemId?
  key := Item.id

def opened (log : List ThreadEvent) (turnId : TurnId) : List Item :=
  items.opened (turnEvents log turnId)

def isMessage (item : Item) : Bool :=
  match item.payload with
  | .message _ => true
  | _ => false

/-- The event starts a new item, completes an open one, fails an open message, or ends the turn with
nothing open. -/
structure Clean (before : List ThreadEvent) (e : ThreadEvent) : Prop where
  admits : items.Admits before e
  failed : ∀ turnId id error, e = .itemFailed turnId id error →
    ∃ item ∈ items.opened before, item.id = id ∧ isMessage item
  ended : ∀ turn, e.terminalTurn? = some turn → items.opened before = []

def Tidy (es : List ThreadEvent) : Prop := Throughout Clean es

section Tidy
variable {es log : List ThreadEvent} {turnId : TurnId} {item : Item}

theorem Tidy.fair (h : Tidy es) : items.Fair es := h.imp fun _ _ he => he.admits

theorem clean_of_quiet {before : List ThreadEvent} {e : ThreadEvent}
    (hstarted : startedItem? e = none) (hclosed : closedItemId? e = none)
    (hended : e.terminalTurn? = none) : Clean before e where
  admits := ⟨fun x hx => (by cases hstarted.symm.trans hx),
    fun k hk => (by cases hclosed.symm.trans hk)⟩
  failed turnId id error he := by
    subst he
    cases hclosed
  ended turn hturn := by cases hended.symm.trans hturn

theorem clean_of_started {before : List ThreadEvent}
    (h : item.id ∉ items.openedKeys before) : Clean before (.itemStarted item) where
  admits := ⟨fun x hx => (by cases hx; exact h), fun k hk => (by cases hk)⟩
  failed _ _ _ he := by cases he
  ended _ hturn := by cases hturn

theorem clean_of_completed {before : List ThreadEvent}
    (h : ∃ open' ∈ items.opened before, open'.id = item.id) :
    Clean before (.itemCompleted item) where
  admits := ⟨fun x hx => (by cases hx),
    fun k hk => (by cases hk; exact List.mem_map.mpr h)⟩
  failed _ _ _ he := by cases he
  ended _ hturn := by cases hturn

theorem clean_of_failed {before : List ThreadEvent} {id : ItemId} {error : String}
    (h : ∃ item ∈ items.opened before, item.id = id ∧ isMessage item) :
    Clean before (.itemFailed turnId id error) where
  admits := by
    refine ⟨fun x hx => (by cases hx), fun k hk => ?_⟩
    cases hk
    obtain ⟨item, hitem, hid, -⟩ := h
    exact List.mem_map.mpr ⟨item, hitem, hid⟩
  failed _ _ _ he := by
    cases he
    exact h
  ended _ hturn := by cases hturn

theorem mem_completedIds {id : ItemId} :
    id ∈ completedIds es ↔ ∃ item, .itemCompleted item ∈ es ∧ item.id = id := by
  simp only [completedIds, List.mem_filterMap, Option.map_eq_some_iff]
  constructor
  · rintro ⟨e, he, item, hitem, hid⟩
    cases e <;> cases hitem
    exact ⟨_, he, hid⟩
  · rintro ⟨item, hitem, hid⟩
    exact ⟨_, hitem, item, rfl, hid⟩

/-- Only messages fail: a started item of another kind that is not completed is open. -/
theorem opened_of_not_completed (h : Tidy es) (hstarted : .itemStarted item ∈ es)
    (hkind : ¬ isMessage item) (hcompleted : item.id ∉ completedIds es) :
    item ∈ items.opened es := by
  have hopens : item ∈ es.filterMap items.opens := List.mem_filterMap.mpr ⟨_, hstarted, rfl⟩
  refine h.fair.mem_opened_iff.mpr ⟨hopens, fun hclosed => ?_⟩
  obtain ⟨e, he, hid⟩ := List.mem_filterMap.mp hclosed
  cases e with
  | itemCompleted item' =>
    exact hcompleted (mem_completedIds.mpr ⟨item', he, Option.some.inj hid⟩)
  | itemFailed turnId id error =>
    obtain ⟨before, after, rfl⟩ := List.append_of_mem he
    obtain ⟨message, hmessage, hmid, hm⟩ := (h before _ after rfl).failed turnId id error rfl
    have hmem : message ∈ (before ++ .itemFailed turnId id error :: after).filterMap items.opens :=
      List.filterMap_append ▸ List.mem_append_left _ (Account.mem_opens_of_opened hmessage)
    have heq := h.fair.eq_of_key hmem hopens (hmid.trans (Option.some.inj hid))
    exact hkind (heq ▸ hm)
  | _ => cases hid

theorem started_of_opened (h : Tidy es) (hopen : item ∈ items.opened es) :
    .itemStarted item ∈ es ∧ item.id ∉ completedIds es := by
  obtain ⟨hopens, hclosed⟩ := h.fair.mem_opened_iff.mp hopen
  obtain ⟨e, he, hitem⟩ := List.mem_filterMap.mp hopens
  have hstarted : e = .itemStarted item := by
    cases e <;> cases hitem
    rfl
  refine ⟨hstarted ▸ he, fun hcompleted => hclosed ?_⟩
  obtain ⟨item', hitem', hid⟩ := mem_completedIds.mp hcompleted
  exact List.mem_filterMap.mpr ⟨_, hitem', congrArg some hid⟩

theorem mem_turnEvents {e : ThreadEvent} :
    e ∈ turnEvents log turnId ↔ e ∈ log ∧ e.turnId = turnId := by
  simp [turnEvents]

/-- A pending approval and its tool call are open. -/
theorem findPendingApproval_opened {uuid : ℕ → String} {pending : PendingApproval}
    (h : Tidy (turnEvents log turnId))
    (hpending : findPendingApproval uuid log turnId = some pending) :
    ⟨pending.toolItem.1, turnId, .toolCall pending.toolItem.2⟩ ∈ opened log turnId ∧
      ⟨pending.approvalItem.1, turnId, .approval pending.approvalItem.2⟩ ∈ opened log turnId := by
  obtain ⟨event, hevent, hp⟩ := List.exists_of_findSome?_eq_some hpending
  unfold pendingOf? at hp
  split at hp
  · next id turnId' payload =>
    split at hp
    · cases hp
    next hopen =>
    obtain ⟨callId, -, hp⟩ := Option.bind_eq_some_iff.mp hp
    obtain ⟨toolItem, hfind, rfl⟩ := Option.map_eq_some_iff.mp hp
    obtain ⟨started, hstarted, hactive⟩ :=
      List.mem_filterMap.mp (List.mem_reverse.mp (List.mem_of_find?_eq_some hfind))
    unfold activeToolItem? at hactive
    split at hactive
    · next toolId toolTurn call =>
      split at hactive
      · cases hactive
      next hactive' =>
      cases hactive
      obtain rfl : toolTurn = turnId := (mem_turnEvents.mp hstarted).2
      obtain rfl : turnId' = toolTurn := (mem_turnEvents.mp hevent).2
      exact ⟨opened_of_not_completed h hstarted (by simp [isMessage]) hactive',
        opened_of_not_completed h hevent (by simp [isMessage]) fun hmem => hopen (.inl hmem)⟩
    · cases hactive
  · cases hp

theorem exists_pending {uuid : ℕ → String} {call : ToolCallItemPayload}
    {payload : ApprovalItemPayload} {tool approval : ItemId} (h : Tidy (turnEvents log turnId))
    (htool : ⟨tool, turnId, .toolCall call⟩ ∈ opened log turnId)
    (happroval : ⟨approval, turnId, .approval payload⟩ ∈ opened log turnId)
    (hcallId : payload.callId = some call.callId) (hstatus : payload.status = .pending) :
    findPendingApproval uuid log turnId ≠ none := by
  obtain ⟨htool, htoolOpen⟩ := started_of_opened h htool
  obtain ⟨happroval, happrovalOpen⟩ := started_of_opened h happroval
  intro hnone
  have hp := List.findSome?_eq_none_iff.mp hnone _ happroval
  rw [pendingOf?, if_neg (by simpa [hstatus] using happrovalOpen), hcallId, Option.bind_some,
    Option.map_eq_none_iff, List.find?_eq_none] at hp
  have hactive : (tool, call) ∈ (turnEvents log turnId).filterMap
      (activeToolItem? (completedIds (turnEvents log turnId))) :=
    List.mem_filterMap.mpr ⟨_, htool, by rw [activeToolItem?, if_neg htoolOpen]⟩
  have := hp (tool, call) (List.mem_reverse.mpr hactive)
  simp at this

end Tidy
end BeeAgent.Runtime
