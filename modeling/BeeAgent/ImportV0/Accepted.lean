import BeeAgent.ImportV0.Rows

/-! What the thread protocol asks of the rows of a task, and what a draft keeps as long as no result
answers a call. -/
namespace BeeAgent.ImportV0
open Data Thread

/-! ### The condition -/

/-- The texts of a row that the protocol wants to be texts, or not to be empty. -/
def RowAccepted (row : V0Row) : Prop :=
  match row.type with
  | .taskCreated =>
    match ((row.prop "spec").property? "input").getD .undefined with
    | .undefined | .null | .string _ => True
    | _ => False
  | .toolCall => row.prop "toolId" ≠ .string "" ∧ row.prop "id" ≠ .string ""
  | .approvalRequested => row.prop "message" ≠ .string "" ∧ row.prop "approvalId" ≠ .string ""
  | _ => True

/-- A result that names the call, or none. -/
def Answers (call result : V0Row) : Prop :=
  call.type = .toolCall ∧ result.type = .toolResult ∧ (result.prop "callId" = .undefined ∨
    ∃ callId, call.prop "id" = .string callId ∧ result.prop "callId" = .string callId)

def V0Row.isTerminal (row : V0Row) : Bool :=
  row.type ∈ [V0Type.taskCompleted, .taskFailed, .taskCancelled]

def terminalRow? (rows : List V0Row) : Option V0Row := (rows.filter V0Row.isTerminal).getLast?

/-- The first row has a time, every row has the texts it needs, the error of a task that ends in
failure is not empty, and no result follows a call that it answers. -/
structure TaskAccepted (rows : List V0Row) : Prop where
  dated : ∀ row ∈ rows.head?, row.createdAt.isSome
  accepted : ∀ row ∈ rows, RowAccepted row
  failure : ∀ row ∈ terminalRow? rows, row.type = .taskFailed → row.prop "error" ≠ .string ""
  unanswered : rows.Pairwise fun call result => ¬ Answers call result

/-! ### Parsing -/

theorem mapM_isSome {α β : Type*} (f : α → Option β) (l : List α) :
    (l.mapM f).isSome ↔ ∀ a ∈ l, (f a).isSome := by
  induction l with
  | nil => simp
  | cons a l ih =>
    rw [List.mapM_cons, List.forall_mem_cons, ← ih]
    cases f a with
    | none => simp
    | some b => cases l.mapM f <;> simp

theorem parseStream_isSome (events : List NewChronicleEvent) :
    (parseStream events).isSome ↔ ∀ e ∈ events, (parseEvent e).isSome := by
  rw [parseStream, Option.isSome_map, mapM_isSome]

theorem mem_mapM {α β : Type*} {f : α → Option β} {l : List α} {bs : List β}
    (h : l.mapM f = some bs) {b : β} : b ∈ bs ↔ ∃ a ∈ l, f a = some b := by
  induction l generalizing bs with
  | nil =>
    cases h
    simp
  | cons a l ih =>
    rw [List.mapM_cons] at h
    cases ha : f a with
    | none => simp [ha] at h
    | some b' =>
      cases hl : l.mapM f with
      | none => simp [ha, hl] at h
      | some rest =>
        obtain rfl : b' :: rest = bs := by simpa [ha, hl] using h
        rw [List.mem_cons, List.exists_mem_cons_iff, ih hl, ha, Option.some.injEq]
        exact or_congr_left ⟨Eq.symm, Eq.symm⟩

theorem nonEmpty_textOr {fallback : String} (hfallback : fallback ≠ "") (v : Value) :
    (nonEmpty (.string (textOr fallback v))).isSome ↔ v ≠ .string "" := by
  cases v with
  | string s => by_cases hs : s = "" <;> simp [nonEmpty, textOr, hs]
  | _ => simp [nonEmpty, textOr, hfallback]

theorem parse_draftItem {uuid : ℕ → String} (huuid : ∀ i, uuid i ≠ "") {i : ℕ} {row : V0Row}
    {item : ItemDraft} (h : draftItem uuid i row = some item) :
    (parseItem item).isSome ↔ RowAccepted row := by
  unfold draftItem at h
  unfold RowAccepted
  split at h
  · next htype =>
    cases h
    rw [htype]
    dsimp only
    cases ((row.prop "spec").property? "input").getD .undefined <;>
      simp [parseItem, parsePayload, property, text?, roleOf, optionally, Value.orElse]
  · next htype =>
    dsimp only at h
    split at h
    · cases h
    · cases h
      rw [htype]
      simp [parseItem, parsePayload, property, text?, roleOf, optionally]
  · next htype =>
    cases h
    rw [htype]
    dsimp only
    rw [← nonEmpty_textOr (show "unknown" ≠ "" by decide) (row.prop "toolId"),
      ← nonEmpty_textOr (huuid i) (row.prop "id")]
    cases h₁ : nonEmpty (.string (textOr "unknown" (row.prop "toolId"))) <;>
      cases h₂ : nonEmpty (.string (textOr (uuid i) (row.prop "id"))) <;>
        simp [parseItem, parsePayload, property, optionally, h₁, h₂]
  · next htype =>
    cases h
    rw [htype]
    dsimp only
    rw [← nonEmpty_textOr (show "v0 approval" ≠ "" by decide) (row.prop "message"),
      ← nonEmpty_textOr (huuid i) (row.prop "approvalId")]
    cases h₁ : nonEmpty (.string (textOr "v0 approval" (row.prop "message"))) <;>
      cases h₂ : nonEmpty (.string (textOr (uuid i) (row.prop "approvalId"))) <;>
        simp [parseItem, parsePayload, property, optionally, text?, approvalStatusOf, h₁, h₂]
  · cases h

theorem accepted_of_none {uuid : ℕ → String} {i : ℕ} {row : V0Row}
    (h : draftItem uuid i row = none) : RowAccepted row := by
  unfold RowAccepted
  split
  · next htype => simp [draftItem, htype] at h
  · next htype => simp [draftItem, htype] at h
  · next htype => simp [draftItem, htype] at h
  · trivial

theorem parse_decided {uuid : ℕ → String} (huuid : ∀ i, uuid i ≠ "") {i : ℕ} {row : V0Row}
    {item : ItemDraft} (h : draftItem uuid i row = some item) (htype : item.type = .approval)
    (hrow : RowAccepted row) (decision : V0Row) : (parseItem (decided item decision)).isSome := by
  unfold draftItem at h
  split at h
  · cases h; cases htype
  · dsimp only at h
    split at h
    · cases h
    · cases h; cases htype
  · cases h; cases htype
  · next happroval =>
    cases h
    rw [RowAccepted, happroval] at hrow
    dsimp only at hrow
    rw [← nonEmpty_textOr (show "v0 approval" ≠ "" by decide) (row.prop "message"),
      ← nonEmpty_textOr (huuid i) (row.prop "approvalId")] at hrow
    obtain ⟨title, htitle⟩ := Option.isSome_iff_exists.mp hrow.1
    obtain ⟨approvalId, happrovalId⟩ := Option.isSome_iff_exists.mp hrow.2
    by_cases hdecision : isTrueValue (decision.prop "approved")
    all_goals simp [decided, parseItem, parsePayload, property, optionally, text?, approvalStatusOf,
      htitle, happrovalId, hdecision]
  · cases h

theorem answers_draftItem {uuid : ℕ → String} {i : ℕ} {call result : V0Row} {item : ItemDraft}
    (hfresh : result.prop "callId" ≠ .string (uuid i)) (hresult : result.type = .toolResult)
    (h : draftItem uuid i call = some item) : answers result item ↔ Answers call result := by
  unfold draftItem at h
  unfold Answers
  split at h
  · next htype => cases h; simp [answers, htype]
  · next htype =>
    dsimp only at h
    split at h
    · cases h
    · cases h; simp [answers, htype]
  · next htype =>
    cases h
    simp only [answers, htype, hresult, decide_true, Bool.true_and, true_and]
    have hid : ∀ v, callIdOf ⟨i, .toolCall, [("toolId", .string (textOr "unknown" v)),
        ("callId", .string (textOr (uuid i) (call.prop "id"))),
        ("input", (call.prop "arguments").orElse (.object []))]⟩ =
          some (textOr (uuid i) (call.prop "id")) := fun v => by simp [callIdOf, property]
    rw [hid, names]
    cases hnamed : result.prop "callId" with
    | undefined => simp
    | string named =>
      have hne : uuid i ≠ named := fun heq => hfresh (by rw [hnamed, heq])
      cases hcall : call.prop "id" with
      | string callId =>
        simp only [textOr, Option.some.injEq, decide_eq_true_eq, reduceCtorEq, false_or,
          Value.string.injEq, exists_eq_left']
        exact eq_comm
      | _ => simp [textOr, hne]
    | _ => simp
  · next htype => cases h; simp [answers, htype]
  · cases h

/-! ### The state at the end -/

/-- The status of a task is that of its last terminal row. -/
def Ends (rows : List V0Row) (task : TaskDraft) : Prop :=
  match terminalRow? rows with
  | none => task.status = .active
  | some row =>
    (row.type = .taskCompleted ∧ task.status = .completed) ∨
    (row.type = .taskFailed ∧ task.status = .failed ∧ task.error = some (errorText row)) ∨
    (row.type = .taskCancelled ∧ task.status = .cancelled)

theorem finish_state (task : TaskDraft) (meant : ItemDraft → Bool)
    (complete : ItemDraft → ItemDraft) (stamp : Option String) : (task.finish meant complete stamp).status = task.status ∧
      (task.finish meant complete stamp).error = task.error ∧
      (task.finish meant complete stamp).createdAt = task.createdAt := by
  unfold TaskDraft.finish
  split <;> exact ⟨rfl, rfl, rfl⟩

theorem step_createdAt (uuid : ℕ → String) (task : TaskDraft) (row : V0Row) :
    (task.step uuid row).createdAt = task.createdAt := by
  unfold TaskDraft.step TaskDraft.read
  dsimp only
  split <;> first | rfl | exact (finish_state ..).2.2

theorem Ends.step {rows : List V0Row} {task : TaskDraft} (h : Ends rows task)
    (uuid : ℕ → String) (row : V0Row) : Ends (rows ++ [row]) (task.step uuid row) := by
  have hlast : terminalRow? (rows ++ [row]) =
      if row.isTerminal then some row else terminalRow? rows := by
    rw [terminalRow?, List.filter_append, terminalRow?]
    by_cases hrow : row.isTerminal <;> simp [hrow]
  have hkeep : row.isTerminal = false → (task.step uuid row).status = task.status ∧
      (task.step uuid row).error = task.error := by
    intro hrow
    unfold TaskDraft.step TaskDraft.read
    dsimp only
    split <;> first
      | exact ⟨rfl, rfl⟩
      | exact ⟨(finish_state ..).1, (finish_state ..).2.1⟩
      | next htype => simp [V0Row.isTerminal, htype] at hrow
  unfold Ends
  rw [hlast]
  by_cases hrow : row.isTerminal
  · rw [if_pos hrow]
    have htype :
        row.type = .taskCompleted ∨ row.type = .taskFailed ∨ row.type = .taskCancelled := by
      simpa [V0Row.isTerminal] using hrow
    rcases htype with htype | htype | htype
    · simp [TaskDraft.step, TaskDraft.read, htype]
    · simp [TaskDraft.step, TaskDraft.read, htype]
    · simp [TaskDraft.step, TaskDraft.read, htype]
  · obtain ⟨hstatus, herror⟩ := hkeep (Bool.not_eq_true _ ▸ hrow)
    rw [if_neg hrow, hstatus, herror]
    exact h

theorem Ends.foldl {uuid : ℕ → String} {rows : List V0Row} {task : TaskDraft} (h : Ends rows task)
    (more : List V0Row) : Ends (rows ++ more) (more.foldl (TaskDraft.step uuid) task) := by
  induction more generalizing rows task with
  | nil => rwa [List.append_nil]
  | cons row more ih =>
    have hrest := ih (h.step uuid row)
    rwa [List.append_assoc, List.singleton_append] at hrest

theorem events_step (uuid : ℕ → String) (task : TaskDraft) (row : V0Row) :
    task.events <+: (task.step uuid row).events := by
  unfold TaskDraft.step TaskDraft.read
  dsimp only
  split
  all_goals first
    | exact List.prefix_rfl
    | exact List.prefix_append _ _
    | (unfold TaskDraft.finish
       split <;> first | exact List.prefix_rfl | exact List.prefix_append _ _)

theorem events_foldl (uuid : ℕ → String) (task : TaskDraft) (rows : List V0Row) :
    task.events <+: (rows.foldl (TaskDraft.step uuid) task).events := by
  induction rows generalizing task with
  | nil => exact List.prefix_rfl
  | cons row rows ih => exact (events_step uuid task row).trans (ih _)

theorem completedCalls_prefix {events more : List NewChronicleEvent} (h : events <+: more)
    (hnone : completedCalls more = []) : completedCalls events = [] := by
  obtain ⟨rest, rfl⟩ := h
  rw [completedCalls, List.filterMap_append] at hnone
  exact (List.append_eq_nil_iff.mp hnone).1

theorem completedCalls_of_answered {uuid : ℕ → String} {before after : List V0Row}
    {call result : V0Row} {task : TaskDraft} (hreads : Reads uuid before task)
    (hfresh : ∀ i, result.prop "callId" ≠ .string (uuid i)) (hcall : call ∈ before)
    (hanswers : Answers call result) :
    completedCalls ((result :: after).foldl (TaskDraft.step uuid) task).events ≠ [] := by
  intro hnone
  have hstep := completedCalls_prefix (events_foldl uuid (task.step uuid result) after) hnone
  have hbefore := completedCalls_prefix (events_step uuid task result) hstep
  obtain ⟨i, hi, hget⟩ := List.getElem_of_mem hcall
  have hdraft : ∃ item, draftItem uuid i call = some item ∧ item.type = .toolCall := by
    rw [draftItem, hanswers.1]
    exact ⟨_, rfl, rfl⟩
  obtain ⟨item, hdraft, htype⟩ := hdraft
  have hstarted : item ∈ startedItems task.events := by
    rw [hreads.started]
    refine List.mem_filterMap.mpr ⟨(call, i), List.mem_zipIdx_iff_getElem?.mpr ?_, hdraft⟩
    rw [List.getElem?_eq_getElem hi, hget]
  have hopen := hreads.waiting hbefore item hstarted htype
  have hmeant := (answers_draftItem (hfresh i) hanswers.2.1 hdraft).mpr hanswers
  have hresult : draftItem uuid task.rows result = none := by rw [draftItem, hanswers.2.1]
  rcases read_cases uuid task result with ⟨other, hother, -⟩ |
    ⟨-, ⟨-, hread⟩ | ⟨hrow, -⟩ | ⟨hrow, -⟩⟩
  · rw [hresult] at hother
    cases hother
  · cases hfind : task.openItems.find? (answers result) with
    | none => exact absurd hmeant (by simpa using List.find?_eq_none.mp hfind item hopen)
    | some found =>
      have hfound := answers_type (find?_split hfind).1
      rw [TaskDraft.step, hread, finish_some _ _ hfind] at hstep
      simp [completedCalls, completedCall?, withResult, hfound] at hstep
  · rw [hanswers.2.1] at hrow
    cases hrow
  · exact hrow hanswers.2.1

/-- While no result answers a call, every event that is drafted parses. -/
structure Clean (task : TaskDraft) : Prop where
  created : task.createdAt.isSome
  parses : ∀ e ∈ task.events, (parseEvent e).isSome
  calls : completedCalls task.events = []

theorem Clean.append {task next : TaskDraft} {events : List NewChronicleEvent} (h : Clean task)
    (hcreated : next.createdAt = task.createdAt) (hevents : next.events = task.events ++ events)
    (hparses : ∀ e ∈ events, (parseEvent e).isSome) (hcalls : completedCalls events = []) :
    Clean next where
  created := hcreated ▸ h.created
  parses := hevents ▸ List.forall_mem_append.mpr ⟨h.parses, hparses⟩
  calls := by
    rw [hevents, completedCalls, List.filterMap_append]
    exact List.append_eq_nil_iff.mpr ⟨h.calls, hcalls⟩

theorem parseEvent_items {item : ItemDraft} {stamp : Option String} (hat : stamp.isSome)
    (hitem : (parseItem item).isSome) : (parseEvent (.itemStarted item stamp)).isSome ∧
      (parseEvent (.itemCompleted item stamp)).isSome := by
  obtain ⟨time, rfl⟩ := Option.isSome_iff_exists.mp hat
  obtain ⟨parsed, hparsed⟩ := Option.isSome_iff_exists.mp hitem
  simp [parseEvent, hparsed]

theorem Clean.step {uuid : ℕ → String} (huuid : ∀ i, uuid i ≠ "") {rows : List V0Row}
    {task : TaskDraft} {row : V0Row} (h : Clean task) (hreads : Reads uuid rows task)
    (hrows : ∀ row ∈ rows, RowAccepted row) (hrow : RowAccepted row)
    (hfresh : ∀ i, row.prop "callId" ≠ .string (uuid i))
    (hunanswered : ∀ call ∈ rows, ¬ Answers call row) : Clean (task.step uuid row) := by
  have hat : (row.createdAt.or task.createdAt).isSome := by
    simp [h.created]
  -- an open item is drafted from an earlier row
  have hfrom : ∀ item ∈ task.openItems,
      ∃ earlier ∈ rows, ∃ i, draftItem uuid i earlier = some item := by
    intro item hitem
    have hstarted := hreads.openItems.subset hitem
    rw [hreads.started] at hstarted
    obtain ⟨⟨earlier, i⟩, hmem, hdraft⟩ := List.mem_filterMap.mp hstarted
    exact ⟨earlier, (List.mem_zipIdx' hmem).2 ▸ List.getElem_mem _, i, hdraft⟩
  have hitem : ∀ item, draftItem uuid task.rows row = some item → (parseItem item).isSome :=
    fun item hdraft => (parse_draftItem huuid hdraft).mpr hrow
  rcases read_cases uuid task row with ⟨item, hdraft, -, ⟨hmessage, hread⟩ | ⟨-, hread⟩⟩ |
    ⟨-, ⟨hresult, hread⟩ | ⟨-, hread⟩ | ⟨-, -, hevents⟩⟩
  · obtain ⟨hstarts, hcompletes⟩ := parseEvent_items hat (hitem item hdraft)
    refine h.append (step_createdAt ..) (by rw [TaskDraft.step, hread]; rfl) ?_ ?_
    · simp [hstarts, hcompletes]
    · simp [completedCalls, completedCall?, hmessage]
  · refine h.append (step_createdAt ..) (by rw [TaskDraft.step, hread]; rfl) ?_ rfl
    simp [(parseEvent_items hat (hitem item hdraft)).1]
  · have hfind : task.openItems.find? (answers row) = none := by
      refine List.find?_eq_none.mpr fun item hopen hanswers => ?_
      obtain ⟨earlier, hearlier, i, hdraft⟩ := hfrom item hopen
      exact hunanswered earlier hearlier
        ((answers_draftItem (hfresh i) hresult hdraft).mp hanswers)
    refine h.append (step_createdAt ..) ?_ (List.forall_mem_nil _) rfl
    rw [TaskDraft.step, hread, finish_none _ _ hfind, List.append_nil]
  · cases hfind : task.openItems.find? (fun item => decide (item.type = .approval)) with
    | none =>
      refine h.append (step_createdAt ..) ?_ (List.forall_mem_nil _) rfl
      rw [TaskDraft.step, hread, finish_none _ _ hfind, List.append_nil]
    | some approval =>
      have htype : approval.type = .approval := by simpa using (find?_split hfind).1
      obtain ⟨earlier, hearlier, i, hdraft⟩ := hfrom approval (List.mem_of_find?_eq_some hfind)
      have hparse := parse_decided huuid hdraft htype (hrows earlier hearlier) row
      refine h.append (step_createdAt ..)
        (by rw [TaskDraft.step, hread, finish_some _ _ hfind]) ?_ ?_
      · simp [(parseEvent_items hat hparse).2]
      · simp [completedCalls, completedCall?, decided, htype]
  · refine h.append (step_createdAt ..) ?_ (List.forall_mem_nil _) rfl
    rw [TaskDraft.step, hevents, List.append_nil]

theorem Clean.foldl {uuid : ℕ → String} (huuid : ∀ i, uuid i ≠ "") {rows more : List V0Row}
    {task : TaskDraft} (h : Clean task) (hreads : Reads uuid rows task)
    (hrows : ∀ row ∈ rows ++ more, RowAccepted row)
    (hfresh : ∀ row ∈ more, ∀ i, row.prop "callId" ≠ .string (uuid i))
    (hunanswered : (rows ++ more).Pairwise fun call result => ¬ Answers call result) :
    Clean (more.foldl (TaskDraft.step uuid) task) := by
  induction more generalizing rows task with
  | nil => exact h
  | cons row more ih =>
    have hsplit : rows ++ row :: more = (rows ++ [row]) ++ more := by simp
    have hstep := h.step huuid hreads (fun r hr => hrows r (List.mem_append_left _ hr))
      (hrows row (List.mem_append_right _ (List.mem_cons_self ..)))
      (hfresh row (List.mem_cons_self ..))
      fun call hcall => (List.pairwise_append.mp hunanswered).2.2 call hcall row
        (List.mem_cons_self ..)
    rw [hsplit] at hrows hunanswered
    exact ih hstep (hreads.step row) hrows (fun r hr => hfresh r (List.mem_cons_of_mem _ hr))
      hunanswered

theorem terminal_parses {rows : List V0Row} {task : TaskDraft} (hcreated : task.createdAt.isSome)
    (hends : Ends rows task) : (∀ e ∈ task.terminal, (parseEvent e).isSome) ↔
      ∀ row ∈ terminalRow? rows, row.type = .taskFailed → row.prop "error" ≠ .string "" := by
  obtain ⟨time, htime⟩ := Option.isSome_iff_exists.mp hcreated
  unfold Ends at hends
  cases hrow : terminalRow? rows with
  | none =>
    rw [hrow] at hends
    simp [TaskDraft.terminal, hends]
  | some row =>
    rw [hrow] at hends
    rcases hends with ⟨htype, hstatus⟩ | ⟨htype, hstatus, herror⟩ | ⟨htype, hstatus⟩
    · simp [TaskDraft.terminal, hstatus, htype, parseEvent, htime]
    · have htext : errorText row ≠ "" ↔ row.prop "error" ≠ .string "" := by
        rw [errorText, ← nonEmpty_textOr (show "v0 task failed" ≠ "" by decide)]
        simp [nonEmpty]
      simp [TaskDraft.terminal, hstatus, herror, htype, parseEvent, htime, ← htext]
    · simp [TaskDraft.terminal, hstatus, htype, parseEvent, htime]

end BeeAgent.ImportV0
