import BeeAgent.ImportV0.History

/-! When an import is faithful: every draft parses, and no result of a tool is attached to a call,
since no imported message carries a call. -/
namespace BeeAgent.ImportV0
open Data Thread BeeAgent.Runtime

/-! ### The property -/

structure Faithful (locale : Locale) (uuid : Draws) (rows : List V0Row) : Prop where
  /-- Every stream parses, and the loop finds the calls of its tool messages. -/
  parses : ∀ taskId task, (taskId, task) ∈ convert locale uuid rows →
    ∃ events, parseStream task.events = some events ∧ Supported (messagesFromEvents events)
  /-- One item for each row that is convertible, in v0 order, with the results at their calls. -/
  items : ∀ taskId task, (taskId, task) ∈ convert locale uuid rows →
    startedItems task.events = draftItems (uuid taskId) (taskRows locale rows taskId) ∧
      ResultsAttached (taskRows locale rows taskId) task.events
  /-- A stream depends on the rows of its task. -/
  own : ∀ taskId task, (taskId, task) ∈ convert locale uuid rows ↔
    (taskId, task) ∈ convert locale uuid (rows.filter fun row => row.taskId = taskId)
  /-- The streams that are not there yet are appended. -/
  imported : ∀ store taskId task, (taskId, task) ∈ convert locale uuid rows →
    getLatestSequence store (threadStreamId taskId) = 0 →
      (importV0Database locale uuid rows store).1.get (threadStreamId taskId) = some task.events
  /-- A second import, with draws of its own, changes nothing. -/
  again : ∀ store uuid', (importV0Database locale uuid' rows
    (importV0Database locale uuid rows store).1).1 = (importV0Database locale uuid rows store).1

/-! ### The store -/

theorem threadStreamId_injective : Function.Injective threadStreamId := by
  intro a b h
  exact String.append_right_inj _ |>.mp h

theorem importTasks_present {tasks : List (String × TaskDraft)} {store : Store}
    (h : ∀ t ∈ tasks, 0 < getLatestSequence store (threadStreamId t.1)) (summary : ImportSummary) :
    (importTasks store summary tasks).1 = store := by
  induction tasks generalizing summary with
  | nil => rfl
  | cons t tasks ih =>
    rw [importTasks, if_pos (h t (List.mem_cons_self ..))]
    exact ih (fun t ht => h t (List.mem_cons_of_mem _ ht)) _

theorem importTasks_other {tasks : List (String × TaskDraft)} {store : Store} {streamId : String}
    (h : 0 < getLatestSequence store streamId ∨ ∀ t ∈ tasks, threadStreamId t.1 ≠ streamId)
    (summary : ImportSummary) :
    (importTasks store summary tasks).1.get streamId = store.get streamId := by
  induction tasks generalizing store summary with
  | nil => rfl
  | cons t tasks ih =>
    have hrest : ∀ store' : Store, store'.get streamId = store.get streamId →
        0 < getLatestSequence store' streamId ∨ ∀ t ∈ tasks, threadStreamId t.1 ≠ streamId := by
      intro store' hsame
      refine h.imp (fun hlatest => ?_) fun hother t ht => hother t (List.mem_cons_of_mem _ ht)
      rwa [getLatestSequence, hsame]
    rw [importTasks]
    split
    · exact ih (hrest store rfl) _
    · next habsent =>
      have hne : streamId ≠ threadStreamId t.1 := by
        rintro rfl
        rcases h with hlatest | hother
        · exact habsent hlatest
        · exact hother t (List.mem_cons_self ..) rfl
      split
      · rfl
      · have hsame := OrderedMap.get_set_of_ne hne store t.2.events
        rw [ih (hrest _ hsame), hsame]

theorem importTasks_absent {tasks : List (String × TaskDraft)} (hnodup : (tasks.map Prod.fst).Nodup)
    (hparses : ∀ t ∈ tasks, (parseStream t.2.events).isSome) {store : Store}
    {t : String × TaskDraft} (ht : t ∈ tasks)
    (habsent : getLatestSequence store (threadStreamId t.1) = 0) (summary : ImportSummary) :
    (importTasks store summary tasks).1.get (threadStreamId t.1) = some t.2.events := by
  induction tasks generalizing store summary with
  | nil => cases ht
  | cons u tasks ih =>
    rw [List.map_cons, List.nodup_cons] at hnodup
    have hothers : ∀ v ∈ tasks, threadStreamId v.1 ≠ threadStreamId u.1 := fun v hv heq =>
      hnodup.1 (List.mem_map.mpr ⟨v, hv, threadStreamId_injective heq⟩)
    have hrest := fun v hv => hparses v (List.mem_cons_of_mem _ hv)
    obtain ⟨parsed, hparsed⟩ := Option.isSome_iff_exists.mp (hparses u (List.mem_cons_self ..))
    rw [importTasks, hparsed]
    rcases List.mem_cons.mp ht with rfl | ht
    · rw [if_neg (by omega)]
      exact (importTasks_other (.inr hothers) _).trans (OrderedMap.get_set_self ..)
    · split
      · exact ih hnodup.2 hrest ht habsent _
      · have hset := OrderedMap.get_set_of_ne (hothers t ht) store u.2.events
        refine ih hnodup.2 hrest ht ?_ _
        rwa [getLatestSequence, hset]

/-! ### When the import is faithful -/

theorem TaskDraft.close_events (task : TaskDraft) :
    startedItems task.close.events = startedItems task.events ∧
      completedCalls task.close.events = completedCalls task.events := by
  unfold TaskDraft.close TaskDraft.terminal startedItems completedCalls
  cases task.status <;> simp [startedItem?, completedCall?]

def Accepted (locale : Locale) (rows : List V0Row) : Prop :=
  ∀ taskId, TaskAccepted (taskRows locale rows taskId)

theorem foldl_createdAt (uuid : ℕ → String) (task : TaskDraft) (rows : List V0Row) :
    (rows.foldl (TaskDraft.step uuid) task).createdAt = task.createdAt := by
  induction rows generalizing task with
  | nil => rfl
  | cons row rows ih => exact (ih _).trans (step_createdAt uuid task row)

theorem rows_accepted {uuid : ℕ → String} (huuid : ∀ i, uuid i ≠ "") {rows : List V0Row}
    {task : TaskDraft} (hreads : Reads uuid rows task)
    (hparses : ∀ e ∈ task.events, (parseEvent e).isSome) : ∀ row ∈ rows, RowAccepted row := by
  intro row hrow
  obtain ⟨i, hi, hget⟩ := List.getElem_of_mem hrow
  cases hdraft : draftItem uuid i row with
  | none => exact accepted_of_none hdraft
  | some item =>
    have hstarted : item ∈ startedItems task.events := by
      rw [hreads.started]
      refine List.mem_filterMap.mpr ⟨(row, i), List.mem_zipIdx_iff_getElem?.mpr ?_, hdraft⟩
      rw [List.getElem?_eq_getElem hi, hget]
    obtain ⟨e, he, hitem⟩ := List.mem_filterMap.mp hstarted
    have hparse := hparses e he
    cases e with
    | itemStarted other stamp =>
      obtain rfl : other = item := Option.some.inj hitem
      rw [← parse_draftItem huuid hdraft]
      cases hother : parseItem other with
      | none => cases stamp <;> simp [parseEvent, hother] at hparse
      | some own => rfl
    | _ => cases hitem

/-- The draft of a task parses, and its history is supported, if and only if the rows are accepted:
one attached result is a tool message that no assistant message carries. -/
theorem draft_parses_iff {uuid : ℕ → String} (huuid : ∀ i, uuid i ≠ "") {rows : List V0Row}
    (hfresh : ∀ row ∈ rows, ∀ i, row.prop "callId" ≠ .string (uuid i)) {task : TaskDraft}
    (h : draftOf uuid rows = some task) :
    (∃ events, parseStream task.close.events = some events ∧
      Supported (messagesFromEvents events)) ↔ TaskAccepted rows := by
  have hreads := draftOf_reads h
  obtain ⟨first, rest, rfl⟩ : ∃ first rest, rows = first :: rest := by
    cases rows with
    | nil => cases h
    | cons first rest => exact ⟨first, rest, rfl⟩
  obtain rfl := Option.some.inj h
  have hcreated := foldl_createdAt uuid (newTask first) (first :: rest)
  have hstart : Ends [] (newTask first) := by
    show (newTask first).status = .active
    rfl
  have hends : Ends (first :: rest) ((first :: rest).foldl (TaskDraft.step uuid) (newTask first)) :=
    hstart.foldl (first :: rest)
  have hnew : PlainMessages (newTask first).events := by
    intro item stamp hmem
    simp [newTask] at hmem
  have hplain : PlainMessages
      ((first :: rest).foldl (TaskDraft.step uuid) (newTask first)).close.events := by
    refine (hnew.foldl _).append fun item stamp hmem => ?_
    unfold TaskDraft.terminal at hmem
    split at hmem <;> simp at hmem
  generalize htask : (first :: rest).foldl (TaskDraft.step uuid) (newTask first) = task at *
  constructor
  · rintro ⟨events, hparse, hsupported⟩
    have hall := (parseStream_isSome task.close.events).mp (by rw [hparse]; rfl)
    have hnone : completedCalls task.events = [] :=
      task.close_events.2 ▸ (supported_iff hparse hplain).mp hsupported
    have hdated : first.createdAt.isSome := by
      have hmem : NewChronicleEvent.threadCreated first.createdAt ∈ task.events := by
        rw [← htask]
        exact (events_foldl uuid (newTask first) (first :: rest)).subset (List.mem_cons_self ..)
      have hsome := hall _ (List.mem_append_left _ hmem)
      rwa [parseEvent, Option.isSome_map] at hsome
    refine ⟨?_, rows_accepted huuid hreads fun e he => hall e (List.mem_append_left _ he), ?_, ?_⟩
    · rintro row ⟨⟩
      exact hdated
    · refine (terminal_parses ?_ hends).mp fun e he => hall e (List.mem_append_right _ he)
      rw [hcreated]
      exact hdated
    · rw [List.pairwise_iff_forall_sublist]
      intro call result hsub hanswers
      obtain ⟨before, after, hsplit, hcall, hresult⟩ := List.cons_sublist_iff.mp hsub
      obtain ⟨middle, later, rfl⟩ :=
        List.append_of_mem (List.singleton_sublist.mp hresult)
      have hmem : result ∈ first :: rest := by
        rw [hsplit]
        simp
      have hbefore : Reads uuid (before ++ middle) ((before ++ middle).foldl (TaskDraft.step uuid)
        (newTask first)) := (Reads.new uuid first).foldl (before ++ middle)
      have hattached : completedCalls ((result :: later).foldl (TaskDraft.step uuid)
          ((before ++ middle).foldl (TaskDraft.step uuid) (newTask first))).events ≠ [] :=
        completedCalls_of_answered hbefore (hfresh result hmem) (List.mem_append_left _ hcall)
          hanswers
      rw [← List.foldl_append, List.append_assoc, ← hsplit, htask] at hattached
      exact hattached hnone
  · intro haccepted
    have hdated : (newTask first).createdAt.isSome := haccepted.dated first rfl
    have hclean : Clean task := by
      rw [← htask]
      refine Clean.foldl huuid ⟨hdated, ?_, rfl⟩ (Reads.new uuid first)
        haccepted.accepted hfresh haccepted.unanswered
      obtain ⟨time, htime⟩ := Option.isSome_iff_exists.mp hdated
      have hfirst : first.createdAt = some time := htime
      simp [newTask, parseEvent, hfirst]
    have hterminal := (terminal_parses hclean.created hends).mpr haccepted.failure
    have hparses := (parseStream_isSome task.close.events).mpr
      (List.forall_mem_append.mpr ⟨hclean.parses, hterminal⟩)
    obtain ⟨events, hevents⟩ := Option.isSome_iff_exists.mp hparses
    refine ⟨events, hevents, (supported_iff hevents hplain).mpr ?_⟩
    rw [task.close_events.2]
    exact hclean.calls

theorem TaskAccepted.nil : TaskAccepted [] :=
  ⟨by simp, by simp, by simp [terminalRow?], List.Pairwise.nil⟩

theorem mem_taskRows {locale : Locale} {rows : List V0Row} {taskId : String} {row : V0Row} :
    row ∈ taskRows locale rows taskId ↔ row ∈ rows ∧ row.taskId = taskId := by
  rw [taskRows, List.mem_insertionSort, List.mem_filter, decide_eq_true_iff]

theorem convert_redraft {locale : Locale} (uuid : Draws) {uuid' : Draws} {rows : List V0Row}
    {t : String × TaskDraft} (h : t ∈ convert locale uuid' rows) :
    ∃ task, (t.1, task) ∈ convert locale uuid rows ∧ 0 < task.events.length := by
  obtain ⟨draft, hdraft, -⟩ := Option.map_eq_some_iff.mp (mem_convert.mp h)
  cases hrows : taskRows locale rows t.1 with
  | nil => rw [hrows] at hdraft; cases hdraft
  | cons row rest =>
    refine ⟨((row :: rest).foldl (TaskDraft.step (uuid t.1)) (newTask row)).close,
      mem_convert.mpr (by rw [hrows]; rfl), ?_⟩
    have hnew := (events_foldl (uuid t.1) (newTask row) (row :: rest)).length_le
    rw [TaskDraft.close, List.length_append]
    exact Nat.lt_add_right _ (Nat.lt_of_lt_of_le (Nat.succ_pos 1) hnew)

/-- The import is faithful if and only if every task's rows are accepted. -/
theorem importV0_faithful_iff {locale : Locale} {uuid : Draws}
    (huuid : ∀ taskId i, uuid taskId i ≠ "") {rows : List V0Row}
    (hfresh : ∀ row ∈ rows, ∀ i, row.prop "callId" ≠ .string (uuid row.taskId i)) :
    Faithful locale uuid rows ↔ Accepted locale rows := by
  have hown : ∀ taskId, ∀ row ∈ taskRows locale rows taskId, ∀ i,
      row.prop "callId" ≠ .string (uuid taskId i) := by
    intro taskId row hrow i
    obtain ⟨hmem, rfl⟩ := mem_taskRows.mp hrow
    exact hfresh row hmem i
  constructor
  · intro h taskId
    cases hdraft : draftOf (uuid taskId) (taskRows locale rows taskId) with
    | none =>
      have hnil : taskRows locale rows taskId = [] := by
        cases hrows : taskRows locale rows taskId with
        | nil => rfl
        | cons row rest => rw [hrows] at hdraft; cases hdraft
      rw [hnil]
      exact .nil
    | some task =>
      refine (draft_parses_iff (huuid taskId) (hown taskId) hdraft).mp ?_
      exact h.parses taskId task.close (mem_convert.mpr (by rw [hdraft]; rfl))
  · intro haccepted
    have hparses : ∀ taskId task, (taskId, task) ∈ convert locale uuid rows →
        ∃ events, parseStream task.events = some events ∧
          Supported (messagesFromEvents events) := by
      intro taskId task hmem
      obtain ⟨draft, hdraft, rfl⟩ := Option.map_eq_some_iff.mp (mem_convert.mp hmem)
      exact (draft_parses_iff (huuid taskId) (hown taskId) hdraft).mpr (haccepted taskId)
    have hsome : ∀ t ∈ convert locale uuid rows, (parseStream t.2.events).isSome := by
      rintro ⟨taskId, task⟩ hmem
      obtain ⟨events, hevents, -⟩ := hparses taskId task hmem
      rw [hevents]
      rfl
    constructor
    · exact hparses
    · intro taskId task hmem
      obtain ⟨draft, hdraft, rfl⟩ := Option.map_eq_some_iff.mp (mem_convert.mp hmem)
      have hreads := draftOf_reads hdraft
      obtain ⟨hstarted, hcalls⟩ := draft.close_events
      rw [ResultsAttached, hstarted, hcalls]
      exact ⟨hreads.started, (List.nodup_append.mp hreads.once).1, hreads.attached⟩
    · exact fun _ _ => mem_convert_filter
    · intro store taskId task hmem habsent
      exact importTasks_absent (convert_nodup locale uuid rows) hsome hmem habsent _
    · intro store uuid'
      refine importTasks_present (fun t ht => ?_) _
      obtain ⟨task, hmem, hlength⟩ := convert_redraft uuid ht
      by_cases hthere : 0 < getLatestSequence store (threadStreamId t.1)
      · rw [getLatestSequence, importV0Database, importTasks_other (.inl hthere)]
        exact hthere
      · rw [getLatestSequence, importV0Database, importTasks_absent (t := (t.1, task))
          (convert_nodup locale uuid rows) hsome hmem (Nat.eq_zero_of_not_pos hthere)]
        exact hlength

/-! ### Two tables -/

def sampleLocale : Locale := ⟨fun _ _ => true, fun _ _ => .inl rfl, fun _ _ _ _ _ => rfl⟩

def sampleDraws : Draws := fun _ i => String.ofList ('#' :: (toString i).toList)

def sampleRow (sequence : ℕ) (type : V0Type) (payload : Fields) : V0Row :=
  ⟨"t", sequence, type, .object payload, some "2026-08-20T10:00:00.000Z"⟩

/-- A task whose call is answered. -/
def toolRows : List V0Row :=
  [sampleRow 1 .toolCall [("id", .string "c"), ("toolId", .string "fs.read")],
    sampleRow 2 .toolResult [("callId", .string "c"), ("output", .string "text")]]

/-- A task without tools, whose approval is decided. -/
def plainRows : List V0Row :=
  [sampleRow 1 .taskCreated [("spec", .object [("input", .string "hello")])],
    sampleRow 2 .approvalRequested [("message", .string "go on?")],
    sampleRow 3 .approvalDecided [("approved", .boolean true)],
    sampleRow 4 .taskCompleted []]

theorem sampleDraws_ne (taskId text : String) (i : ℕ) (h : text.toList.head? ≠ some '#') :
    sampleDraws taskId i ≠ text := by
  rintro rfl
  simp [sampleDraws] at h

theorem taskRows_sample {rows : List V0Row} (hrows : ∀ row ∈ rows, row.taskId = "t")
    (hsorted : rows.insertionSort (rowLe sampleLocale) = rows) (taskId : String) :
    taskRows sampleLocale rows taskId = if taskId = "t" then rows else [] := by
  rw [taskRows]
  split
  · next h => rw [h, List.filter_eq_self.mpr (by simpa using hrows), hsorted]
  · next h =>
    have hnil : rows.filter (fun row => decide (row.taskId = taskId)) = [] := by
      refine List.filter_eq_nil_iff.mpr fun row hrow => ?_
      simpa [hrows row hrow] using Ne.symm h
    rw [hnil]
    rfl

/-- The history of an imported tool call has a tool message without its call. -/
theorem importV0_unfaithful : ¬ ∀ (locale : Locale) (uuid : Draws) (rows : List V0Row),
    (∀ taskId i, uuid taskId i ≠ "") →
    (∀ row ∈ rows, ∀ i, row.prop "callId" ≠ .string (uuid row.taskId i)) →
      Faithful locale uuid rows := by
  intro hall
  have hfresh : ∀ row ∈ toolRows, ∀ i,
      row.prop "callId" ≠ .string (sampleDraws row.taskId i) := by
    intro row hrow i heq
    simp only [toolRows, List.mem_cons, List.not_mem_nil, or_false] at hrow
    rcases hrow with rfl | rfl
    · cases heq
    · exact sampleDraws_ne _ "c" i (by decide) (Value.string.inj heq).symm
  have h := hall sampleLocale sampleDraws toolRows
    (fun taskId i => sampleDraws_ne taskId "" i (by decide)) hfresh
  have hrows : taskRows sampleLocale toolRows "t" = toolRows :=
    taskRows_sample (by simp [toolRows, sampleRow]) rfl "t"
  obtain ⟨task, hdraft⟩ : ∃ task, draftOf (sampleDraws "t") toolRows = some task := ⟨_, rfl⟩
  have haccepted := (draft_parses_iff (fun i => sampleDraws_ne "t" "" i (by decide))
    (fun row hrow i => by
      have htask : row.taskId = "t" := by
        rw [← hrows] at hrow
        exact (mem_taskRows.mp hrow).2
      exact htask ▸ hfresh row hrow i) hdraft).mp
    (h.parses "t" task.close (mem_convert.mpr (by rw [hrows, hdraft]; rfl)))
  have hpair := (List.pairwise_cons.mp haccepted.unanswered).1 _ (List.mem_cons_self ..)
  exact hpair ⟨rfl, rfl, .inr ⟨"c", rfl, rfl⟩⟩

theorem plainRows_accepted : Accepted sampleLocale plainRows := by
  intro taskId
  rw [taskRows_sample (by simp [plainRows, sampleRow]) rfl]
  split
  · refine ⟨?_, ?_, ?_, ?_⟩
    · simp [plainRows, sampleRow]
    · simp [plainRows, sampleRow, RowAccepted, V0Row.prop, Value.property?]
    · simp [plainRows, sampleRow, terminalRow?, V0Row.isTerminal]
    · simp [plainRows, sampleRow, Answers]
  · exact .nil

theorem importV0_faithful_plain : Faithful sampleLocale sampleDraws plainRows := by
  refine (importV0_faithful_iff (fun taskId i => sampleDraws_ne taskId "" i (by decide)) ?_).mpr
    plainRows_accepted
  intro row hrow i heq
  simp only [plainRows, List.mem_cons, List.not_mem_nil, or_false] at hrow
  rcases hrow with rfl | rfl | rfl | rfl <;> cases heq

end BeeAgent.ImportV0
