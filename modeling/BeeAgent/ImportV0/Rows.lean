import BeeAgent.ImportV0.Convert
import Mathlib.Data.List.Induction

/-! The drafts of the import, task by task: what a task's rows make of its draft. -/
namespace BeeAgent.ImportV0
open Data Thread

/-! ### The rows of one task -/

theorem orderedInsert_head {α : Type*} {r : α → α → Prop} [DecidableRel r] {a : α} {l : List α}
    (h : ∀ b ∈ l, r a b) : l.orderedInsert r a = a :: l := by
  cases l with
  | nil => rfl
  | cons b l => exact List.orderedInsert_cons_of_le _ _ (h b (List.mem_cons_self ..))

theorem filter_orderedInsert {α : Type*} {r : α → α → Prop} [DecidableRel r] [IsTrans α r]
    (p : α → Bool) (a : α) {l : List α} (hl : l.Pairwise r) :
    (l.orderedInsert r a).filter p =
      if p a then (l.filter p).orderedInsert r a else l.filter p := by
  induction l with
  | nil => cases hp : p a <;> simp [hp]
  | cons b l ih =>
    obtain ⟨hb, hl⟩ := List.pairwise_cons.mp hl
    by_cases hab : r a b
    · have hall : ∀ c ∈ (b :: l).filter p, r a c := by
        intro c hc
        rcases List.mem_cons.mp (List.mem_of_mem_filter hc) with rfl | hc
        · exact hab
        · exact trans_of r hab (hb c hc)
      rw [List.orderedInsert_cons_of_le _ _ hab, List.filter_cons, orderedInsert_head hall]
    · rw [List.orderedInsert_cons, if_neg hab, List.filter_cons, List.filter_cons, ih hl]
      by_cases hp : p a <;> by_cases hq : p b <;> simp [hp, hq, hab]

theorem filter_insertionSort {α : Type*} {r : α → α → Prop} [DecidableRel r] [IsTrans α r]
    [Std.Total r] (p : α → Bool) (l : List α) :
    (l.insertionSort r).filter p = (l.filter p).insertionSort r := by
  induction l with
  | nil => rfl
  | cons a l ih =>
    rw [List.insertionSort_cons, filter_orderedInsert p a (List.pairwise_insertionSort r l), ih,
      List.filter_cons]
    cases p a <;> rfl

instance (locale : Locale) : IsTrans V0Row (rowLe locale) where
  trans a b c hab hbc := by
    refine ⟨locale.trans _ _ _ hab.1 hbc.1, fun hca => ?_⟩
    have hba := locale.trans _ _ _ hbc.1 hca
    have hcb := locale.trans _ _ _ hca hab.1
    exact (hab.2 hba).trans (hbc.2 hcb)

instance (locale : Locale) : Std.Total (rowLe locale) where
  total a b := by
    rcases locale.total a.taskId b.taskId with hab | hba
    · by_cases hba : locale.le b.taskId a.taskId
      · rcases le_total a.sequence b.sequence with hle | hle
        · exact .inl ⟨hab, fun _ => hle⟩
        · exact .inr ⟨hba, fun _ => hle⟩
      · exact .inl ⟨hab, fun h => absurd h hba⟩
    · by_cases hab : locale.le a.taskId b.taskId
      · rcases le_total a.sequence b.sequence with hle | hle
        · exact .inl ⟨hab, fun _ => hle⟩
        · exact .inr ⟨hba, fun _ => hle⟩
      · exact .inr ⟨hba, fun h => absurd h hab⟩

def taskRows (locale : Locale) (rows : List V0Row) (taskId : String) : List V0Row :=
  (rows.filter fun row => row.taskId = taskId).insertionSort (rowLe locale)

/-- The draft of a task out of its rows. -/
def draftOf (uuid : ℕ → String) : List V0Row → Option TaskDraft
  | [] => none
  | row :: rows => some ((row :: rows).foldl (TaskDraft.step uuid) (newTask row))

theorem get_foldl_addRow (uuid : Draws) (tasks : OrderedMap String TaskDraft) (rows : List V0Row)
    (taskId : String) :
    (rows.foldl (addRow uuid) tasks).get taskId =
      match tasks.get taskId with
      | none => draftOf (uuid taskId) (rows.filter fun row => row.taskId = taskId)
      | some task => some ((rows.filter fun row => row.taskId = taskId).foldl
          (TaskDraft.step (uuid taskId)) task) := by
  induction rows generalizing tasks with
  | nil => cases h : tasks.get taskId <;> simp [h, draftOf]
  | cons row rows ih =>
    rw [List.foldl_cons, ih, addRow, OrderedMap.get_set]
    by_cases hown : row.taskId = taskId
    · subst hown
      cases htask : tasks.get row.taskId <;> simp [draftOf]
    · simp [hown, Ne.symm hown]

theorem mem_convert {locale : Locale} {uuid : Draws} {rows : List V0Row} {taskId : String}
    {task : TaskDraft} : (taskId, task) ∈ convert locale uuid rows ↔
      (draftOf (uuid taskId) (taskRows locale rows taskId)).map TaskDraft.close = some task := by
  have hget : ((rows.insertionSort (rowLe locale)).foldl (addRow uuid) .empty).get taskId =
      draftOf (uuid taskId) (taskRows locale rows taskId) := by
    rw [get_foldl_addRow, OrderedMap.get_empty, filter_insertionSort, taskRows]
  rw [convert, List.mem_map, ← hget]
  constructor
  · rintro ⟨⟨k, draft⟩, hmem, heq⟩
    obtain ⟨rfl, rfl⟩ := Prod.mk.inj heq
    rw [OrderedMap.mem_entries_iff.mp hmem]
    rfl
  · intro h
    obtain ⟨draft, hdraft, rfl⟩ := Option.map_eq_some_iff.mp h
    exact ⟨(taskId, draft), OrderedMap.mem_entries_iff.mpr hdraft, rfl⟩

theorem convert_nodup (locale : Locale) (uuid : Draws) (rows : List V0Row) :
    ((convert locale uuid rows).map Prod.fst).Nodup := by
  have hkeys : (convert locale uuid rows).map Prod.fst =
      ((rows.insertionSort (rowLe locale)).foldl (addRow uuid) .empty).entries.map Prod.fst := by
    rw [convert, List.map_map]
    rfl
  rw [hkeys]
  exact OrderedMap.nodup _

theorem mem_convert_filter {locale : Locale} {uuid : Draws} {rows : List V0Row} {taskId : String}
    {task : TaskDraft} : (taskId, task) ∈ convert locale uuid rows ↔
      (taskId, task) ∈ convert locale uuid (rows.filter fun row => row.taskId = taskId) := by
  rw [mem_convert, mem_convert, taskRows, taskRows, List.filter_filter]
  simp

/-! ### What a draft holds -/

def startedItem? : NewChronicleEvent → Option ItemDraft
  | .itemStarted item _ => some item
  | _ => none

def completedCall? : NewChronicleEvent → Option ItemDraft
  | .itemCompleted item _ => if item.type = .toolCall then some item else none
  | _ => none

def startedItems (events : List NewChronicleEvent) : List ItemDraft :=
  events.filterMap startedItem?

def completedCalls (events : List NewChronicleEvent) : List ItemDraft :=
  events.filterMap completedCall?

def draftItems (uuid : ℕ → String) (rows : List V0Row) : List ItemDraft :=
  rows.zipIdx.filterMap fun row => draftItem uuid row.2 row.1

theorem answers_type {result : V0Row} {item : ItemDraft} (h : answers result item) :
    item.type = .toolCall := by
  simpa using (Bool.and_eq_true_iff.mp h).1

def Attaches (started : List ItemDraft) (item : ItemDraft) (result : V0Row) : Prop :=
  ∃ call ∈ started, answers result call ∧ item = withResult call result

/-- The results that are attached come in v0 order, each to one call. -/
def ResultsAttached (rows : List V0Row) (events : List NewChronicleEvent) : Prop :=
  ((completedCalls events).map ItemDraft.id).Nodup ∧
    ∃ attached, attached.Sublist (rows.filter fun row => row.type = .toolResult) ∧
      List.Forall₂ (Attaches (startedItems events)) (completedCalls events) attached

/-- What the rows read so far have made of a task. -/
structure Reads (uuid : ℕ → String) (rows : List V0Row) (task : TaskDraft) : Prop where
  count : task.rows = rows.length
  started : startedItems task.events = draftItems uuid rows
  openItems : task.openItems.Sublist (startedItems task.events)
  attached : ∃ attached, attached.Sublist (rows.filter fun row => row.type = .toolResult) ∧
    List.Forall₂ (Attaches (startedItems task.events)) (completedCalls task.events) attached
  once : ((completedCalls task.events).map ItemDraft.id ++ task.openItems.map ItemDraft.id).Nodup
  waiting : completedCalls task.events = [] →
    ∀ item ∈ startedItems task.events, item.type = .toolCall → item ∈ task.openItems

theorem draftItem_id {uuid : ℕ → String} {i : ℕ} {row : V0Row} {item : ItemDraft}
    (h : draftItem uuid i row = some item) : item.id = i := by
  unfold draftItem at h
  split at h
  · cases h; rfl
  · dsimp only at h
    split at h
    · cases h
    · cases h; rfl
  · cases h; rfl
  · cases h; rfl
  · cases h

theorem draftItems_append (uuid : ℕ → String) (rows : List V0Row) (row : V0Row) :
    draftItems uuid (rows ++ [row]) =
      draftItems uuid rows ++ (draftItem uuid rows.length row).toList := by
  rw [draftItems, List.zipIdx_append, List.filterMap_append, draftItems, Nat.zero_add]
  cases h : draftItem uuid rows.length row <;> simp [h]

theorem draftItems_id {uuid : ℕ → String} {rows : List V0Row} {item : ItemDraft}
    (h : item ∈ draftItems uuid rows) : item.id < rows.length := by
  obtain ⟨⟨row, i⟩, hmem, hitem⟩ := List.mem_filterMap.mp h
  rw [draftItem_id hitem]
  obtain ⟨hi, -⟩ := List.mem_zipIdx' hmem
  exact hi

/-- What reading a row does: it emits a message, begins an item, looks for an open one, or only
turns the state. -/
theorem read_cases (uuid : ℕ → String) (task : TaskDraft) (row : V0Row) :
    (∃ item, draftItem uuid task.rows row = some item ∧ row.type ≠ .toolResult ∧
      ((item.type = .message ∧
        task.read uuid row = task.emitMessage item (row.createdAt.or task.createdAt)) ∨
      (item.type ≠ .message ∧
        task.read uuid row = task.begin item (row.createdAt.or task.createdAt)))) ∨
    (draftItem uuid task.rows row = none ∧ ((row.type = .toolResult ∧
        task.read uuid row =
          task.finish (answers row) (withResult · row) (row.createdAt.or task.createdAt)) ∨
      (row.type = .approvalDecided ∧ task.read uuid row =
        task.finish (fun item => item.type = .approval) (decided · row)
          (row.createdAt.or task.createdAt)) ∨
      (row.type ≠ .toolResult ∧ (task.read uuid row).openItems = task.openItems ∧
        (task.read uuid row).events = task.events))) := by
  unfold TaskDraft.read
  cases htype : row.type with
  | agentMessage =>
    by_cases hrole : textOr "assistant" (row.prop "role") = "user" ∨
        textOr "assistant" (row.prop "role") = "system"
    · simp [draftItem, htype, hrole]
    · simp [draftItem, htype, hrole]
  | _ => simp [draftItem, htype]

theorem find?_split {α : Type*} {p : α → Bool} {l : List α} {a : α} (h : l.find? p = some a) :
    p a ∧ ∃ before after, l = before ++ a :: after ∧ l.eraseP p = before ++ after := by
  obtain ⟨hp, before, after, rfl, hbefore⟩ := List.find?_eq_some_iff_append.mp h
  refine ⟨hp, before, after, rfl, ?_⟩
  rw [List.eraseP_append_right _ (by simpa using hbefore), List.eraseP_cons_of_pos hp]

theorem Reads.new (uuid : ℕ → String) (row : V0Row) : Reads uuid [] (newTask row) where
  count := rfl
  started := rfl
  openItems := List.nil_sublist _
  attached := ⟨[], List.Sublist.refl _, .nil⟩
  once := List.nodup_nil
  waiting := by simp [startedItems, newTask, startedItem?]

theorem TaskDraft.emitMessage_events (task : TaskDraft) (item : ItemDraft) (stamp : Option String)
    (h : item.type = .message) :
    startedItems (task.emitMessage item stamp).events = startedItems task.events ++ [item] ∧
      completedCalls (task.emitMessage item stamp).events = completedCalls task.events := by
  simp [TaskDraft.emitMessage, startedItems, completedCalls, startedItem?, completedCall?, h]

theorem TaskDraft.begin_events (task : TaskDraft) (item : ItemDraft) (stamp : Option String) :
    startedItems (task.begin item stamp).events = startedItems task.events ++ [item] ∧
      completedCalls (task.begin item stamp).events = completedCalls task.events := by
  simp [TaskDraft.begin, startedItems, completedCalls, startedItem?, completedCall?]

theorem Attaches.mono {started more : List ItemDraft} {item : ItemDraft} {result : V0Row}
    (h : Attaches started item result) : Attaches (started ++ more) item result := by
  obtain ⟨call, hcall, hanswers, hitem⟩ := h
  exact ⟨call, List.mem_append_left _ hcall, hanswers, hitem⟩

theorem forall₂_attaches_mono {started more items : List ItemDraft} {results : List V0Row}
    (h : List.Forall₂ (Attaches started) items results) :
    List.Forall₂ (Attaches (started ++ more)) items results :=
  h.imp fun _ _ ha => ha.mono

theorem exists_of_forall₂ {α β : Type*} {R : α → β → Prop} {l : List α} {l' : List β}
    (h : List.Forall₂ R l l') {a : α} (ha : a ∈ l) : ∃ b, R a b := by
  induction h with
  | nil => cases ha
  | cons hab _ ih =>
    rcases List.mem_cons.mp ha with rfl | ha
    · exact ⟨_, hab⟩
    · exact ih ha

theorem Reads.ids {uuid : ℕ → String} {rows : List V0Row} {task : TaskDraft}
    (h : Reads uuid rows task) : ∀ id ∈ (completedCalls task.events).map ItemDraft.id ++
      task.openItems.map ItemDraft.id, id < rows.length := by
  have hstarted : ∀ item ∈ startedItems task.events, item.id < rows.length := by
    rw [h.started]
    exact fun item hitem => draftItems_id hitem
  intro id hid
  rcases List.mem_append.mp hid with hid | hid
  · obtain ⟨item, hitem, rfl⟩ := List.mem_map.mp hid
    obtain ⟨attached, -, hall⟩ := h.attached
    obtain ⟨result, call, hcall, -, rfl⟩ := exists_of_forall₂ hall hitem
    exact hstarted call hcall
  · obtain ⟨item, hitem, rfl⟩ := List.mem_map.mp hid
    exact hstarted item (h.openItems.subset hitem)

theorem Reads.start {uuid : ℕ → String} {rows : List V0Row} {task next : TaskDraft} {row : V0Row}
    {item : ItemDraft} (h : Reads uuid rows task) (hitem : draftItem uuid task.rows row = some item)
    (hrow : row.type ≠ .toolResult) (hcount : next.rows = task.rows + 1)
    (hstarted : startedItems next.events = startedItems task.events ++ [item])
    (hcalls : completedCalls next.events = completedCalls task.events)
    (hopen : next.openItems = task.openItems ∧ item.type = .message ∨
      next.openItems = task.openItems ++ [item]) :
    Reads uuid (rows ++ [row]) next := by
  rw [h.count] at hitem
  have hresults : (rows ++ [row]).filter (fun row => row.type = .toolResult) =
      rows.filter fun row => row.type = .toolResult := by simp [hrow]
  constructor
  · rw [hcount, h.count, List.length_append, List.length_singleton]
  · rw [hstarted, h.started, draftItems_append, hitem]
    rfl
  · rw [hstarted]
    rcases hopen with ⟨hopen, -⟩ | hopen
    · exact hopen ▸ h.openItems.trans (List.sublist_append_left _ _)
    · exact hopen ▸ h.openItems.append (List.Sublist.refl _)
  · obtain ⟨attached, hsub, hall⟩ := h.attached
    rw [hresults, hstarted, hcalls]
    exact ⟨attached, hsub, forall₂_attaches_mono hall⟩
  · rw [hcalls]
    rcases hopen with ⟨hopen, -⟩ | hopen
    · rw [hopen]
      exact h.once
    · rw [hopen, List.map_append, ← List.append_assoc, List.nodup_append]
      refine ⟨h.once, List.nodup_singleton _, fun a ha b hb heq => ?_⟩
      obtain rfl := List.mem_singleton.mp hb
      exact absurd (heq.trans (draftItem_id hitem)) (h.ids a ha).ne
  · rw [hcalls, hstarted]
    intro hnone other hother htype
    rcases List.mem_append.mp hother with hother | hother
    · have hwaits := h.waiting hnone other hother htype
      rcases hopen with ⟨hopen, -⟩ | hopen
      · exact hopen ▸ hwaits
      · exact hopen ▸ List.mem_append_left _ hwaits
    · obtain rfl := List.mem_singleton.mp hother
      rcases hopen with ⟨-, hmessage⟩ | hopen
      · rw [htype] at hmessage
        cases hmessage
      · exact hopen ▸ List.mem_append_right _ hother

theorem Reads.keep {uuid : ℕ → String} {rows : List V0Row} {task next : TaskDraft} {row : V0Row}
    (h : Reads uuid rows task) (hitem : draftItem uuid task.rows row = none)
    (hcount : next.rows = task.rows + 1)
    (hstarted : startedItems next.events = startedItems task.events)
    (hcalls : completedCalls next.events = completedCalls task.events)
    (hopen : next.openItems.Sublist task.openItems)
    (hcall : ∀ item ∈ task.openItems, item.type = .toolCall → item ∈ next.openItems) :
    Reads uuid (rows ++ [row]) next := by
  rw [h.count] at hitem
  constructor
  · rw [hcount, h.count, List.length_append, List.length_singleton]
  · rw [hstarted, h.started, draftItems_append, hitem]
    exact (List.append_nil _).symm
  · rw [hstarted]
    exact hopen.trans h.openItems
  · obtain ⟨attached, hsub, hall⟩ := h.attached
    rw [hstarted, hcalls, List.filter_append]
    exact ⟨attached, hsub.trans (List.sublist_append_left _ _), hall⟩
  · rw [hcalls]
    exact h.once.sublist ((List.Sublist.refl _).append (hopen.map _))
  · rw [hcalls, hstarted]
    exact fun hnone item hitem htype => hcall item (h.waiting hnone item hitem htype) htype

theorem Reads.attach {uuid : ℕ → String} {rows : List V0Row} {task next : TaskDraft} {row : V0Row}
    {call : ItemDraft} (h : Reads uuid rows task) (hitem : draftItem uuid task.rows row = none)
    (hrow : row.type = .toolResult) (hcount : next.rows = task.rows + 1)
    (hstarted : startedItems next.events = startedItems task.events)
    (hcalls : completedCalls next.events = completedCalls task.events ++ [withResult call row])
    {before after : List ItemDraft} (hopen : task.openItems = before ++ call :: after)
    (hnext : next.openItems = before ++ after) (hanswers : answers row call) :
    Reads uuid (rows ++ [row]) next := by
  rw [h.count] at hitem
  have hmem : call ∈ task.openItems := by
    rw [hopen]
    exact List.mem_append_right _ (List.mem_cons_self ..)
  constructor
  · rw [hcount, h.count, List.length_append, List.length_singleton]
  · rw [hstarted, h.started, draftItems_append, hitem]
    exact (List.append_nil _).symm
  · rw [hstarted, hnext]
    refine List.Sublist.trans ?_ h.openItems
    rw [hopen]
    exact (List.Sublist.refl _).append (List.sublist_cons_self _ _)
  · obtain ⟨attached, hsub, hall⟩ := h.attached
    refine ⟨attached ++ [row], ?_, ?_⟩
    · rw [List.filter_append]
      refine hsub.append ?_
      simp [hrow]
    · rw [hstarted, hcalls]
      exact List.rel_append hall (.cons ⟨call, h.openItems.subset hmem, hanswers, rfl⟩ .nil)
  · rw [hcalls, hnext]
    have honce := h.once
    rw [hopen] at honce
    refine honce.perm ?_
    have hid : (withResult call row).id = call.id := rfl
    simp only [List.map_append, List.map_cons, List.map_nil, hid, List.append_assoc,
      List.singleton_append]
    exact List.Perm.append_left _ List.perm_middle
  · rw [hcalls]
    intro hnone
    simp at hnone

theorem finish_none {task : TaskDraft} {meant : ItemDraft → Bool} (complete : ItemDraft → ItemDraft)
    (stamp : Option String) (h : task.openItems.find? meant = none) :
    task.finish meant complete stamp = task := by
  rw [TaskDraft.finish, h]

theorem finish_some {task : TaskDraft} {meant : ItemDraft → Bool} (complete : ItemDraft → ItemDraft)
    (stamp : Option String) {item : ItemDraft} (h : task.openItems.find? meant = some item) :
    task.finish meant complete stamp = { task with
      openItems := task.openItems.eraseP meant
      events := task.events ++ [.itemCompleted (complete item) stamp] } := by
  rw [TaskDraft.finish, h]

theorem Reads.step {uuid : ℕ → String} {rows : List V0Row} {task : TaskDraft}
    (h : Reads uuid rows task) (row : V0Row) : Reads uuid (rows ++ [row]) (task.step uuid row) := by
  rcases read_cases uuid task row with ⟨item, hitem, hrow, ⟨hmessage, hread⟩ | ⟨-, hread⟩⟩ |
    ⟨hitem, ⟨hrow, hread⟩ | ⟨-, hread⟩ | ⟨-, hopen, hevents⟩⟩
  · obtain ⟨hstarted, hcalls⟩ := task.emitMessage_events item (row.createdAt.or task.createdAt)
      hmessage
    rw [TaskDraft.step, hread]
    exact h.start hitem hrow rfl hstarted hcalls (.inl ⟨rfl, hmessage⟩)
  · obtain ⟨hstarted, hcalls⟩ := task.begin_events item (row.createdAt.or task.createdAt)
    rw [TaskDraft.step, hread]
    exact h.start hitem hrow rfl hstarted hcalls (.inr rfl)
  · rw [TaskDraft.step, hread]
    cases hfind : task.openItems.find? (answers row) with
    | none =>
      rw [finish_none _ _ hfind]
      exact h.keep hitem rfl rfl rfl (List.Sublist.refl _) fun item hmem _ => hmem
    | some call =>
      obtain ⟨hanswers, before, after, hopen, herase⟩ := find?_split hfind
      have htype := answers_type hanswers
      rw [finish_some _ _ hfind]
      refine h.attach hitem hrow rfl ?_ ?_ hopen herase hanswers
      · simp [startedItems, startedItem?]
      · simp [completedCalls, completedCall?, withResult, htype]
  · rw [TaskDraft.step, hread]
    cases hfind : task.openItems.find? (fun item => decide (item.type = .approval)) with
    | none =>
      rw [finish_none _ _ hfind]
      exact h.keep hitem rfl rfl rfl (List.Sublist.refl _) fun item hmem _ => hmem
    | some approval =>
      obtain ⟨htype, -⟩ := find?_split hfind
      rw [finish_some _ _ hfind]
      refine h.keep hitem rfl ?_ ?_ List.eraseP_sublist fun item hmem hcall => ?_
      · simp [startedItems, startedItem?]
      · have happroval : approval.type = .approval := by simpa using htype
        simp [completedCalls, completedCall?, decided, happroval]
      · exact (List.mem_eraseP_of_neg (by simp [hcall])).mpr hmem
  · exact h.keep hitem rfl (by rw [TaskDraft.step, hevents]) (by rw [TaskDraft.step, hevents])
      (by rw [TaskDraft.step, hopen]) (by rw [TaskDraft.step, hopen]; exact fun item hmem _ => hmem)

theorem Reads.foldl {uuid : ℕ → String} {rows : List V0Row} {task : TaskDraft}
    (h : Reads uuid rows task) (more : List V0Row) :
    Reads uuid (rows ++ more) (more.foldl (TaskDraft.step uuid) task) := by
  induction more generalizing rows task with
  | nil => rwa [List.append_nil]
  | cons row more ih =>
    have hrest := ih (h.step row)
    rwa [List.append_assoc, List.singleton_append] at hrest

/-- The rows of a task begin one item each, in order, and every result is attached to a call that
it names. -/
theorem draftOf_reads {uuid : ℕ → String} {rows : List V0Row} {task : TaskDraft}
    (h : draftOf uuid rows = some task) : Reads uuid rows task := by
  cases rows with
  | nil => cases h
  | cons row rows =>
    cases h
    exact (Reads.new uuid row).foldl (row :: rows)

end BeeAgent.ImportV0
