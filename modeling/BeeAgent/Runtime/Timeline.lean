import BeeAgent.Chronicle.StoresAgree
import BeeAgent.Data.Faithful
import BeeAgent.Data.Folds
import BeeAgent.Data.Recent
import BeeAgent.Runtime.Trajectory
import Mathlib.Data.List.ReduceOption
import Mathlib.Data.Prod.Lex
import Mathlib.Order.OrderDual

/-! What the global timeline shows of a store: the newest of what it classifies among the last
events of each stream. -/
namespace BeeAgent.Runtime.Trajectory
open Data Data.Recent Chronicle.Stores
open BeeAgent.Memory (sortBy)

/-- Later events come first, then those of the smaller stream, then the later of one stream. -/
def Before (a b : EntryDraft) : Prop :=
  utf16 b.event.event.eventTime < utf16 a.event.event.eventTime ∨
    a.event.event.eventTime = b.event.event.eventTime ∧
      (utf16 a.event.streamId < utf16 b.event.streamId ∨
        a.event.streamId = b.event.streamId ∧ b.event.sequence < a.event.sequence)

/-- The drafts of some events, without those that the timeline leaves out. -/
def draftsOf (minutes : Value → Except TypeError String) (events : List StoredEvent) :
    Except TypeError (List EntryDraft) :=
  (events.mapM fun event => classify minutes event.streamId event).map List.reduceOption

def logged (store : Memory.Store) (query : GlobalTrajectoryQuery) : List StoredEvent :=
  ((Memory.listStreams store).filter fun id => !query.skipsStream id).flatMap (streamOf store)

/-- The last events of each of these streams, no more than a page of each. -/
def recent (store : Memory.Store) (query : GlobalTrajectoryQuery) : List StoredEvent :=
  ((Memory.listStreams store).filter fun id => !query.skipsStream id).flatMap fun id =>
    (streamOf store id).drop ((streamOf store id).length - query.pageSize)

/-- The store over a map of arrays. -/
def memoryReads (store : Memory.Store) : ChronicleReads where
  listStreams := Memory.listStreams store
  getLatestSequence := Memory.getLatestSequence store
  readStream streamId after := .ok (Memory.readStream store streamId after)

/-- The store over tables. -/
def sqliteReads (registry : ChronicleSchemaRegistry) (d : Sqlite.Database) : ChronicleReads where
  listStreams := Sqlite.listStreams d
  getLatestSequence := Sqlite.getLatestSequence d
  readStream := Sqlite.readStream registry d

/-- The newest drafts that a query asks for, a page of them, and the numbers of all drafts. -/
structure Shows (query : GlobalTrajectoryQuery) (drafts : List EntryDraft)
    (timeline : GlobalTrajectory) : Prop where
  entries : ∃ kept, timeline.entries = kept.map EntryDraft.entry ∧ kept.Pairwise Before ∧
    MostRecent (fun draft k => Before k draft) query.pageSize kept
      (drafts.filter fun draft => !query.skips draft)
  fast : timeline.counts.fast = drafts.countP fun draft => draft.loop = .fast
  slow : timeline.counts.slow = drafts.countP fun draft => draft.loop = .slow
  byCategory : ∀ c, timeline.counts.byCategory c = drafts.countP fun draft => draft.category = c

/-! ### Stores -/

/-- Each stream holds its own events, numbered from 1 on. -/
structure Numbered (s : Memory.Store) : Prop where
  numbered : ∀ k, (streamOf s k).map (·.sequence) = List.range' 1 (streamOf s k).length
  own : ∀ k, ∀ e ∈ streamOf s k, e.streamId = k

section Stores
variable {registry : ChronicleSchemaRegistry} {s s' : Memory.Store} {id : String}

theorem Numbered.empty : Numbered .empty :=
  ⟨fun _ => rfl, fun _ _ he => absurd he List.not_mem_nil⟩

theorem append_cases {events : List NewChronicleEvent} {expectedSequence : ℤ} {now : String}
    {stored : List StoredEvent}
    (h : Memory.append registry s id events expectedSequence now = .ok (stored, s')) : s' = s ∨
      s' = s.set id (streamOf s id ++ stamp id now ((streamOf s id).length + 1) events) := by
  simp only [Memory.append, bind, Except.bind, pure, Except.pure, throw, throwThe,
    MonadExceptOf.throw] at h
  split at h
  · exact .inl (Prod.mk.inj (Except.ok.inj h)).2.symm
  cases hvalid : events.forM (validateNew registry) with
  | error e =>
    rw [hvalid] at h
    cases h
  | ok u =>
    rw [hvalid] at h
    dsimp only at h
    split at h
    · cases h
    split at h
    · split at h
      · exact .inl (Prod.mk.inj (Except.ok.inj h)).2.symm
      · cases h
    · exact .inr (Prod.mk.inj (Except.ok.inj h)).2.symm

theorem Numbered.set {events : List NewChronicleEvent} {now : String} (h : Numbered s) :
    Numbered (s.set id (streamOf s id ++ stamp id now ((streamOf s id).length + 1) events)) := by
  have hget : ∀ k, streamOf (s.set id (streamOf s id ++
      stamp id now ((streamOf s id).length + 1) events)) k =
      if k = id then streamOf s id ++ stamp id now ((streamOf s id).length + 1) events
      else streamOf s k := fun k => by
    rw [streamOf, OrderedMap.get_set]
    split <;> rfl
  refine ⟨fun k => ?_, fun k e he => ?_⟩
  · rw [hget]
    split
    · rw [List.map_append, h.numbered, stamp_sequences, List.length_append, stamp_length,
        Nat.add_comm _ 1, List.range'_append_1]
    · exact h.numbered k
  · rw [hget] at he
    split at he
    · next hk =>
      subst hk
      rcases List.mem_append.mp he with he | he
      · exact h.own k e he
      · exact (mem_stamp he).2.1
    · exact h.own k e he

theorem Numbered.step (h : Numbered s) (call : StoreCall) :
    Numbered (Memory.step registry s call).2 := by
  cases call with
  | append id events expectedSequence now =>
    simp only [Memory.step]
    cases happend : Memory.append registry s id events expectedSequence now with
    | error e => exact h
    | ok result =>
      obtain hsame | hset := append_cases happend
      · exact hsame ▸ h
      · exact hset ▸ h.set
  | readStream => exact h
  | getLatestSequence => exact h
  | listStreams => exact h

theorem Numbered.run {calls : List StoreCall} (h : Numbered s) :
    Numbered (run (Memory.step registry) s calls).2 := by
  induction calls generalizing s with
  | nil => exact h
  | cons call calls ih => exact ih (h.step call)

theorem Numbered.readStream (h : Numbered s) (id : String) (n : ℕ) :
    Memory.readStream s id (n : ℤ) = (streamOf s id).drop n := by
  have hwindow := @filter_window _ _ 1 (n + 1) ((streamOf s id).length + 1) _ (h.numbered id)
    (Nat.le_add_left 1 n)
  have hread : Memory.readStream s id (n : ℤ) = (streamOf s id).filter fun e =>
      n + 1 ≤ e.sequence && e.sequence < (streamOf s id).length + 1 := by
    refine List.filter_congr fun e he => ?_
    have hmem : e.sequence ∈ List.range' 1 (streamOf s id).length :=
      h.numbered id ▸ List.mem_map_of_mem he
    rw [List.mem_range'_1] at hmem
    rw [← Bool.decide_and, decide_eq_decide]
    omega
  rw [hread, hwindow, Nat.add_sub_cancel, List.take_of_length_le]
  rw [List.length_drop]
  omega

end Stores

/-! ### The order -/

/-- What the order compares, one after the other. -/
def EntryDraft.key (d : EntryDraft) : (List ℕ)ᵒᵈ ×ₗ List ℕ ×ₗ ℕᵒᵈ :=
  toLex (OrderDual.toDual (utf16 d.event.event.eventTime),
    toLex (utf16 d.event.streamId, OrderDual.toDual d.event.sequence))

theorem before_iff (a b : EntryDraft) : Before a b ↔ a.key < b.key := by
  simp only [Before, EntryDraft.key, Prod.Lex.toLex_lt_toLex, OrderDual.toDual_lt_toDual,
    OrderDual.toDual_inj, utf16_injective.eq_iff]

theorem compareDrafts_eq_gt (a b : EntryDraft) : compareDrafts a b = .gt ↔ Before b a := by
  rw [compareDrafts, Before]
  split
  · next htime => simp [Ne.symm htime]
  · next htime =>
    rw [not_not] at htime
    split
    · next hstream =>
      simp [htime, Ne.symm hstream, (utf16_injective.ne (Ne.symm hstream)).le_iff_lt]
    · next hstream => simp [htime, not_not.mp hstream, Nat.compare_eq_gt]

theorem compareDrafts_ne_gt (a b : EntryDraft) : compareDrafts a b ≠ .gt ↔ a.key ≤ b.key := by
  rw [← not_lt, ← before_iff, ne_eq, compareDrafts_eq_gt]

theorem pairwise_sorted (drafts : List EntryDraft) :
    (sortBy compareDrafts drafts).Pairwise fun a b => a.key ≤ b.key := by
  have hle : (fun a b : EntryDraft => compareDrafts a b ≠ .gt) = fun a b => a.key ≤ b.key :=
    funext₂ fun a b => propext (compareDrafts_ne_gt a b)
  have htotal : Std.Total fun a b : EntryDraft => compareDrafts a b ≠ .gt :=
    hle ▸ ⟨fun a b => le_total a.key b.key⟩
  have htrans : IsTrans EntryDraft fun a b => compareDrafts a b ≠ .gt :=
    hle ▸ ⟨fun a b c hab hbc => le_trans hab hbc⟩
  have hsorted := List.pairwise_insertionSort (fun a b => compareDrafts a b ≠ .gt) drafts
  exact hsorted.imp fun h => (compareDrafts_ne_gt _ _).mp h

def position (e : StoredEvent) : String × ℕ := (e.streamId, e.sequence)

theorem pairwise_before {drafts : List EntryDraft}
    (hnodup : (drafts.map fun d => position d.event).Nodup) :
    (sortBy compareDrafts drafts).Pairwise Before := by
  have hperm : ((sortBy compareDrafts drafts).map fun d => position d.event).Nodup :=
    ((List.perm_insertionSort _ drafts).map _).nodup_iff.mpr hnodup
  refine ((pairwise_sorted drafts).and (List.pairwise_map.mp hperm)).imp fun {a b} ⟨hle, hne⟩ => ?_
  refine (before_iff a b).mpr (lt_of_le_of_ne hle fun heq => hne ?_)
  simp only [EntryDraft.key, EmbeddingLike.apply_eq_iff_eq, Prod.mk.injEq, utf16_injective.eq_iff]
    at heq
  exact Prod.ext heq.2.1 heq.2.2

/-! ### The loops -/

section Loops
variable {minutes : Value → Except TypeError String} {store : Memory.Store}
  {query : GlobalTrajectoryQuery} {drafts : List EntryDraft} {events : List StoredEvent}

theorem collect_eq (entries : List TrajectoryEntry) (hle : entries.length ≤ query.pageSize) :
    collect query entries drafts = entries ++ ((drafts.filter fun d => !query.skips d).take
      (query.pageSize - entries.length)).map EntryDraft.entry := by
  induction drafts generalizing entries with
  | nil => simp [collect]
  | cons draft drafts ih =>
    rw [collect]
    split
    · next hskip => rw [ih entries hle, List.filter_cons_of_neg (by simp [hskip])]
    · next hskip =>
      rw [List.filter_cons_of_pos (by simpa using hskip)]
      split
      · next hfull => simp [hfull]
      · next hroom =>
        have hlength : (entries ++ [draft.entry]).length = entries.length + 1 :=
          List.length_append
        rw [ih _ (by omega), hlength, List.append_assoc,
          show query.pageSize - entries.length = query.pageSize - (entries.length + 1) + 1 by omega,
          List.take_succ_cons, List.map_cons]
        rfl

theorem counts_eq (counts : Counts) :
    (drafts.foldl Counts.add counts).fast =
        counts.fast + drafts.countP (fun draft => draft.loop = .fast) ∧
      (drafts.foldl Counts.add counts).slow =
        counts.slow + drafts.countP (fun draft => draft.loop = .slow) ∧
      ∀ c, (drafts.foldl Counts.add counts).byCategory c =
        counts.byCategory c + drafts.countP fun draft => draft.category = c := by
  induction drafts generalizing counts with
  | nil => simp
  | cons draft drafts ih =>
    obtain ⟨hfast, hslow, hcategory⟩ := ih (counts.add draft)
    refine ⟨?_, ?_, fun c => ?_⟩
    · rw [List.foldl_cons, hfast, List.countP_cons, Counts.add]
      by_cases hloop : draft.loop = .fast <;> simp [hloop]; omega
    · rw [List.foldl_cons, hslow, List.countP_cons, Counts.add]
      by_cases hloop : draft.loop = .slow <;> simp [hloop]; omega
    · rw [List.foldl_cons, hcategory, List.countP_cons, Counts.add]
      by_cases hc : c = draft.category
      · simp [hc]; omega
      · simp [hc, Ne.symm hc]

theorem draftsOf_append (left right : List StoredEvent) :
    draftsOf minutes (left ++ right) = do
      let first ← draftsOf minutes left
      return first ++ (← draftsOf minutes right) := by
  simp only [draftsOf, List.mapM_append]
  cases left.mapM fun event => classify minutes event.streamId event with
  | error e => rfl
  | ok first =>
    cases right.mapM fun event => classify minutes event.streamId event with
    | error e => rfl
    | ok rest => exact congrArg Except.ok (List.filterMap_append ..)

theorem mapM_own {id : String} (hown : ∀ e ∈ events, e.streamId = id) :
    events.mapM (classify minutes id) = events.mapM fun e => classify minutes e.streamId e := by
  induction events with
  | nil => rfl
  | cons e events ih =>
    obtain ⟨he, hevents⟩ := List.forall_mem_cons.mp hown
    rw [List.mapM_cons, List.mapM_cons, ih hevents, he]

theorem scan_eq (hstore : Numbered store) (streams : List String) (drafts : List EntryDraft) :
    scan minutes (memoryReads store) query streams drafts =
      ((draftsOf minutes ((streams.filter fun id => !query.skipsStream id).flatMap fun id =>
        (streamOf store id).drop ((streamOf store id).length - query.pageSize))).map
          (drafts ++ ·)).mapError .payload := by
  induction streams generalizing drafts with
  | nil => exact congrArg Except.ok (List.append_nil drafts).symm
  | cons id streams ih =>
    rw [scan]
    split
    · next hskip => rw [ih, List.filter_cons_of_neg (by simp [hskip])]
    · next hskip =>
      rw [List.filter_cons_of_pos (by simpa using hskip), List.flatMap_cons]
      dsimp only
      split
      · next hempty =>
        have hnil : streamOf store id = [] := List.eq_nil_of_length_eq_zero hempty
        rw [ih, hnil, List.drop_nil, List.nil_append]
      · have hlatest : (memoryReads store).getLatestSequence id = (streamOf store id).length := rfl
        have hread : (memoryReads store).readStream id
            (((streamOf store id).length - query.pageSize : ℕ) : ℤ) =
            .ok ((streamOf store id).drop ((streamOf store id).length - query.pageSize)) :=
          congrArg Except.ok (hstore.readStream id _)
        have hown : ∀ e ∈ (streamOf store id).drop ((streamOf store id).length - query.pageSize),
            e.streamId = id := fun e he => hstore.own id e (List.mem_of_mem_drop he)
        rw [draftsOf_append, hlatest, hread, draftsOf, ← mapM_own hown]
        generalize (streamOf store id).drop _ = window
        simp only [bind, Except.bind, Except.mapError]
        cases window.mapM (classify minutes id) with
        | error e => rfl
        | ok found =>
          refine (ih _).trans ?_
          cases draftsOf minutes _ with
          | error e => rfl
          | ok rest => exact congrArg Except.ok (List.append_assoc ..)

theorem classify_event {id : String} {e : StoredEvent} {d : EntryDraft}
    (h : classify minutes id e = .ok (some d)) : d.event = e := by
  rw [classify] at h
  cases hentry : classified minutes id (payloadOf e) e.event.eventType with
  | error =>
    rw [hentry] at h
    cases h
  | ok entry =>
    rw [hentry] at h
    obtain ⟨entry, -, rfl⟩ := Option.map_eq_some_iff.mp (Except.ok.inj h)
    rfl

theorem draftsOf_events (h : draftsOf minutes events = .ok drafts) :
    (drafts.map (·.event)).Sublist events := by
  obtain ⟨found, hfound, rfl⟩ := exists_of_map_ok h
  have hall := mapM_forall₂ hfound
  clear h hfound
  induction hall with
  | nil => exact List.Sublist.refl []
  | @cons e draft? _ _ hdraft _ ih =>
    cases draft? with
    | none => exact ih.cons e
    | some draft =>
      rw [List.reduceOption_cons_of_some, List.map_cons, classify_event hdraft]
      exact ih.cons_cons e

theorem nodup_recent (hstore : Numbered store) (query : GlobalTrajectoryQuery) :
    ((recent store query).map position).Nodup := by
  rw [recent, List.map_flatMap]
  refine List.nodup_flatMap.mpr ⟨fun id _ => ?_, ?_⟩
  · have hsequences : (((streamOf store id).map (·.sequence))).Nodup :=
      hstore.numbered id ▸ List.nodup_range'
    have hpositions : ((streamOf store id).map position).Nodup :=
      List.Nodup.of_map Prod.snd (by rwa [List.map_map])
    exact hpositions.sublist ((List.drop_sublist ..).map _)
  · refine (store.nodup.sublist List.filter_sublist).imp fun {a b} hne => ?_
    refine List.disjoint_left.mpr fun p ha hb => hne ?_
    obtain ⟨e, he, rfl⟩ := List.mem_map.mp ha
    obtain ⟨f, hf, heq⟩ := List.mem_map.mp hb
    have hstreams : f.streamId = e.streamId := congrArg Prod.fst heq
    rw [← hstore.own a e (List.mem_of_mem_drop he), ← hstore.own b f (List.mem_of_mem_drop hf),
      hstreams]

theorem scan_recent (hstore : Numbered store) :
    scan minutes (memoryReads store) query (memoryReads store).listStreams [] =
      (draftsOf minutes (recent store query)).mapError .payload := by
  refine (scan_eq hstore _ []).trans ?_
  rw [recent, memoryReads]
  cases draftsOf minutes _ <;> rfl

theorem shows_recent (hstore : Numbered store)
    (hdrafts : draftsOf minutes (recent store query) = .ok drafts) :
    ∃ timeline, buildGlobalTrajectory minutes (memoryReads store) query = .ok timeline ∧
      Shows query drafts timeline := by
  have hscan := @scan_recent minutes store query hstore
  rw [hdrafts] at hscan
  refine ⟨_, by rw [buildGlobalTrajectory, hscan]; rfl, ?_⟩
  have hnodup : (drafts.map fun d => position d.event).Nodup := by
    rw [show (drafts.map fun d => position d.event) = (drafts.map (·.event)).map position by
      rw [List.map_map]; rfl]
    exact (nodup_recent hstore query).sublist ((draftsOf_events hdrafts).map _)
  obtain ⟨hfast, hslow, hcategory⟩ := @counts_eq drafts {}
  have hordered := (pairwise_before hnodup).filter fun d => !query.skips d
  refine ⟨⟨((sortBy compareDrafts drafts).filter fun d => !query.skips d).take query.pageSize, ?_,
    hordered.sublist (List.take_sublist ..), ?_⟩, by simpa using hfast, by simpa using hslow,
    by simpa using hcategory⟩
  · rw [collect_eq [] (Nat.zero_le _)]
    rfl
  · refine ⟨((sortBy compareDrafts drafts).filter fun d => !query.skips d).drop query.pageSize,
      ?_, ?_, ?_⟩
    · rw [List.take_append_drop]
      exact (List.perm_insertionSort _ drafts).filter _
    · have hlength := ((List.perm_insertionSort (fun a b => compareDrafts a b ≠ .gt) drafts).filter
        fun d => !query.skips d).length_eq
      rw [List.length_take, sortBy, hlength]
    · intro k hk x hx
      have hsplit := hordered
      rw [← List.take_append_drop query.pageSize ((sortBy compareDrafts drafts).filter _)] at hsplit
      exact (List.pairwise_append.mp hsplit).2.2 k hk x hx

theorem unreadable_recent {e : TypeError} (hstore : Numbered store)
    (hdrafts : draftsOf minutes (recent store query) = .error e) :
    buildGlobalTrajectory minutes (memoryReads store) query = .error (.payload e) := by
  have hscan := @scan_recent minutes store query hstore
  rw [hdrafts] at hscan
  rw [buildGlobalTrajectory, hscan]
  rfl

end Loops

/-- The tables answer as the arrays do. -/
theorem sqliteReads_eq {registry : ChronicleSchemaRegistry} {s : Memory.Store}
    {d : Sqlite.Database} (h : Alike registry.formats s d) :
    sqliteReads registry d = memoryReads s := by
  have hlatest : Sqlite.getLatestSequence d = Memory.getLatestSequence s := funext h.tail_getD
  have hread : Sqlite.readStream registry d = fun id n => .ok (Memory.readStream s id n) :=
    funext₂ h.readStream
  rw [sqliteReads, memoryReads, h.listStreams, hlatest, hread]

/-- The timeline of a store that any calls have filled: the newest of what it classifies among the
last events of each stream, with the numbers of these; it fails only where one of them cannot be
read. -/
theorem timeline_shows (minutes : Value → Except TypeError String)
    (registry : ChronicleSchemaRegistry) (calls : List StoreCall) (query : GlobalTrajectoryQuery) :
    let s := (run (Memory.step registry) .empty calls).2
    let d := (run (Sqlite.step registry) .empty calls).2
    (∀ drafts, draftsOf minutes (recent s query) = .ok drafts →
      ∃ timeline, buildGlobalTrajectory minutes (memoryReads s) query = .ok timeline ∧
        Shows query drafts timeline) ∧
      (∀ e, draftsOf minutes (recent s query) = .error e →
        buildGlobalTrajectory minutes (memoryReads s) query = .error (.payload e)) ∧
      (PlainRun registry .empty calls →
        buildGlobalTrajectory minutes (sqliteReads registry d) query =
          buildGlobalTrajectory minutes (memoryReads s) query) := by
  intro s d
  have hstore : Numbered s := Numbered.empty.run
  refine ⟨fun drafts => shows_recent hstore, fun e => unreadable_recent hstore, fun hplain => ?_⟩
  rw [sqliteReads_eq (run_alike Alike.empty hplain).2]

section Sample

def anyEvents : ChronicleSchemaRegistry :=
  { sampleStores with types := fun _ => some fun _ => true }

/-- What the user said, and the end of the turn. -/
def busyCalls : List StoreCall :=
  [.append "thread:1" [{ sampleEvent [] with
      eventType := "turn.started"
      payload := .object [("turn", .object [("input", .string "hello")])] },
    { sampleEvent [] with
      eventId := "018f5a3e-0000-7000-8000-000000000003"
      eventType := "turn.completed"
      payload := .object [("turn", .object [("output", .string "bye")])] }] 1
    "2026-01-01T00:00:01.000Z"]

def inputQuery : GlobalTrajectoryQuery := { category := some .input, limit := some 1 }

def busyStore : Memory.Store := (run (Memory.step anyEvents) .empty busyCalls).2

/-- The last event of a stream takes the place of what the user said before it. -/
theorem earlier_input_hidden : ¬∀ (minutes : Value → Except TypeError String)
    (registry : ChronicleSchemaRegistry) (calls : List StoreCall) (query : GlobalTrajectoryQuery)
    (drafts : List EntryDraft),
    draftsOf minutes (logged (run (Memory.step registry) .empty calls).2 query) = .ok drafts →
      ∃ timeline, buildGlobalTrajectory minutes
          (memoryReads (run (Memory.step registry) .empty calls).2) query = .ok timeline ∧
        Shows query drafts timeline := by
  intro h
  have hlogged : (draftsOf (fun _ => .ok "") (logged busyStore inputQuery)).toOption.map
      (fun drafts => (drafts.filter fun d => !inputQuery.skips d).length) = some 1 := by
    decide +kernel
  have hbuilt : (buildGlobalTrajectory (fun _ => .ok "") (memoryReads busyStore)
      inputQuery).toOption.map (fun timeline => timeline.entries.length) = some 0 := by
    decide +kernel
  cases hdrafts : draftsOf (fun _ => .ok "") (logged busyStore inputQuery) with
  | error e =>
    rw [hdrafts] at hlogged
    cases hlogged
  | ok drafts =>
    obtain ⟨timeline, hok, hshows⟩ := h _ anyEvents busyCalls inputQuery drafts hdrafts
    obtain ⟨kept, hentries, -, left, hperm, hlength, -⟩ := hshows.entries
    have hempty : timeline.entries.length = 0 := by
      rw [show buildGlobalTrajectory (fun _ => .ok "") (memoryReads busyStore) inputQuery =
        .ok timeline from hok] at hbuilt
      exact Option.some.inj hbuilt
    have hone : (drafts.filter fun d => !inputQuery.skips d).length = 1 := by
      rw [hdrafts] at hlogged
      exact Option.some.inj hlogged
    rw [hentries, List.length_map, hlength, hone] at hempty
    exact absurd hempty (by decide)

end Sample

end BeeAgent.Runtime.Trajectory
