import BeeAgent.Chronicle.Stores

/-! The table store answers every call as the array store does, as long as no event carries what
the schema of a stored event refuses or leaves out. -/
namespace BeeAgent.Chronicle.Stores
open Data
open Kanban (Formats)
open Kanban.Schema

/-- An append at the next sequence stores nothing that a parse of a stored event would change or
refuse: the stream is named, the actor and the valid time have no other keys, and sequences stay
safe integers. The clock reads a time. -/
def StoreCall.Plain (f : Formats) (s : Memory.Store) : StoreCall → Prop
  | .append streamId events expectedSequence now =>
    expectedSequence = Memory.getLatestSequence s streamId + 1 → streamId ≠ "" ∧
      (∀ e ∈ events, e.actor.extra = [] ∧ ∀ v ∈ e.validTime, v.extra = []) ∧
      expectedSequence + events.length ≤ 9007199254740992 ∧ f.datetime now
  | _ => True

def rowOf (e : StoredEvent) : Sqlite.EventRow := ⟨e.streamId, e.sequence, e.event.eventId, e⟩

section Lists
variable {α : Type} {g : α → ℕ} {a x y : ℕ} {l : List α}

theorem filter_window_of_le (h : l.map g = List.range' a l.length) (hx : x ≤ a) :
    l.filter (fun e => x ≤ g e && g e < y) = l.take (y - a) := by
  induction l generalizing a with
  | nil => simp
  | cons e l ih =>
    simp only [List.map_cons, List.length_cons, List.range'_succ, List.cons.injEq] at h
    have hrest := ih h.2 (by omega)
    by_cases hy : a < y
    · have hkeep : (decide (x ≤ g e) && decide (g e < y)) = true := by
        rw [h.1]
        simp [hx, hy]
      rw [List.filter_cons, if_pos hkeep, hrest, show y - a = y - (a + 1) + 1 by omega,
        List.take_succ_cons]
    · have hdrop : ¬ (decide (x ≤ g e) && decide (g e < y)) = true := by
        rw [h.1]
        simp [hy]
      rw [List.filter_cons, if_neg hdrop, hrest, show y - a = 0 by omega,
        show y - (a + 1) = 0 by omega, List.take_zero, List.take_zero]

theorem filter_window (h : l.map g = List.range' a l.length) (hx : a ≤ x) :
    l.filter (fun e => x ≤ g e && g e < y) = (l.drop (x - a)).take (y - x) := by
  induction l generalizing a with
  | nil => simp
  | cons e l ih =>
    by_cases hax : a = x
    · subst hax
      rw [filter_window_of_le h le_rfl, Nat.sub_self, List.drop_zero]
    · simp only [List.map_cons, List.length_cons, List.range'_succ, List.cons.injEq] at h
      have hdrop : ¬ (decide (x ≤ g e) && decide (g e < y)) = true := by
        rw [h.1]
        simp only [Bool.and_eq_true, decide_eq_true_eq]
        omega
      rw [List.filter_cons, if_neg hdrop, ih h.2 (by omega), show x - a = x - (a + 1) + 1 by omega,
        List.drop_succ_cons]

theorem mapM_ok {ε : Type} {p : α → Except ε α} (h : ∀ e ∈ l, p e = .ok e) : l.mapM p = .ok l := by
  induction l with
  | nil => rfl
  | cons e l ih =>
    rw [List.mapM_cons, h e List.mem_cons_self, ih fun e' he' => h e' (List.mem_cons_of_mem _ he')]
    rfl

end Lists

section Stamp
variable {streamId ingestTime : String} {n : ℕ} {events : List NewChronicleEvent} {e : StoredEvent}

theorem stamp_sequences : (stamp streamId ingestTime n events).map (·.sequence) =
    List.range' n events.length := by
  induction events generalizing n with
  | nil => rfl
  | cons event events ih => simp [stamp, ih, List.range'_succ]

@[simp] theorem stamp_length : (stamp streamId ingestTime n events).length = events.length := by
  have h : ((stamp streamId ingestTime n events).map (·.sequence)).length =
      (List.range' n events.length).length := by rw [stamp_sequences]
  simpa using h

theorem mem_stamp (h : e ∈ stamp streamId ingestTime n events) :
    e.event ∈ events ∧ e.streamId = streamId ∧ e.ingestTime = ingestTime ∧
      n ≤ e.sequence ∧ e.sequence < n + events.length := by
  induction events generalizing n with
  | nil => cases h
  | cons event events ih =>
    rcases List.mem_cons.mp h with rfl | h
    · simp
    · obtain ⟨hmem, hstream, htime, hle, hlt⟩ := ih h
      refine ⟨List.mem_cons_of_mem _ hmem, hstream, htime, by omega, ?_⟩
      rw [List.length_cons]
      omega

theorem stamp_last (h : events ≠ []) :
    ((stamp streamId ingestTime n events).getLast?.map (·.sequence)).getD 0 + 1 =
      n + events.length := by
  rw [← List.getLast?_map, stamp_sequences]
  obtain ⟨m, hm⟩ : ∃ m, events.length = m + 1 :=
    ⟨events.length - 1, by have := List.length_pos_of_ne_nil h; omega⟩
  rw [hm, List.range'_1_concat, List.getLast?_concat]
  simp
  omega

end Stamp

variable {registry : ChronicleSchemaRegistry} {s : Memory.Store} {d : Sqlite.Database}
variable {streamId now : String} {events : List NewChronicleEvent} {expectedSequence : ℤ}

def streamOf (s : Memory.Store) (k : String) : List StoredEvent := (s.get k).getD []

/-- The tables hold what the map holds. -/
structure Alike (f : Formats) (s : Memory.Store) (d : Sqlite.Database) : Prop where
  streams : d.chronicle_streams = s.entries.map fun e => ⟨e.1, e.2.length⟩
  rows : ∀ k, (d.chronicle_events.filter fun row => row.stream_id = k) = (streamOf s k).map rowOf
  numbered : ∀ k, (streamOf s k).map (·.sequence) = List.range' 1 (streamOf s k).length
  valid : ∀ k, ∀ e ∈ streamOf s k, e.streamId = k ∧ parseStored f e = .ok e

namespace Alike
variable {f : Formats}

theorem tail (h : Alike f s d) (k : String) : d.tail k = (s.get k).map List.length := by
  rw [Sqlite.Database.tail, h.streams, List.find?_map, OrderedMap.get, Option.map_map, Option.map_map]
  rfl

theorem tail_getD (h : Alike f s d) (k : String) : (d.tail k).getD 0 = (streamOf s k).length := by
  rw [h.tail, streamOf]
  cases s.get k <;> rfl

theorem select (h : Alike f s d) (k : String) (p : ℤ → Bool) :
    d.select k p = (streamOf s k).filter fun e => p e.sequence := by
  have hfilter : (d.chronicle_events.filter fun row => row.stream_id = k && p row.sequence) =
      ((streamOf s k).filter fun e => p e.sequence).map rowOf := by
    have hswap : (d.chronicle_events.filter fun row => row.stream_id = k && p row.sequence) =
        (d.chronicle_events.filter fun row => row.stream_id = k).filter fun row => p row.sequence := by
      rw [List.filter_filter]
      refine List.filter_congr fun row _ => Bool.and_comm _ _
    rw [hswap, h.rows, List.filter_map]
    rfl
  have hsorted : (((streamOf s k).filter fun e => p e.sequence).map rowOf).Pairwise
      fun a b => a.sequence ≤ b.sequence := by
    have hall : ((streamOf s k).map (·.sequence)).Pairwise (· ≤ ·) := by
      rw [h.numbered]
      exact List.pairwise_le_range'
    rw [List.pairwise_map] at hall ⊢
    exact hall.filter _
  rw [Sqlite.Database.select, hfilter, hsorted.insertionSort_eq, List.map_map]
  exact List.map_id _

theorem window (h : Alike f s d) (k : String) (hone : 1 ≤ expectedSequence) (count : ℕ) :
    (d.select k fun n => expectedSequence ≤ n && n < expectedSequence + count) =
      Memory.existing (streamOf s k) expectedSequence count := by
  obtain ⟨x, rfl⟩ := Int.eq_ofNat_of_zero_le (by omega : 0 ≤ expectedSequence)
  rw [h.select, Memory.existing]
  have hwindow := filter_window (y := x + count) (h.numbered k) (show 1 ≤ x by omega)
  rw [Nat.add_sub_cancel_left] at hwindow
  rw [show ((x : ℤ) - 1).toNat = x - 1 by omega, ← hwindow]
  refine List.filter_congr fun e _ => ?_
  congr 1 <;> exact decide_eq_decide.mpr (by omega)

theorem parse (h : Alike f s d) (k : String) {l : List StoredEvent} (hl : ∀ e ∈ l, e ∈ streamOf s k) :
    l.mapM (parseStored f) = .ok l :=
  mapM_ok fun e he => (h.valid k e (hl e he)).2

end Alike

theorem insert_stamp (hfree : ∀ row ∈ d.chronicle_events, row.stream_id = streamId →
    ∀ m, row.sequence = m → m < n) :
    (stamp streamId now n events).foldlM Sqlite.Database.insertEvent d =
      .ok { d with chronicle_events := d.chronicle_events ++ (stamp streamId now n events).map rowOf } := by
  induction events generalizing n d with
  | nil => simp [stamp, pure, Except.pure]
  | cons event events ih =>
    have hnone : (d.chronicle_events.any fun row => row.stream_id = streamId && row.sequence = n) =
        false := by
      rw [List.any_eq_false]
      intro row hrow
      simp only [Bool.and_eq_true, decide_eq_true_eq, not_and]
      intro hstream hseq
      have := hfree row hrow hstream n hseq
      omega
    rw [stamp, List.foldlM_cons, Sqlite.Database.insertEvent, if_neg (by rw [hnone]; decide)]
    simp only [bind, Except.bind]
    rw [ih]
    · simp [rowOf]
    · intro row hrow hstream m hm
      rcases List.mem_append.mp hrow with hold | hnew
      · have := hfree row hold hstream m hm
        omega
      · obtain rfl := List.mem_singleton.mp hnew
        simp only at hm
        omega

theorem validate_ok (h : events.forM (validateNew registry) = .ok ()) :
    ∀ e ∈ events, e.issues registry.formats = [] := by
  induction events with
  | nil => exact fun e he => absurd he List.not_mem_nil
  | cons event events ih =>
    change ((validateNew registry event) >>= fun _ => events.forM (validateNew registry)) = _ at h
    cases hfirst : validateNew registry event with
    | error e =>
      rw [hfirst] at h
      cases h
    | ok u =>
      rw [hfirst] at h
      intro e he
      rcases List.mem_cons.mp he with rfl | he
      · unfold validateNew at hfirst
        split at hfirst
        · cases hfirst
        · assumption
      · exact ih h e he

theorem stripped_eq {e : NewChronicleEvent} (hactor : e.actor.extra = [])
    (htime : ∀ v ∈ e.validTime, v.extra = []) : e.stripped = e := by
  have hsame : { e.actor with extra := [] } = e.actor := by rw [← hactor]
  have hvalid : (e.validTime.map fun v => { v with extra := [] }) = e.validTime := by
    cases hv : e.validTime with
    | none => rfl
    | some v =>
      have hextra := htime v hv
      rw [Option.map_some, ← hextra]
  rw [NewChronicleEvent.stripped, hsame, hvalid]

theorem parseStored_eq {f : Formats} {e : StoredEvent} (hevent : e.event.issues f = [])
    (hactor : e.event.actor.extra = []) (hvalid : ∀ v ∈ e.event.validTime, v.extra = [])
    (hstream : e.streamId ≠ "") (hone : 1 ≤ e.sequence) (hsafe : e.sequence < 9007199254740992)
    (htime : f.datetime e.ingestTime) : parseStored f e = .ok e := by
  have hname : nonempty "streamId" e.streamId = [] := by simp [nonempty, check, hstream]
  have hsequence : positive "sequence" (e.sequence : ℤ) = [] := by
    simp only [positive, check, safeInt, Int.natAbs_natCast, hsafe, decide_true, Bool.true_and]
    rw [if_pos (by simp only [decide_eq_true_eq]; omega)]
  have hread : datetime f "ingestTime" e.ingestTime = [] := by simp [datetime, check, htime]
  unfold parseStored
  rw [hevent, hname, hsequence, hread, stripped_eq hactor hvalid]
  rfl

theorem Sqlite.insertStream_events :
    (d.insertStream streamId).chronicle_events = d.chronicle_events := by
  unfold Database.insertStream
  split <;> rfl

namespace Alike
variable {f : Formats}

theorem any_streams (h : Alike f s d) (k : String) :
    (d.chronicle_streams.any fun row : Sqlite.StreamRow => row.stream_id = k) = true ↔ k ∈ s.keys := by
  rw [h.streams, List.any_map, List.any_eq_true, OrderedMap.keys, List.mem_map]
  constructor
  · rintro ⟨e, he, hk⟩
    exact ⟨e, he, by simpa using hk⟩
  · rintro ⟨e, he, hk⟩
    exact ⟨e, he, by simpa using hk⟩

theorem insertStream_of_mem (h : Alike f s d) {k : String} (hk : k ∈ s.keys) :
    d.insertStream k = d := by
  rw [Sqlite.Database.insertStream, if_pos ((h.any_streams k).mpr hk)]

theorem streamOf_of_notMem {k : String} (hk : k ∉ s.keys) : streamOf s k = [] := by
  rw [streamOf]
  cases hget : s.get k with
  | none => rfl
  | some stream => exact absurd (OrderedMap.mem_keys_iff.mpr ⟨stream, hget⟩) hk

theorem insertStream_streams (h : Alike f s d) {k : String} (hk : k ∉ s.keys) :
    (d.insertStream k).chronicle_streams = d.chronicle_streams ++ [⟨k, 0⟩] := by
  rw [Sqlite.Database.insertStream, if_neg fun hany => hk ((h.any_streams k).mp hany)]

theorem tail_insertStream (h : Alike f s d) (k : String) :
    ((d.insertStream k).tail k).getD 0 = (streamOf s k).length := by
  by_cases hk : k ∈ s.keys
  · rw [h.insertStream_of_mem hk, h.tail_getD]
  · have hnone : d.chronicle_streams.find? (·.stream_id = k) = none := by
      rw [List.find?_eq_none]
      intro row hrow hid
      exact hk ((h.any_streams k).mp (List.any_eq_true.mpr ⟨row, hrow, hid⟩))
    rw [Sqlite.Database.tail, h.insertStream_streams hk, List.find?_append, hnone,
      streamOf_of_notMem hk]
    simp

theorem written (h : Alike f s d) {k : String} {n : ℕ} (hn : n = (streamOf s k).length + 1)
    (hsome : events ≠ []) (hparse : ∀ e ∈ stamp k now n events, parseStored f e = .ok e) :
    Alike f (s.set k (streamOf s k ++ stamp k now n events))
      (({ d.insertStream k with
          chronicle_events := d.chronicle_events ++ (stamp k now n events).map rowOf }).writeTail
        (((stamp k now n events).getLast?.map fun e : StoredEvent => e.sequence).getD 0) k) := by
  have hlast : ((stamp k now n events).getLast?.map fun e : StoredEvent => e.sequence).getD 0 + 1 =
      n + events.length := stamp_last hsome
  have hstream : ∀ k', streamOf (s.set k (streamOf s k ++ stamp k now n events)) k' =
      if k' = k then streamOf s k ++ stamp k now n events else streamOf s k' := by
    intro k'
    rw [streamOf, OrderedMap.get_set]
    split <;> rfl
  constructor
  · by_cases hk : k ∈ s.keys
    · rw [h.insertStream_of_mem hk, Sqlite.Database.writeTail, OrderedMap.set, dif_pos hk]
      simp only [h.streams, List.map_map]
      refine List.map_congr_left fun e _ => ?_
      by_cases he : e.1 = k
      · simp only [Function.comp_apply, he, if_true, Sqlite.StreamRow.mk.injEq, true_and,
          List.length_append, stamp_length]
        omega
      · simp [he]
    · rw [Sqlite.Database.writeTail, OrderedMap.set, dif_neg hk]
      simp only [h.insertStream_streams hk, h.streams, List.map_append, List.map_map, List.map_cons,
        List.map_nil, if_true, streamOf_of_notMem hk, List.nil_append, stamp_length]
      congr 1
      · refine List.map_congr_left fun e he => ?_
        have hne : e.1 ≠ k := fun heq => hk (heq ▸ List.mem_map_of_mem he)
        simp [hne]
      · rw [streamOf_of_notMem hk, List.length_nil] at hn
        simp only [List.cons.injEq, Sqlite.StreamRow.mk.injEq, true_and, and_true]
        omega
  · intro k'
    rw [hstream, Sqlite.Database.writeTail, List.filter_append, h.rows, List.filter_map]
    split
    · next heq =>
      subst heq
      rw [List.map_append]
      congr 2
      rw [List.filter_eq_self]
      intro e he
      exact decide_eq_true (mem_stamp he).2.1
    · next hne =>
      rw [List.filter_eq_nil_iff.mpr, List.map_nil, List.append_nil]
      intro e he
      simp only [Function.comp_apply, rowOf, (mem_stamp he).2.1, decide_eq_true_eq]
      exact fun heq => hne heq.symm
  · intro k'
    rw [hstream]
    split
    · rw [List.map_append, h.numbered, stamp_sequences, List.length_append, stamp_length, hn,
        Nat.add_comm _ 1, List.range'_append_1]
    · exact h.numbered k'
  · intro k' e he
    rw [hstream] at he
    split at he
    · next heq =>
      subst heq
      rcases List.mem_append.mp he with hold | hnew
      · exact h.valid k' e hold
      · exact ⟨(mem_stamp hnew).2.1, hparse e hnew⟩
    · exact h.valid k' e he

end Alike

/-- Both stores take an append in the same way. -/
theorem append_alike (h : Alike registry.formats s d)
    (hplain : (StoreCall.append streamId events expectedSequence now).Plain registry.formats s) :
    (Memory.step registry s (.append streamId events expectedSequence now)).1 =
      (Sqlite.step registry d (.append streamId events expectedSequence now)).1 ∧
    Alike registry.formats (Memory.step registry s (.append streamId events expectedSequence now)).2
      (Sqlite.step registry d (.append streamId events expectedSequence now)).2 := by
  by_cases hnil : events = []
  · subst hnil
    exact ⟨rfl, h⟩
  have hempty : events.isEmpty = false := by simpa using hnil
  simp only [Memory.step, Sqlite.step, Memory.append, Sqlite.append, hempty, Bool.false_eq_true,
    if_false]
  cases hvalid : events.forM (validateNew registry) with
  | error e => exact ⟨rfl, h⟩
  | ok u =>
    have hissues := validate_ok hvalid
    have hget : (s.get streamId).getD [] = streamOf s streamId := rfl
    simp only [Sqlite.appendLocked, h.tail_insertStream, bind, Except.bind, pure, Except.pure, throw,
      throwThe, MonadExceptOf.throw, hget]
    have hpos := List.length_pos_of_ne_nil hnil
    by_cases hlow : expectedSequence < 1
    · rw [if_pos hlow, if_pos (.inl hlow)]
      exact ⟨rfl, h⟩
    rw [if_neg hlow]
    have hselect : ∀ p, (d.insertStream streamId).select streamId p = d.select streamId p := by
      intro p
      rw [Sqlite.Database.select, Sqlite.insertStream_events]
      rfl
    by_cases hhigh : ((streamOf s streamId).length : ℤ) + 1 < expectedSequence
    · have hne : expectedSequence ≠ ((streamOf s streamId).length : ℤ) + 1 := by omega
      have hexisting : Memory.existing (streamOf s streamId) expectedSequence events.length = [] := by
        rw [Memory.existing, List.drop_eq_nil_of_le (by omega), List.take_nil]
      have hsame : sameIds [] events = false := by
        simp [sameIds, hnil]
      push_cast
      have hout : expectedSequence < 1 ∨ ((streamOf s streamId).length : ℤ) + 1 < expectedSequence :=
        .inr hhigh
      rw [if_pos hne, hexisting, hsame, if_neg Bool.false_ne_true, if_pos hout]
      exact ⟨rfl, h⟩
    have hin : ¬ (expectedSequence < 1 ∨ ((streamOf s streamId).length : ℤ) + 1 < expectedSequence) :=
      not_or.mpr ⟨hlow, hhigh⟩
    by_cases hnext : expectedSequence = ((streamOf s streamId).length : ℤ) + 1
    · obtain ⟨hname, hevents, hsafe, htime⟩ := hplain hnext
      have hparse : ∀ e ∈ stamp streamId now ((streamOf s streamId).length + 1) events,
          parseStored registry.formats e = .ok e := by
        intro e he
        obtain ⟨hmem, hstream, hingest, hle, hlt⟩ := mem_stamp he
        refine parseStored_eq (hissues _ hmem) (hevents _ hmem).1 (hevents _ hmem).2 (hstream ▸ hname)
          (by omega) (by omega) (hingest ▸ htime)
      have hinsert : (stamp streamId now ((streamOf s streamId).length + 1) events).foldlM
          Sqlite.Database.insertEvent (d.insertStream streamId) = .ok { d.insertStream streamId with
            chronicle_events := (d.insertStream streamId).chronicle_events ++
              (stamp streamId now ((streamOf s streamId).length + 1) events).map rowOf } := by
        refine insert_stamp fun row hrow hstream m hm => ?_
        rw [Sqlite.insertStream_events] at hrow
        have hmem : row ∈ d.chronicle_events.filter fun row => row.stream_id = streamId :=
          List.mem_filter.mpr ⟨hrow, by simpa using hstream⟩
        rw [h.rows] at hmem
        obtain ⟨e, he, rfl⟩ := List.mem_map.mp hmem
        have hrange : e.sequence ∈ List.range' 1 (streamOf s streamId).length :=
          h.numbered streamId ▸ List.mem_map_of_mem he
        rw [List.mem_range'_1] at hrange
        simp only [rowOf] at hm
        omega
      have hwritten := h.written rfl hnil hparse
      push_cast
      rw [if_neg (not_not.mpr hnext), if_neg hin, if_neg (not_not.mpr hnext), hinsert,
        Sqlite.insertStream_events]
      exact ⟨rfl, hwritten⟩
    · have hone : 1 ≤ expectedSequence := by omega
      have hwindow := h.window streamId hone events.length
      have hkey : streamId ∈ s.keys := by
        by_contra hnone
        rw [Alike.streamOf_of_notMem hnone] at hhigh hnext
        simp only [List.length_nil] at hhigh hnext
        omega
      push_cast
      rw [if_pos hnext, if_neg hin, if_pos hnext, hselect, hwindow]
      cases hids : sameIds (Memory.existing (streamOf s streamId) expectedSequence events.length)
          events with
      | true =>
        have hmap := h.parse streamId (l := Memory.existing (streamOf s streamId) expectedSequence
          events.length) fun e he => List.mem_of_mem_drop (List.mem_of_mem_take he)
        rw [if_pos rfl, if_pos rfl, hmap, h.insertStream_of_mem hkey]
        exact ⟨rfl, h⟩
      | false =>
        rw [if_neg Bool.false_ne_true, if_neg Bool.false_ne_true]
        exact ⟨rfl, h⟩

theorem Alike.readStream (h : Alike registry.formats s d) (k : String) (n : ℤ) :
    Sqlite.readStream registry d k n = .ok (Memory.readStream s k n) := by
  rw [Sqlite.readStream, h.select]
  exact h.parse k fun e he => List.mem_of_mem_filter he

theorem Alike.listStreams {f : Formats} (h : Alike f s d) :
    Sqlite.listStreams d = Memory.listStreams s := by
  rw [Sqlite.listStreams, h.streams, List.map_map]
  rfl

theorem step_alike {call : StoreCall} (h : Alike registry.formats s d)
    (hplain : call.Plain registry.formats s) :
    (Memory.step registry s call).1 = (Sqlite.step registry d call).1 ∧
      Alike registry.formats (Memory.step registry s call).2 (Sqlite.step registry d call).2 := by
  cases call with
  | append => exact append_alike h hplain
  | readStream k n =>
    refine ⟨?_, h⟩
    simp only [Memory.step, Sqlite.step, h.readStream]
    rfl
  | getLatestSequence k =>
    refine ⟨?_, h⟩
    simp only [Memory.step, Sqlite.step, Sqlite.getLatestSequence, h.tail_getD]
    rfl
  | listStreams =>
    refine ⟨?_, h⟩
    simp only [Memory.step, Sqlite.step, h.listStreams]

/-- The calls of a run are plain where they are made. -/
def PlainRun (registry : ChronicleSchemaRegistry) : Memory.Store → List StoreCall → Prop
  | _, [] => True
  | s, call :: calls =>
    call.Plain registry.formats s ∧ PlainRun registry (Memory.step registry s call).2 calls

theorem run_alike {calls : List StoreCall} (h : Alike registry.formats s d)
    (hplain : PlainRun registry s calls) :
    (run (Memory.step registry) s calls).1 = (run (Sqlite.step registry) d calls).1 ∧
      Alike registry.formats (run (Memory.step registry) s calls).2
        (run (Sqlite.step registry) d calls).2 := by
  induction calls generalizing s d with
  | nil => exact ⟨rfl, h⟩
  | cons call calls ih =>
    obtain ⟨hresult, hnext⟩ := step_alike h hplain.1
    obtain ⟨hresults, hlast⟩ := ih hnext hplain.2
    exact ⟨congrArg₂ List.cons hresult hresults, hlast⟩

theorem Alike.empty {f : Formats} : Alike f .empty .empty :=
  ⟨rfl, fun _ => rfl, fun _ => rfl, fun _ _ he => absurd he List.not_mem_nil⟩

theorem Memory.step_error {call : StoreCall} {e : StoreError}
    (h : (Memory.step registry s call).1 = .error e) : (Memory.step registry s call).2 = s := by
  cases call with
  | append streamId events expectedSequence now =>
    rw [Memory.step] at h ⊢
    cases happend : Memory.append registry s streamId events expectedSequence now with
    | ok result =>
      rw [happend] at h
      cases h
    | error e => rfl
  | readStream => cases h
  | getLatestSequence => cases h
  | listStreams => cases h

theorem Sqlite.step_error {call : StoreCall} {e : StoreError}
    (h : (Sqlite.step registry d call).1 = .error e) : (Sqlite.step registry d call).2 = d := by
  cases call with
  | append streamId events expectedSequence now =>
    rw [Sqlite.step] at h ⊢
    cases happend : Sqlite.append registry d streamId events expectedSequence now with
    | ok result =>
      rw [happend] at h
      cases h
    | error e => rfl
  | readStream => rfl
  | getLatestSequence => cases h
  | listStreams => cases h

/-- After plain calls both stores have given the same answers, number each stream from 1 on, and
write nothing in a call that they reject. -/
theorem stores_agree (registry : ChronicleSchemaRegistry) (calls : List StoreCall)
    (hplain : PlainRun registry .empty calls) :
    let m := run (Memory.step registry) .empty calls
    let q := run (Sqlite.step registry) .empty calls
    m.1 = q.1 ∧
      (∀ k, Sqlite.readStream registry q.2 k 0 = .ok (Memory.readStream m.2 k 0) ∧
        (Memory.readStream m.2 k 0).map (·.sequence) =
          List.range' 1 (Memory.getLatestSequence m.2 k)) ∧
      ∀ call e, ((Memory.step registry m.2 call).1 = .error e →
          (Memory.step registry m.2 call).2 = m.2) ∧
        ((Sqlite.step registry q.2 call).1 = .error e → (Sqlite.step registry q.2 call).2 = q.2) := by
  obtain ⟨hresults, halike⟩ := run_alike Alike.empty hplain
  refine ⟨hresults, fun k => ⟨halike.readStream k 0, ?_⟩, fun call e =>
    ⟨Memory.step_error, Sqlite.step_error⟩⟩
  have hall : Memory.readStream (run (Memory.step registry) .empty calls).2 k 0 =
      streamOf (run (Memory.step registry) .empty calls).2 k := by
    refine List.filter_eq_self.mpr fun e he => ?_
    have hmem : e.sequence ∈ List.range' 1 _ := halike.numbered k ▸ List.mem_map_of_mem he
    rw [List.mem_range'_1] at hmem
    simp only [decide_eq_true_eq]
    omega
  rw [hall]
  exact halike.numbered k

section Sample

def sampleStores : ChronicleSchemaRegistry where
  formats := ⟨fun s => s.length = 36, fun s => s.length = 24⟩
  types type := if type = "note.taken" then some fun _ => true else none

def sampleEvent (extra : List (String × Value)) : NewChronicleEvent where
  eventId := "018f5a3e-0000-7000-8000-000000000001"
  eventType := "note.taken"
  schemaVersion := 1
  eventTime := "2026-01-01T00:00:00.000Z"
  actor := ⟨.user, "local", extra⟩
  correlationId := "018f5a3e-0000-7000-8000-000000000002"
  classification := .internal
  retentionClass := "standard"
  payload := .null

def appendAndRead (extra : List (String × Value)) : List StoreCall :=
  [.append "notes" [sampleEvent extra] 1 "2026-01-01T00:00:01.000Z", .readStream "notes" 0]

theorem stores_agree_sample :
    (run (Memory.step sampleStores) .empty (appendAndRead [])).1 =
      (run (Sqlite.step sampleStores) .empty (appendAndRead [])).1 := by
  refine (stores_agree sampleStores (appendAndRead []) ⟨fun _ => ⟨by decide, ?_, by decide,
    by decide⟩, trivial, trivial⟩).1
  intro e he
  obtain rfl := List.mem_singleton.mp he
  exact ⟨rfl, fun v hv => by cases hv⟩

/-- The other keys of the actors that the results show. -/
def actorKeys (results : List (Except StoreError StoreResult)) : List (List String) :=
  results.map fun
    | .ok (.events events) => events.flatMap fun e => e.event.actor.extra.map (·.1)
    | _ => []

/-- The schema of an actor is not strict: an append takes an actor with another key, which the
table store leaves out when it reads the event back. -/
theorem actor_key_lost :
    (run (Memory.step sampleStores) .empty (appendAndRead [("name", .string "Ada")])).1 ≠
      (run (Sqlite.step sampleStores) .empty (appendAndRead [("name", .string "Ada")])).1 := by
  intro h
  have hkeys := congrArg actorKeys h
  revert hkeys
  decide

end Sample

end BeeAgent.Chronicle.Stores
