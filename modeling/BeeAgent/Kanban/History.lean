import BeeAgent.Kanban.Logged

/-! The writes behind the streams: every event was written by one write that went through, and the
task it made comes from the task before it. -/
namespace BeeAgent.Kanban
open Data Transition

/-- The write that made the event at place `n` of a stream. -/
structure Written (b : Board) (k : KanbanTaskId) (n : ℕ) (e : Landed) : Prop where
  taskId : e.commit.taskId = k
  sequence : e.commit.expectedSequence = n + 1
  event : (b.events k)[n]? = some e.commit.event
  next : ∃ u, b.taskAt k (n + 1) = .ok (some u) ∧ Alike False e.commit.next u
  origin : (∃ init, e.commit.origin = .created init ∧ n = 0 ∧ Newborn init e.commit.next) ∨
    ∃ base mutation t, e.commit.origin = .mutated base mutation ∧ b.taskAt k n = .ok (some t) ∧
      Alike False base t ∧ Applied base mutation e.commit.event e.commit.next

def Board.writesTo (b : Board) (k : KanbanTaskId) : List Landed :=
  b.landed.filter fun e => e.commit.taskId = k

structure Recorded (b : Board) : Prop where
  events : ∀ k, b.events k = (b.writesTo k).map fun e => e.commit.event
  written : ∀ k n, n < (b.stream k).length → ∃ e ∈ b.landed, Written b k n e
  landed : ∀ e ∈ b.landed, ∃ n < (b.stream e.commit.taskId).length,
    Written b e.commit.taskId n e
  distinct : (b.landed.map fun e => (e.commit.taskId, e.commit.expectedSequence)).Nodup

variable {o : KanbanOptions} {b b' : Board} {k : KanbanTaskId} {n : ℕ} {e : Landed} {input : Input}
variable {t u : KanbanTask}

theorem events_prefix (h : b.stream k <+: b'.stream k) : b.events k <+: b'.events k :=
  List.IsPrefix.map _ h

theorem Written.mono (h : Written b k n e) (hn : n < (b.stream k).length)
    (hstream : b.stream k <+: b'.stream k) : Written b' k n e where
  taskId := h.taskId
  sequence := h.sequence
  event := by
    have hlt : n < (b.events k).length := by simpa [Board.events] using hn
    obtain ⟨more, hmore⟩ := events_prefix hstream
    rw [← hmore, List.getElem?_append_left hlt]
    exact h.event
  next := by
    rw [taskAt_of_extends hstream hn]
    exact h.next
  origin := by
    rw [taskAt_of_extends hstream hn.le]
    exact h.origin

/-- A step leaves the streams alone, or the append of a call lands. -/
theorem Moves.frame (h : Moves o b input b') :
    (b'.streams = b.streams ∧ b'.landed = b.landed) ∨
    ∃ c draw call commit after stream, input = .resume c draw ∧ b.calls[c]? = some call ∧
      call.stage = .appending commit after ∧
      Chronicle.append (b.stream commit.taskId) [⟨b.nextEventId, commit.event⟩]
        commit.expectedSequence = .ok stream ∧
      b' = { b.withStage c (.indexing commit.next after) with
        streams := b.streams.set commit.taskId stream
        nextEventId := b.nextEventId + 1
        landed := b.landed ++ [⟨c, commit⟩] } := by
  cases h with
  | called op draw => cases op <;> exact .inl ⟨rfl, rfl⟩
  | failed hcall hstage => exact .inl ⟨rfl, rfl⟩
  | proceeded draw hcall hstage => exact .inl ⟨rfl, rfl⟩
  | landed hcall hstage happend => exact .inr ⟨_, _, _, _, _, _, rfl, hcall, hstage, happend, rfl⟩
  | indexed hcall hstage => exact .inl ⟨rfl, rfl⟩
  | @replayed c call task rest draw hcall hstage => cases task <;> exact .inl ⟨rfl, rfl⟩

namespace Recorded

theorem of_frame (h : Recorded b) (hstreams : b'.streams = b.streams)
    (hlanded : b'.landed = b.landed) : Recorded b' := by
  have hstream : ∀ k, b'.stream k = b.stream k := fun k => by
    unfold Board.stream
    rw [hstreams]
  have hmono : ∀ {k n e}, n < (b.stream k).length → Written b k n e → Written b' k n e :=
    fun hn he => he.mono hn ((hstream _).symm ▸ List.prefix_rfl)
  constructor
  · intro k
    rw [Board.events, hstream, Board.writesTo, hlanded]
    exact h.events k
  · intro k n hn
    rw [hstream] at hn
    obtain ⟨e, he, hwritten⟩ := h.written k n hn
    exact ⟨e, hlanded ▸ he, hmono hn hwritten⟩
  · intro e he
    obtain ⟨n, hn, hwritten⟩ := h.landed e (hlanded ▸ he)
    exact ⟨n, by rwa [hstream], hmono hn hwritten⟩
  · rw [hlanded]
    exact h.distinct

theorem land (h : Recorded b) {commit : Commit} {c : ℕ} (hland : Landing False b b' commit)
    (hlanded : b'.landed = b.landed ++ [⟨c, commit⟩]) : Recorded b' := by
  have hnew : Written b' commit.taskId (b.stream commit.taskId).length ⟨c, commit⟩ := by
    refine ⟨rfl, hland.sequence, ?_, hland.last, ?_⟩
    · rw [hland.events]
      simp [Board.events]
    · cases hland.asked with
      | created horigin hnew hid hevent hsequence =>
        have := hland.sequence
        exact .inl ⟨_, horigin, by omega, hnew⟩
      | @mutated base mutation horigin hbase happlied htime hsequence =>
        obtain ⟨-, -, hle, u, hu, halike⟩ := hbase
        have hversion : base.version = (b.stream commit.taskId).length := by
          have := hland.sequence
          omega
        rw [hversion] at hu
        refine .inr ⟨base, mutation, u, horigin, ?_, halike, happlied⟩
        rw [taskAt_of_extends (hland.prefix_stream _) le_rfl]
        exact hu
  constructor
  · intro k
    rw [Board.writesTo, hlanded, List.filter_append, List.map_append]
    by_cases hk : k = commit.taskId
    · subst hk
      rw [hland.events, h.events]
      simp [Board.writesTo]
    · rw [Board.events, hland.streams, if_neg hk]
      simpa [Ne.symm hk, Board.events, Board.writesTo] using h.events k
  · intro k n hn
    rcases hland.le_length (Nat.succ_le_of_lt hn) with hold | ⟨rfl, hlast⟩
    · obtain ⟨e, he, hwritten⟩ := h.written k n hold
      exact ⟨e, hlanded ▸ List.mem_append_left _ he, hwritten.mono hold (hland.prefix_stream k)⟩
    · obtain rfl : n = (b.stream commit.taskId).length := Nat.succ_injective hlast
      exact ⟨_, hlanded ▸ List.mem_append_right _ List.mem_cons_self, hnew⟩
  · intro e he
    rw [hlanded] at he
    rcases List.mem_append.mp he with he | he
    · obtain ⟨n, hn, hwritten⟩ := h.landed e he
      exact ⟨n, hn.trans_le (hland.prefix_stream _).length_le,
        hwritten.mono hn (hland.prefix_stream _)⟩
    · obtain rfl := List.mem_singleton.mp he
      exact ⟨_, by rw [hland.length]; exact Nat.lt_succ_self _, hnew⟩
  · rw [hlanded, List.map_append, List.nodup_append]
    refine ⟨h.distinct, List.nodup_singleton _, fun key hkey key' hkey' heq => ?_⟩
    obtain ⟨e, he, rfl⟩ := List.mem_map.mp hkey
    obtain rfl := List.mem_singleton.mp hkey'
    obtain ⟨n, hn, hwritten⟩ := h.landed e he
    have hsequence := hwritten.sequence
    have hnext := hland.sequence
    rw [Prod.mk.injEq] at heq
    simp only at heq hnext
    rw [heq.1] at hn
    omega

theorem step (h : Recorded b) (hlogged : Logged False b) (hstep : boardStep o b input = some b') :
    Recorded b' := by
  rcases (boardStep_moves hstep).frame with
    ⟨hstreams, hlanded⟩ | ⟨c, draw, call, commit, after, stream, -, hcall, hstage, happend, rfl⟩
  · exact h.of_frame hstreams hlanded
  · exact h.land (hlogged.landing_of hcall hstage happend rfl) rfl

theorem initial : Recorded .initial where
  events := fun k => rfl
  written := by
    intro k n hn
    simp [Board.stream, Board.initial] at hn
  landed := fun e he => nomatch he
  distinct := List.nodup_nil

theorem reaches {G : Board → Input → Prop} (h : (board o).Reaches G .initial b) : Recorded b :=
  h.invariant₂ (fun _ hb => Logged.of_reaches hb) initial
    fun _ _ _ hlogged hb _ hstep => hb.step hlogged hstep

end Recorded

end BeeAgent.Kanban
