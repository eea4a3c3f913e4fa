import BeeAgent.Kanban.Current

/-! The projection that a rebuild reads from the log, and when it is the one the store holds. -/
namespace BeeAgent.Kanban
open Data Transition Machine

def Board.Quiet (b : Board) : Prop :=
  ∀ (c : ℕ) (call : Call), b.calls[c]? = some call → ∃ result, call.stage = .finished result

/-- Steps of one call, with no failure of the Chronicle store. -/
def resuming (c : ℕ) (_ : Board) : Input → Prop
  | .resume d _ => d = c
  | _ => False

/-- The steps of the store and of the dispatcher with comments that carry the time of the last
update; `rebuild` is what the runs are compared with. -/
def timelyStep (b : Board) (input : Input) : Prop := unrebuilt b input ∧ Logged.timely b input

variable {o : KanbanOptions} {b : Board}

/-- A call that is at rest after a rebuild has replayed every stream that is left. -/
theorem reading_run (draw : Draw) (target : KanbanTaskId → Option KanbanTask) {c : ℕ} :
    ∀ (ids : List KanbanTaskId) (b : Board),
      (∀ k, foldStream (b.events k) = .ok (target k)) → (∀ k t, target k = some t → t.id = k) →
      b.calls[c]? = some ⟨.rebuild, .reading ids⟩ →
      (∀ k, b.tasks.get k = target k ∨ b.tasks.get k = none ∧ k ∈ ids) →
      ∃ b', (board o).Reaches (resuming c) b b' ∧
        b'.calls[c]? = some ⟨.rebuild, .finished (.ok .rebuilt)⟩ ∧
        b'.streams = b.streams ∧ ∀ k, b'.tasks.get k = target k := by
  intro ids
  induction ids with
  | nil =>
    intro b _ _ hcall htasks
    refine ⟨b.withStage c (.finished (.ok .rebuilt)), ?_, ?_, rfl, fun k => ?_⟩
    · refine .tail (i := .resume c draw) .refl rfl ?_
      simp [board, boardStep, hcall, proceed]
    · simp [Board.withStage, hcall]
    · rcases htasks k with htarget | ⟨-, hnil⟩
      · exact htarget
      · cases hnil
  | cons id ids ih =>
    intro b hfold hid hcall htasks
    have hstep : (board o).step b (.resume c draw) =
        some (b.withStage c (.replayed (target id) ids)) := by
      simp [board, boardStep, hcall, proceed, hfold]
    set b₁ := b.withStage c (.replayed (target id) ids) with hb₁
    have hcall₁ : b₁.calls[c]? = some ⟨.rebuild, .replayed (target id) ids⟩ := by
      simp [hb₁, Board.withStage, hcall]
    set b₂ := ((target id).elim b₁ b₁.index).withStage c (.reading ids) with hb₂
    have hstep₂ : (board o).step b₁ (.resume c draw) = some b₂ := by
      simp [board, boardStep, hcall₁, hb₂]
    have hstreams : b₂.streams = b.streams := by
      rw [hb₂]
      cases target id <;> rfl
    have hcall₂ : b₂.calls[c]? = some ⟨.rebuild, .reading ids⟩ := by
      rw [hb₂]
      cases target id <;> simp [Board.withStage, Board.index, hcall₁]
    have hget : ∀ k, b₂.tasks.get k = if k = id then (target id <|> b.tasks.get k) else
        b.tasks.get k := by
      intro k
      rw [hb₂]
      cases htarget : target id with
      | none =>
        split <;> rfl
      | some t =>
        change ((b.tasks.set t.id t).get k) = _
        rw [OrderedMap.get_set, hid id t htarget]
        split <;> simp
    obtain ⟨b', hreach, hdone, hstreams', htasks'⟩ := ih b₂
      (fun k => by rw [Board.events, Board.stream, hstreams]; exact hfold k) hid hcall₂ fun k => by
        rw [hget]
        split
        · next hk =>
          subst hk
          refine .inl ?_
          cases htarget : target k with
          | some t => rfl
          | none =>
            rcases htasks k with h | h
            · simpa [htarget] using h
            · simpa using h.1
        · next hk =>
          rcases htasks k with h | ⟨h, hmem⟩
          · exact .inl h
          · exact .inr ⟨h, (List.mem_cons.mp hmem).resolve_left hk⟩
    refine ⟨b', ?_, hdone, hstreams'.trans hstreams, htasks'⟩
    exact .head (i := .resume c draw) rfl hstep (.head (i := .resume c draw) rfl hstep₂ hreach)

/-- With no call under way, the streams fold to the projected tasks. -/
theorem Current.fold_eq (h : Current b) (hlogged : Logged True b) (hquiet : b.Quiet)
    (k : KanbanTaskId) : foldStream (b.events k) = .ok (b.tasks.get k) := by
  have hcurrent : b.version k = (b.stream k).length := by
    rcases h.current k with hcurrent | ⟨c, next, ⟨call, hcall, hnext⟩, -⟩
    · exact hcurrent
    · obtain ⟨result, hresult⟩ := hquiet c call hcall
      rw [hresult] at hnext
      cases hnext
  rw [Board.version] at hcurrent
  cases hget : b.tasks.get k with
  | none =>
    rw [hget] at hcurrent
    rw [Board.events, List.length_eq_zero_iff.mp hcurrent.symm]
    rfl
  | some t =>
    rw [hget] at hcurrent
    obtain ⟨-, -, -, u, hu, halike⟩ := hlogged.projected k t hget
    obtain rfl := halike.eq trivial
    rw [show t.version = (b.stream k).length from hcurrent, taskAt_length] at hu
    exact hu

theorem rebuild_reproduces (h : (board o).Reaches timelyStep .initial b) (hquiet : b.Quiet)
    (draw : Draw) :
    (∀ k, foldStream (b.events k) = .ok (b.tasks.get k)) ∧
    (∀ k t, b.tasks.get k = some t → t.version = (b.events k).length) ∧
    ∃ b₁ b', (board o).step b (.call .rebuild draw) = some b₁ ∧
      (board o).Reaches (resuming b.calls.length) b₁ b' ∧
      b'.calls[b.calls.length]? = some ⟨.rebuild, .finished (.ok .rebuilt)⟩ ∧
      ∀ k, b'.tasks.get k = b.tasks.get k := by
  have hlogged : Logged True b := Logged.reaches (fun _ _ hg _ => hg.2) h
  have hcurrent : Current b := Current.reaches (fun _ _ hg => hg.1) h
  have hfold := hcurrent.fold_eq hlogged hquiet
  refine ⟨hfold, fun k t ht => ?_, ?_⟩
  · obtain ⟨-, hpos, hle, u, hu, halike⟩ := hlogged.projected k t ht
    obtain ⟨v, hv, hversion, -⟩ := hlogged.versions k _ (hpos.trans_le hle) le_rfl
    rw [taskAt_length, hfold k, ht] at hv
    obtain rfl : t = v := Option.some.inj (Except.ok.inj hv)
    rw [hversion, Board.events, List.length_map]
  · set b₁ : Board := { b with
      tasks := .empty
      idempotency := .empty
      calls := b.calls ++ [⟨.rebuild, .listing⟩] } with hb₁
    have hcall₁ : b₁.calls[b.calls.length]? = some ⟨.rebuild, .listing⟩ := by simp [hb₁]
    set b₂ := b₁.withStage b.calls.length (.reading b.streams.keys) with hb₂
    have hstep₂ : (board o).step b₁ (.resume b.calls.length draw) = some b₂ := by
      simp only [board, boardStep, hcall₁, Option.bind_some]
      rfl
    obtain ⟨b', hreach, hdone, -, htasks⟩ := reading_run (o := o) draw
      b.tasks.get (c := b.calls.length) b.streams.keys b₂ hfold
      (fun k t ht => (hlogged.projected k t ht).1) (by simp [hb₂, Board.withStage, hb₁]) fun k => by
        by_cases hk : k ∈ b.streams.keys
        · exact .inr ⟨rfl, hk⟩
        · refine .inl ?_
          have hnone : b.streams.get k = none := by
            cases hget : b.streams.get k with
            | none => rfl
            | some s => exact absurd (OrderedMap.mem_keys_iff.mpr ⟨s, hget⟩) hk
          have := hfold k
          rw [Board.events, Board.stream, hnone] at this
          exact Except.ok.inj this
    exact ⟨b₁, b', rfl, .head (i := .resume b.calls.length draw) rfl hstep₂ hreach, hdone, htasks⟩

/-- A task, and a comment on it a minute later. -/
def lateCommentRun : List Input :=
  [.call (.create { title := "task" }) (sampleDraw 1), .resume 0 (sampleDraw 1),
    .resume 0 (sampleDraw 1),
    .call (.comment (sampleId 1) { author := "agent", body := "note" }) (sampleDraw 2),
    .resume 1 (sampleDraw 2), .resume 1 (sampleDraw 2)]

theorem quiet_of_all (h : (b.calls.all fun call => call.stage.isFinished) = true) : b.Quiet := by
  intro c call hcall
  exact finished_of_isFinished (List.all_eq_true.mp h call (List.mem_of_getElem? hcall))

def timelyCheck (b : Board) (input : Input) : Bool :=
  unrebuiltCheck input &&
    match input with
    | .call (.comment taskId input) draw =>
      (b.tasks.get taskId).all fun t => input.at_.getD draw.clock = t.updatedAt
    | _ => true

theorem timelyStep_of_check (b : Board) (input : Input) (h : timelyCheck b input) :
    timelyStep b input := by
  unfold timelyCheck at h
  rw [Bool.and_eq_true] at h
  refine ⟨unrebuilt_of_check b input h.1, ?_⟩
  cases input with
  | call op draw =>
    cases op with
    | comment taskId note =>
      intro t ht
      have htime : (b.tasks.get taskId).all
          (fun t => note.at_.getD draw.clock = t.updatedAt) = true := h.2
      rw [ht] at htime
      exact of_decide_eq_true htime
    | _ => trivial
  | resume c draw => trivial
  | fail c => trivial

/-- The same comment with the time of the last update. -/
def timelyCommentRun : List Input :=
  [.call (.create { title := "task" }) (sampleDraw 1), .resume 0 (sampleDraw 1),
    .resume 0 (sampleDraw 1),
    .call (.comment (sampleId 1) { author := "agent", body := "note" }) (sampleDraw 1),
    .resume 1 (sampleDraw 2), .resume 1 (sampleDraw 2)]

theorem rebuild_reproduces_sample : ∃ b, (board sampleOptions).Reaches timelyStep .initial b ∧
    b.Quiet ∧ (b.tasks.get (sampleId 1)).isSome ∧
    ∀ k, foldStream (b.events k) = .ok (b.tasks.get k) := by
  have hguard : (board sampleOptions).Guarded timelyStep .initial timelyCommentRun :=
    guarded_of_allSteps timelyStep_of_check _ (by decide +kernel)
  obtain ⟨b, hb, hcheck⟩ := hguard.exists_reaches
    (f := fun b => (b.calls.all fun call => call.stage.isFinished) &&
      (b.tasks.get (sampleId 1)).isSome) (a := true) (by decide +kernel)
  rw [Bool.and_eq_true] at hcheck
  have hquiet := quiet_of_all hcheck.1
  exact ⟨b, hb, hquiet, hcheck.2, (rebuild_reproduces hb hquiet (sampleDraw 3)).1⟩

theorem comment_time_lost : ∃ b, (board sampleOptions).Reaches unrebuilt .initial b ∧ b.Quiet ∧
    foldStream (b.events (sampleId 1)) ≠ .ok (b.tasks.get (sampleId 1)) := by
  have hguard : (board sampleOptions).Guarded unrebuilt .initial lateCommentRun :=
    guarded_of_allSteps unrebuilt_of_check _ (by decide +kernel)
  obtain ⟨b, hb, hcheck⟩ := hguard.exists_reaches
    (f := fun b => (b.calls.all fun call => call.stage.isFinished) &&
      decide (foldStream (b.events (sampleId 1)) ≠ .ok (b.tasks.get (sampleId 1)))) (a := true)
    (by decide +kernel)
  rw [Bool.and_eq_true] at hcheck
  exact ⟨b, hb, quiet_of_all hcheck.1, of_decide_eq_true hcheck.2⟩

end BeeAgent.Kanban
