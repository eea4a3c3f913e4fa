import BeeAgent.Kanban.Current

/-! Idempotency keys: when one create with a key is under way at a time, a key has one task, and
every create with the key returns it. -/
namespace BeeAgent.Kanban
open Data Transition Machine

def Board.Keyed (b : Board) (k : KanbanTaskId) (key : String) : Prop :=
  ∃ u, foldStream (b.events k) = .ok (some u) ∧ u.idempotencyKey = some key

/-- A create with a key starts only when no other one with that key is under way; no rebuild. -/
def solitary (b : Board) (input : Input) : Prop :=
  unrebuilt b input ∧ ∀ init draw key, input = .call (.create init) draw →
    init.idempotencyKey = some key → ∀ (c : ℕ) (call : Call) init', b.calls[c]? = some call →
      call.op = .create init' → init'.idempotencyKey = some key →
      ∃ result, call.stage = .finished result

/-- The stages of a create. -/
def CreateStage (init : NewKanbanTaskInit) : Stage → Prop
  | .appending commit after => after = .done ∧ commit.origin = .created init
  | .indexing next after => after = .done ∧ next.idempotencyKey = init.idempotencyKey
  | .finished _ => True
  | _ => False

def Returns (stage : Stage) (t : KanbanTask) : Prop := stage = .finished (.ok (.task t))

structure Unique (b : Board) : Prop where
  stages : ∀ (c : ℕ) (call : Call) init, b.calls[c]? = some call → call.op = .create init →
    CreateStage init call.stage
  created : ∀ (c : ℕ) (call : Call) commit after init, b.calls[c]? = some call →
    call.stage = .appending commit after → commit.origin = .created init → call.op = .create init
  unique : ∀ k k' key, b.Keyed k key → b.Keyed k' key → k = k'
  mapped : ∀ k key, b.idempotency.get key = some k → b.Keyed k key
  indexed : ∀ k key, b.Keyed k key →
    (b.idempotency.get key = some k ∧ (b.tasks.get k).isSome) ∨
    ∃ (c : ℕ) (call : Call) (init : NewKanbanTaskInit) (next : KanbanTask),
      b.calls[c]? = some call ∧ call.op = .create init ∧ init.idempotencyKey = some key ∧
      call.stage = .indexing next .done ∧ next.id = k
  fresh : ∀ (c : ℕ) (call : Call) commit after init key k, b.calls[c]? = some call →
    call.stage = .appending commit after → commit.origin = .created init →
    init.idempotencyKey = some key → ¬ b.Keyed k key
  alone : ∀ (c d : ℕ) (call call' : Call) init init' key, b.calls[c]? = some call →
    b.calls[d]? = some call' → call.op = .create init → call'.op = .create init' →
    init.idempotencyKey = some key → init'.idempotencyKey = some key →
    (∀ result, call.stage ≠ .finished result) → (∀ result, call'.stage ≠ .finished result) → c = d
  returned : ∀ (c : ℕ) (call : Call) init key t, b.calls[c]? = some call → call.op = .create init →
    init.idempotencyKey = some key → Returns call.stage t → b.Keyed t.id key

variable {o : KanbanOptions} {b b' : Board} {draw : Draw} {commit : Commit} {input : Input}
variable {k : KanbanTaskId} {key : String} {c : ℕ} {call : Call} {stage : Stage}

theorem Alike.idempotencyKey_eq {strict : Prop} {t u : KanbanTask} (h : Alike strict t u) :
    u.idempotencyKey = t.idempotencyKey := by
  obtain ⟨at_, rfl, -⟩ := h
  rfl

theorem keyed_of_landing (hland : Landing False b b' commit) :
    b'.Keyed k key ↔ b.Keyed k key ∨
      ∃ init, commit.origin = .created init ∧ k = commit.taskId ∧ init.idempotencyKey = some key := by
  by_cases hk : k = commit.taskId
  · subst hk
    obtain ⟨u, hu, halike⟩ := hland.last
    have hlast : b'.Keyed commit.taskId key ↔ commit.next.idempotencyKey = some key := by
      rw [← hland.length, taskAt_length] at hu
      constructor
      · rintro ⟨v, hv, hkey⟩
        rw [hu] at hv
        obtain rfl := Option.some.inj (Except.ok.inj hv)
        rw [← halike.idempotencyKey_eq, hkey]
      · exact fun hkey => ⟨u, hu, by rw [halike.idempotencyKey_eq, hkey]⟩
    rw [hlast]
    cases hland.asked with
    | @created init horigin hnew hid hevent hsequence =>
      have hzero : (b.stream commit.taskId).length = 0 := by
        have := hland.sequence
        omega
      have hnone : ¬ b.Keyed commit.taskId key := by
        rintro ⟨v, hv, -⟩
        rw [Board.events, List.length_eq_zero_iff.mp hzero] at hv
        cases hv
      constructor
      · exact fun hkey => .inr ⟨init, horigin, rfl, by rw [← hnew.idempotencyKey, hkey]⟩
      · rintro (hold | ⟨init', horigin', -, hkey⟩)
        · exact absurd hold hnone
        · rw [horigin] at horigin'
          cases horigin'
          rw [hnew.idempotencyKey, hkey]
    | @mutated base mutation horigin hbase happlied htime hsequence =>
      obtain ⟨-, -, -, v, hv, halike'⟩ := hbase
      have hversion : base.version = (b.stream commit.taskId).length := by
        have := hland.sequence
        omega
      rw [hversion, taskAt_length] at hv
      rw [happlied.idempotencyKey_eq, ← halike'.idempotencyKey_eq]
      constructor
      · exact fun hkey => .inl ⟨v, hv, hkey⟩
      · rintro (⟨w, hw, hkey⟩ | ⟨init, horigin', -⟩)
        · rw [hv] at hw
          obtain rfl := Option.some.inj (Except.ok.inj hw)
          exact hkey
        · rw [horigin] at horigin'
          cases horigin'
  · have hevents : b'.events k = b.events k := by
      rw [Board.events, hland.streams, if_neg hk]
      rfl
    rw [Board.Keyed, hevents]
    constructor
    · exact .inl
    · rintro (hold | ⟨init, -, heq, -⟩)
      · exact hold
      · exact absurd heq hk

theorem start_create {init : NewKanbanTaskInit} :
    (∃ t, existing? b.tasks b.idempotency init = some t ∧
      Returns (start o b draw (.create init)) t) ∨
    existing? b.tasks b.idempotency init = none ∧ ((∃ error,
      start o b draw (.create init) = .finished (.error error)) ∨ ∃ commit,
      start o b draw (.create init) = .appending commit .done ∧ commit.origin = .created init) := by
  simp only [start]
  split
  · next t ht => exact .inl ⟨t, ht, rfl⟩
  · next hnone =>
    refine .inr ⟨hnone, ?_⟩
    cases hcreate : create o.formats init draw.uuid draw.clock with
    | error e => exact .inl ⟨e, rfl⟩
    | ok commit => exact .inr ⟨commit, rfl, (create_computed .empty hcreate).2⟩

theorem proceed_create {init : NewKanbanTaskInit} :
    proceed o b draw (.create init) stage = stage := by
  cases stage <;> rfl

theorem Asks.create_of_created {op : KanbanOperation} {stage : Option Stage}
    {init : NewKanbanTaskInit} (h : Asks o b draw op stage commit)
    (horigin : commit.origin = .created init) : op = .create init := by
  have hmutated : ∀ {taskId mutation}, mutate o.formats b.tasks taskId mutation = .ok commit →
      op = .create init := by
    intro taskId mutation hmutate
    obtain ⟨-, -, base, hmutated⟩ := mutate_computed hmutate
    rw [horigin] at hmutated
    cases hmutated
  cases h with
  | created hnew h =>
    have := (create_computed .empty h).2
    rw [horigin] at this
    cases this
    rfl
  | commented h => exact hmutated h
  | mutated hlease hnote hother hclaim h => exact hmutated h
  | renewed hlease h => exact hmutated h
  | settled hlease howned hversion hclaim h => exact hmutated h
  | claimed hversion hdst hclaim h => exact hmutated h

namespace Unique

theorem withStage (h : Unique b) (hcall : b.calls[c]? = some call)
    (hidle : call.stage.indexing? = none)
    (hstage : stage = call.stage ∨ (∃ error, stage = .finished (.error error)) ∨
      (∀ init, call.op ≠ .create init) ∧
        ∀ commit after init, stage = .appending commit after → commit.origin ≠ .created init) :
    Unique (b.withStage c stage) := by
  -- every call of the new board that is a create is one of the old board, or has failed
  have hold : ∀ (d : ℕ) (call' : Call), (b.withStage c stage).calls[d]? = some call' →
      b.calls[d]? = some call' ∨ ((∃ error, call'.stage = .finished (.error error)) ∧
        ∃ call, b.calls[d]? = some call ∧ call'.op = call.op) ∨
      (∀ init, call'.op ≠ .create init) ∧
        ∀ commit after init, call'.stage = .appending commit after → commit.origin ≠ .created init := by
    intro d call' hcall'
    rcases getElem?_withStage hcall' with ⟨rfl, call₀, hcall₀, rfl⟩ | ⟨-, hold⟩
    · rw [hcall] at hcall₀
      cases hcall₀
      rcases hstage with rfl | herror | hother
      · exact .inl hcall
      · exact .inr (.inl ⟨herror, call, hcall, rfl⟩)
      · exact .inr (.inr hother)
    · exact .inl hold
  constructor
  · intro d call' init hcall' hop
    rcases hold d call' hcall' with hold | ⟨⟨error, herror⟩, -⟩ | ⟨hother, -⟩
    · exact h.stages d call' init hold hop
    · rw [herror]
      trivial
    · exact absurd hop (hother init)
  · intro d call' commit after init hcall' hstage' horigin
    rcases hold d call' hcall' with hold | ⟨⟨error, herror⟩, -⟩ | ⟨-, hother⟩
    · exact h.created d call' commit after init hold hstage' horigin
    · rw [herror] at hstage'
      cases hstage'
    · exact absurd horigin (hother commit after init hstage')
  · exact h.unique
  · exact h.mapped
  · intro k key hkey
    rcases h.indexed k key hkey with hindexed | ⟨d, call', init, next, hcall', hop, hinit, hstage', hid⟩
    · exact .inl hindexed
    · refine .inr ⟨d, call', init, next, ?_, hop, hinit, hstage', hid⟩
      have hd : c ≠ d := by
        rintro rfl
        rw [hcall] at hcall'
        cases hcall'
        rw [hstage'] at hidle
        cases hidle
      simpa [Board.withStage, hd] using hcall'
  · intro d call' commit after init key k hcall' hstage' horigin hinit
    rcases hold d call' hcall' with hold | ⟨⟨error, herror⟩, -⟩ | ⟨-, hother⟩
    · exact h.fresh d call' commit after init key k hold hstage' horigin hinit
    · rw [herror] at hstage'
      cases hstage'
    · exact absurd horigin (hother commit after init hstage')
  · intro d e call₁ call₂ init init' key hcall₁ hcall₂ hop₁ hop₂ hinit hinit' hlive₁ hlive₂
    rcases hold d call₁ hcall₁ with hold₁ | ⟨⟨error, herror⟩, -⟩ | ⟨hother, -⟩
    · rcases hold e call₂ hcall₂ with hold₂ | ⟨⟨error, herror⟩, -⟩ | ⟨hother, -⟩
      · exact h.alone d e call₁ call₂ init init' key hold₁ hold₂ hop₁ hop₂ hinit hinit' hlive₁ hlive₂
      · exact absurd herror (hlive₂ _)
      · exact absurd hop₂ (hother init')
    · exact absurd herror (hlive₁ _)
    · exact absurd hop₁ (hother init)
  · intro d call' init key t hcall' hop hinit hreturns
    rcases hold d call' hcall' with hold | ⟨⟨error, herror⟩, -⟩ | ⟨hother, -⟩
    · exact h.returned d call' init key t hold hop hinit hreturns
    · rw [Returns, herror] at hreturns
      cases hreturns
    · exact absurd hop (hother init)

theorem called (h : Unique b) (hlogged : Logged False b) {op : KanbanOperation}
    (hguard : solitary b (.call op draw)) :
    Unique { b with calls := b.calls ++ [⟨op, start o b draw op⟩] } := by
  have hcreated : ∀ commit after init, start o b draw op = .appending commit after →
      commit.origin = .created init → op = .create init := fun commit after init hstage horigin =>
    (start_asks hstage).create_of_created horigin
  -- a create that starts finds no task with its key in the log, or returns it
  have hnew : ∀ init key, op = .create init → init.idempotencyKey = some key →
      (∃ t, Returns (start o b draw op) t ∧ b.Keyed t.id key) ∨
      (∀ t, ¬ Returns (start o b draw op) t) ∧ ∀ k, ¬ b.Keyed k key := by
    rintro init key rfl hinit
    rcases @start_create o b draw init with
      ⟨t, hexisting, hreturns⟩ | ⟨hnone, hrest⟩
    · refine .inl ⟨t, hreturns, ?_⟩
      simp only [existing?, hinit, Option.bind_eq_bind, Option.bind_some,
        Option.bind_eq_some_iff] at hexisting
      obtain ⟨k, hk, ht⟩ := hexisting
      rw [(hlogged.projected k t ht).1]
      exact h.mapped k key hk
    · refine .inr ⟨fun t hreturns => ?_, fun k hkey => ?_⟩
      · rw [Returns] at hreturns
        rcases hrest with ⟨error, hstage⟩ | ⟨commit, hstage, -⟩ <;>
          cases hstage.symm.trans hreturns
      · rcases h.indexed k key hkey with ⟨hget, hsome⟩ | ⟨d, call', init', next, hcall', hop, hinit', hstage, -⟩
        · obtain ⟨t, ht⟩ := Option.isSome_iff_exists.mp hsome
          simp [existing?, hinit, hget, ht] at hnone
        · obtain ⟨result, hresult⟩ := hguard.2 init draw key rfl hinit d call' init' hcall' hop hinit'
          rw [hstage] at hresult
          cases hresult
  constructor
  · intro d call' init hcall' hop
    rcases getElem?_called hcall' with hold | ⟨-, rfl⟩
    · exact h.stages d call' init hold hop
    · obtain rfl : op = .create init := hop
      rcases @start_create o b draw init with
        ⟨t, -, hreturns⟩ | ⟨-, ⟨error, hstage⟩ | ⟨commit, hstage, horigin⟩⟩
      · simp only [Returns] at hreturns
        simp only [hreturns]
        trivial
      · simp only [hstage]
        trivial
      · simp only [hstage]
        exact ⟨rfl, horigin⟩
  · intro d call' commit after init hcall' hstage' horigin
    rcases getElem?_called hcall' with hold | ⟨-, rfl⟩
    · exact h.created d call' commit after init hold hstage' horigin
    · exact hcreated commit after init hstage' horigin
  · exact h.unique
  · exact h.mapped
  · intro k key hkey
    rcases h.indexed k key hkey with hindexed | ⟨d, call', init, next, hcall', hop, hinit, hstage', hid⟩
    · exact .inl hindexed
    · have hlt := (List.getElem?_eq_some_iff.mp hcall').1
      exact .inr ⟨d, call', init, next, (List.getElem?_append_left hlt).trans hcall', hop, hinit,
        hstage', hid⟩
  · intro d call' commit after init key k hcall' hstage' horigin hinit
    rcases getElem?_called hcall' with hold | ⟨-, rfl⟩
    · exact h.fresh d call' commit after init key k hold hstage' horigin hinit
    · have hstage : start o b draw op = .appending commit after := hstage'
      rcases hnew init key (hcreated commit after init hstage horigin) hinit with
        ⟨t, hreturns, -⟩ | ⟨-, hnone⟩
      · cases hstage.symm.trans hreturns
      · exact hnone k
  · intro d e call₁ call₂ init init' key hcall₁ hcall₂ hop₁ hop₂ hinit hinit' hlive₁ hlive₂
    rcases getElem?_called hcall₁ with hold₁ | ⟨rfl, rfl⟩ <;>
      rcases getElem?_called hcall₂ with hold₂ | ⟨rfl, rfl⟩
    · exact h.alone d e call₁ call₂ init init' key hold₁ hold₂ hop₁ hop₂ hinit hinit' hlive₁ hlive₂
    · obtain rfl : op = .create init' := hop₂
      obtain ⟨result, hresult⟩ := hguard.2 init' draw key rfl hinit' d call₁ init hold₁ hop₁ hinit
      exact absurd hresult (hlive₁ result)
    · obtain rfl : op = .create init := hop₁
      obtain ⟨result, hresult⟩ := hguard.2 init draw key rfl hinit e call₂ init' hold₂ hop₂ hinit'
      exact absurd hresult (hlive₂ result)
    · rfl
  · intro d call' init key t hcall' hop hinit hreturns
    rcases getElem?_called hcall' with hold | ⟨-, rfl⟩
    · exact h.returned d call' init key t hold hop hinit hreturns
    · rcases hnew init key hop hinit with ⟨t', hreturns', hkey⟩ | ⟨hnot, -⟩
      · have hstage : start o b draw op = .finished (.ok (.task t)) := hreturns
        rw [Returns, hstage] at hreturns'
        cases hreturns'
        exact hkey
      · exact absurd hreturns (hnot t)

theorem land (h : Unique b) {after : After} (hcall : b.calls[c]? = some call)
    (hstage : call.stage = .appending commit after) (hland : Landing False b b' commit)
    (htasks : b'.tasks = b.tasks) (hidempotency : b'.idempotency = b.idempotency)
    (hcalls : b'.calls = (b.withStage c (.indexing commit.next after)).calls) : Unique b' := by
  have hkeyed : ∀ k key, b.Keyed k key → b'.Keyed k key := fun k key hkey =>
    (keyed_of_landing hland).mpr (.inl hkey)
  have hold : ∀ (d : ℕ) (call' : Call), b'.calls[d]? = some call' →
      (d = c ∧ call' = { call with stage := .indexing commit.next after }) ∨
        d ≠ c ∧ b.calls[d]? = some call' := by
    intro d call' hcall'
    rw [hcalls] at hcall'
    rcases getElem?_withStage hcall' with ⟨rfl, call₀, hcall₀, rfl⟩ | hold
    · rw [hcall] at hcall₀
      cases hcall₀
      exact .inl ⟨rfl, rfl⟩
    · exact .inr hold
  have hself : b'.calls[c]? = some { call with stage := .indexing commit.next after } := by
    rw [hcalls]
    simp [Board.withStage, hcall]
  -- the key of a create that lands is new to the log
  have hfresh : ∀ init key k, commit.origin = .created init → init.idempotencyKey = some key →
      ¬ b.Keyed k key := fun init key k horigin hinit =>
    h.fresh c call commit after init key k hcall hstage horigin hinit
  have hnext : ∀ init, commit.origin = .created init →
      commit.next.idempotencyKey = init.idempotencyKey := by
    intro init horigin
    cases hland.asked with
    | created horigin' hnew =>
      rw [horigin] at horigin'
      cases horigin'
      exact hnew.idempotencyKey
    | mutated horigin' =>
      rw [horigin] at horigin'
      cases horigin'
  constructor
  · intro d call' init hcall' hop
    rcases hold d call' hcall' with ⟨rfl, rfl⟩ | ⟨-, hold⟩
    · have hbefore := h.stages d call init hcall hop
      rw [hstage] at hbefore
      exact ⟨hbefore.1, hnext init hbefore.2⟩
    · exact h.stages d call' init hold hop
  · intro d call' commit' after' init hcall' hstage' horigin
    rcases hold d call' hcall' with ⟨rfl, rfl⟩ | ⟨-, hold⟩
    · cases hstage'
    · exact h.created d call' commit' after' init hold hstage' horigin
  · intro k k' key hkey hkey'
    rcases (keyed_of_landing hland).mp hkey with hkey | ⟨init, horigin, rfl, hinit⟩ <;>
      rcases (keyed_of_landing hland).mp hkey' with hkey' | ⟨init', horigin', rfl, hinit'⟩
    · exact h.unique k k' key hkey hkey'
    · exact absurd hkey (hfresh init' key k horigin' hinit')
    · exact absurd hkey' (hfresh init key k' horigin hinit)
    · rfl
  · intro k key hget
    rw [hidempotency] at hget
    exact hkeyed k key (h.mapped k key hget)
  · intro k key hkey
    rw [hidempotency, htasks]
    rcases (keyed_of_landing hland).mp hkey with hkey | ⟨init, horigin, rfl, hinit⟩
    · rcases h.indexed k key hkey with hindexed | ⟨d, call', init, next, hcall', hop, hinit, hstage', hid⟩
      · exact .inl hindexed
      · refine .inr ⟨d, call', init, next, ?_, hop, hinit, hstage', hid⟩
        have hd : c ≠ d := by
          rintro rfl
          rw [hcall] at hcall'
          cases hcall'
          rw [hstage] at hstage'
          cases hstage'
        rw [hcalls]
        simpa [Board.withStage, hd] using hcall'
    · have hop := h.created c call commit after init hcall hstage horigin
      have hbefore := h.stages c call init hcall hop
      rw [hstage] at hbefore
      obtain ⟨rfl, -⟩ := hbefore
      exact .inr ⟨c, _, init, commit.next, hself, hop, hinit, rfl, hland.id⟩
  · intro d call' commit' after' init key k hcall' hstage' horigin hinit hkey
    rcases hold d call' hcall' with ⟨rfl, rfl⟩ | ⟨hd, hold⟩
    · cases hstage'
    · rcases (keyed_of_landing hland).mp hkey with hkey | ⟨init', horigin', -, hinit'⟩
      · exact h.fresh d call' commit' after' init key k hold hstage' horigin hinit hkey
      · refine hd (h.alone d c call' call init init' key hold hcall
          (h.created d call' commit' after' init hold hstage' horigin)
          (h.created c call commit after init' hcall hstage horigin') hinit hinit' ?_ ?_)
        · intro result hresult
          rw [hstage'] at hresult
          cases hresult
        · intro result hresult
          rw [hstage] at hresult
          cases hresult
  · intro d e call₁ call₂ init init' key hcall₁ hcall₂ hop₁ hop₂ hinit hinit' hlive₁ hlive₂
    have hlive : ∀ result, call.stage ≠ .finished result := by
      intro result hresult
      rw [hstage] at hresult
      cases hresult
    rcases hold d call₁ hcall₁ with ⟨rfl, rfl⟩ | ⟨-, hold₁⟩ <;>
      rcases hold e call₂ hcall₂ with ⟨rfl, rfl⟩ | ⟨-, hold₂⟩
    · rfl
    · exact h.alone d e call call₂ init init' key hcall hold₂ hop₁ hop₂ hinit hinit' hlive hlive₂
    · exact h.alone d e call₁ call init init' key hold₁ hcall hop₁ hop₂ hinit hinit' hlive₁ hlive
    · exact h.alone d e call₁ call₂ init init' key hold₁ hold₂ hop₁ hop₂ hinit hinit' hlive₁ hlive₂
  · intro d call' init key t hcall' hop hinit hreturns
    rcases hold d call' hcall' with ⟨rfl, rfl⟩ | ⟨-, hold⟩
    · cases hreturns
    · exact hkeyed _ key (h.returned d call' init key t hold hop hinit hreturns)

theorem keyed_of_indexing (hlogged : Logged False b) (hcurrent : Current b) {next : KanbanTask}
    {after : After} (hcall : b.calls[c]? = some call) (hstage : call.stage = .indexing next after) :
    b.Keyed next.id key ↔ next.idempotencyKey = some key := by
  obtain ⟨-, -, -, u, hu, halike⟩ := hlogged.held c call next hcall (by rw [hstage]; simp [Stage.tasks])
  rw [hcurrent.newest c next ⟨call, hcall, by rw [hstage]; rfl⟩, taskAt_length] at hu
  constructor
  · rintro ⟨v, hv, hkey⟩
    rw [hu] at hv
    obtain rfl := Option.some.inj (Except.ok.inj hv)
    rw [← halike.idempotencyKey_eq, hkey]
  · exact fun hkey => ⟨u, hu, by rw [halike.idempotencyKey_eq, hkey]⟩

theorem index (h : Unique b) (hlogged : Logged False b) (hcurrent : Current b) {next : KanbanTask}
    {after : After} (hcall : b.calls[c]? = some call) (hstage : call.stage = .indexing next after) :
    Unique ((b.index next).withStage c (resume next after)) := by
  have hkeyed : ∀ key, b.Keyed next.id key ↔ next.idempotencyKey = some key := fun _ =>
    keyed_of_indexing hlogged hcurrent hcall hstage
  have hold : ∀ (d : ℕ) (call' : Call),
      ((b.index next).withStage c (resume next after)).calls[d]? = some call' →
      (d = c ∧ call' = { call with stage := resume next after }) ∨
        d ≠ c ∧ b.calls[d]? = some call' := by
    intro d call' hcall'
    rcases getElem?_withStage (b := b.index next) hcall' with ⟨rfl, call₀, hcall₀, rfl⟩ | hold
    · have hcall₁ : b.calls[d]? = some call₀ := hcall₀
      rw [hcall] at hcall₁
      cases hcall₁
      exact .inl ⟨rfl, rfl⟩
    · exact .inr hold
  have hget : ∀ key, ((b.index next).withStage c (resume next after)).idempotency.get key =
      if next.idempotencyKey = some key then some next.id else b.idempotency.get key := by
    intro key
    simp only [Board.withStage, Board.index]
    cases hkey : next.idempotencyKey with
    | none => simp
    | some key' => simp [OrderedMap.get_set, eq_comm]
  have htasks : ∀ k, ((b.index next).withStage c (resume next after)).tasks.get k =
      if k = next.id then some next else b.tasks.get k := fun k => OrderedMap.get_set ..
  have hdone : ∀ init, call.op = .create init → after = .done ∧
      next.idempotencyKey = init.idempotencyKey := by
    intro init hop
    have := h.stages c call init hcall hop
    rwa [hstage] at this
  constructor
  · intro d call' init hcall' hop
    rcases hold d call' hcall' with ⟨rfl, rfl⟩ | ⟨-, hold⟩
    · obtain ⟨rfl, -⟩ := hdone init hop
      trivial
    · exact h.stages d call' init hold hop
  · intro d call' commit' after' init hcall' hstage' horigin
    rcases hold d call' hcall' with ⟨rfl, rfl⟩ | ⟨-, hold⟩
    · cases after <;> cases hstage'
    · exact h.created d call' commit' after' init hold hstage' horigin
  · exact h.unique
  · intro k key hk
    rw [hget] at hk
    split at hk
    · next hkey =>
      cases hk
      exact (hkeyed key).mpr hkey
    · exact h.mapped k key hk
  · intro k key hkey
    rw [hget, htasks]
    by_cases hk : k = next.id
    · subst hk
      rw [if_pos ((hkeyed key).mp hkey), if_pos rfl]
      exact .inl ⟨rfl, rfl⟩
    · have hother : next.idempotencyKey ≠ some key := fun hnext =>
        hk (h.unique k next.id key hkey ((hkeyed key).mpr hnext))
      rw [if_neg hother, if_neg hk]
      rcases h.indexed k key hkey with hindexed | ⟨d, call', init, next', hcall', hop, hinit, hstage', hid⟩
      · exact .inl hindexed
      · refine .inr ⟨d, call', init, next', ?_, hop, hinit, hstage', hid⟩
        have hd : c ≠ d := by
          rintro rfl
          rw [hcall] at hcall'
          cases hcall'
          rw [hstage] at hstage'
          cases hstage'
          exact hk hid.symm
        simpa [Board.withStage, Board.index, hd] using hcall'
  · intro d call' commit' after' init key k hcall' hstage' horigin hinit
    rcases hold d call' hcall' with ⟨rfl, rfl⟩ | ⟨-, hold⟩
    · cases after <;> cases hstage'
    · exact h.fresh d call' commit' after' init key k hold hstage' horigin hinit
  · intro d e call₁ call₂ init init' key hcall₁ hcall₂ hop₁ hop₂ hinit hinit' hlive₁ hlive₂
    rcases hold d call₁ hcall₁ with ⟨rfl, rfl⟩ | ⟨-, hold₁⟩
    · obtain ⟨rfl, -⟩ := hdone init hop₁
      exact absurd rfl (hlive₁ _)
    rcases hold e call₂ hcall₂ with ⟨rfl, rfl⟩ | ⟨-, hold₂⟩
    · obtain ⟨rfl, -⟩ := hdone init' hop₂
      exact absurd rfl (hlive₂ _)
    · exact h.alone d e call₁ call₂ init init' key hold₁ hold₂ hop₁ hop₂ hinit hinit' hlive₁ hlive₂
  · intro d call' init key t hcall' hop hinit hreturns
    rcases hold d call' hcall' with ⟨rfl, rfl⟩ | ⟨-, hold⟩
    · obtain ⟨rfl, hnext⟩ := hdone init hop
      cases hreturns
      exact (hkeyed key).mpr (hnext.trans hinit)
    · exact h.returned d call' init key t hold hop hinit hreturns

theorem step (h : Unique b) (hlogged : Logged False b) (hcurrent : Current b)
    (hguard : solitary b input) (hstep : boardStep o b input = some b') : Unique b' := by
  cases boardStep_moves hstep with
  | called op draw =>
    have hcleared : b.cleared op = b := by
      cases op with
      | rebuild => exact hguard.1.elim
      | _ => rfl
    rw [hcleared]
    exact h.called hlogged hguard
  | failed hcall hidle => exact h.withStage hcall hidle (.inr (.inl ⟨_, rfl⟩))
  | @proceeded c call draw hcall hidle =>
    refine h.withStage hcall hidle ?_
    by_cases hop : ∃ init, call.op = .create init
    · obtain ⟨init, hop⟩ := hop
      rw [hop]
      exact .inl proceed_create
    · rw [not_exists] at hop
      refine .inr (.inr ⟨hop, fun commit after init hstage horigin => ?_⟩)
      rcases proceed_asks hstage with hold | hasks
      · exact hop init (h.created c call commit after init hcall hold horigin)
      · exact hop init (hasks.create_of_created horigin)
  | landed hcall hstage happend =>
    exact h.land hcall hstage (hlogged.landing_of hcall hstage happend rfl) rfl rfl rfl
  | indexed hcall hstage => exact h.index hlogged hcurrent hcall hstage
  | @replayed c call task rest draw hcall hstage =>
    exact absurd hstage ((hcurrent.plain c call hcall).2 task rest)

theorem initial : Unique .initial := by
  have hnone : ∀ k key, ¬ Board.initial.Keyed k key := by
    rintro k key ⟨u, hu, -⟩
    cases hu
  constructor
  · exact fun _ _ _ hcall => nomatch hcall
  · exact fun _ _ _ _ _ hcall => nomatch hcall
  · exact fun k _ key hkey => absurd hkey (hnone k key)
  · exact fun _ _ hget => nomatch hget
  · exact fun k key hkey => absurd hkey (hnone k key)
  · exact fun _ _ _ _ _ _ _ hcall => nomatch hcall
  · exact fun _ _ _ _ _ _ _ hcall => nomatch hcall
  · exact fun _ _ _ _ _ hcall => nomatch hcall

theorem reaches (h : (board o).Reaches solitary .initial b) : Unique b :=
  h.invariant₂ (Q := fun b => Logged False b ∧ Current b)
    (fun _ hb => ⟨Logged.of_reaches hb, Current.reaches (fun _ _ hg => hg.1) hb⟩)
    initial fun _ _ _ hbefore hb hguard hstep => hb.step hbefore.1 hbefore.2 hguard hstep

end Unique

/-- A key has one task, and a create with the key that succeeds returns that task. -/
theorem one_task_per_key (h : (board o).Reaches solitary .initial b) :
    (∀ k k' key, b.Keyed k key → b.Keyed k' key → k = k') ∧
    ∀ (c : ℕ) (call : Call) init key t, b.calls[c]? = some call → call.op = .create init →
      init.idempotencyKey = some key → call.stage = .finished (.ok (.task t)) →
      b.Keyed t.id key ∧ ∀ k, b.Keyed k key → k = t.id := by
  have hunique := Unique.reaches h
  refine ⟨hunique.unique, fun c call init key t hcall hop hinit hstage => ?_⟩
  have hkeyed := hunique.returned c call init key t hcall hop hinit hstage
  exact ⟨hkeyed, fun k hkey => hunique.unique k t.id key hkey hkeyed⟩

def Board.keyOf (b : Board) (k : KanbanTaskId) : Option String :=
  match foldStream (b.events k) with
  | .ok (some u) => u.idempotencyKey
  | _ => none

theorem keyed_of_keyOf (h : b.keyOf k = some key) : b.Keyed k key := by
  unfold Board.keyOf at h
  split at h
  · next u hu => exact ⟨u, hu, h⟩
  · cases h

def solitaryCheck (b : Board) (input : Input) : Bool :=
  unrebuiltCheck input &&
    match input with
    | .call (.create init) _ => b.calls.all fun call => call.stage.isFinished ||
      match call.op with
      | .create init' => init.idempotencyKey.isNone || init'.idempotencyKey ≠ init.idempotencyKey
      | _ => true
    | _ => true

theorem solitary_of_check (b : Board) (input : Input) (h : solitaryCheck b input) :
    solitary b input := by
  unfold solitaryCheck at h
  rw [Bool.and_eq_true] at h
  refine ⟨unrebuilt_of_check b input h.1, ?_⟩
  rintro init draw key rfl hinit c call init' hcall hop hinit'
  have hcheck := List.all_eq_true.mp h.2 call (List.mem_of_getElem? hcall)
  rw [hop, hinit] at hcheck
  exact finished_of_isFinished (by simpa [hinit'] using hcheck)

/-- A create, and its retry once it is there. -/
def retriedCreate : List Input :=
  [.call (.create { title := "task", idempotencyKey := some "key" }) (sampleDraw 1),
    .resume 0 (sampleDraw 1), .resume 0 (sampleDraw 1),
    .call (.create { title := "task", idempotencyKey := some "key" }) (sampleDraw 2)]

theorem one_task_per_key_sample : ∃ b, (board sampleOptions).Reaches solitary .initial b ∧
    b.calls.length = 2 ∧ b.Keyed (sampleId 1) "key" ∧
    ∀ k, b.Keyed k "key" → k = sampleId 1 := by
  have hguard : (board sampleOptions).Guarded solitary .initial retriedCreate :=
    guarded_of_allSteps solitary_of_check _ (by decide +kernel)
  obtain ⟨b, hb, hcheck⟩ := hguard.exists_reaches
    (f := fun b : Board => decide (b.calls.length = 2) && decide (b.keyOf (sampleId 1) = some "key"))
    (a := true) (by decide +kernel)
  rw [Bool.and_eq_true, decide_eq_true_eq, decide_eq_true_eq] at hcheck
  have hkeyed := keyed_of_keyOf hcheck.2
  exact ⟨b, hb, hcheck.1, hkeyed, fun k hkey => (one_task_per_key hb).1 k _ _ hkey hkeyed⟩

/-- Two creates with one key: both look the key up before either has written. -/
def racingCreates : List Input :=
  [.call (.create { title := "task", idempotencyKey := some "key" }) (sampleDraw 1),
    .call (.create { title := "task", idempotencyKey := some "key" }) (sampleDraw 2),
    .resume 0 (sampleDraw 1), .resume 1 (sampleDraw 2), .resume 0 (sampleDraw 1),
    .resume 1 (sampleDraw 2)]

theorem two_tasks_for_key : ∃ b, (board sampleOptions).Reaches anyStep .initial b ∧
    b.Keyed (sampleId 1) "key" ∧ b.Keyed (sampleId 2) "key" ∧ sampleId 1 ≠ sampleId 2 := by
  obtain ⟨b, hb, hcheck⟩ := exists_reaches_of_exec_map (M := board sampleOptions) (s := .initial)
    (f := fun b => decide (b.keyOf (sampleId 1) = some "key") &&
      decide (b.keyOf (sampleId 2) = some "key")) (a := true) racingCreates (by decide +kernel)
  rw [Bool.and_eq_true, decide_eq_true_eq, decide_eq_true_eq] at hcheck
  exact ⟨b, hb, keyed_of_keyOf hcheck.1, keyed_of_keyOf hcheck.2, by decide +kernel⟩

end BeeAgent.Kanban
