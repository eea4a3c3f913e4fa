import BeeAgent.Skills.SkillStore

/-! A registered skill is found and a revoked one is gone, unless a rebuild reads a fact over a newer
one, fails half-way, or a `get` comes before a running rebuild has read the registration again. -/
namespace BeeAgent.Skills
open Data Chronicle Transition
open Kanban (Formats)
open Kanban.Schema (check optional nonempty datetime)

/-! ### What is written is valid -/

section Valid
variable {f : Formats}

theorem nonempty_eq_nil {path s : String} : nonempty path s = [] ↔ s ≠ "" := by
  simp [nonempty, check]

theorem datetime_eq_nil {path s : String} : datetime f path s = [] ↔ f.datetime s = true := by
  simp [datetime, check]

theorem SkillRegistered.valid {p : SkillRegistered} (h : p.issues f = []) (eventTime : String) :
    SkillEvent.valid f ⟨"skill.registered", p.payload, eventTime⟩ := by
  simp only [issues, List.append_eq_nil_iff, nonempty_eq_nil, datetime_eq_nil] at h
  obtain ⟨⟨⟨⟨⟨⟨⟨⟨hid, hname⟩, hsummary⟩, hinstructions⟩, hbound⟩, hproposal⟩, htarget⟩, hby⟩, hat⟩ := h
  simp [SkillEvent.valid, stringAt, record?, payload, Value.property?, hid, hname, hsummary,
    hinstructions, hbound, hproposal, htarget, hby, hat]

theorem SkillRevoked.valid {p : SkillRevoked} (h : p.issues f = []) (eventTime : String) :
    SkillEvent.valid f ⟨"skill.revoked", p.payload, eventTime⟩ := by
  simp only [issues, List.append_eq_nil_iff, nonempty_eq_nil, datetime_eq_nil] at h
  obtain ⟨⟨⟨hid, hreason⟩, hby⟩, hat⟩ := h
  obtain ⟨skillId, reason, registeredBy, registeredAt⟩ := p
  cases reason with
  | none =>
    simp [SkillEvent.valid, stringAt, payload, optionalField, Value.property?, hid, hby, hat]
  | some reason =>
    have hne := nonempty_eq_nil.mp hreason
    simp [SkillEvent.valid, stringAt, payload, optionalField, Value.property?, hid, hby, hat, hne]

theorem fact_of_valid {event : SkillEvent} (h : event.valid f) :
    ∃ p fact, SkillPayload.read event.payload = some p ∧ storedFact event p = some fact ∧
      event.fact = some fact := by
  obtain ⟨p, fact, hread, hstored, -⟩ := facts_of_valid h
  exact ⟨p, fact, hread, hstored, by rw [SkillEvent.fact, hread]; exact hstored⟩

end Valid

/-! ### Undisturbed steps -/

def SkillEvent.About (skillId : String) (event : SkillEvent) : Prop :=
  event.fact.map SkillFact.skillId = some skillId

theorem SkillEvent.about_cases {skillId : String} {event : SkillEvent} (h : event.About skillId) :
    event.registers skillId ∧ event.revokes skillId = false ∨
      event.revokes skillId ∧ event.registers skillId = false := by
  obtain ⟨fact, hfact, rfl⟩ := Option.map_eq_some_iff.mp h
  cases fact with
  | registered skillId' skill => simp [registers, revokes, hfact, SkillFact.skillId]
  | revoked skillId' => simp [registers, revokes, hfact, SkillFact.skillId]

theorem SkillEvent.about_of_registers {skillId : String} {event : SkillEvent}
    (h : event.registers skillId) : event.About skillId := by
  unfold registers at h
  split at h
  · next hfact =>
    rw [About, hfact]
    exact congrArg some (by simpa [SkillFact.skillId] using h)
  · cases h

theorem SkillEvent.about_of_revokes {skillId : String} {event : SkillEvent}
    (h : event.revokes skillId) : event.About skillId := by
  unfold revokes at h
  split at h
  · next hfact =>
    rw [About, hfact]
    exact congrArg some (by simpa [SkillFact.skillId] using h)
  · cases h

namespace SkillStore
variable (s : SkillStore)

def About (n : ℕ) (skillId : String) : Prop :=
  ∃ event, s.events[n]? = some event ∧ event.About skillId

def Unread (n : ℕ) : Prop := ∃ next snapshot, .rebuilding next snapshot ∈ s.calls ∧ next ≤ n ∧ n < snapshot

/-- The last word of the stream on the skill is a revocation. -/
def Revoked (skillId : String) : Prop :=
  ∃ (n : ℕ) (event : SkillEvent), s.events[n]? = some event ∧ event.revokes skillId ∧
    ∀ (m : ℕ) (later : SkillEvent), n < m → s.events[m]? = some later → later.registers skillId = false

def Quiet : Prop := ∀ stage ∈ s.calls, ∃ error, stage = .finished error

/-- A rebuild reads a fact over a newer one only if it has a fact at least as new still to read, no
rebuild fails half-way, and a `get` does not come while a rebuild has a registration of the skill
still to read. -/
def Heeds : Input → Prop
  | .resume c _ => ∀ next snapshot, s.calls[c]? = some (.rebuilding next snapshot) →
    next < snapshot → ∀ skillId, s.About next skillId → s.shown skillId ≤ next + 1 ∨
      ∃ n, next < n ∧ n < snapshot ∧ s.About n skillId ∧ s.shown skillId ≤ n + 1
  | .fail c => ∀ next snapshot, s.calls[c]? ≠ some (.rebuilding next snapshot)
  | .get skillId => ∀ n event, s.events[n]? = some event →
    SkillEvent.registers skillId event → ¬s.Unread n
  | .call .. => True

/-! ### The invariant -/

/-- A rebuild has read the event, though the map may have been cleared since. -/
def Seen (n : ℕ) : Prop :=
  n < s.settled ∨ ∃ next snapshot, .rebuilding next snapshot ∈ s.calls ∧ n < next

def Fits (f : Formats) : Stage → Prop
  | .latest draft _ => draft.issues = [] → ∀ eventTime,
    SkillEvent.valid f ⟨draft.eventType, draft.payload, eventTime⟩
  | .appending draft _ event _ => event.valid f ∧ (draft.issues = [] → ∀ eventTime,
    SkillEvent.valid f ⟨draft.eventType, draft.payload, eventTime⟩)
  | .rebuilding next snapshot => next ≤ snapshot ∧ snapshot ≤ s.stream.length
  | .appended | .finished _ => True

structure Keeps (f : Formats) : Prop where
  numbered : ∀ event ∈ s.stream, event.eventId < s.nextEventId
  valid : ∀ event ∈ s.events, event.valid f
  fits : ∀ stage ∈ s.calls, s.Fits f stage
  settled : s.settled ≤ s.stream.length
  /-- The map shows of each skill the fact that was read last. -/
  cleared : ∀ skillId, s.shown skillId = 0 → s.skills.get skillId = none
  showing : ∀ skillId n, s.shown skillId = n + 1 → ∃ event, s.events[n]? = some event ∧
    (event.registers skillId ∧ s.skills.get skillId ≠ none ∨
      event.revokes skillId ∧ s.skills.get skillId = none)
  /-- What has been read shows, or something newer does, or it is still to be read again. -/
  seen : ∀ n skillId, s.Seen n → s.About n skillId → n < s.shown skillId ∨ s.Unread n
  /-- Every event has been read or will be, once anything has been read. -/
  coming : ∀ n < s.stream.length, n < s.settled ∨ .appended ∈ s.calls ∨
    (∃ next snapshot, .rebuilding next snapshot ∈ s.calls ∧ n < snapshot) ∨
    (∀ skillId, s.shown skillId = 0) ∧ ∀ next snapshot, .rebuilding next snapshot ∉ s.calls
  looks : ∀ look ∈ s.looks, look.registered → look.found

end SkillStore

section
variable {s t : SkillStore} {f : Formats} {c : ℕ} {stage stage' : Stage}

namespace SkillStore

theorem mem_calls_set {st : Stage} (hst : st ∈ s.calls.set c stage') : st = stage' ∨ st ∈ s.calls :=
  (List.mem_or_eq_of_mem_set hst).symm

theorem mem_set_of_mem (stage' : Stage) {st : Stage} (hc : s.calls[c]? = some stage) (hst : st ∈ s.calls) :
    st = stage ∨ st ∈ s.calls.set c stage' := by
  obtain ⟨i, hi⟩ := List.getElem?_of_mem hst
  by_cases hic : c = i
  · subst hic
    exact .inl (Option.some.inj (hi.symm.trans hc))
  · refine .inr (List.mem_of_getElem? (i := i) ?_)
    rw [List.getElem?_set_ne hic, hi]

theorem mem_set_new (hc : s.calls[c]? = some stage) : stage' ∈ s.calls.set c stage' :=
  List.mem_set (List.getElem?_eq_some_iff.mp hc).1 stage'

theorem Keeps.restage (h : s.Keeps f) (hc : s.calls[c]? = some stage) (hfits : s.Fits f stage')
    (hold : ∀ next snapshot, stage ≠ .rebuilding next snapshot) (happended : stage ≠ .appended)
    (hnew : ∀ next snapshot, stage' ≠ .rebuilding next snapshot) : (s.withStage c stage').Keeps f := by
  have hcalls : ∀ next snapshot, .rebuilding next snapshot ∈ s.calls.set c stage' ↔
      .rebuilding next snapshot ∈ s.calls := by
    intro next snapshot
    constructor
    · intro hst
      exact (mem_calls_set hst).resolve_left fun heq => hnew next snapshot heq.symm
    · intro hst
      exact (mem_set_of_mem _ hc hst).resolve_left fun heq => hold next snapshot heq.symm
  refine ⟨h.numbered, h.valid, fun st hst => ?_, h.settled, h.cleared, h.showing, ?_, ?_, h.looks⟩
  · rcases mem_calls_set hst with rfl | hst
    · exact hfits
    · exact h.fits st hst
  · intro n skillId hseen habout
    simp only [Seen, withStage, hcalls] at hseen
    simpa only [Unread, withStage, hcalls] using h.seen n skillId hseen habout
  · intro n hn
    rcases h.coming n hn with hsettled | hin | hrest
    · exact .inl hsettled
    · exact .inr (.inl ((mem_set_of_mem _ hc hin).resolve_left fun heq => happended heq.symm))
    · refine .inr (.inr ?_)
      simpa only [withStage, hcalls] using hrest

theorem Keeps.startStage (h : s.Keeps f) (hfits : s.Fits f stage)
    (hnew : ∀ next snapshot, stage ≠ .rebuilding next snapshot) :
    (Skills.startStage s stage).Keeps f := by
  have hcalls : ∀ next snapshot, .rebuilding next snapshot ∈ s.calls ++ [stage] ↔
      .rebuilding next snapshot ∈ s.calls := by
    intro next snapshot
    rw [List.mem_append, List.mem_singleton]
    exact or_iff_left fun heq => hnew next snapshot heq.symm
  refine ⟨h.numbered, h.valid, fun st hst => ?_, h.settled, h.cleared, h.showing, ?_, ?_, h.looks⟩
  · rcases List.mem_append.mp hst with hst | hst
    · exact h.fits st hst
    · obtain rfl := List.mem_singleton.mp hst
      exact hfits
  · intro n skillId hseen habout
    simp only [Seen, Skills.startStage, hcalls] at hseen
    simpa only [Unread, Skills.startStage, hcalls] using h.seen n skillId hseen habout
  · intro n hn
    rcases h.coming n hn with hsettled | hin | hrest
    · exact .inl hsettled
    · exact .inr (.inl (List.mem_append_left _ hin))
    · refine .inr (.inr ?_)
      simpa only [Skills.startStage, hcalls] using hrest

theorem Keeps.clear (h : s.Keeps f) (ht : t = { Skills.clear s with calls := t.calls })
    (hmem : .rebuilding 0 s.stream.length ∈ t.calls)
    (hfits : ∀ st ∈ t.calls, st = .rebuilding 0 s.stream.length ∨ st ∈ s.calls) : t.Keeps f := by
  obtain ⟨stream, nextEventId, skills, calls, shown, settled, looks⟩ := t
  cases ht
  refine ⟨h.numbered, h.valid, fun st hst => ?_, h.settled, fun _ _ => rfl, ?_, ?_, ?_, h.looks⟩
  · rcases hfits st hst with rfl | hst
    · exact ⟨Nat.zero_le _, le_rfl⟩
    · exact h.fits st hst
  · intro skillId n hshown
    cases hshown
  · rintro n skillId - ⟨event, hevent, -⟩
    have hlt := (List.getElem?_eq_some_iff.mp hevent).1
    rw [events, List.length_map] at hlt
    exact .inr ⟨0, _, hmem, Nat.zero_le n, hlt⟩
  · exact fun n hn => .inr (.inr (.inl ⟨0, _, hmem, hn⟩))

theorem Keeps.land {draft : Draft} {attempt n : ℕ} {event : SkillEvent} (h : s.Keeps f)
    (hc : s.calls[c]? = some (.appending draft attempt event n)) :
    Keeps { s.withStage c .appended with
      stream := s.stream ++ [⟨s.nextEventId, event⟩], nextEventId := s.nextEventId + 1 } f := by
  set t : SkillStore := { s.withStage c .appended with
    stream := s.stream ++ [⟨s.nextEventId, event⟩], nextEventId := s.nextEventId + 1 } with ht
  have hcalls : ∀ next snapshot, .rebuilding next snapshot ∈ t.calls ↔
      .rebuilding next snapshot ∈ s.calls := by
    intro next snapshot
    constructor
    · intro hst
      exact (mem_calls_set hst).resolve_left (by rintro ⟨⟩)
    · intro hst
      exact (mem_set_of_mem _ hc hst).resolve_left (by rintro ⟨⟩)
  have hevents : t.events = s.events ++ [event] := List.map_append
  have hlength : s.events.length = s.stream.length := List.length_map ..
  have hget : ∀ {m : ℕ} {e : SkillEvent}, s.events[m]? = some e → t.events[m]? = some e := by
    intro m e hm
    rw [hevents, List.getElem?_append_left (List.getElem?_eq_some_iff.mp hm).1, hm]
  have hold : ∀ {m skillId}, m < s.stream.length → t.About m skillId → s.About m skillId := by
    rintro m skillId hm ⟨e, he, habout⟩
    rw [hevents, List.getElem?_append_left (hlength ▸ hm)] at he
    exact ⟨e, he, habout⟩
  refine ⟨?_, ?_, fun st hst => ?_, ?_, h.cleared, ?_, ?_, ?_, h.looks⟩
  · intro e he
    rcases List.mem_append.mp he with he | he
    · exact (h.numbered e he).trans (Nat.lt_succ_self _)
    · obtain rfl := List.mem_singleton.mp he
      exact Nat.lt_succ_self _
  · intro e he
    rw [hevents] at he
    rcases List.mem_append.mp he with he | he
    · exact h.valid e he
    · obtain rfl := List.mem_singleton.mp he
      exact (h.fits _ (List.mem_of_getElem? hc)).1
  · rcases mem_calls_set hst with rfl | hst
    · trivial
    · have hfits := h.fits st hst
      cases st with
      | rebuilding next snapshot =>
        exact ⟨hfits.1, hfits.2.trans (by simp [t])⟩
      | latest | appending | appended | finished => exact hfits
  · exact h.settled.trans (by simp [t])
  · intro skillId m hshown
    obtain ⟨e, he, hshows⟩ := h.showing skillId m hshown
    exact ⟨e, hget he, hshows⟩
  · intro m skillId hseen habout
    have hseen' : s.Seen m := by
      simp only [Seen, hcalls] at hseen
      exact hseen
    have hlt : m < s.stream.length := by
      rcases hseen' with hm | ⟨next, snapshot, hst, hm⟩
      · exact hm.trans_le h.settled
      · have hfits := h.fits _ hst
        exact hm.trans_le (hfits.1.trans hfits.2)
    simp only [Unread, hcalls]
    exact h.seen m skillId hseen' (hold hlt habout)
  · exact fun m _ => .inr (.inl (mem_set_new hc))

theorem get_keepFact_of_ne {α : Type} {skills : OrderedMap String α} {fact : SkillFact α}
    {skillId : String} (hne : fact.skillId ≠ skillId) :
    (keepFact skills (some fact)).get skillId = skills.get skillId := by
  cases fact with
  | registered => exact OrderedMap.get_set_of_ne (Ne.symm hne) ..
  | revoked => exact (OrderedMap.get_delete ..).trans (if_neg (Ne.symm hne))

theorem Keeps.read {next snapshot : ℕ} {event : SkillEvent} (h : s.Keeps f)
    (hc : s.calls[c]? = some (.rebuilding next snapshot)) (hlt : next < snapshot)
    (hevent : s.events[next]? = some event)
    (hheeds : ∀ skillId, s.About next skillId → s.shown skillId ≤ next + 1 ∨
      ∃ n, next < n ∧ n < snapshot ∧ s.About n skillId ∧ s.shown skillId ≤ n + 1) :
    (Skills.read s c next snapshot event).Keeps f := by
  obtain ⟨p, fact, hread, hstored, hfact⟩ := fact_of_valid
    (h.valid event (List.mem_of_getElem? hevent))
  have hstep : Skills.read s c next snapshot event =
      { s.withStage c (.rebuilding (next + 1) snapshot) with
        skills := keepFact s.skills (some fact)
        shown := fun skillId => if fact.skillId = skillId then next + 1 else s.shown skillId } := by
    simp only [Skills.read, hread, hstored, Option.map_some, Option.some.injEq]
  have habout : event.About fact.skillId := by rw [SkillEvent.About, hfact]; rfl
  rw [hstep]
  have hmine : Stage.rebuilding (next + 1) snapshot ∈
      s.calls.set c (.rebuilding (next + 1) snapshot) := mem_set_new hc
  refine ⟨h.numbered, h.valid, fun st hst => ?_, h.settled, fun skillId hshown => ?_,
    fun skillId n hshown => ?_, fun n skillId hseen hn => ?_, fun n hn => ?_, h.looks⟩
  · rcases mem_calls_set hst with rfl | hst
    · exact ⟨hlt, (h.fits _ (List.mem_of_getElem? hc)).2⟩
    · exact h.fits st hst
  · dsimp only at hshown
    split at hshown
    · cases hshown
    · next hne => exact (get_keepFact_of_ne hne).trans (h.cleared skillId hshown)
  · dsimp only at hshown
    split at hshown
    · next heq =>
      subst heq
      obtain rfl := Nat.succ.inj hshown
      refine ⟨event, hevent, ?_⟩
      cases fact with
      | registered skillId' skill =>
        refine .inl ⟨by simp [SkillEvent.registers, hfact, SkillFact.skillId], ?_⟩
        simp [keepFact, SkillFact.skillId]
      | revoked skillId' =>
        refine .inr ⟨by simp [SkillEvent.revokes, hfact, SkillFact.skillId], ?_⟩
        simp [keepFact, SkillFact.skillId, OrderedMap.get_delete]
    · next hne =>
      obtain ⟨e, he, hshows⟩ := h.showing skillId n hshown
      refine ⟨e, he, ?_⟩
      rw [get_keepFact_of_ne hne]
      exact hshows
  · dsimp only
    have hunread : ∀ m, s.Unread m → m ≠ next → Unread { s.withStage c
        (.rebuilding (next + 1) snapshot) with skills := keepFact s.skills (some fact), shown :=
        fun skillId => if fact.skillId = skillId then next + 1 else s.shown skillId } m := by
      rintro m ⟨next', snapshot', hst, hle, hm⟩ hne
      rcases mem_set_of_mem (.rebuilding (next + 1) snapshot) hc hst with heq | hst
      · cases heq
        exact ⟨next + 1, snapshot, hmine, Nat.lt_of_le_of_ne hle (Ne.symm hne), hm⟩
      · exact ⟨next', snapshot', hst, hle, hm⟩
    by_cases hnext : n = next
    · subst hnext
      obtain ⟨e, he, habout'⟩ := hn
      obtain rfl := Option.some.inj (hevent.symm.trans he)
      obtain rfl : fact.skillId = skillId := Option.some.inj (habout.symm.trans habout')
      exact .inl (by simp)
    have hseen' : s.Seen n := by
      rcases hseen with hsettled | ⟨next', snapshot', hst, hlt'⟩
      · exact .inl hsettled
      · rcases mem_calls_set hst with heq | hst
        · cases heq
          exact .inr ⟨next, snapshot, List.mem_of_getElem? hc, by omega⟩
        · exact .inr ⟨next', snapshot', hst, hlt'⟩
    rcases h.seen n skillId hseen' hn with hshown | hun
    · split
      · next heq =>
        subst heq
        by_cases hle : n < next + 1
        · exact .inl hle
        · -- something newer than the event that is read was shown: the rebuild reads on to it
          rcases hheeds fact.skillId ⟨event, hevent, habout⟩ with hold | ⟨m, -, hm, -, hold⟩
          · omega
          · exact .inr ⟨next + 1, snapshot, hmine, by omega, by omega⟩
      · exact .inl hshown
    · exact .inr (hunread n hun hnext)
  · rcases h.coming n hn with hsettled | hin | ⟨next', snapshot', hst, hlt'⟩ | ⟨-, hnone⟩
    · exact .inl hsettled
    · exact .inr (.inl ((mem_set_of_mem _ hc hin).resolve_left (by rintro ⟨⟩)))
    · refine .inr (.inr (.inl ?_))
      rcases mem_set_of_mem (.rebuilding (next + 1) snapshot) hc hst with heq | hst
      · cases heq
        exact ⟨next + 1, snapshot, hmine, hlt'⟩
      · exact ⟨next', snapshot', hst, hlt'⟩
    · exact absurd (List.mem_of_getElem? hc) (hnone next snapshot)

theorem Keeps.finish {next snapshot : ℕ} (h : s.Keeps f)
    (hc : s.calls[c]? = some (.rebuilding next snapshot)) (hge : ¬next < snapshot) :
    Keeps { s.withStage c (.finished none) with settled := max s.settled snapshot } f := by
  have hfits := h.fits _ (List.mem_of_getElem? hc)
  have hkept : ∀ {next' snapshot' m : ℕ}, .rebuilding next' snapshot' ∈ s.calls → next' ≤ m →
      m < snapshot' → .rebuilding next' snapshot' ∈ s.calls.set c (.finished none) := by
    intro next' snapshot' m hst hle hlt
    refine (mem_set_of_mem _ hc hst).resolve_left ?_
    rintro ⟨⟩
    omega
  refine ⟨h.numbered, h.valid, fun st hst => ?_, Nat.max_le.mpr ⟨h.settled, hfits.2⟩, h.cleared,
    h.showing, fun n skillId hseen hn => ?_, fun n hn => ?_, h.looks⟩
  · rcases mem_calls_set hst with rfl | hst
    · trivial
    · exact h.fits st hst
  · have hseen' : s.Seen n := by
      rcases hseen with hsettled | ⟨next', snapshot', hst, hlt⟩
      · replace hsettled : n < max s.settled snapshot := hsettled
        rcases Nat.lt_or_ge n s.settled with hold | hnew
        · exact .inl hold
        · exact .inr ⟨next, snapshot, List.mem_of_getElem? hc, by omega⟩
      · exact .inr ⟨next', snapshot', (mem_calls_set hst).resolve_left (by rintro ⟨⟩), hlt⟩
    refine (h.seen n skillId hseen' hn).imp_right ?_
    rintro ⟨next', snapshot', hst, hle, hlt⟩
    exact ⟨next', snapshot', hkept hst hle hlt, hle, hlt⟩
  · rcases h.coming n hn with hsettled | hin | ⟨next', snapshot', hst, hlt⟩ | ⟨-, hnone⟩
    · exact .inl (hsettled.trans_le (Nat.le_max_left ..))
    · exact .inr (.inl ((mem_set_of_mem _ hc hin).resolve_left (by rintro ⟨⟩)))
    · rcases mem_set_of_mem (.finished none) hc hst with heq | hst
      · cases heq
        exact .inl (hlt.trans_le (Nat.le_max_right ..))
      · exact .inr (.inr (.inl ⟨next', snapshot', hst, hlt⟩))
    · exact absurd (List.mem_of_getElem? hc) (hnone next snapshot)

theorem Keeps.found (h : s.Keeps f) {skillId : String} (hregistered : s.registered skillId)
    (hheeds : ∀ n event, s.events[n]? = some event → SkillEvent.registers skillId event →
      ¬s.Unread n) : s.skills.get skillId ≠ none := by
  obtain ⟨n, hn, hregisters⟩ := List.any_eq_true.mp hregistered
  rw [Bool.and_eq_true] at hregisters
  obtain ⟨hevent, hlater⟩ := hregisters
  cases hget : s.events[n]? with
  | none => simp [hget] at hevent
  | some event =>
    have hregisters : event.registers skillId := by simpa [hget] using hevent
    have hseen : s.Seen n := .inl (List.mem_range.mp hn)
    have hlt := (h.seen n skillId hseen ⟨event, hget, event.about_of_registers hregisters⟩).resolve_right
      (hheeds n event hget hregisters)
    obtain ⟨m, hm⟩ : ∃ m, s.shown skillId = m + 1 := ⟨s.shown skillId - 1, by omega⟩
    obtain ⟨e, he, ⟨-, hfound⟩ | ⟨hrevokes, -⟩⟩ := h.showing skillId m hm
    · exact hfound
    · -- no revocation follows the registration, and none is at its place
      exfalso
      rcases Nat.lt_or_ge n m with hnm | hnm
      · have hmem : e ∈ s.events.drop (n + 1) := by
          refine List.mem_of_getElem? (i := m - (n + 1)) ?_
          rw [List.getElem?_drop, show n + 1 + (m - (n + 1)) = m by omega, he]
        have hnot := List.all_eq_true.mp hlater e hmem
        simp [hrevokes] at hnot
      · obtain rfl : m = n := by omega
        obtain rfl := Option.some.inj (hget.symm.trans he)
        rcases event.about_cases (event.about_of_registers hregisters) with ⟨-, hnot⟩ | ⟨-, hnot⟩
        · rw [hrevokes] at hnot
          cases hnot
        · rw [hregisters] at hnot
          cases hnot

theorem Keeps.get {skillId : String} (h : s.Keeps f)
    (hheeds : ∀ n event, s.events[n]? = some event → SkillEvent.registers skillId event →
      ¬s.Unread n) :
    Keeps { s with looks := s.looks ++
      [⟨skillId, (s.skills.get skillId).isSome, s.registered skillId⟩] } f := by
  refine ⟨h.numbered, h.valid, h.fits, h.settled, h.cleared, h.showing, h.seen, h.coming,
    fun look hlook => ?_⟩
  rcases List.mem_append.mp hlook with hlook | hlook
  · exact h.looks look hlook
  · obtain rfl := List.mem_singleton.mp hlook
    exact fun hregistered => Option.isSome_iff_ne_none.mpr (h.found hregistered hheeds)

theorem Keeps.step (h : s.Keeps f) {i : Input} (hheeds : s.Heeds i)
    (hs : (skillStore f).step s i = some t) : t.Keeps f := by
  cases i with
  | call op now =>
    cases hs
    cases op with
    | register skill =>
      exact h.startStage (fun hissues => SkillRegistered.valid hissues) (by rintro _ _ ⟨⟩)
    | revoke skillId reason =>
      exact h.startStage (fun hissues => SkillRevoked.valid hissues) (by rintro _ _ ⟨⟩)
    | rebuild =>
      refine h.clear rfl (List.mem_append_right _ (List.mem_singleton_self _)) fun st hst => ?_
      exact (List.mem_append.mp hst).symm.imp_left List.mem_singleton.mp
  | resume c now =>
    obtain ⟨stage, hc, hs⟩ := Option.bind_eq_some_iff.mp hs
    have hfits := h.fits stage (List.mem_of_getElem? hc)
    cases stage with
    | latest draft attempt =>
      cases hs
      unfold send
      split
      · next hissues =>
        exact h.restage hc ⟨hfits hissues now, hfits⟩ (by rintro _ _ ⟨⟩) (by rintro ⟨⟩)
          (by rintro _ _ ⟨⟩)
      · exact h.restage hc trivial (by rintro _ _ ⟨⟩) (by rintro ⟨⟩) (by rintro _ _ ⟨⟩)
    | appending draft attempt event n =>
      cases hs
      unfold Skills.land
      split
      · split
        · exact h.restage hc trivial (by rintro _ _ ⟨⟩) (by rintro ⟨⟩) (by rintro _ _ ⟨⟩)
        · exact h.restage hc hfits.2 (by rintro _ _ ⟨⟩) (by rintro ⟨⟩) (by rintro _ _ ⟨⟩)
      · next stream happend =>
        obtain ⟨rfl, rfl⟩ := append_fresh (fun e he => Nat.ne_of_lt (h.numbered e he)) happend
        exact h.land hc
    | appended =>
      cases hs
      refine h.clear rfl (mem_set_new hc) fun st hst => mem_calls_set hst
    | rebuilding next snapshot =>
      simp only [resume] at hs
      split at hs
      · next hlt =>
        obtain ⟨event, hevent, rfl⟩ := Option.map_eq_some_iff.mp hs
        exact h.read hc hlt hevent (hheeds next snapshot hc hlt)
      · next hge =>
        cases hs
        exact h.finish hc hge
    | finished => cases hs
  | fail c =>
    obtain ⟨stage, hc, hs⟩ := Option.bind_eq_some_iff.mp hs
    cases stage with
    | latest | appending =>
      cases hs
      exact h.restage hc trivial (by rintro _ _ ⟨⟩) (by rintro ⟨⟩) (by rintro _ _ ⟨⟩)
    | rebuilding next snapshot => exact absurd hc (hheeds next snapshot)
    | appended | finished => cases hs
  | get skillId =>
    cases hs
    exact h.get hheeds

theorem keeps_initial {events : List SkillEvent} (hvalid : ∀ event ∈ events, event.valid f) :
    (initial events).Keeps f where
  numbered := by
    intro event hevent
    obtain ⟨⟨e, n⟩, hmem, rfl⟩ := List.mem_map.mp hevent
    exact (List.mem_zipIdx hmem).2.1.trans_eq (Nat.zero_add _)
  valid := by
    intro event hevent
    rw [SkillStore.events, initial, List.map_map] at hevent
    obtain ⟨⟨e, n⟩, hmem, rfl⟩ := List.mem_map.mp hevent
    exact hvalid e (List.fst_mem_of_mem_zipIdx hmem)
  fits := by simp [initial]
  settled := Nat.zero_le _
  cleared := fun _ _ => rfl
  showing := by
    intro skillId n hshown
    cases hshown
  seen := by
    rintro n skillId (hsettled | ⟨next, snapshot, hst, -⟩) -
    · exact absurd hsettled (Nat.not_lt_zero n)
    · cases hst
  coming := fun n _ => .inr (.inr (.inr ⟨fun _ => rfl, by simp [initial]⟩))
  looks := by simp [initial]

/-- A revoked skill is gone once nothing is in flight. -/
theorem Keeps.gone (h : s.Keeps f) (hquiet : s.Quiet) {skillId : String}
    (hrevoked : s.Revoked skillId) : s.skills.get skillId = none := by
  obtain ⟨n, event, hevent, hrevokes, hlater⟩ := hrevoked
  have hunread : ¬s.Unread n := by
    rintro ⟨next, snapshot, hst, -⟩
    obtain ⟨error, herror⟩ := hquiet _ hst
    cases herror
  have hlt : n < s.stream.length := by
    have hlt := (List.getElem?_eq_some_iff.mp hevent).1
    rwa [events, List.length_map] at hlt
  rcases h.coming n hlt with hsettled | hin | ⟨next, snapshot, hst, -⟩ | ⟨hnone, -⟩
  · have hshown := (h.seen n skillId (.inl hsettled)
      ⟨event, hevent, event.about_of_revokes hrevokes⟩).resolve_right hunread
    obtain ⟨m, hm⟩ : ∃ m, s.shown skillId = m + 1 := ⟨s.shown skillId - 1, by omega⟩
    obtain ⟨e, he, ⟨hregisters, -⟩ | ⟨-, hgone⟩⟩ := h.showing skillId m hm
    · exfalso
      rcases Nat.lt_or_ge n m with hnm | hnm
      · rw [hlater m e hnm he] at hregisters
        cases hregisters
      · obtain rfl : m = n := by omega
        obtain rfl := Option.some.inj (hevent.symm.trans he)
        rcases event.about_cases (event.about_of_revokes hrevokes) with ⟨-, hnot⟩ | ⟨-, hnot⟩
        · rw [hrevokes] at hnot
          cases hnot
        · rw [hregisters] at hnot
          cases hnot
    · exact hgone
  · obtain ⟨error, herror⟩ := hquiet _ hin
    cases herror
  · obtain ⟨error, herror⟩ := hquiet _ hst
    cases herror
  · exact h.cleared skillId (hnone skillId)

end SkillStore

end

/-- In every undisturbed run on a valid stream, every `get` of a registered skill finds it, and no
revoked skill is left when no call is in flight; and on every valid stream `SkillStore.rebuild` and
`readSkills` yield the same skills. -/
theorem skills_consistent {f : Formats} {events : List SkillEvent}
    (hvalid : ∀ event ∈ events, event.valid f) {s : SkillStore}
    (h : (skillStore f).Reaches SkillStore.Heeds (.initial events) s) :
    (∀ look ∈ s.looks, look.registered → look.found) ∧
    (s.Quiet → ∀ skillId, s.Revoked skillId → s.skills.get skillId = none) ∧
    ∃ skills, rebuildSkills events = some skills ∧
      readSkills events = some (skills.mapValues StoredSkill.live) := by
  have hkeeps : s.Keeps f := h.invariant (P := fun s => s.Keeps f)
    (SkillStore.keeps_initial hvalid) fun _ _ _ hk hg hs => hk.step hg hs
  exact ⟨hkeeps.looks, fun hquiet _ hrevoked => hkeeps.gone hquiet hrevoked,
    rebuildSkills_live hvalid⟩

/-! ### Runs -/

def Stage.isRebuilding : Stage → Bool
  | .rebuilding .. => true
  | _ => false

def Stage.isOver : Stage → Bool
  | .finished _ => true
  | _ => false

def heedsCheck (s : SkillStore) : Input → Bool
  | .resume c _ =>
    match s.calls[c]? with
    | some (.rebuilding next _) => s.events[next]?.elim true fun event =>
        event.fact.elim true fun fact => decide (s.shown fact.skillId ≤ next + 1)
    | _ => true
  | .fail _ => false
  | .get _ => s.calls.all fun stage => !stage.isRebuilding
  | .call .. => true

theorem heeds_of_check (s : SkillStore) (i : Input) (h : heedsCheck s i) : s.Heeds i := by
  cases i with
  | resume c now =>
    rintro next snapshot hc - skillId ⟨event, hevent, habout⟩
    obtain ⟨fact, hfact, rfl⟩ := Option.map_eq_some_iff.mp habout
    simp only [heedsCheck, hc, hevent, hfact, Option.elim_some, decide_eq_true_eq] at h
    exact .inl h
  | fail => cases h
  | get skillId =>
    rintro n event - - ⟨next, snapshot, hst, -⟩
    have hnot := List.all_eq_true.mp h _ hst
    cases hnot
  | call => trivial

def sampleFormats : Formats := ⟨fun _ => true, fun _ => true⟩

def sampleSkill : SkillRegistration where
  skillId := "search"
  name := "search"
  summary := "searches the web"
  instructions := "use the typical input"
  boundToolId := "web_search"
  typicalInput := [("query", .string "bees")]
  origin := ⟨"p", "tool:web_search"⟩

def registeredEvent : SkillEvent :=
  ⟨"skill.registered", (registeredDraft sampleFormats sampleSkill "t").payload, "t"⟩

theorem registeredEvent_valid : ∀ event ∈ [registeredEvent], event.valid sampleFormats :=
  List.forall_mem_singleton.mpr (by decide +kernel)

def goOn (call times : ℕ) : List Input := List.replicate times (.resume call "t")

/-- The stream is read, a skill is registered again, looked up, revoked and looked up. -/
def registerAndRevoke : List Input :=
  [.call .rebuild "t"] ++ goOn 0 2 ++ [.call (.register sampleSkill) "t"] ++ goOn 1 6 ++
    [.get "search", .call (.revoke "search" none) "t"] ++ goOn 2 7 ++ [.get "search"]

theorem skills_consistent_sample : ∃ s,
    (skillStore sampleFormats).Reaches SkillStore.Heeds (.initial [registeredEvent]) s ∧
    s.looks = [⟨"search", true, true⟩, ⟨"search", false, false⟩] ∧
    ∀ look ∈ s.looks, look.registered → look.found := by
  have hrun : ((skillStore sampleFormats).exec (.initial [registeredEvent]) registerAndRevoke).map
      SkillStore.looks = some [⟨"search", true, true⟩, ⟨"search", false, false⟩] := by
    decide +kernel
  have hguard : (skillStore sampleFormats).Guarded SkillStore.Heeds (.initial [registeredEvent])
      registerAndRevoke := Machine.guarded_of_allSteps heeds_of_check _ (by decide +kernel)
  obtain ⟨s, hreaches, hlooks⟩ := hguard.exists_reaches hrun
  exact ⟨s, hreaches, hlooks, (skills_consistent registeredEvent_valid hreaches).1⟩

/-- A rebuild that another one overtakes reads a registration that has been revoked since. -/
def overtaken : List Input :=
  [.call .rebuild "t", .call (.revoke "search" none) "t"] ++ goOn 1 6 ++ goOn 0 2

/-- A `get` while a rebuild has only cleared the map does not find a registered skill, and a rebuild
with an older snapshot brings a revoked skill back. -/
theorem skills_inconsistent :
    (∃ s, (skillStore sampleFormats).Reaches Machine.anyStep (.initial [registeredEvent]) s ∧
      s.looks = [⟨"search", false, true⟩]) ∧
    ∃ s, (skillStore sampleFormats).Reaches Machine.anyStep (.initial [registeredEvent]) s ∧
      s.Quiet ∧ s.Revoked "search" ∧ s.skills.get "search" ≠ none := by
  constructor
  · exact Machine.exists_reaches_of_exec_map
      ([.call .rebuild "t"] ++ goOn 0 2 ++ [.call .rebuild "t", .get "search"]) (by decide +kernel)
  · have hrun : ((skillStore sampleFormats).exec (.initial [registeredEvent]) overtaken).map
        (fun s => (s.calls.all Stage.isOver,
          s.events.map fun event => (event.registers "search", event.revokes "search"),
          (s.skills.get "search").isSome)) =
        some (true, [(true, false), (false, true)], true) := by decide +kernel
    obtain ⟨s, hreaches, hs⟩ := Machine.exists_reaches_of_exec_map _ hrun
    simp only [Prod.mk.injEq] at hs
    obtain ⟨hover, hevents, hfound⟩ := hs
    refine ⟨s, hreaches, fun stage hstage => ?_, ?_, Option.isSome_iff_ne_none.mp hfound⟩
    · have hover := List.all_eq_true.mp hover stage hstage
      cases stage with
      | finished error => exact ⟨error, rfl⟩
      | latest | appending | appended | rebuilding => cases hover
    · obtain ⟨first, rest, hfirst, -, hrest⟩ := List.map_eq_cons_iff.mp hevents
      obtain ⟨second, rest, rfl, hsecond, hnil⟩ := List.map_eq_cons_iff.mp hrest
      obtain rfl := List.map_eq_nil_iff.mp hnil
      refine ⟨1, second, by rw [hfirst]; rfl, (Prod.mk.inj hsecond).2, fun m later hm hget => ?_⟩
      have hlt := (List.getElem?_eq_some_iff.mp hget).1
      rw [hfirst] at hlt
      exact absurd hlt (Nat.not_lt.mpr hm)

end BeeAgent.Skills
