import BeeAgent.Memory.Rebuild

/-! A claim that was forgotten is shown no more and does not become active again, unless a look or
a failure comes between the rebuild's reading of its record and of its retraction. -/
namespace BeeAgent.Memory
open Data Chronicle Transition

/-! ### The status of a claim -/

namespace Projection

def statusOf (p : Projection) (id : String) : Option MemoryClaimStatus :=
  (p.claims.get id).map MemoryClaim.status

def Keyed (p : Projection) : Prop := ∀ id claim, p.claims.get id = some claim → claim.id = id

variable {o : EmbeddedMemoryOptions} {p : Projection} {event : MemoryEvent} {id : String}

theorem replay_superseded_none {claimId supersededBy : String} {reason : Option String}
    (h : p.statusOf claimId ≠ some .active) :
    p.replay o (.claimSuperseded claimId supersededBy reason) = p := by
  rcases Option.eq_none_or_eq_some (p.claims.get claimId) with hclaim | ⟨claim, hclaim⟩
  · simp [replay, fold, hclaim]
  · have hactive : claim.status ≠ .active := fun hactive => h (by simp [statusOf, hclaim, hactive])
    simp [replay, fold, hclaim, hactive]

theorem replay_superseded {claimId supersededBy : String} {reason : Option String}
    {claim : MemoryClaim} (hclaim : p.claims.get claimId = some claim)
    (hactive : claim.status = .active) :
    p.replay o (.claimSuperseded claimId supersededBy reason) =
      { p with claims := p.claims.set claimId { claim with status := .superseded } } := by
  simp [replay, fold, hclaim, hactive]

theorem replay_retracted_none {claimId : String} {reason : Option String}
    (hclaim : p.claims.get claimId = none) : p.replay o (.claimRetracted claimId reason) = p := by
  simp [replay, fold, hclaim]

theorem replay_retracted {claimId : String} {reason : Option String} {claim : MemoryClaim}
    (hclaim : p.claims.get claimId = some claim) :
    p.replay o (.claimRetracted claimId reason) =
      { p with claims := p.claims.set claimId { claim with status := .retracted } } := by
  simp [replay, fold, hclaim]

theorem statusOf_set {q : Projection} {key : String} {claim : MemoryClaim}
    (h : q.claims = p.claims.set key claim) :
    q.statusOf id = if key = id then some claim.status else p.statusOf id := by
  rw [statusOf, h, OrderedMap.get_set]
  by_cases hid : key = id
  · simp [hid]
  · rw [if_neg (Ne.symm hid), if_neg hid]
    rfl

theorem statusOf_replay : (p.replay o event).statusOf id =
    match event with
    | .claimRecorded claim => if claim.id = id then some claim.status else p.statusOf id
    | .claimSuperseded claimId _ _ =>
      if claimId = id ∧ p.statusOf id = some .active then some .superseded else p.statusOf id
    | .claimRetracted claimId _ =>
      if claimId = id then (p.statusOf id).map fun _ => .retracted else p.statusOf id
    | _ => p.statusOf id := by
  cases event with
  | claimRecorded claim => exact statusOf_set rfl
  | claimSuperseded claimId supersededBy reason =>
    by_cases hstatus : p.statusOf claimId = some .active
    · obtain ⟨claim, hclaim, hactive⟩ := Option.map_eq_some_iff.mp hstatus
      rw [replay_superseded hclaim hactive, statusOf_set rfl]
      by_cases hid : claimId = id
      · subst hid
        simp [hstatus]
      · simp [hid]
    · rw [replay_superseded_none hstatus]
      refine (if_neg ?_).symm
      rintro ⟨rfl, hactive⟩
      exact hstatus hactive
  | claimRetracted claimId reason =>
    rcases Option.eq_none_or_eq_some (p.claims.get claimId) with hclaim | ⟨claim, hclaim⟩
    · rw [replay_retracted_none hclaim]
      by_cases hid : claimId = id
      · subst hid
        simp [statusOf, hclaim]
      · simp [hid]
    · rw [replay_retracted hclaim, statusOf_set rfl]
      by_cases hid : claimId = id
      · subst hid
        simp [statusOf, hclaim]
      · simp [hid]
  | observationRecorded | consolidationCompleted | healthChanged => rfl

theorem keyed_set {q : Projection} {key : String} {claim : MemoryClaim} (h : p.Keyed)
    (hkey : claim.id = key) (hclaims : q.claims = p.claims.set key claim) : q.Keyed := by
  intro id claim' hget
  rw [hclaims, OrderedMap.get_set] at hget
  split at hget
  · next hid =>
    cases hget
    rw [hkey, hid]
  · exact h id claim' hget

theorem keyed_replay (h : p.Keyed) : (p.replay o event).Keyed := by
  cases event with
  | claimRecorded claim => exact keyed_set h rfl rfl
  | claimSuperseded claimId supersededBy reason =>
    by_cases hstatus : p.statusOf claimId = some .active
    · obtain ⟨claim, hclaim, hactive⟩ := Option.map_eq_some_iff.mp hstatus
      rw [replay_superseded hclaim hactive]
      refine keyed_set h ?_ rfl
      exact h claimId claim hclaim
    · rwa [replay_superseded_none hstatus]
  | claimRetracted claimId reason =>
    rcases Option.eq_none_or_eq_some (p.claims.get claimId) with hclaim | ⟨claim, hclaim⟩
    · rwa [replay_retracted_none hclaim]
    · rw [replay_retracted hclaim]
      refine keyed_set h ?_ rfl
      exact h claimId claim hclaim
  | observationRecorded | consolidationCompleted | healthChanged => exact h

theorem values_ids (h : p.Keyed) : p.claims.values.map (·.id) = p.claims.keys := by
  rw [OrderedMap.values, OrderedMap.keys, List.map_map]
  exact List.map_congr_left fun e he => h e.1 e.2 (OrderedMap.mem_entries_iff.mp he)

/-- A retracted claim stays so until it is recorded again. -/
theorem retracted_replay (h : p.statusOf id = some .retracted) (hno : event.records id = false) :
    (p.replay o event).statusOf id = some .retracted := by
  rw [statusOf_replay]
  cases event with
  | claimRecorded claim => simp_all [MemoryEvent.records]
  | claimSuperseded | claimRetracted => simp [h]
  | observationRecorded | consolidationCompleted | healthChanged => exact h

theorem retracted_of_retracts (h : p.statusOf id ≠ none) (hretracts : event.retracts id) :
    (p.replay o event).statusOf id = some .retracted := by
  obtain ⟨status, hstatus⟩ := Option.ne_none_iff_exists'.mp h
  rw [statusOf_replay]
  cases event with
  | claimRetracted claimId reason => simp_all [MemoryEvent.retracts]
  | claimRecorded | claimSuperseded | observationRecorded | consolidationCompleted
  | healthChanged => cases hretracts

theorem held_of_replay (h : (p.replay o event).statusOf id ≠ none) :
    event.records id ∨ p.statusOf id ≠ none := by
  rw [statusOf_replay] at h
  cases event with
  | claimRecorded claim => by_cases hid : claim.id = id <;> simp_all [MemoryEvent.records]
  | claimSuperseded claimId =>
    dsimp only at h
    split at h
    · next hactive => exact .inr (by simp [hactive.2])
    · exact .inr h
  | claimRetracted claimId =>
    dsimp only at h
    split at h
    · exact .inr fun hnone => h (by simp [hnone])
    · exact .inr h
  | observationRecorded | consolidationCompleted | healthChanged => exact .inr h

theorem held_replay (h : event.records id ∨ p.statusOf id ≠ none) :
    (p.replay o event).statusOf id ≠ none := by
  rw [statusOf_replay]
  cases event with
  | claimRecorded claim => by_cases hid : claim.id = id <;> simp_all [MemoryEvent.records]
  | claimSuperseded | claimRetracted =>
    have hheld := h.resolve_left (by simp [MemoryEvent.records])
    dsimp only
    split <;> simp [hheld]
  | observationRecorded | consolidationCompleted | healthChanged =>
    exact h.resolve_left (by simp [MemoryEvent.records])

theorem active_of_replay (h : (p.replay o event).statusOf id = some .active) :
    event.records id ∨ p.statusOf id = some .active := by
  rw [statusOf_replay] at h
  cases event with
  | claimRecorded claim => by_cases hid : claim.id = id <;> simp_all [MemoryEvent.records]
  | claimSuperseded | claimRetracted =>
    dsimp only at h
    split at h
    · simp at h
    · exact .inr h
  | observationRecorded | consolidationCompleted | healthChanged => exact .inr h

variable {events : List MemoryEvent}

theorem retracted_foldl (h : p.statusOf id = some .retracted)
    (hno : ∀ event ∈ events, event.records id = false) :
    (events.foldl (replay o) p).statusOf id = some .retracted := by
  induction events generalizing p with
  | nil => exact h
  | cons event events ih =>
    exact ih (retracted_replay h (hno event (List.mem_cons_self ..)))
      fun e he => hno e (List.mem_cons_of_mem _ he)

theorem held_of_foldl (h : (events.foldl (replay o) p).statusOf id ≠ none) :
    (∃ event ∈ events, event.records id) ∨ p.statusOf id ≠ none := by
  induction events generalizing p with
  | nil => exact .inr h
  | cons event events ih =>
    rcases ih h with ⟨e, he, hrecords⟩ | hheld
    · exact .inl ⟨e, List.mem_cons_of_mem _ he, hrecords⟩
    · exact (held_of_replay hheld).imp_left fun hrecords =>
        ⟨event, List.mem_cons_self .., hrecords⟩

theorem held_foldl (h : (∃ event ∈ events, event.records id) ∨ p.statusOf id ≠ none) :
    (events.foldl (replay o) p).statusOf id ≠ none := by
  induction events generalizing p with
  | nil => exact h.resolve_left (by simp)
  | cons event events ih =>
    refine ih ?_
    rcases h with ⟨e, he, hrecords⟩ | hheld
    · rcases List.mem_cons.mp he with rfl | he
      · exact .inr (held_replay (.inl hrecords))
      · exact .inl ⟨e, he, hrecords⟩
    · exact .inr (held_replay (.inr hheld))

theorem active_of_foldl (h : (events.foldl (replay o) p).statusOf id = some .active) :
    (∃ event ∈ events, event.records id) ∨ p.statusOf id = some .active := by
  induction events generalizing p with
  | nil => exact .inr h
  | cons event events ih =>
    rcases ih h with ⟨e, he, hrecords⟩ | hactive
    · exact .inl ⟨e, List.mem_cons_of_mem _ he, hrecords⟩
    · exact (active_of_replay hactive).imp_left fun hrecords =>
        ⟨event, List.mem_cons_self .., hrecords⟩

theorem keyed_foldl (h : p.Keyed) : (events.foldl (replay o) p).Keyed := by
  induction events generalizing p with
  | nil => exact h
  | cons event events ih => exact ih (keyed_replay h)

end Projection

/-! ### What queries show -/

section Query
variable {o : EmbeddedMemoryOptions} {p : Projection}

theorem mem_of_mem_slice {α : Type} {xs : List α} {limit : ℤ} {x : α} (h : x ∈ slice xs limit) :
    x ∈ xs := by
  unfold slice at h
  split at h <;> exact List.mem_of_mem_take h

theorem mem_sortBy {α : Type} {compare : α → α → Ordering} {xs : List α} {x : α} :
    x ∈ sortBy compare xs ↔ x ∈ xs := List.mem_insertionSort _

theorem Projection.active_of_query {query : MemoryQuery} {clock : String} {claim : MemoryClaim}
    (h : claim ∈ p.query o query clock) : claim ∈ p.active := by
  have heligible : claim ∈ p.eligible query (query.now.getD clock) := by
    unfold Projection.query at h
    dsimp only at h
    split at h
    · exact mem_sortBy.mp (mem_of_mem_slice h)
    · obtain ⟨entry, hentry, rfl⟩ := List.mem_map.mp h
      have hscored := (List.mem_filter.mp (mem_sortBy.mp (mem_of_mem_slice hentry))).1
      obtain ⟨claim, hclaim, rfl⟩ := List.mem_map.mp hscored
      exact hclaim
  obtain ⟨hvalues, hall⟩ := List.mem_filter.mp heligible
  simp only [Bool.and_eq_true] at hall
  exact List.mem_filter.mpr ⟨hvalues, hall.1.1.1⟩

theorem Projection.active_of_assembly {budgetTokens : ℤ} (claims : List MemoryClaim)
    (a : Projection.Assembly) : ∀ id ∈ (claims.foldl (Projection.Assembly.add budgetTokens) a).claimIds,
      id ∈ a.claimIds ∨ ∃ claim ∈ claims, claim.id = id := by
  induction claims generalizing a with
  | nil => exact fun id h => .inl h
  | cons claim claims ih =>
    intro id h
    rcases ih _ id h with h | ⟨claim', hclaim', rfl⟩
    · unfold Projection.Assembly.add at h
      dsimp only at h
      split at h
      · exact .inl h
      · rcases List.mem_append.mp h with h | h
        · exact .inl h
        · exact .inr ⟨claim, List.mem_cons_self .., (List.mem_singleton.mp h).symm⟩
    · exact .inr ⟨claim', List.mem_cons_of_mem _ hclaim', rfl⟩

theorem Projection.active_of_buildContext {input : MemoryQuery} {budgetTokens : ℤ} {clock id : String}
    (h : id ∈ (p.buildContext o input budgetTokens clock).claimIds) :
    ∃ claim ∈ p.active, claim.id = id := by
  rcases Projection.active_of_assembly _ _ id h with h | ⟨claim, hclaim, rfl⟩
  · cases h
  · exact ⟨claim, active_of_query hclaim, rfl⟩

theorem Projection.statusOf_active (hkeyed : p.Keyed) {claim : MemoryClaim}
    (h : claim ∈ p.active) : p.statusOf claim.id = some .active := by
  obtain ⟨hvalues, hactive⟩ := List.mem_filter.mp h
  obtain ⟨key, hget⟩ := OrderedMap.mem_values_iff.mp hvalues
  rw [hkeyed key claim hget, Projection.statusOf, hget]
  simpa using hactive

end Query

/-! ### Streams in which a claim is closed -/

def facts (events : List MemoryEvent) : List MemoryEvent :=
  events.filter fun event => !event.isHealth

/-- Behind every record of the claim comes a retraction of it. -/
def Closed (id : String) (events : List MemoryEvent) : Prop :=
  ∀ suffix, suffix <:+ events → (∃ event ∈ suffix, event.records id) →
    ∃ event ∈ suffix, event.retracts id

theorem Closed.append {id : String} {events more : List MemoryEvent} (h : Closed id events)
    (hno : ∀ event ∈ more, event.records id = false) : Closed id (events ++ more) := by
  rintro suffix ⟨before, hsuffix⟩ ⟨event, hevent, hrecords⟩
  have hmore : ∀ e ∈ more, ¬e.records id := fun e he => by simp [hno e he]
  rcases List.suffix_or_suffix_of_suffix ⟨before, hsuffix⟩ (List.suffix_append events more) with
    hin | ⟨front, rfl⟩
  · exact absurd hrecords (hmore event (hin.subset hevent))
  · rw [← List.append_assoc] at hsuffix
    have hfront : front <:+ events := ⟨before, List.append_cancel_right hsuffix⟩
    have hevent := (List.mem_append.mp hevent).resolve_right fun he => hmore event he hrecords
    obtain ⟨e, he, hretracts⟩ := h front hfront ⟨event, hevent, hrecords⟩
    exact ⟨e, List.mem_append_left _ he, hretracts⟩

theorem closed_retracted {id : String} {events : List MemoryEvent} {event : MemoryEvent}
    (h : event.retracts id) : Closed id (events ++ [event]) := by
  rintro suffix hsuffix ⟨e, he, -⟩
  refine ⟨event, ?_, h⟩
  rcases List.suffix_concat_iff.mp hsuffix with rfl | ⟨front, rfl, -⟩
  · cases he
  · simp

theorem fact_of_retracts {event : MemoryEvent} {id : String} (h : event.retracts id) :
    event.isHealth = false := by
  cases event with
  | claimRetracted => rfl
  | claimRecorded | claimSuperseded | observationRecorded | consolidationCompleted
  | healthChanged => cases h

theorem mem_facts {event : MemoryEvent} {events : List MemoryEvent} :
    event ∈ facts events ↔ event ∈ events ∧ event.isHealth = false := by
  simp [facts]

theorem facts_append (events more : List MemoryEvent) :
    facts (events ++ more) = facts events ++ facts more := List.filter_append ..

theorem facts_eq {events : List MemoryEvent} (h : ∀ event ∈ events, event.isHealth = false) :
    facts events = events := List.filter_eq_self.mpr (by simpa using h)

theorem facts_health {events : List MemoryEvent} (h : ∀ event ∈ events, event.isHealth = true) :
    facts events = [] := List.filter_eq_nil_iff.mpr (by simpa using h)

/-! ### Runs -/

theorem mem_claimIds {event : MemoryEvent} {id : String}
    (h : event.records id ∨ event.retracts id) : id ∈ event.claimIds := by
  cases event with
  | claimRecorded claim =>
    obtain rfl : claim.id = id := of_decide_eq_true (h.resolve_right (by simp [MemoryEvent.retracts]))
    exact List.mem_singleton_self _
  | claimRetracted claimId =>
    obtain rfl : claimId = id := of_decide_eq_true (h.resolve_left (by simp [MemoryEvent.records]))
    exact List.mem_singleton_self _
  | claimSuperseded | observationRecorded | consolidationCompleted | healthChanged =>
    simp [MemoryEvent.records, MemoryEvent.retracts] at h

namespace World

/-- The projection holds as active a claim whose retraction is in the stream and not yet read. -/
def Behind (w : World) : Prop :=
  ∃ id, w.projection.statusOf id = some .active ∧ ∃ event ∈ w.unread, event.retracts id

/-- Nobody looks while the projection is behind, no rebuild stops there, and no candidate carries
the id of a claim that the projection has lost and whose retraction it has not read. -/
def Heeds (w : World) : Input → Prop
  | .query .. | .buildContext .. => ¬w.Behind
  | .read fails =>
    (fails = true ∨ ∃ event unread, w.unread = event :: unread ∧ event.isHealth = true) → ¬w.Behind
  | .ingest input _ _ => ∀ candidate ∈ input.claims, ∀ id, candidate.id = some id →
    w.projection.statusOf id = none → ∀ event ∈ w.unread, event.retracts id = false
  | _ => True

/-- A claim whose retraction has succeeded. -/
structure Forgotten (w : World) (id : String) : Prop where
  recorded : ∃ event ∈ facts w.payloads, event.records id
  closed : Closed id (facts w.payloads)
  read : (∃ event ∈ w.unread, event.retracts id) ∨ w.projection.statusOf id = some .retracted

/-- The events of an operation record no claim that was forgotten or whose retraction is unread. -/
structure Clean (w : World) (operation : Operation) (events : List MemoryEvent) : Prop where
  new : ∀ event ∈ events, ∀ id, event.records id →
    id ∉ w.forgotten ∧ ∀ e ∈ w.unread, e.retracts id = false
  retract : ∀ id, operation = .retract id →
    (∃ event, events = [event] ∧ event.retracts id) ∧ w.projection.statusOf id ≠ none

structure Keeps (o : EmbeddedMemoryOptions) (w : World) : Prop where
  numbered : w.Numbered
  separate : w.Separate
  keyed : w.projection.Keyed
  held : ∀ id, w.projection.statusOf id ≠ none → ∃ event ∈ facts w.payloads, event.records id
  unread : w.unread ⊆ w.payloads
  forgotten : ∀ id ∈ w.forgotten, w.Forgotten id
  caughtUp : w.phase ≠ .rebuilding → ¬w.Behind
  reading : w.phase = .rebuilding → ∃ read, facts w.payloads = read ++ facts w.unread ∧
    w.projection = replayAll o read
  appending : ∀ operation a, w.phase = .appending operation a →
    w.Clean operation (a.events.map ChronicleEvent.payload)
  appended : ∀ operation events, w.phase = .appended operation events →
    w.Clean operation events ∧ events ⊆ facts w.payloads ∧
      ∀ id, operation = .retract id → Closed id (facts w.payloads)
  looks : ∀ look ∈ w.looks, ∀ id ∈ look.shown, id ∉ look.forgotten

variable {o : EmbeddedMemoryOptions} {r : RemoteMemoryOptions} {w w' : World}

theorem Forgotten.congr {id : String} (h : w.Forgotten id) (hpayloads : facts w'.payloads = facts w.payloads)
    (hunread : ∀ event ∈ w.unread, event.isHealth = false → event ∈ w'.unread)
    (hprojection : w'.projection = w.projection) : w'.Forgotten id := by
  refine ⟨hpayloads ▸ h.recorded, hpayloads ▸ h.closed, ?_⟩
  rw [hprojection]
  exact h.read.imp_left fun ⟨e, he, hretracts⟩ =>
    ⟨e, hunread e he (fact_of_retracts hretracts), hretracts⟩

/-- A call of ingest records no claim that was forgotten or whose retraction is unread. -/
theorem Keeps.clean {i : Input} {operation : Operation} {events : List MemoryEvent}
    (h : w.Keeps o) (hheeds : w.Heeds i) (hstarts : Starts o w i operation events) :
    w.Clean operation events := by
  have hnone : ∀ (candidates : List NewMemoryClaimInput) (ids : ℕ → String) (event : MemoryEvent),
      CallEvent w.projection candidates ids event → ∀ id, event.records id →
      (∀ candidate ∈ candidates, ∀ id, candidate.id = some id →
        w.projection.statusOf id = none → ∀ e ∈ w.unread, e.retracts id = false) →
      (∀ n < candidates.length, ∀ e ∈ w.payloads, ids n ∉ e.claimIds) →
      id ∉ w.forgotten ∧ ∀ e ∈ w.unread, e.retracts id = false := by
    intro candidates ids event hevent id hrecords hgiven hdrawn
    rcases hevent.recorded id hrecords with ⟨hget, candidate, hcandidate, hid⟩ | ⟨n, hn, rfl⟩
    · have hstatus : w.projection.statusOf id = none := by rw [Projection.statusOf, hget]; rfl
      have hunread := hgiven candidate hcandidate id hid hstatus
      refine ⟨fun hforgotten => ?_, hunread⟩
      rcases (h.forgotten id hforgotten).read with ⟨e, he, hretracts⟩ | hretracted
      · rw [hunread e he] at hretracts
        cases hretracts
      · rw [hstatus] at hretracted
        cases hretracted
    · have hfresh := hdrawn n hn
      constructor
      · intro hforgotten
        obtain ⟨e, he, hrecorded⟩ := (h.forgotten _ hforgotten).recorded
        exact hfresh e (mem_facts.mp he).1 (mem_claimIds (.inl hrecorded))
      · intro e he
        by_contra hretracts
        exact hfresh e (h.unread he) (mem_claimIds (.inr (by simpa using hretracts)))
  cases hstarts with
  | ingest hfresh hresult =>
    refine ⟨fun event hevent id hrecords => ?_, by simp⟩
    exact hnone _ _ event (ingestNow_events hresult event hevent) id hrecords hheeds hfresh
  | consolidate hresult =>
    refine ⟨fun event hevent id hrecords => ?_, by simp⟩
    exact hnone [] _ event (consolidateNow_events hresult event hevent) id hrecords (by simp) (by simp)
  | @retract claimId reason claim hclaim =>
    refine ⟨fun event hevent id hrecords => ?_, fun id heq => ?_⟩
    · rw [List.mem_singleton.mp hevent] at hrecords
      cases hrecords
    · cases heq
      exact ⟨⟨_, rfl, by simp [MemoryEvent.retracts]⟩, by simp [Projection.statusOf, hclaim]⟩

theorem Clean.congr {operation : Operation} {events : List MemoryEvent}
    (h : w.Clean operation events) (hforgotten : w'.forgotten = w.forgotten)
    (hunread : ∀ event ∈ w'.unread, event.isHealth = false → event ∈ w.unread)
    (hprojection : w'.projection = w.projection) : w'.Clean operation events := by
  refine ⟨fun event hevent id hrecords => ?_, fun id heq => ?_⟩
  · obtain ⟨hnew, hno⟩ := h.new event hevent id hrecords
    refine ⟨hforgotten ▸ hnew, fun e he => ?_⟩
    by_contra hretracts
    exact hretracts (hno e (hunread e he (fact_of_retracts (by simpa using hretracts))))
  · rw [hprojection]
    exact h.retract id heq

theorem Keeps.still (h : w.Keeps o) (hnumbered : w'.Numbered) (hseparate : w'.Separate)
    (hstream : w'.stream = w.stream) (hprojection : w'.projection = w.projection)
    (hunread : w'.unread = w.unread) (hforgotten : w'.forgotten = w.forgotten)
    (hcaughtUp : w'.phase ≠ .rebuilding → ¬w.Behind)
    (hreading : w'.phase = .rebuilding → w.phase = .rebuilding)
    (happending : ∀ operation a, w'.phase = .appending operation a →
      w.Clean operation (a.events.map ChronicleEvent.payload))
    (happended : ∀ operation events, w'.phase = .appended operation events →
      w.phase = .appended operation events)
    (hlooks : ∀ look ∈ w'.looks, ∀ id ∈ look.shown, id ∉ look.forgotten) : w'.Keeps o := by
  have hpayloads : w'.payloads = w.payloads := congrArg (List.map ChronicleEvent.payload) hstream
  have hbehind : w'.Behind ↔ w.Behind := by rw [Behind, Behind, hprojection, hunread]
  have hclean : ∀ operation events, w.Clean operation events → w'.Clean operation events :=
    fun operation events hc => hc.congr hforgotten (hunread ▸ fun _ he _ => he) hprojection
  refine ⟨hnumbered, hseparate, hprojection ▸ h.keyed, ?_, ?_, ?_, ?_, ?_, ?_, ?_, hlooks⟩
  · rw [hprojection, hpayloads]
    exact h.held
  · rw [hpayloads, hunread]
    exact h.unread
  · rw [hforgotten]
    exact fun id hid => (h.forgotten id hid).congr (by rw [hpayloads])
      (hunread ▸ fun _ he _ => he) hprojection
  · exact fun hphase => fun hb => hcaughtUp hphase (hbehind.mp hb)
  · rw [hpayloads, hunread, hprojection]
    exact fun hphase => h.reading (hreading hphase)
  · exact fun operation a hphase => hclean _ _ (happending operation a hphase)
  · intro operation events hphase
    obtain ⟨hc, hsub, hclosed⟩ := h.appended operation events (happended operation events hphase)
    rw [hpayloads]
    exact ⟨hclean _ _ hc, hsub, hclosed⟩

theorem Keeps.looked (h : w.Keeps o) (hbehind : ¬w.Behind) {shown : List String}
    (hshown : ∀ id ∈ shown, w.projection.statusOf id = some .active) :
    ∀ look ∈ (w.look shown).looks, ∀ id ∈ look.shown, id ∉ look.forgotten := by
  intro look hlook id hid hforgotten
  rcases List.mem_cons.mp hlook with rfl | hlook
  · rcases (h.forgotten id hforgotten).read with hunread | hretracted
    · exact hbehind ⟨id, hshown id hid, hunread⟩
    · rw [hshown id hid] at hretracted
      cases hretracted
  · exact h.looks look hlook id hid hforgotten

theorem Keeps.write {operation : Operation} {a : Appending} (h : w.Keeps o)
    (hphase : w.phase = .appending operation a)
    (hw' : w' = { w with
      stream := w.stream ++ a.events
      phase := .appended operation (a.events.map ChronicleEvent.payload) })
    (hnumbered : w'.Numbered) (hseparate : w'.Separate) : w'.Keeps o := by
  subst hw'
  have hclean := h.appending _ _ hphase
  have hown : ∀ event ∈ a.events.map ChronicleEvent.payload, event.isHealth = false := by
    intro event hevent
    obtain ⟨e, he, rfl⟩ := List.mem_map.mp hevent
    exact h.separate.operation _ _ hphase e he
  have hfacts : facts ((w.stream ++ a.events).map ChronicleEvent.payload) =
      facts w.payloads ++ a.events.map ChronicleEvent.payload := by
    rw [List.map_append, facts_append, facts_eq hown]
    rfl
  have hsub : facts w.payloads ⊆ facts ((w.stream ++ a.events).map ChronicleEvent.payload) := by
    rw [hfacts]
    exact List.subset_append_left ..
  have hrecorded : ∀ {id : String}, (∃ event ∈ facts w.payloads, event.records id) →
      ∃ event ∈ facts ((w.stream ++ a.events).map ChronicleEvent.payload), event.records id :=
    fun ⟨event, hevent, hrecords⟩ => ⟨event, hsub hevent, hrecords⟩
  refine ⟨hnumbered, hseparate, h.keyed, fun id hid => hrecorded (h.held id hid),
    fun event he => ?_, fun id hid => ?_, fun _ => h.caughtUp (by simp [hphase]), by simp, by simp,
    fun _ _ heq => ?_, h.looks⟩
  · rw [payloads, List.map_append]
    exact List.mem_append_left _ (h.unread he)
  · refine ⟨hrecorded (h.forgotten id hid).recorded, ?_, (h.forgotten id hid).read⟩
    rw [payloads, hfacts]
    refine (h.forgotten id hid).closed.append fun event hevent => ?_
    by_contra hrecords
    exact (hclean.new event hevent id (by simpa using hrecords)).1 hid
  · cases heq
    refine ⟨hclean.congr rfl (fun _ he _ => he) rfl, ?_, fun id hid => ?_⟩
    · rw [payloads, hfacts]
      exact List.subset_append_right ..
    · obtain ⟨event, hevents, hretracts⟩ := (hclean.retract id hid).1
      rw [payloads, hfacts, hevents]
      exact closed_retracted hretracts

theorem Keeps.apply {operation : Operation} {events : List MemoryEvent} (h : w.Keeps o)
    (hphase : w.phase = .appended operation events) (hnumbered : (w.apply o operation events).Numbered)
    (hseparate : (w.apply o operation events).Separate) : (w.apply o operation events).Keeps o := by
  obtain ⟨hclean, hsub, hclosed⟩ := h.appended _ _ hphase
  rw [apply_eq (h.separate.appended _ _ hphase)] at hnumbered hseparate ⊢
  obtain ⟨forgotten, heq, hforgotten⟩ := forget_eq (w := { w with
    projection := events.foldl (Projection.replay o) w.projection, phase := .idle }) operation
  rw [heq] at hnumbered hseparate ⊢
  have hread : ∀ id ∈ w.forgotten, (∃ event ∈ w.unread, event.retracts id) ∨
      (events.foldl (Projection.replay o) w.projection).statusOf id = some .retracted := by
    intro id hid
    refine (h.forgotten id hid).read.imp_right fun hretracted =>
      Projection.retracted_foldl hretracted fun event hevent => ?_
    by_contra hrecords
    exact (hclean.new event hevent id (by simpa using hrecords)).1 hid
  refine ⟨hnumbered, hseparate, Projection.keyed_foldl h.keyed, fun id hid => ?_, h.unread,
    fun id hid => ?_, fun _ => ?_, by simp, by simp, by simp, h.looks⟩
  · rcases Projection.held_of_foldl hid with ⟨event, hevent, hrecords⟩ | hheld
    · exact ⟨event, hsub hevent, hrecords⟩
    · exact h.held id hheld
  · have hold : ∀ id ∈ w.forgotten, Forgotten { w with
        projection := events.foldl (Projection.replay o) w.projection, phase := .idle, forgotten } id :=
      fun id hid => ⟨(h.forgotten id hid).recorded, (h.forgotten id hid).closed, hread id hid⟩
    rcases hforgotten with rfl | ⟨claimId, rfl, rfl⟩
    · exact hold id hid
    · rcases List.mem_cons.mp hid with rfl | hid
      · obtain ⟨⟨event, rfl, hretracts⟩, hheld⟩ := hclean.retract _ rfl
        exact ⟨h.held _ hheld, hclosed _ rfl,
          .inr (Projection.retracted_of_retracts hheld hretracts)⟩
      · exact hold id hid
  · rintro ⟨id, hactive, event, hevent, hretracts⟩
    rcases Projection.active_of_foldl hactive with ⟨e, he, hrecords⟩ | hactive
    · rw [(hclean.new e he id hrecords).2 event hevent] at hretracts
      cases hretracts
    · exact h.caughtUp (by simp [hphase]) ⟨id, hactive, event, hevent, hretracts⟩

theorem Keeps.read {event : MemoryEvent} {unread : List MemoryEvent} (h : w.Keeps o)
    (hphase : w.phase = .rebuilding) (hunread : w.unread = event :: unread)
    (hfact : event.isHealth = false)
    (hw' : w' = { w with projection := w.projection.replay o event, unread })
    (hnumbered : w'.Numbered) (hseparate : w'.Separate) : w'.Keeps o := by
  subst hw'
  obtain ⟨read, hpayloads, hprojection⟩ := h.reading hphase
  have hfacts : facts (event :: unread) = event :: facts unread :=
    List.filter_cons_of_pos (by simp [hfact])
  rw [hunread, hfacts] at hpayloads
  have hevent : event ∈ facts w.payloads := by
    rw [hpayloads]
    exact List.mem_append_right _ (List.mem_cons_self ..)
  refine ⟨hnumbered, hseparate, Projection.keyed_replay h.keyed, fun id hid => ?_, ?_,
    fun id hid => ?_, fun hne => absurd hphase hne, fun _ => ⟨read ++ [event], ?_, ?_⟩,
    by simp [hphase], by simp [hphase], h.looks⟩
  · rcases Projection.held_of_replay hid with hrecords | hheld
    · exact ⟨event, hevent, hrecords⟩
    · exact h.held id hheld
  · exact fun e he => h.unread (hunread ▸ List.mem_cons_of_mem _ he)
  · obtain ⟨hrecorded, hclosed, hread⟩ := h.forgotten id hid
    refine ⟨hrecorded, hclosed, ?_⟩
    by_cases hlater : ∃ e ∈ unread, e.retracts id
    · exact .inl hlater
    -- nothing behind records the claim: a retraction would have to follow
    have hno : ∀ e ∈ event :: facts unread, e.records id → event.retracts id := by
      intro e he hrecords
      have hsuffix : event :: facts unread <:+ facts w.payloads := hpayloads ▸ List.suffix_append ..
      obtain ⟨e', he', hretracts⟩ := hclosed _ hsuffix ⟨e, he, hrecords⟩
      rcases List.mem_cons.mp he' with rfl | he'
      · exact hretracts
      · exact absurd ⟨e', (mem_facts.mp he').1, hretracts⟩ hlater
    right
    by_cases hretracts : event.retracts id
    · refine Projection.retracted_of_retracts ?_ hretracts
      obtain ⟨e, he, hrecords⟩ := hrecorded
      rw [hpayloads] at he
      rcases List.mem_append.mp he with he | he
      · rw [hprojection]
        exact Projection.held_foldl (.inl ⟨e, he, hrecords⟩)
      · rcases List.mem_cons.mp he with rfl | he
        · cases e <;> simp [MemoryEvent.records, MemoryEvent.retracts] at hrecords hretracts
        · have hsuffix : facts unread <:+ facts w.payloads := by
            rw [hpayloads]
            exact (List.suffix_cons ..).trans (List.suffix_append ..)
          obtain ⟨e', he', hretracts'⟩ := hclosed _ hsuffix ⟨e, he, hrecords⟩
          exact absurd ⟨e', (mem_facts.mp he').1, hretracts'⟩ hlater
    · rcases hread with ⟨e, he, hretracts'⟩ | hretracted
      · rw [hunread] at he
        rcases List.mem_cons.mp he with rfl | he
        · exact absurd hretracts' hretracts
        · exact absurd ⟨e, he, hretracts'⟩ hlater
      · refine Projection.retracted_replay hretracted ?_
        by_contra hrecords
        exact hretracts (hno event (List.mem_cons_self ..) (by simpa using hrecords))
  · rw [List.append_assoc]
    exact hpayloads
  · rw [replayAll_append, ← hprojection]
    rfl

theorem Keeps.publishWrite {a : Appending} {unread : List MemoryEvent} (h : w.Keeps o)
    (hpublishing : w.publishing = some a)
    (hunread : unread = w.unread ∨
      w.phase = .rebuilding ∧ unread = w.unread ++ a.events.map ChronicleEvent.payload)
    (hw' : w' = { w with stream := w.stream ++ a.events, publishing := none, unread })
    (hnumbered : w'.Numbered) (hseparate : w'.Separate) : w'.Keeps o := by
  have hhealth : ∀ event ∈ a.events.map ChronicleEvent.payload, event.isHealth = true := by
    intro event hevent
    obtain ⟨e, he, rfl⟩ := List.mem_map.mp hevent
    exact h.separate.publishing _ hpublishing e he
  have hpayloads : w'.payloads = w.payloads ++ a.events.map ChronicleEvent.payload := by
    rw [hw']
    exact List.map_append
  have hfacts : facts w'.payloads = facts w.payloads := by
    rw [hpayloads, facts_append, facts_health hhealth, List.append_nil]
  have hunreadFacts : facts unread = facts w.unread := by
    rcases hunread with rfl | ⟨-, rfl⟩
    · rfl
    · rw [facts_append, facts_health hhealth, List.append_nil]
  have hmem : ∀ event, event.isHealth = false → (event ∈ unread ↔ event ∈ w.unread) := by
    intro event hfact
    have hiff := congrArg (event ∈ ·) hunreadFacts
    simpa [mem_facts, hfact] using hiff
  have hunread' : unread ⊆ w'.payloads := by
    rw [hpayloads]
    rcases hunread with rfl | ⟨-, rfl⟩
    · exact fun e he => List.mem_append_left _ (h.unread he)
    · intro e he
      exact (List.mem_append.mp he).elim (fun he => List.mem_append_left _ (h.unread he))
        fun he => List.mem_append_right _ he
  subst hw'
  have hclean : ∀ operation events, w.Clean operation events → Clean { w with
      stream := w.stream ++ a.events, publishing := none, unread } operation events :=
    fun operation events hc => hc.congr rfl (fun e he hfact => (hmem e hfact).mp he) rfl
  refine ⟨hnumbered, hseparate, h.keyed, ?_, hunread', fun id hid => ?_, fun hphase hbehind => ?_,
    fun hphase => ?_, fun operation b hb => hclean _ _ (h.appending operation b hb),
    fun operation events heq => ?_, h.looks⟩
  · rw [hfacts]
    exact h.held
  · exact (h.forgotten id hid).congr hfacts (fun e he hfact => (hmem e hfact).mpr he) rfl
  · obtain ⟨id, hactive, event, hevent, hretracts⟩ := hbehind
    exact h.caughtUp hphase
      ⟨id, hactive, event, (hmem event (fact_of_retracts hretracts)).mp hevent, hretracts⟩
  · rw [hfacts]
    simp only [hunreadFacts]
    exact h.reading hphase
  · obtain ⟨hc, hsub, hclosed⟩ := h.appended operation events heq
    rw [hfacts]
    exact ⟨hclean _ _ hc, hsub, hclosed⟩

theorem Keeps.move {i : Input} (h : w.Keeps o) (hheeds : w.Heeds i) (hmove : Move o w i w') :
    w'.Keeps o := by
  have hnumbered := h.numbered.move hmove
  have hseparate := h.separate.move hmove
  cases hmove with
  | stay => exact h
  | query =>
    refine h.still hnumbered hseparate rfl rfl rfl rfl h.caughtUp id h.appending (fun _ _ heq => heq)
      (h.looked hheeds fun id hid => ?_)
    obtain ⟨claim, hclaim, rfl⟩ := List.mem_map.mp hid
    exact Projection.statusOf_active h.keyed (Projection.active_of_query hclaim)
  | buildContext =>
    refine h.still hnumbered hseparate rfl rfl rfl rfl h.caughtUp id h.appending (fun _ _ heq => heq)
      (h.looked hheeds fun id hid => ?_)
    obtain ⟨claim, hclaim, rfl⟩ := Projection.active_of_buildContext hid
    exact Projection.statusOf_active h.keyed hclaim
  | health | publish | publishAwait | publishFail =>
    exact h.still hnumbered hseparate rfl rfl rfl rfl h.caughtUp id h.appending (fun _ _ heq => heq)
      h.looks
  | start hidle hne hstarts =>
    refine h.still hnumbered hseparate rfl rfl rfl rfl (fun _ => h.caughtUp (by simp [hidle]))
      (by simp) (fun _ _ heq => ?_) (by simp) h.looks
    cases heq
    rw [number_payload]
    exact h.clean hheeds hstarts
  | await hphase hevents =>
    refine h.still hnumbered hseparate rfl rfl rfl rfl (fun _ => h.caughtUp (by simp [hphase]))
      (by simp) (fun _ _ heq => ?_) (by simp) h.looks
    cases heq
    exact hevents ▸ h.appending _ _ hphase
  | fail hphase =>
    exact h.still hnumbered hseparate rfl rfl rfl rfl (fun _ => h.caughtUp (by simp [hphase]))
      (by simp) (by simp) (by simp) h.looks
  | write hphase happend =>
    obtain rfl := h.numbered.write hphase happend
    exact h.write hphase rfl hnumbered hseparate
  | apply hphase => exact h.apply hphase hnumbered hseparate
  | rebuild hidle =>
    refine ⟨hnumbered, hseparate, by simp [Projection.Keyed], by simp [Projection.statusOf],
      fun _ he => he, fun id hid => ?_, by simp, fun _ => ⟨[], rfl, rfl⟩, by simp, by simp, h.looks⟩
    obtain ⟨hrecorded, hclosed, -⟩ := h.forgotten id hid
    obtain ⟨event, hevent, hretracts⟩ := hclosed _ List.suffix_rfl hrecorded
    exact ⟨hrecorded, hclosed, .inl ⟨event, (mem_facts.mp hevent).1, hretracts⟩⟩
  | stop hphase hstop =>
    exact h.still hnumbered hseparate rfl rfl rfl rfl (fun _ => hheeds hstop) (by simp) (by simp)
      (by simp) h.looks
  | finish hphase hunread =>
    refine h.still hnumbered hseparate rfl rfl rfl rfl (fun _ => ?_) (by simp) (by simp) (by simp)
      h.looks
    rintro ⟨id, -, event, hevent, -⟩
    rw [hunread] at hevent
    cases hevent
  | read hphase hunread hfact => exact h.read hphase hunread hfact rfl hnumbered hseparate
  | publishWrite hpublishing happend hunread =>
    obtain rfl := h.numbered.publishWrite hpublishing happend
    exact h.publishWrite hpublishing hunread rfl hnumbered hseparate

theorem keeps_initial (stream : List MemoryEvent) : (World.initial stream).Keeps o where
  numbered := numbered_of_stream rfl rfl rfl rfl
  separate := ⟨by simp [initial], by simp [initial], by simp [initial], by simp [initial]⟩
  keyed := by simp [initial, Projection.Keyed]
  held := by simp [initial, Projection.statusOf]
  unread := by
    rw [payloads, initial, number_payload]
    exact fun _ he => he
  forgotten := by simp [initial]
  caughtUp := by simp [initial, Behind, Projection.statusOf]
  reading := by simp [initial]
  appending := by simp [initial]
  appended := by simp [initial]
  looks := by simp [initial]

end World

/-- On any stream, in every run of the providers in which nobody looks and no rebuild stops while
the projection is behind, and no candidate carries the id of a claim whose retraction a stopped
rebuild has not read, no query or context shows a claim that was forgotten before, and outside a
rebuild no such claim is active. -/
theorem forgetting_is_permanent {o : EmbeddedMemoryOptions} {r : RemoteMemoryOptions}
    {stream : List MemoryEvent} {w : World}
    (h : (providers o r).Reaches World.Heeds (World.initial stream) w) :
    (∀ look ∈ w.looks, ∀ id ∈ look.shown, id ∉ look.forgotten) ∧
    (w.phase ≠ .rebuilding → ∀ id ∈ w.forgotten, ∀ claim,
      w.projection.claims.get id = some claim → claim.status ≠ .active) := by
  have hkeeps : w.Keeps o := h.invariant (World.keeps_initial stream)
    fun _ _ _ hk hg hs => hk.move hg (move_of_step hs)
  refine ⟨hkeeps.looks, fun hphase id hid claim hclaim hactive => ?_⟩
  have hstatus : w.projection.statusOf id = some .active := by
    rw [Projection.statusOf, hclaim, ← hactive]
    rfl
  rcases (hkeeps.forgotten id hid).read with hunread | hretracted
  · exact hkeeps.caughtUp hphase ⟨id, hstatus, hunread⟩
  · rw [hstatus] at hretracted
    cases hretracted

def heedsCheck (w : World) : Input → Bool
  | .query .. | .buildContext .. => w.unread.isEmpty
  | .read fails => !fails && (w.unread.head?.map fun event => !event.isHealth).getD true
  | .ingest .. => false
  | _ => true

theorem heeds_of_check (w : World) (i : Input) (h : heedsCheck w i) : w.Heeds i := by
  cases i with
  | query | buildContext =>
    rintro ⟨_, -, event, hevent, -⟩
    rw [List.isEmpty_iff.mp h] at hevent
    cases hevent
  | read fails =>
    rintro (rfl | ⟨event, unread, hunread, hhealth⟩)
    · simp [heedsCheck] at h
    · simp [heedsCheck, hunread, hhealth] at h
  | ingest => cases h
  | consolidate | retract | append | apply | rebuild | remoteSucceeded | remoteFailed | publish =>
    trivial

/-- The provider reads the record of a claim and forgets the claim. -/
def forgettingRun : List Input :=
  [.rebuild, .read false, .read false, .retract sampleClaim.id none, .append false, .append false,
    .apply]

def espresso : Input := .query { text := "espresso" } "2026-02-01T00:00:00Z"

theorem forgetting_is_permanent_sample : ∃ w,
    (providers sampleOptions {}).Reaches World.Heeds
      (World.initial [.claimRecorded sampleClaim]) w ∧
    w.looks.map (·.forgotten) = [[sampleClaim.id]] ∧
    ∀ look ∈ w.looks, ∀ id ∈ look.shown, id ∉ look.forgotten := by
  have hrun : ((providers sampleOptions {}).exec (World.initial [.claimRecorded sampleClaim])
      (forgettingRun ++ [.rebuild, .read false, .read false, .read false, espresso])).map
      (fun w => w.looks.map (·.forgotten)) = some [[sampleClaim.id]] := by decide +kernel
  have hguard : (providers sampleOptions {}).Guarded World.Heeds
      (World.initial [.claimRecorded sampleClaim])
      (forgettingRun ++ [.rebuild, .read false, .read false, .read false, espresso]) :=
    Machine.guarded_of_allSteps heeds_of_check _ (by decide +kernel)
  obtain ⟨w, hreaches, hlooks⟩ := hguard.exists_reaches hrun
  exact ⟨w, hreaches, hlooks, (forgetting_is_permanent hreaches).1⟩

/-- A query between the reading of a claim's record and the reading of its retraction shows the
claim. -/
theorem forgotten_claim_shown : ∃ w,
    (providers sampleOptions {}).Reaches Machine.anyStep
      (World.initial [.claimRecorded sampleClaim]) w ∧
    w.looks.map (fun look => (look.forgotten, look.shown)) =
      [([sampleClaim.id], [sampleClaim.id])] :=
  Machine.exists_reaches_of_exec_map (forgettingRun ++ [.rebuild, .read false, espresso])
    (by decide +kernel)

end BeeAgent.Memory
