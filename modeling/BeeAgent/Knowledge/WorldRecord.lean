import BeeAgent.Knowledge.WorldModel

/-! Calls of `record`: what a batch makes of the projection, the events that it appends, and the
strict rebuild of the stream after a run of calls. -/
namespace BeeAgent.Knowledge
open Data Transition

/-- One `record` call: the clock, the UUIDs that are drawn for relations without an id, and what
other writers append to the stream before each attempt to append. -/
structure RecordCall where
  now : String
  uuid : ℕ → String
  others : List (List WorldEvent) := []
  input : WorldProjectionInput

/-- The store and the world stream. -/
structure World where
  store : WorldModelStore
  log : List WorldEvent

inductive WorldError where
  | invalid
  | conflict
  deriving DecidableEq

structure WorldSnapshot where
  version : ℕ
  digest : String
  entities : List WorldEntity
  relations : List WorldRelation

section
variable (p : Platform)

def WorldModelStore.snapshot (s : WorldModelStore) : WorldSnapshot :=
  ⟨s.version, s.digest, s.sortedEntities p, s.sortedRelations p⟩

def seenAt (now : String) (e : NewWorldEntityInput) : String := e.seenAt.getD now

def recordEntity (now : String) (m : OrderedMap String WorldEntity) (e : NewWorldEntityInput) :
    Except WorldError (OrderedMap String WorldEntity) :=
  let merged := mergeEntity (m.get e.id) e (seenAt now e)
  if merged.accepted p then .ok (m.set e.id merged) else .error .invalid

def relationOf (now uuid : String) (r : NewWorldRelationInput) : WorldRelation :=
  let recordedAt := r.recordedAt.getD now
  { id := r.id.getD uuid
    type := r.type
    fromEntityId := r.fromEntityId
    toEntityId := r.toEntityId
    provenance := r.provenance
    validTime := r.validTime.getD ⟨recordedAt, none⟩
    recordedAt }

def recordRelation (m : OrderedMap String WorldRelation) (r : WorldRelation) :
    Except WorldError (OrderedMap String WorldRelation) :=
  if r.accepted p then .ok (m.set r.id r) else .error .invalid

def RecordCall.relations (call : RecordCall) : List WorldRelation :=
  call.input.relations.mapIdx fun i r => relationOf call.now (call.uuid i) r

/-- The shadow copies that the batch is folded into first. -/
def nextProjection (w : Projection) (call : RecordCall) : Except WorldError Projection := do
  let entities ← call.input.entities.foldlM (recordEntity p call.now) w.entities
  let relations ← call.relations.foldlM (recordRelation p) w.relations
  return ⟨entities, relations⟩

/-- The events of a batch carry what the entities and relations are after it. -/
def factsOf (next : Projection) (call : RecordCall) : List WorldEvent :=
  (call.input.entities.filterMap fun e => next.entities.get e.id).map .entity ++
    (call.relations.filterMap fun r => next.relations.get r.id).map .relation

/-- `#append`: three attempts, each at the sequence that was read last. An attempt conflicts when
others have appended since. -/
def appendAttempts (events : List WorldEvent) :
    ℕ → List (List WorldEvent) → List WorldEvent → Bool × List WorldEvent
  | 0, _, log => (false, log)
  | _ + 1, [], log => (true, log ++ events)
  | n + 1, others :: rest, log =>
    if others.isEmpty then (true, log ++ events) else appendAttempts events n rest (log ++ others)

def World.record (w : World) (call : RecordCall) : World × Except WorldError WorldSnapshot :=
  if call.input.entities.isEmpty && call.input.relations.isEmpty then (w, .ok (w.store.snapshot p))
  else
    match nextProjection p w.store.toProjection call with
    | .error error => (w, .error error)
    | .ok next =>
      if !p.isDatetime call.now then (w, .error .invalid)
      else
        let version := w.store.version + 1
        let digest := next.digest p
        let events := factsOf next call ++ [.version version digest call.now]
        let (written, log) := appendAttempts events 3 call.others w.log
        if written then
          let store := { w.store with toProjection := next, version, digest }
          ({ store, log }, .ok (store.snapshot p))
        else ({ w with log }, .error .conflict)

def World.initial : World := ⟨.initial p, []⟩

def worldMachine : Machine World RecordCall := ⟨fun w call => some (w.record p call).1⟩

def World.Rebuilds (w : World) : Prop :=
  ∀ now, rebuild p .fail now w.store.driftNotice w.log = .ok (w.store, [])

/-- Nobody else appends in between, and an entity that is new in a batch is seen there, first and
last, at one time. -/
def Undisturbed (w : World) (call : RecordCall) : Prop :=
  (∀ others ∈ call.others, others = []) ∧
    ∀ id, w.store.entities.get id = none →
      let sightings := (call.input.entities.filter fun e => e.id = id).map (seenAt call.now)
      sightings.head? = sightings.getLast?

end

/-! ### Merging twice -/

/-- An entity that goes on from another one. -/
structure Continues (e a : WorldEntity) : Prop where
  same : a = { e with lastSeenAt := a.lastSeenAt, attributes := a.attributes }
  keys : e.attributes.map Prod.fst <+: a.attributes.map Prod.fst
  nodup : (a.attributes.map Prod.fst).Nodup

theorem spread_eq (m : OrderedMap String WorldAttributeValue)
    (more : List (String × WorldAttributeValue)) :
    spread m.entries more = (m.setAll more).entries := by
  rw [spread, OrderedMap.setAll_self]

theorem Continues.refl {e : WorldEntity} (h : (e.attributes.map Prod.fst).Nodup) :
    Continues e e := ⟨rfl, List.prefix_refl _, h⟩

theorem Continues.merge {e a : WorldEntity} (h : Continues e a) (x : NewWorldEntityInput)
    (t : String) : Continues e (mergeEntity (some a) x t) := by
  have hspread := spread_eq ⟨a.attributes, h.nodup⟩ x.attributes
  refine ⟨?_, ?_, ?_⟩
  · rw [mergeEntity, h.same]
  · rw [mergeEntity]
    dsimp only
    rw [hspread]
    exact h.keys.trans (OrderedMap.prefix_setAll ⟨a.attributes, h.nodup⟩ x.attributes)
  · rw [mergeEntity]
    dsimp only
    rw [hspread]
    exact (OrderedMap.setAll _ _).nodup

theorem Continues.merge_again {e a : WorldEntity} (h : Continues e a) :
    mergeEntity (some e) a.asInput a.lastSeenAt = a := by
  have hnodup : (e.attributes.map Prod.fst).Nodup := h.nodup.sublist h.keys.sublist
  let m : OrderedMap String WorldAttributeValue := ⟨e.attributes, hnodup⟩
  let n : OrderedMap String WorldAttributeValue := ⟨a.attributes, h.nodup⟩
  have hkeys : m.keys <+: n.keys := h.keys
  have hspread : spread m.entries n.entries = n.entries := by
    rw [spread_eq, OrderedMap.setAll_entries hkeys]
  have hmerged : mergeEntity (some e) a.asInput a.lastSeenAt =
      { e with lastSeenAt := a.lastSeenAt, attributes := spread m.entries n.entries } := rfl
  rw [hmerged, hspread]
  exact h.same.symm

theorem spread_nil {attributes : List (String × WorldAttributeValue)}
    (h : (attributes.map Prod.fst).Nodup) : spread [] attributes = attributes := by
  have hself : OrderedMap.empty.setAll attributes = ⟨attributes, h⟩ := OrderedMap.setAll_self ⟨_, h⟩
  exact congrArg OrderedMap.entries hself

theorem created_again {a : WorldEntity} (hnodup : (a.attributes.map Prod.fst).Nodup)
    (htime : a.lastSeenAt = a.firstSeenAt) : mergeEntity none a.asInput a.lastSeenAt = a := by
  obtain ⟨id, kind, subtype, attributes, firstSeenAt, lastSeenAt⟩ := a
  obtain rfl : lastSeenAt = firstSeenAt := htime
  rw [mergeEntity, WorldEntity.asInput]
  dsimp only
  rw [spread_nil hnodup]

/-- What an entity is after its sightings in a batch. -/
def sighted (now : String) (o : Option WorldEntity) (xs : List NewWorldEntityInput) :
    Option WorldEntity :=
  xs.foldl (fun o x => some (mergeEntity o x (seenAt now x))) o

theorem sighted_append (now : String) (o : Option WorldEntity) (xs ys : List NewWorldEntityInput) :
    sighted now o (xs ++ ys) = sighted now (sighted now o xs) ys := List.foldl_append

theorem sighted_some (now : String) {e : WorldEntity} (h : (e.attributes.map Prod.fst).Nodup)
    (xs : List NewWorldEntityInput) :
    ∃ a, sighted now (some e) xs = some a ∧ Continues e a ∧
      a.lastSeenAt = ((xs.map (seenAt now)).getLast?).getD e.lastSeenAt := by
  induction xs using List.reverseRecOn with
  | nil => exact ⟨e, rfl, .refl h, rfl⟩
  | append_singleton xs x ih =>
    obtain ⟨a, ha, hcontinues, -⟩ := ih
    refine ⟨mergeEntity (some a) x (seenAt now x), ?_, hcontinues.merge x _, ?_⟩
    · rw [sighted_append, ha]
      rfl
    · rw [List.map_append, List.map_singleton, List.getLast?_concat]
      rfl

theorem nodup_created (x : NewWorldEntityInput) (t : String) :
    ((mergeEntity none x t).attributes.map Prod.fst).Nodup := (OrderedMap.setAll _ _).nodup

/-- An entity after its sightings is read back from the stream as it is: when it was there before,
and when its first and last sighting are at one time. -/
theorem merge_sighted {now : String} {o : Option WorldEntity} {xs : List NewWorldEntityInput}
    {a : WorldEntity} (hnodup : ∀ e, o = some e → (e.attributes.map Prod.fst).Nodup)
    (hseen : o = none → (xs.map (seenAt now)).head? = (xs.map (seenAt now)).getLast?)
    (ha : sighted now o xs = some a) :
    mergeEntity o a.asInput a.lastSeenAt = a ∧
      mergeEntity (some a) a.asInput a.lastSeenAt = a ∧ (a.attributes.map Prod.fst).Nodup := by
  cases o with
  | some e =>
    obtain ⟨b, hb, hcontinues, -⟩ := sighted_some now (hnodup e rfl) xs
    obtain rfl : b = a := Option.some.inj (hb.symm.trans ha)
    exact ⟨hcontinues.merge_again, (Continues.refl hcontinues.nodup).merge_again,
      hcontinues.nodup⟩
  | none =>
    cases xs with
    | nil => cases ha
    | cons x xs =>
      obtain ⟨b, hb, hcontinues, hlast⟩ :=
        sighted_some now (nodup_created x (seenAt now x)) xs
      obtain rfl : b = a := Option.some.inj (hb.symm.trans ha)
      have hfirst : b.firstSeenAt = seenAt now x := by
        rw [hcontinues.same]
        rfl
      have hboth := hseen rfl
      rw [List.map_cons, List.head?_cons, List.getLast?_cons, Option.some.injEq] at hboth
      have htime : b.lastSeenAt = b.firstSeenAt := by
        rw [hlast, hfirst]
        exact hboth.symm
      exact ⟨created_again hcontinues.nodup htime, (Continues.refl hcontinues.nodup).merge_again,
        hcontinues.nodup⟩

theorem sighted_id {now k : String} {o : Option WorldEntity} {xs : List NewWorldEntityInput}
    {a : WorldEntity} (ho : ∀ e, o = some e → e.id = k) (hxs : ∀ x ∈ xs, x.id = k)
    (ha : sighted now o xs = some a) : a.id = k := by
  induction xs using List.reverseRecOn generalizing a with
  | nil => exact ho a ha
  | append_singleton xs x ih =>
    rw [sighted_append] at ha
    obtain rfl := Option.some.inj ha
    cases hbefore : sighted now o xs with
    | none => exact hxs x (List.mem_append_right _ List.mem_cons_self)
    | some e =>
      have he : e.id = k := ih (fun y hy => hxs y (List.mem_append_left _ hy)) hbefore
      exact he

/-! ### One call -/

section
variable {p : Platform}

theorem recordEntity_ok {now : String} {xs : List NewWorldEntityInput}
    {m n : OrderedMap String WorldEntity} (h : xs.foldlM (recordEntity p now) m = .ok n) :
    n = m.upsertAll NewWorldEntityInput.id (fun o x => mergeEntity o x (seenAt now x)) xs := by
  induction xs generalizing m with
  | nil => exact (Except.ok.inj h).symm
  | cons x xs ih =>
    obtain ⟨m', hx, hrest⟩ := foldlM_cons_ok.mp h
    unfold recordEntity at hx
    dsimp only at hx
    split at hx
    · obtain rfl := Except.ok.inj hx
      exact ih hrest
    · cases hx

theorem recordRelation_ok {rs : List WorldRelation} {m n : OrderedMap String WorldRelation}
    (h : rs.foldlM (recordRelation p) m = .ok n) :
    n = m.upsertAll WorldRelation.id (fun _ r => r) rs := by
  induction rs generalizing m with
  | nil => exact (Except.ok.inj h).symm
  | cons r rs ih =>
    obtain ⟨m', hr, hrest⟩ := foldlM_cons_ok.mp h
    unfold recordRelation at hr
    split at hr
    · obtain rfl := Except.ok.inj hr
      exact ih hrest
    · cases hr

theorem nextProjection_ok {w next : Projection} {call : RecordCall}
    (h : nextProjection p w call = .ok next) :
    next.entities = w.entities.upsertAll NewWorldEntityInput.id
        (fun o x => mergeEntity o x (seenAt call.now x)) call.input.entities ∧
      next.relations = w.relations.upsertAll WorldRelation.id (fun _ r => r) call.relations := by
  unfold nextProjection at h
  cases hentities : call.input.entities.foldlM (recordEntity p call.now) w.entities with
  | error e => simp [hentities, bind, Except.bind] at h
  | ok entities =>
    cases hrelations : call.relations.foldlM (recordRelation p) w.relations with
    | error e => simp [hentities, hrelations, bind, Except.bind] at h
    | ok relations =>
      simp only [hentities, hrelations, bind, Except.bind, pure, Except.pure,
        Except.ok.injEq] at h
      subst h
      exact ⟨recordEntity_ok hentities, recordRelation_ok hrelations⟩

theorem fold_entities (w : Projection) (es : List WorldEntity) :
    (es.map WorldEvent.entity).foldl Projection.fold w =
      ⟨w.entities.upsertAll WorldEntity.id (fun o e => mergeEntity o e.asInput e.lastSeenAt) es,
        w.relations⟩ := by
  induction es generalizing w with
  | nil => rfl
  | cons e es ih =>
    rw [List.map_cons, List.foldl_cons, ih]
    rfl

theorem fold_relations (w : Projection) (rs : List WorldRelation) :
    (rs.map WorldEvent.relation).foldl Projection.fold w =
      ⟨w.entities, w.relations.upsertAll WorldRelation.id (fun _ r => r) rs⟩ := by
  induction rs generalizing w with
  | nil => rfl
  | cons r rs ih =>
    rw [List.map_cons, List.foldl_cons, ih]
    rfl

/-- What is known of the entities of a store. -/
structure Tidy (w : Projection) : Prop where
  id : ∀ k e, w.entities.get k = some e → e.id = k
  nodup : ∀ k e, w.entities.get k = some e → (e.attributes.map Prod.fst).Nodup

/-- The facts of a batch fold into what the batch has made of the projection. -/
theorem fold_factsOf {w : World} {next : Projection} {call : RecordCall}
    (htidy : Tidy w.store.toProjection) (hguard : Undisturbed w call)
    (h : nextProjection p w.store.toProjection call = .ok next) :
    (factsOf next call).foldl Projection.fold w.store.toProjection = next ∧ Tidy next := by
  obtain ⟨hentities, hrelations⟩ := nextProjection_ok h
  have hsighted : ∀ k a, next.entities.get k = some a →
      sighted call.now (w.store.entities.get k)
        (call.input.entities.filter fun x => x.id = k) = some a := by
    intro k a ha
    rw [hentities, OrderedMap.get_upsertAll] at ha
    exact ha
  have hmerge := fun k a ha => merge_sighted (htidy.nodup k) (hguard.2 k) (hsighted k a ha)
  have hid : ∀ k a, next.entities.get k = some a → a.id = k := fun k a ha =>
    sighted_id (htidy.id k) (fun x hx => of_decide_eq_true (List.mem_filter.mp hx).2)
      (hsighted k a ha)
  refine ⟨?_, hid, fun k a ha => (hmerge k a ha).2.2⟩
  rw [factsOf, List.foldl_append, fold_entities, fold_relations]
  have hentitiesAgain : w.store.entities.upsertAll WorldEntity.id
      (fun o e => mergeEntity o e.asInput e.lastSeenAt)
      (call.input.entities.filterMap fun x => next.entities.get x.id) = next.entities :=
    OrderedMap.upsertAll_again hentities fun x _ a ha =>
      ⟨hid _ a ha, (hmerge _ a ha).1, (hmerge _ a ha).2.1⟩
  have hrelationsAgain : w.store.relations.upsertAll WorldRelation.id (fun _ r => r)
      (call.relations.filterMap fun r => next.relations.get r.id) = next.relations := by
    refine OrderedMap.upsertAll_again hrelations fun r hr a ha => ⟨?_, rfl, rfl⟩
    rw [hrelations] at ha
    exact OrderedMap.key_of_upsertAll (List.mem_map_of_mem hr) ha
  rw [hentitiesAgain, hrelationsAgain]

theorem replay_facts (policy : DriftPolicy) (r : Replay) {facts : List WorldEvent}
    (h : ∀ v d t, WorldEvent.version v d t ∉ facts) :
    facts.foldlM (Replay.event p policy) r =
      .ok { r with toProjection := facts.foldl Projection.fold r.toProjection } := by
  induction facts generalizing r with
  | nil => rfl
  | cons fact facts ih =>
    have hrest : ∀ v d t, WorldEvent.version v d t ∉ facts := fun v d t hmem =>
      h v d t (List.mem_cons_of_mem _ hmem)
    rw [List.foldlM_cons, List.foldl_cons]
    cases fact with
    | entity e => exact ih _ hrest
    | relation r' => exact ih _ hrest
    | version v d t => exact absurd List.mem_cons_self (h v d t)

theorem notMem_factsOf (next : Projection) (call : RecordCall) (v : ℕ) (d t : String) :
    WorldEvent.version v d t ∉ factsOf next call := by
  simp [factsOf]

theorem appendAttempts_alone {events log : List WorldEvent} {others : List (List WorldEvent)}
    (h : ∀ o ∈ others, o = []) (n : ℕ) :
    appendAttempts events (n + 1) others log = (true, log ++ events) := by
  cases others with
  | nil => rfl
  | cons o others =>
    rw [appendAttempts, h o List.mem_cons_self]
    rfl

/-- The stream replays to the store, with no mismatch that waits for a correction. -/
structure Sound (p : Platform) (w : World) : Prop where
  tidy : Tidy w.store.toProjection
  replay : ∃ last, w.log.foldlM (Replay.event p .fail) (.start p) = .ok
    { toProjection := w.store.toProjection
      version := w.store.version
      digest := w.store.digest
      lastBumpDigest := last }

theorem Sound.initial : Sound p (.initial p) := ⟨⟨nofun, nofun⟩, none, rfl⟩

theorem Sound.rebuilds {w : World} (h : Sound p w) : w.Rebuilds p := by
  obtain ⟨last, hreplay⟩ := h.replay
  intro now
  rw [rebuild, hreplay]
  rfl

theorem Sound.record {w : World} (h : Sound p w) {call : RecordCall} (hguard : Undisturbed w call) :
    Sound p (w.record p call).1 := by
  unfold World.record
  split
  · exact h
  split
  · exact h
  · next next hnext =>
    split
    · exact h
    obtain ⟨hfold, htidy⟩ := fold_factsOf h.tidy hguard hnext
    obtain ⟨last, hreplay⟩ := h.replay
    have happend : ∀ events : List WorldEvent,
        appendAttempts events 3 call.others w.log = (true, w.log ++ events) :=
      fun events => appendAttempts_alone hguard.1 2
    dsimp only
    rw [happend]
    simp only [if_true]
    refine ⟨htidy, some (next.digest p), ?_⟩
    rw [List.foldlM_append, hreplay]
    show (factsOf next call ++ [_]).foldlM (Replay.event p .fail) _ = _
    rw [List.foldlM_append, replay_facts _ _ (notMem_factsOf next call), hfold]
    show (Replay.event p .fail _ (.version _ (next.digest p) call.now)).bind _ = _
    rw [Replay.event, Replay.bump, if_pos rfl]
    rfl

/-- After any run of calls that nobody else disturbs, the strict rebuild gives the live store. -/
theorem record_rebuilds {w : World}
    (h : (worldMachine p).Reaches Undisturbed (.initial p) w) : w.Rebuilds p := by
  refine (h.invariant Sound.initial fun s call t hs hguard hstep => ?_).rebuilds
  obtain rfl := Option.some.inj hstep
  exact hs.record hguard

end

/-- A platform for samples: the texts stand for their hashes. -/
def samplePlatform : Platform where
  sha256 text := text
  localeCompare a b := if a = b then .eq else if a < b then .lt else .gt
  isDatetime s := s.toList.getLast? = some 'Z'
  isUuid s := s.toList.length = 36

def sighting (seenAt : String) : NewWorldEntityInput :=
  { id := "e1", kind := .actor, seenAt := some seenAt }

def sampleCall (sightings : List String) : RecordCall where
  now := "2026-01-02T00:00:00Z"
  uuid _ := ""
  input := { entities := sightings.map sighting }

theorem record_rebuilds_sample : ∃ w,
    (worldMachine samplePlatform).Reaches Undisturbed (.initial samplePlatform) w ∧
      w.log.length = 2 ∧ w.Rebuilds samplePlatform := by
  have hreach : (worldMachine samplePlatform).Reaches Undisturbed (.initial samplePlatform)
      ((World.initial samplePlatform).record samplePlatform
        (sampleCall ["2026-01-01T00:00:00Z"])).1 := by
    refine .tail .refl ⟨fun other hother => absurd hother List.not_mem_nil, fun id _ => ?_⟩ rfl
    by_cases hid : "e1" = id <;> simp [sampleCall, sighting, hid]
  exact ⟨_, hreach, by decide +kernel, record_rebuilds hreach⟩

/-- A call with an entity that is seen twice in the batch in which it is new. -/
def twiceSeen : World :=
  ((World.initial samplePlatform).record samplePlatform
    (sampleCall ["2026-01-01T00:00:00Z", "2026-01-01T00:00:01Z"])).1

/-- The stream has forgotten the first of two sightings. -/
theorem first_sighting_lost : ¬∀ (p : Platform) (w : World),
    (worldMachine p).Reaches Machine.anyStep (.initial p) w → w.Rebuilds p := by
  intro h
  have hreach : (worldMachine samplePlatform).Reaches Machine.anyStep (.initial samplePlatform)
      twiceSeen := .tail .refl trivial rfl
  have hrebuilds := h samplePlatform twiceSeen hreach ""
  have herror : (rebuild samplePlatform .fail "" twiceSeen.store.driftNotice
      twiceSeen.log).toOption.isNone := by decide +kernel
  rw [hrebuilds] at herror
  cases herror

end BeeAgent.Knowledge
