import BeeAgent.Data.Folds
import BeeAgent.Data.OrderedMap
import BeeAgent.Kernel.Switch

/-! The structure graph, which a replay of the structure stream builds, and the lineage that the
stream tells. -/
namespace BeeAgent.Structure
open BeeAgent.Data

inductive StructurePhase where
  | resolved | prepared | activated | updated | draining | disposed | activationFailed
  | restartRequired
  deriving DecidableEq, Repr

structure StructureGraphPhase where
  phase : StructurePhase
  generationId : Option ℕ := none
  error : Option KernelError := none
  pluginIds : Option (List String) := none

structure StructureGraphEntry where
  digest : String
  structure_ : EffectiveStructure
  phases : List StructureGraphPhase
  supersededBy : Option String

def KernelLifecycleEvent.structureVersion : KernelLifecycleEvent → String
  | .prepared _ v | .activated _ v | .updated _ v | .failed _ v _ | .draining _ v | .disposed _ v
  | .restartRequired _ v _ => v

def KernelLifecycleEvent.phase : KernelLifecycleEvent → StructureGraphPhase
  | .prepared g _ => { phase := .prepared, generationId := some g }
  | .activated g _ => { phase := .activated, generationId := some g }
  | .updated g _ => { phase := .updated, generationId := some g }
  | .draining g _ => { phase := .draining, generationId := some g }
  | .disposed g _ => { phase := .disposed, generationId := some g }
  | .failed g _ error =>
    { phase := .activationFailed, generationId := some g, error := some error }
  | .restartRequired g _ pluginIds =>
    { phase := .restartRequired, generationId := some g, pluginIds := some pluginIds }

structure StructureGraphStore where
  entries : List StructureGraphEntry
  byDigest : OrderedMap String StructureGraphEntry
  active : Option String

namespace StructureGraphStore

def empty : StructureGraphStore := ⟨[], .empty, none⟩

/-- The last entry, if there is one, is superseded. -/
def supersedeLast (store : StructureGraphStore) (digest : String) : StructureGraphStore :=
  match store.entries.getLast? with
  | none => store
  | some previous =>
    let superseded := { previous with supersededBy := some digest }
    { store with entries := store.entries.set (store.entries.length - 1) superseded
                 byDigest := store.byDigest.set previous.digest superseded }

def resolve (store : StructureGraphStore) (structure_ : EffectiveStructure) :
    StructureGraphStore :=
  if (store.byDigest.get structure_.digest).isSome then store
  else
    let store := store.supersedeLast structure_.digest
    let entry : StructureGraphEntry :=
      { digest := structure_.digest, structure_, phases := [{ phase := .resolved }],
        supersededBy := none }
    { store with entries := store.entries ++ [entry]
                 byDigest := store.byDigest.set entry.digest entry }

def recordPhase (store : StructureGraphStore) (digest : String) (phase : StructureGraphPhase) :
    Except String StructureGraphStore :=
  match store.byDigest.get digest with
  | none => .error ("Structure lifecycle event for unknown digest '" ++ digest ++ "'")
  | some entry =>
    let appended := { entry with phases := entry.phases ++ [phase] }
    let index := store.entries.findIdx fun candidate => candidate.digest == digest
    .ok { store with entries := store.entries.set index appended
                     byDigest := store.byDigest.set digest appended }

def replay (store : StructureGraphStore) : StructureEvent → Except String StructureGraphStore
  | .resolved structure_ => .ok (store.resolve structure_)
  | .lifecycle event =>
    let store := match (StructureEvent.lifecycle event).activeDigest? with
      | some digest => { store with active := some digest }
      | none => store
    store.recordPhase event.structureVersion event.phase

def rebuild (log : List StructureEvent) : Except String StructureGraphStore :=
  log.foldlM replay .empty

end StructureGraphStore

section Lineage

/-- The structures that are resolved, each at the first event that resolves its digest. -/
def versions (log : List StructureEvent) : List EffectiveStructure :=
  (log.filterMap StructureEvent.resolved?).foldl (fun versions structure_ =>
    if structure_.digest ∈ versions.map EffectiveStructure.digest then versions
    else versions ++ [structure_]) []

/-- The phase of a structure that a lifecycle event tells. -/
def StructureEvent.phase? (digest : String) : StructureEvent → Option StructureGraphPhase
  | .resolved _ => none
  | .lifecycle event => if event.structureVersion = digest then some event.phase else none

/-- The entry of a structure, with the structure that is resolved next. -/
def lineageEntry (log : List StructureEvent) (next : Option EffectiveStructure)
    (structure_ : EffectiveStructure) : StructureGraphEntry :=
  { digest := structure_.digest, structure_
    phases := { phase := .resolved } :: log.filterMap (StructureEvent.phase? structure_.digest)
    supersededBy := next.map EffectiveStructure.digest }

/-- A stream whose lifecycle events are about structures that it has resolved before. -/
inductive Traced : List StructureEvent → Prop where
  | nil : Traced []
  | resolved {log} (structure_ : EffectiveStructure) : Traced log →
      Traced (log ++ [.resolved structure_])
  | lifecycle {log} {event : KernelLifecycleEvent} : Traced log →
      Resolved log event.structureVersion → Traced (log ++ [.lifecycle event])

variable {log : List StructureEvent} {digest : String} {structure_ : EffectiveStructure}

theorem versions_append (log : List StructureEvent) (structure_ : EffectiveStructure) :
    versions (log ++ [.resolved structure_]) =
      if structure_.digest ∈ (versions log).map EffectiveStructure.digest then versions log
      else versions log ++ [structure_] := by
  simp [versions, StructureEvent.resolved?]

theorem versions_append_lifecycle (log : List StructureEvent) (event : KernelLifecycleEvent) :
    versions (log ++ [.lifecycle event]) = versions log := by
  have hnone : [StructureEvent.lifecycle event].filterMap StructureEvent.resolved? = [] := rfl
  rw [versions, List.filterMap_append, hnone, List.append_nil, versions]

theorem mem_versions_iff (h : Traced log) :
    digest ∈ (versions log).map EffectiveStructure.digest ↔ Resolved log digest := by
  induction h with
  | nil => simp [versions, Resolved]
  | @resolved log structure_ h ih =>
    have hresolved : Resolved (log ++ [.resolved structure_]) digest ↔
        Resolved log digest ∨ structure_.digest = digest := by
      simp only [Resolved, List.mem_append, List.mem_singleton, StructureEvent.resolved.injEq]
      constructor
      · rintro ⟨s, hs | rfl, hd⟩
        · exact .inl ⟨s, hs, hd⟩
        · exact .inr hd
      · rintro (⟨s, hs, hd⟩ | hd)
        · exact ⟨s, .inl hs, hd⟩
        · exact ⟨structure_, .inr rfl, hd⟩
    rw [versions_append, hresolved, ← ih]
    split
    · next hmem =>
      refine ⟨.inl, ?_⟩
      rintro (hd | rfl)
      · exact hd
      · exact hmem
    · rw [List.map_append, List.mem_append, List.map_singleton, List.mem_singleton,
        @eq_comm _ digest]
  | lifecycle h _ ih =>
    rw [versions_append_lifecycle, ih]
    simp [Resolved]

theorem resolved_of_mem_versions (h : structure_ ∈ versions log) : .resolved structure_ ∈ log := by
  induction log using List.reverseRecOn with
  | nil => simp [versions] at h
  | append_singleton log event ih =>
    refine List.mem_append.mpr ?_
    cases event with
    | resolved s =>
      rw [versions_append] at h
      split at h
      · exact .inl (ih h)
      · obtain h | h := List.mem_append.mp h
        · exact .inl (ih h)
        · exact .inr (List.mem_singleton.mpr (congrArg _ (List.mem_singleton.mp h)))
    | lifecycle e =>
      rw [versions_append_lifecycle] at h
      exact .inl (ih h)

theorem Traced.phases_nil (h : Traced log) (hnew : ¬ Resolved log digest) :
    log.filterMap (StructureEvent.phase? digest) = [] := by
  induction h with
  | nil => rfl
  | resolved structure_ h ih =>
    simp [ih fun hr => hnew (hr.append _), StructureEvent.phase?]
  | @lifecycle log event h hr ih =>
    have hne : event.structureVersion ≠ digest := by
      rintro rfl
      exact hnew (hr.append _)
    simp [ih fun hr => hnew (hr.append _), StructureEvent.phase?, hne]

end Lineage

namespace StructureGraphStore
variable {log : List StructureEvent} {digest : String} {store store' : StructureGraphStore}

/-- The map holds every entry under its digest. -/
structure Mirrored (store : StructureGraphStore) : Prop where
  nodup : (store.entries.map StructureGraphEntry.digest).Nodup
  byDigest : ∀ digest entry, store.byDigest.get digest = some entry ↔
    entry ∈ store.entries ∧ entry.digest = digest

/-- The store is what the stream tells. -/
structure Reflects (store : StructureGraphStore) (log : List StructureEvent) : Prop where
  entries : ∀ i : ℕ, store.entries[i]? =
    (versions log)[i]?.map (lineageEntry log (versions log)[i + 1]?)
  mirrored : store.Mirrored
  active : store.active = activeDigest? log

theorem Mirrored.replace (h : store.Mirrored) {before after : List StructureGraphEntry}
    {entry : StructureGraphEntry} (hentries : store.entries = before ++ entry :: after)
    (entry' : StructureGraphEntry) (hdigest : entry'.digest = entry.digest)
    (active : Option String) :
    Mirrored ⟨before ++ entry' :: after, store.byDigest.set entry.digest entry', active⟩ := by
  have hnodup := h.nodup
  rw [hentries, List.map_append, List.map_cons] at hnodup
  have hother : ∀ e, e ∈ before ∨ e ∈ after → e.digest ≠ entry.digest := by
    intro e he heq
    rw [List.nodup_append, List.nodup_cons] at hnodup
    obtain he | he := he
    · exact hnodup.2.2 _ (List.mem_map_of_mem he) _ List.mem_cons_self heq
    · exact hnodup.2.1.1 (heq ▸ List.mem_map_of_mem he)
  refine ⟨by rw [List.map_append, List.map_cons, hdigest]; exact hnodup, fun d e => ?_⟩
  rw [OrderedMap.get_set, List.mem_append, List.mem_cons]
  split
  · next hd =>
    subst hd
    constructor
    · intro he
      obtain rfl := Option.some.inj he
      exact ⟨.inr (.inl rfl), hdigest⟩
    · rintro ⟨he | rfl | he, heq⟩
      · exact absurd heq (hother e (.inl he))
      · rfl
      · exact absurd heq (hother e (.inr he))
  · next hd =>
    rw [h.byDigest, hentries, List.mem_append, List.mem_cons]
    constructor
    · rintro ⟨he | rfl | he, heq⟩
      · exact ⟨.inl he, heq⟩
      · exact absurd heq.symm hd
      · exact ⟨.inr (.inr he), heq⟩
    · rintro ⟨he | rfl | he, heq⟩
      · exact ⟨.inl he, heq⟩
      · exact absurd (heq.symm.trans hdigest) hd
      · exact ⟨.inr (.inr he), heq⟩

theorem Mirrored.concat (h : store.Mirrored) {entry : StructureGraphEntry}
    (hnew : entry.digest ∉ store.entries.map StructureGraphEntry.digest) :
    Mirrored ⟨store.entries ++ [entry], store.byDigest.set entry.digest entry, store.active⟩ := by
  refine ⟨?_, fun d e => ?_⟩
  · rw [List.map_append, List.map_singleton]
    exact List.nodup_append.mpr ⟨h.nodup, List.nodup_singleton _, fun d hd d' hd' heq =>
      hnew (List.mem_singleton.mp hd' ▸ heq ▸ hd)⟩
  · rw [OrderedMap.get_set, List.mem_append, List.mem_singleton]
    split
    · next hd =>
      subst hd
      constructor
      · intro he
        obtain rfl := Option.some.inj he
        exact ⟨.inr rfl, rfl⟩
      · rintro ⟨he | rfl, heq⟩
        · exact absurd (heq ▸ List.mem_map_of_mem he) hnew
        · rfl
    · next hd =>
      rw [h.byDigest]
      constructor
      · rintro ⟨he, heq⟩
        exact ⟨.inl he, heq⟩
      · rintro ⟨he | rfl, heq⟩
        · exact ⟨he, heq⟩
        · exact absurd heq.symm hd

theorem getElem?_supersedeLast (store : StructureGraphStore) (digest : String) (i : ℕ) :
    (store.supersedeLast digest).entries[i]? = store.entries[i]?.map fun entry =>
      if i + 1 = store.entries.length then { entry with supersededBy := some digest }
      else entry := by
  unfold StructureGraphStore.supersedeLast
  cases hlast : store.entries.getLast? with
  | none =>
    have hnil : store.entries = [] := List.getLast?_eq_none_iff.mp hlast
    simp [hnil]
  | some previous =>
    obtain ⟨before, hentries⟩ := List.getLast?_eq_some_iff.mp hlast
    simp only [hentries, List.length_append, List.length_singleton, Nat.add_sub_cancel,
      Nat.add_right_cancel_iff, List.getElem?_set, List.getElem?_append]
    by_cases hi : before.length = i
    · subst hi
      simp
    · by_cases hlt : i < before.length
      · simp [hlt, hi, Ne.symm hi]
      · have hsub : i - before.length ≠ 0 := by omega
        simp [hlt, hi, hsub]

theorem supersedeLast_active (store : StructureGraphStore) (digest : String) :
    (store.supersedeLast digest).active = store.active := by
  unfold StructureGraphStore.supersedeLast
  split <;> rfl

theorem length_supersedeLast (store : StructureGraphStore) (digest : String) :
    (store.supersedeLast digest).entries.length = store.entries.length := by
  unfold StructureGraphStore.supersedeLast
  split
  · rfl
  · exact List.length_set

theorem Mirrored.supersedeLast (h : store.Mirrored) (digest : String) :
    (store.supersedeLast digest).Mirrored := by
  unfold StructureGraphStore.supersedeLast
  cases hlast : store.entries.getLast? with
  | none => exact h
  | some previous =>
    obtain ⟨before, hentries⟩ := List.getLast?_eq_some_iff.mp hlast
    have hset : store.entries.set (store.entries.length - 1)
        { previous with supersededBy := some digest } =
        before ++ [{ previous with supersededBy := some digest }] := by
      simp [hentries]
    simp only [hset]
    exact h.replace hentries { previous with supersededBy := some digest } rfl store.active

theorem Mirrored.recordPhase (h : store.Mirrored) {before after : List StructureGraphEntry}
    {entry : StructureGraphEntry} (hentries : store.entries = before ++ entry :: after)
    (phase : StructureGraphPhase) :
    store.recordPhase entry.digest phase =
      .ok { entries := before ++ { entry with phases := entry.phases ++ [phase] } :: after
            byDigest := store.byDigest.set entry.digest
              { entry with phases := entry.phases ++ [phase] }
            active := store.active } := by
  have hget : store.byDigest.get entry.digest = some entry :=
    (h.byDigest _ _).mpr ⟨by simp [hentries], rfl⟩
  have hnodup := h.nodup
  rw [hentries, List.map_append, List.map_cons, List.nodup_append] at hnodup
  have hbefore : ∀ e ∈ before, (e.digest == entry.digest) = false := fun e he => by
    simpa using hnodup.2.2 _ (List.mem_map_of_mem he) _ List.mem_cons_self
  have hindex : store.entries.findIdx (fun candidate => candidate.digest == entry.digest) =
      before.length := by
    rw [hentries, List.findIdx_append, List.findIdx_eq_length.mpr hbefore, List.findIdx_cons]
    simp
  simp only [StructureGraphStore.recordPhase, hget, hindex]
  simp [hentries]

theorem Reflects.structures (h : store.Reflects log) :
    store.entries.map StructureGraphEntry.structure_ = versions log := by
  apply List.ext_getElem?
  intro i
  rw [List.getElem?_map, h.entries, Option.map_map]
  exact Option.map_id'

theorem Reflects.digests (h : store.Reflects log) :
    store.entries.map StructureGraphEntry.digest =
      (versions log).map EffectiveStructure.digest := by
  apply List.ext_getElem?
  intro i
  rw [List.getElem?_map, List.getElem?_map, h.entries, Option.map_map]
  rfl

theorem Reflects.resolve {structure_ : EffectiveStructure} (h : store.Reflects log)
    (htraced : Traced log) :
    (store.resolve structure_).Reflects (log ++ [.resolved structure_]) := by
  have hactive : activeDigest? (log ++ [.resolved structure_]) = activeDigest? log :=
    activeDigest?_append_none rfl
  have hentry : ∀ next s, lineageEntry (log ++ [.resolved structure_]) next s =
      lineageEntry log next s := fun next s => by
    simp [lineageEntry, StructureEvent.phase?]
  have hknown : (store.byDigest.get structure_.digest).isSome ↔
      structure_.digest ∈ (versions log).map EffectiveStructure.digest := by
    rw [← h.digests, Option.isSome_iff_exists, List.mem_map]
    exact exists_congr fun e => h.mirrored.byDigest _ e
  unfold StructureGraphStore.resolve
  split
  · next hsome =>
    refine ⟨fun i => ?_, h.mirrored, h.active.trans hactive.symm⟩
    rw [versions_append, if_pos (hknown.mp hsome), h.entries]
    congr 1
    exact funext fun s => (hentry _ s).symm
  · next hnone =>
    have hnew := fun hmem => hnone (hknown.mpr hmem)
    have hmirrored := h.mirrored.supersedeLast structure_.digest
    have hlength : (store.supersedeLast structure_.digest).entries.length =
        (versions log).length := by
      rw [length_supersedeLast, ← List.length_map StructureGraphEntry.digest, h.digests,
        List.length_map]
    have hdigests : (store.supersedeLast structure_.digest).entries.map
        StructureGraphEntry.digest = (versions log).map EffectiveStructure.digest := by
      rw [← h.digests]
      apply List.ext_getElem?
      intro i
      rw [List.getElem?_map, List.getElem?_map, getElem?_supersedeLast, Option.map_map]
      congr 1
      funext e
      simp only [Function.comp_apply]
      split <;> rfl
    refine ⟨fun i => ?_, hmirrored.concat (hdigests ▸ hnew), ?_⟩
    · have hstore : store.entries.length = (versions log).length := by
        rw [← hlength, length_supersedeLast]
      have hphases : log.filterMap (StructureEvent.phase? structure_.digest) = [] :=
        htraced.phases_nil fun hr => hnew ((mem_versions_iff htraced).mpr hr)
      rw [versions_append, if_neg hnew, funext (hentry _)]
      obtain hi | rfl | hi := Nat.lt_trichotomy i (versions log).length
      · rw [List.getElem?_append_left (by simpa [hlength] using hi),
          List.getElem?_append_left hi, getElem?_supersedeLast, h.entries, Option.map_map, hstore]
        congr 1
        funext s
        by_cases hlast : i + 1 = (versions log).length
        · simp [hlast, lineageEntry]
        · have hnext : i + 1 < (versions log).length := by omega
          simp [hlast, List.getElem?_append_left hnext]
      · rw [List.getElem?_append_right (by simp [hlength]), hlength]
        simp [lineageEntry, hphases]
      · have hout : (versions log ++ [structure_])[i]? = none :=
          List.getElem?_eq_none (by simpa using Nat.succ_le_of_lt hi)
        rw [hout, List.getElem?_eq_none (by simpa [hlength] using Nat.succ_le_of_lt hi)]
        rfl
    · exact (supersedeLast_active ..).trans (h.active.trans hactive.symm)

theorem replay_lifecycle (store : StructureGraphStore) (event : KernelLifecycleEvent) :
    store.replay (.lifecycle event) = ({ store with
      active := (StructureEvent.lifecycle event).activeDigest?.or store.active } :
        StructureGraphStore).recordPhase event.structureVersion event.phase := by
  cases event <;> rfl

theorem activeDigest?_append (log : List StructureEvent) (event : StructureEvent) :
    activeDigest? (log ++ [event]) = event.activeDigest?.or (activeDigest? log) := by
  cases h : event.activeDigest? with
  | none => exact activeDigest?_append_none h
  | some digest => exact activeDigest?_append_some h

theorem Reflects.recordPhase {event : KernelLifecycleEvent} (h : store.Reflects log)
    (htraced : Traced log) (hresolved : Resolved log event.structureVersion) :
    ∃ store', store.replay (.lifecycle event) = .ok store' ∧
      store'.Reflects (log ++ [.lifecycle event]) := by
  obtain ⟨entry, hentry, hdigest⟩ := List.mem_map.mp
    (h.digests ▸ (mem_versions_iff htraced).mpr hresolved)
  obtain ⟨before, after, hentries⟩ := List.append_of_mem hentry
  have hactive := activeDigest?_append log (.lifecycle event)
  rw [replay_lifecycle, ← hdigest]
  set active := (StructureEvent.lifecycle event).activeDigest?.or store.active with hset
  have hmirrored : Mirrored { store with active } := ⟨h.mirrored.nodup, h.mirrored.byDigest⟩
  refine ⟨_, hmirrored.recordPhase hentries event.phase, fun i => ?_,
    h.mirrored.replace hentries { entry with phases := entry.phases ++ [event.phase] } rfl _, ?_⟩
  · -- the entries of other digests stay as they are
    have hnodup := h.mirrored.nodup
    rw [hentries, List.map_append, List.map_cons, List.nodup_append, List.nodup_cons] at hnodup
    have hmap : before ++ { entry with phases := entry.phases ++ [event.phase] } :: after =
        store.entries.map fun e => if e.digest = event.structureVersion then
          { e with phases := e.phases ++ [event.phase] } else e := by
      have hbefore : ∀ e ∈ before, e.digest ≠ event.structureVersion := fun e he heq =>
        hnodup.2.2 _ (List.mem_map_of_mem he) _ List.mem_cons_self (heq.trans hdigest.symm)
      have hafter : ∀ e ∈ after, e.digest ≠ event.structureVersion := fun e he heq =>
        hnodup.2.1.1 (hdigest.trans heq.symm ▸ List.mem_map_of_mem he)
      rw [hentries, List.map_append, List.map_cons, if_pos hdigest,
        List.map_congr_left fun e he => if_neg (hbefore e he),
        List.map_congr_left fun e he => if_neg (hafter e he), List.map_id', List.map_id']
    rw [hmap, List.getElem?_map, h.entries, versions_append_lifecycle, Option.map_map]
    congr 1
    funext s
    by_cases hs : event.structureVersion = s.digest
    · simp [lineageEntry, StructureEvent.phase?, hs]
    · simp [lineageEntry, StructureEvent.phase?, hs, Ne.symm hs]
  · rw [hactive, ← h.active]

theorem reflects_empty : empty.Reflects [] :=
  ⟨fun _ => rfl, ⟨List.nodup_nil, by simp [empty]⟩, rfl⟩

/-- The replay of a stream goes through, and builds what the stream tells. -/
theorem rebuild_reflects (h : Traced log) :
    ∃ store, rebuild log = .ok store ∧ store.Reflects log := by
  induction h with
  | nil => exact ⟨empty, rfl, reflects_empty⟩
  | resolved structure_ htraced ih =>
    obtain ⟨store, hstore, hreflects⟩ := ih
    refine ⟨store.resolve structure_, ?_, hreflects.resolve htraced⟩
    rw [rebuild, List.foldlM_append, ← rebuild, hstore]
    rfl
  | lifecycle htraced hresolved ih =>
    obtain ⟨store, hstore, hreflects⟩ := ih
    obtain ⟨store', hstore', hreflects'⟩ := hreflects.recordPhase htraced hresolved
    refine ⟨store', ?_, hreflects'⟩
    rw [rebuild, List.foldlM_append, ← rebuild, hstore]
    exact foldlM_cons_ok.mpr ⟨store', hstore', rfl⟩

end StructureGraphStore

section Order
variable {log : List StructureEvent} {digest earlier later : String} {store : StructureGraphStore}

def activations (log : List StructureEvent) : List String :=
  log.filterMap StructureEvent.activeDigest?

/-- The one digest is activated after the other one was active for the last time. -/
def ActivatedAfter (log : List StructureEvent) (earlier later : String) : Prop :=
  ∃ before after, activations log = before ++ later :: after ∧ earlier ∉ after

def Failed (log : List StructureEvent) (digest : String) : Prop :=
  (∃ g error, .lifecycle (.failed g digest error) ∈ log) ∧ digest ∉ activations log

/-- A lineage in which structures are superseded by what came up in their place. -/
structure SoundLineage (log : List StructureEvent) (store : StructureGraphStore) : Prop where
  active : store.active = activeDigest? log
  unsuperseded : ∀ entry ∈ store.entries, store.active = some entry.digest →
    entry.supersededBy = none
  replaced : ∀ entry ∈ store.entries, ∀ digest, entry.supersededBy = some digest →
    ActivatedAfter log entry.digest digest
  failed : ∀ entry ∈ store.entries, ∀ digest, entry.supersededBy = some digest →
    ¬ Failed log digest
  read : (readActiveStructure log).map (Option.map EffectiveStructure.digest) = .ok store.active

/-- Each structure but the first is activated, and none is active again when a structure that was
resolved after it has been activated for the last time. -/
def InOrder (log : List StructureEvent) : Prop :=
  ((versions log).map EffectiveStructure.digest).Pairwise (ActivatedAfter log)

theorem ActivatedAfter.mem (h : ActivatedAfter log earlier later) : later ∈ activations log := by
  obtain ⟨before, after, hacts, -⟩ := h
  simp [hacts]

theorem ActivatedAfter.trans {middle : String} (h : ActivatedAfter log earlier middle)
    (h' : ActivatedAfter log middle later) : ActivatedAfter log earlier later := by
  obtain ⟨before, after, hacts, hearlier⟩ := h
  obtain ⟨before', after', hacts', hmiddle⟩ := h'
  refine ⟨before', after', hacts', fun hmem => ?_⟩
  obtain ⟨between, -, heq⟩ | ⟨between, -, heq⟩ :=
    List.append_eq_append_iff.mp (hacts.symm.trans hacts')
  · cases between with
    | nil => exact hearlier ((List.cons.inj heq).2 ▸ hmem)
    | cons d between =>
      refine hearlier ?_
      rw [(List.cons.inj heq).2]
      exact List.mem_append_right _ (List.mem_cons_of_mem _ hmem)
  · cases between with
    | nil => exact hearlier ((List.cons.inj heq).2 ▸ hmem)
    | cons d between =>
      refine hmiddle ?_
      rw [(List.cons.inj heq).2]
      exact List.mem_append_right _ List.mem_cons_self

theorem ActivatedAfter.not_active (h : ActivatedAfter log earlier later) (hne : earlier ≠ later) :
    activeDigest? log ≠ some earlier := by
  obtain ⟨before, after, hacts, hearlier⟩ := h
  intro hactive
  rw [activeDigest?, ← activations, hacts, List.getLast?_append, List.getLast?_cons,
    Option.some_or] at hactive
  cases hlast : after.getLast? with
  | none =>
    rw [hlast] at hactive
    exact hne (Option.some.inj hactive).symm
  | some d =>
    rw [hlast] at hactive
    obtain rfl := Option.some.inj hactive
    exact hearlier (List.mem_of_getLast? hlast)

theorem Traced.resolved_of_activated (h : Traced log) (hmem : digest ∈ activations log) :
    Resolved log digest := by
  induction h with
  | nil => simp [activations] at hmem
  | @resolved log structure_ h ih =>
    refine (ih ?_).append _
    simpa [activations, StructureEvent.activeDigest?] using hmem
  | @lifecycle log event h hr ih =>
    rw [activations, List.filterMap_append, List.mem_append] at hmem
    obtain hmem | hmem := hmem
    · exact (ih hmem).append _
    · have hdigest : event.structureVersion = digest := by
        cases event <;> simp_all [StructureEvent.activeDigest?,
          KernelLifecycleEvent.structureVersion]
      exact hdigest ▸ hr.append _

/-- What the log names as active is what it is read back as. -/
theorem Traced.readActiveStructure (h : Traced log) :
    (readActiveStructure log).map (Option.map EffectiveStructure.digest) =
      .ok (activeDigest? log) := by
  cases hactive : activeDigest? log with
  | none =>
    simp only [Structure.readActiveStructure, hactive]
    rfl
  | some digest =>
    have hrecorded : Recorded log digest :=
      ⟨hactive, h.resolved_of_activated (List.mem_of_getLast? hactive)⟩
    obtain ⟨structure_, hread, hdigest⟩ := hrecorded.readActiveStructure
    rw [hread]
    exact congrArg (fun d => Except.ok (some d)) hdigest

theorem resolved_of_read {structure_ : EffectiveStructure}
    (h : Structure.readActiveStructure log = .ok (some structure_)) :
    .resolved structure_ ∈ log := by
  unfold Structure.readActiveStructure at h
  split at h
  · cases h
  split at h <;> cases h
  next hfind =>
  obtain ⟨event, hevent, hresolved⟩ := List.mem_filterMap.mp
    (List.mem_reverse.mp (List.mem_of_find?_eq_some hfind))
  cases event with
  | resolved s => exact Option.some.inj hresolved ▸ hevent
  | lifecycle e => cases hresolved

def DigestsName (log : List StructureEvent) : Prop :=
  ∀ s t, .resolved s ∈ log → .resolved t ∈ log → s.digest = t.digest → s = t

namespace StructureGraphStore

theorem Reflects.read (h : store.Reflects log) (htraced : Traced log) (hname : DigestsName log) :
    readActiveStructure log = .ok (store.active.bind fun digest =>
      (store.byDigest.get digest).map StructureGraphEntry.structure_) := by
  have hread := htraced.readActiveStructure
  rw [← h.active] at hread
  cases hactive : store.active with
  | none =>
    cases hfound : readActiveStructure log with
    | error e => simp [hfound, Except.map] at hread
    | ok found =>
      rw [hfound, hactive] at hread
      rw [Option.map_eq_none_iff.mp (Except.ok.inj hread)]
      rfl
  | some digest =>
    cases hfound : readActiveStructure log with
    | error e => simp [hfound, Except.map] at hread
    | ok found =>
      rw [hfound, hactive] at hread
      obtain ⟨s, rfl, hs⟩ := Option.map_eq_some_iff.mp (Except.ok.inj hread)
      have hmem := resolved_of_read hfound
      obtain ⟨entry, hentry, hdigest⟩ := List.mem_map.mp
        (h.digests ▸ (mem_versions_iff htraced).mpr ⟨s, hmem, hs⟩)
      obtain ⟨i, hi⟩ := List.mem_iff_getElem?.mp hentry
      rw [h.entries] at hi
      obtain ⟨t, ht, rfl⟩ := Option.map_eq_some_iff.mp hi
      have hsame : s = t := hname s t hmem
        (resolved_of_mem_versions (List.mem_of_getElem? ht)) (hs.trans hdigest.symm)
      rw [Option.bind_some, (h.mirrored.byDigest _ _).mpr ⟨hentry, hdigest⟩, hsame]
      rfl

theorem Reflects.supersededBy (h : store.Reflects log) {i : ℕ} {entry : StructureGraphEntry}
    (hentry : store.entries[i]? = some entry) :
    entry.supersededBy = store.entries[i + 1]?.map StructureGraphEntry.digest := by
  rw [h.entries] at hentry
  obtain ⟨s, hs, rfl⟩ := Option.map_eq_some_iff.mp hentry
  rw [h.entries, Option.map_map]
  rfl

/-- The lineage is sound where the structures were activated in the order of their resolution. -/
theorem Reflects.sound_iff (h : store.Reflects log) (htraced : Traced log) :
    SoundLineage log store ↔ InOrder log := by
  have hpairs : InOrder log ↔ ∀ entry ∈ store.entries, ∀ digest,
      entry.supersededBy = some digest → ActivatedAfter log entry.digest digest := by
    have : IsTrans String (ActivatedAfter log) := ⟨fun _ _ _ => ActivatedAfter.trans⟩
    rw [InOrder, ← List.isChain_iff_pairwise, ← h.digests, List.isChain_iff_getElem]
    constructor
    · intro hchain entry hentry digest hsuperseded
      obtain ⟨i, hi, rfl⟩ := List.getElem_of_mem hentry
      rw [h.supersededBy (List.getElem?_eq_getElem hi)] at hsuperseded
      obtain ⟨next, hnext, rfl⟩ := Option.map_eq_some_iff.mp hsuperseded
      obtain ⟨hi', rfl⟩ := List.getElem?_eq_some_iff.mp hnext
      have hnext := hchain i (by simpa using hi')
      rwa [List.getElem_map, List.getElem_map] at hnext
    · intro hall i hi
      rw [List.length_map] at hi
      have hsuperseded := h.supersededBy (List.getElem?_eq_getElem (Nat.lt_of_succ_lt hi))
      rw [List.getElem?_eq_getElem hi] at hsuperseded
      have hafter := hall _ (List.getElem_mem _) _ hsuperseded
      rwa [List.getElem_map, List.getElem_map]
  rw [hpairs]
  refine ⟨fun hsound => hsound.replaced, fun hreplaced => ?_⟩
  refine ⟨h.active, fun entry hentry hactive => ?_, hreplaced, fun entry hentry digest hsuperseded
    hfailed => hfailed.2 (hreplaced entry hentry digest hsuperseded).mem,
    h.active ▸ htraced.readActiveStructure⟩
  by_contra hne
  obtain ⟨digest, hsuperseded⟩ := Option.ne_none_iff_exists'.mp hne
  refine (hreplaced entry hentry digest hsuperseded).not_active ?_ (h.active ▸ hactive)
  -- the digests of two entries are different
  obtain ⟨i, hi, rfl⟩ := List.getElem_of_mem hentry
  rw [h.supersededBy (List.getElem?_eq_getElem hi)] at hsuperseded
  obtain ⟨next, hnext, rfl⟩ := Option.map_eq_some_iff.mp hsuperseded
  obtain ⟨hi', rfl⟩ := List.getElem?_eq_some_iff.mp hnext
  intro heq
  have hdiffer := List.pairwise_iff_getElem.mp h.mirrored.nodup i (i + 1) (by simpa using hi)
    (by simpa using hi') (Nat.lt_succ_self i)
  rw [List.getElem_map, List.getElem_map] at hdiffer
  exact hdiffer heq

end StructureGraphStore

end Order

end BeeAgent.Structure
