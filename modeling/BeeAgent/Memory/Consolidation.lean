import BeeAgent.Memory.Forgetting

/-! What consolidation does to the memory: which claims are merged into which, and when nothing that
was remembered is lost. -/
namespace BeeAgent.Memory
open Data
open Knowledge (ValidTime)
open Projection (duplicateKey)

variable (o : EmbeddedMemoryOptions)

/-- What a claim tells, whatever its wording and its time. -/
def tripleOf (claim : MemoryClaim) : MemoryClaimKind × MemorySubject × String :=
  (claim.kind, claim.subject, normalizeStatement o.unicode claim.statement)

def recordedFirst (a b : MemoryClaim) : Ordering :=
  (o.unicode.localeCompare a.recordedAt b.recordedAt).then (o.unicode.localeCompare a.id b.id)

def duplicates (p : Projection) (claim : MemoryClaim) : List MemoryClaim :=
  p.active.filter fun other => duplicateKey o other = duplicateKey o claim

/-- The claim that a claim is merged into, or the claim itself. -/
def keptOf (p : Projection) (claim : MemoryClaim) : Option MemoryClaim :=
  (sortBy (recordedFirst o) (duplicates o p claim)).head?

/-- The one period of time lies within the other, or is empty. -/
def Within (inner outer : ValidTime) : Prop :=
  (∃ u, inner.to_ = some u ∧ after u inner.from_ = false) ∨
    after outer.from_ inner.from_ = false ∧
      ∀ u, outer.to_ = some u → ∃ v, inner.to_ = some v ∧ after v u = false

/-- What is to hold of a memory and of what consolidation makes of it. -/
structure Consolidated (p p' : Projection) (report : MemoryConsolidationReport) : Prop where
  lossless : ∀ time triple,
    (∃ claim ∈ p'.active, isValidAt claim time ∧ tripleOf o claim = triple) ↔
      ∃ claim ∈ p.active, isValidAt claim time ∧ tripleOf o claim = triple
  equal : ∀ merge ∈ report.merged, ∀ id ∈ merge.superseded, ∃ claim kept,
    p.claims.get id = some claim ∧ p.claims.get merge.kept = some kept ∧
      tripleOf o claim = tripleOf o kept
  one : ∀ merge ∈ report.merged, ∀ id ∈ merge.kept :: merge.superseded,
    p'.statusOf id = some .active ↔ id = merge.kept
  again : ∀ now, p'.consolidateNow o now = .ok ([], ⟨p'.active.length, [], now⟩)

/-- Of the active claims with one key all tell what the one recorded first tells, at times at which
it holds too. -/
def Mergeable (p : Projection) : Prop :=
  ∀ claim ∈ p.active, ∀ kept, keptOf o p claim = some kept →
    tripleOf o claim = tripleOf o kept ∧ Within claim.validTime kept.validTime

section Time

theorem utf16_lt {a b : String} : after a b = true ↔ utf16 b < utf16 a := decide_eq_true_iff

theorem utf16_le {a b : String} : after a b = false ↔ utf16 a ≤ utf16 b := by
  rw [after, decide_eq_false_iff_not, not_lt]

theorem isValidAt_iff {claim : MemoryClaim} {time : String} : isValidAt claim time ↔
    utf16 claim.validTime.from_ ≤ utf16 time ∧
      ∀ u, claim.validTime.to_ = some u → utf16 time < utf16 u := by
  unfold isValidAt
  split
  · next hafter =>
    simp [not_le.mpr (utf16_lt.mp hafter)]
  · next hafter =>
    rw [Bool.not_eq_true, utf16_le] at hafter
    simp only [hafter, true_and]
    cases claim.validTime.to_ with
    | none => simp
    | some u => simp [utf16_lt]

/-- A claim is valid whenever another one is exactly when the period of the other lies within its
own. -/
theorem within_iff {claim kept : MemoryClaim} :
    Within claim.validTime kept.validTime ↔
      ∀ time, isValidAt claim time → isValidAt kept time := by
  simp only [isValidAt_iff, Within, utf16_le]
  constructor
  · rintro (⟨u, hu, hempty⟩ | ⟨hfrom, hto⟩) time ⟨hle, hlt⟩
    · exact absurd (hlt u hu) (not_lt.mpr (hempty.trans hle))
    · refine ⟨hfrom.trans hle, fun u hu => ?_⟩
      obtain ⟨v, hv, hvu⟩ := hto u hu
      exact (hlt v hv).trans_le hvu
  · intro h
    by_cases hempty : ∃ u, claim.validTime.to_ = some u ∧ utf16 u ≤ utf16 claim.validTime.from_
    · exact .inl hempty
    simp only [not_exists, not_and, not_le] at hempty
    -- the start of the period is a time in it
    obtain ⟨hfrom, hto⟩ := h claim.validTime.from_ ⟨le_refl _, hempty⟩
    refine .inr ⟨hfrom, fun u hu => ?_⟩
    by_contra hnot
    simp only [not_exists, not_and, not_le] at hnot
    have hvalid := h u ⟨(hto u hu).le, hnot⟩
    exact lt_irrefl _ (hvalid.2 u hu)

end Time

section Groups
variable {o : EmbeddedMemoryOptions} {p : Projection} {claim other kept : MemoryClaim}

theorem Projection.active_ids (h : p.Keyed) : (p.active.map (·.id)).Nodup := by
  have hvalues : (p.claims.values.map (·.id)).Nodup := Projection.values_ids h ▸ p.claims.nodup
  exact hvalues.sublist (List.filter_sublist.map _)

theorem eq_of_id_eq (h : p.Keyed) (hclaim : claim ∈ p.active) (hother : other ∈ p.active)
    (hid : claim.id = other.id) : claim = other :=
  List.inj_on_of_nodup_map (Projection.active_ids h) hclaim hother hid

theorem mem_duplicates : other ∈ duplicates o p claim ↔
    other ∈ p.active ∧ duplicateKey o other = duplicateKey o claim := by
  simp [duplicates]

theorem duplicates_congr (h : duplicateKey o claim = duplicateKey o other) :
    duplicates o p claim = duplicates o p other := by
  rw [duplicates, duplicates, h]

theorem keptOf_congr (h : duplicateKey o claim = duplicateKey o other) :
    keptOf o p claim = keptOf o p other := by
  rw [keptOf, keptOf, duplicates_congr h]

theorem mem_of_keptOf (h : keptOf o p claim = some kept) :
    kept ∈ p.active ∧ duplicateKey o kept = duplicateKey o claim :=
  mem_duplicates.mp (mem_sortBy.mp (List.mem_of_mem_head? h))

theorem exists_keptOf (hclaim : claim ∈ p.active) : ∃ kept, keptOf o p claim = some kept := by
  cases hkept : keptOf o p claim with
  | some kept => exact ⟨kept, rfl⟩
  | none =>
    have hmem : claim ∈ sortBy (recordedFirst o) (duplicates o p claim) :=
      mem_sortBy.mpr (mem_duplicates.mpr ⟨hclaim, rfl⟩)
    rw [List.head?_eq_none_iff.mp hkept] at hmem
    cases hmem

theorem keptOf_kept (h : keptOf o p claim = some kept) : keptOf o p kept = some kept :=
  (keptOf_congr (mem_of_keptOf h).2).trans h

theorem duplicateKey_of_tripleOf (h : tripleOf o claim = tripleOf o other) :
    duplicateKey o claim = duplicateKey o other := by
  obtain ⟨hkind, hrest⟩ := Prod.mk.inj h
  obtain ⟨hsubject, hstatement⟩ := Prod.mk.inj hrest
  rw [duplicateKey, duplicateKey, hkind, hsubject, hstatement]

def mergesOf (o : EmbeddedMemoryOptions) (p : Projection) : List (MemoryMerge × List MemoryEvent) :=
  (p.groups o).values.filterMap (Projection.mergeGroup o)

def mergeEvent (kept duplicate : MemoryClaim) : MemoryEvent :=
  .claimSuperseded duplicate.id kept.id (some "consolidation merged a duplicate statement")

theorem mem_mergesOf {merge : MemoryMerge × List MemoryEvent} : merge ∈ mergesOf o p ↔
    ∃ kept first rest, kept ∈ p.active ∧
      sortBy (recordedFirst o) (duplicates o p kept) = kept :: first :: rest ∧
      merge = (⟨kept.id, (first :: rest).map (·.id)⟩, (first :: rest).map (mergeEvent kept)) := by
  have hgroups : p.groups o = OrderedMap.group (duplicateKey o) p.active := rfl
  simp only [mergesOf, List.mem_filterMap, hgroups, OrderedMap.mem_values_group]
  constructor
  · rintro ⟨group, ⟨key, rfl, hne⟩, hmerge⟩
    unfold Projection.mergeGroup at hmerge
    split at hmerge
    · cases hmerge
    next hlength =>
    split at hmerge
    · cases hmerge
    next kept superseded hsorted =>
    have hmem : kept ∈ p.active.filter (duplicateKey o · = key) :=
      mem_sortBy.mp (hsorted ▸ List.mem_cons_self)
    obtain ⟨hactive, hkey⟩ := List.mem_filter.mp hmem
    have hkey : duplicateKey o kept = key := by simpa using hkey
    subst hkey
    have hcount := congrArg List.length hsorted
    rw [sortBy, List.length_insertionSort, List.length_cons] at hcount
    cases superseded with
    | nil => simp at hcount; omega
    | cons first rest => exact ⟨kept, first, rest, hactive, hsorted, (Option.some.inj hmerge).symm⟩
  · rintro ⟨kept, first, rest, hactive, hsorted, rfl⟩
    refine ⟨duplicates o p kept, ⟨duplicateKey o kept, rfl, ?_⟩, ?_⟩
    · exact List.ne_nil_of_mem (mem_duplicates.mpr ⟨hactive, rfl⟩)
    · have hcount := congrArg List.length hsorted
      rw [sortBy, List.length_insertionSort, List.length_cons, List.length_cons] at hcount
      unfold Projection.mergeGroup
      rw [if_neg (by omega)]
      have hsorted' : sortBy (fun a b => (o.unicode.localeCompare a.recordedAt b.recordedAt).then
          (o.unicode.localeCompare a.id b.id)) (duplicates o p kept) = kept :: first :: rest :=
        hsorted
      rw [hsorted']
      rfl

end Groups

section After
variable {o : EmbeddedMemoryOptions} {p : Projection} {claim kept : MemoryClaim} {id : String}
  {events : List MemoryEvent} {report : MemoryConsolidationReport} {now : String}

def MemoryEvent.supersedes (event : MemoryEvent) (id : String) : Bool :=
  match event with
  | .claimSuperseded claimId _ _ => claimId = id
  | _ => false

/-- The events of a consolidation: claims that are superseded, and the report at the end. -/
def MemoryEvent.merges : MemoryEvent → Bool
  | .claimSuperseded .. | .consolidationCompleted _ => true
  | _ => false

def superseded (claim : MemoryClaim) (superseded : Bool) : MemoryClaim :=
  if superseded ∧ claim.status = .active then { claim with status := .superseded } else claim

theorem superseded_superseded (claim : MemoryClaim) (a b : Bool) :
    superseded (superseded claim a) b = superseded claim (a || b) := by
  unfold superseded
  cases a <;> cases b <;> by_cases h : claim.status = .active <;> simp [h]

theorem get_replay_merge {event : MemoryEvent} (h : event.merges) :
    (p.replay o event).claims.get id =
      (p.claims.get id).map fun claim => superseded claim (event.supersedes id) := by
  have hsame : ∀ claims : Option MemoryClaim, claims = claims.map fun claim =>
      superseded claim false := fun claims => by simp [superseded]
  cases event with
  | claimRecorded | claimRetracted | observationRecorded | healthChanged => cases h
  | consolidationCompleted => exact hsame _
  | claimSuperseded claimId supersededBy reason =>
    by_cases hstatus : p.statusOf claimId = some .active
    · obtain ⟨claim, hclaim, hactive⟩ := Option.map_eq_some_iff.mp hstatus
      rw [Projection.replay_superseded hclaim hactive, OrderedMap.get_set]
      by_cases hid : id = claimId
      · subst hid
        simp [hclaim, superseded, MemoryEvent.supersedes, hactive]
      · simpa [hid, Ne.symm hid, MemoryEvent.supersedes] using hsame _
    · rw [Projection.replay_superseded_none hstatus]
      by_cases hid : claimId = id
      · subst hid
        cases hclaim : p.claims.get claimId with
        | none => rfl
        | some claim =>
          have hactive : claim.status ≠ .active := fun hactive =>
            hstatus (by simp [Projection.statusOf, hclaim, hactive])
          simp [superseded, hactive]
      · simpa [hid, MemoryEvent.supersedes] using hsame _

theorem get_foldl_merge (h : ∀ event ∈ events, event.merges) :
    (events.foldl (Projection.replay o) p).claims.get id =
      (p.claims.get id).map fun claim => superseded claim (events.any (·.supersedes id)) := by
  induction events generalizing p with
  | nil => simp [superseded]
  | cons event events ih =>
    rw [List.foldl_cons, ih fun e he => h e (List.mem_cons_of_mem _ he),
      get_replay_merge (h event List.mem_cons_self), Option.map_map, List.any_cons]
    congr 1
    funext claim
    exact superseded_superseded ..

theorem mem_active : claim ∈ p.active ↔
    (∃ id, p.claims.get id = some claim) ∧ claim.status = .active := by
  rw [Projection.active, List.mem_filter, OrderedMap.mem_values_iff, decide_eq_true_iff]

theorem mem_active_foldl (hkeyed : p.Keyed) (h : ∀ event ∈ events, event.merges) :
    claim ∈ (events.foldl (Projection.replay o) p).active ↔
      claim ∈ p.active ∧ events.any (·.supersedes claim.id) = false := by
  simp only [mem_active, get_foldl_merge h]
  constructor
  · rintro ⟨⟨id, hget⟩, hactive⟩
    obtain ⟨before, hbefore, rfl⟩ := Option.map_eq_some_iff.mp hget
    unfold superseded at hactive ⊢
    split at hactive
    · cases hactive
    · next hnot =>
      rw [if_neg hnot]
      have hid := hkeyed id before hbefore
      refine ⟨⟨⟨id, hbefore⟩, hactive⟩, ?_⟩
      rw [hid]
      simpa [hactive] using hnot
  · rintro ⟨⟨⟨id, hget⟩, hactive⟩, hnot⟩
    have hid := hkeyed id claim hget
    rw [hid] at hnot
    exact ⟨⟨id, by simp [hget, superseded, hnot]⟩, hactive⟩

theorem consolidateNow_ok (h : p.consolidateNow o now = .ok (events, report)) :
    report.merged = (mergesOf o p).map Prod.fst ∧ (∀ event ∈ events, event.merges) ∧
      ∀ id, events.any (·.supersedes id) =
        ((mergesOf o p).map Prod.snd).flatten.any (·.supersedes id) := by
  have hmerges : ∀ event ∈ ((mergesOf o p).map Prod.snd).flatten, event.merges := by
    intro event hevent
    obtain ⟨batch, hbatch, hevent⟩ := List.mem_flatten.mp hevent
    obtain ⟨merge, hmerge, rfl⟩ := List.mem_map.mp hbatch
    obtain ⟨kept, first, rest, -, -, rfl⟩ := mem_mergesOf.mp hmerge
    obtain ⟨duplicate, -, rfl⟩ := List.mem_map.mp hevent
    rfl
  unfold Projection.consolidateNow at h
  rw [← mergesOf] at h
  simp only at h
  split at h
  · next hnone =>
    cases h
    exact ⟨rfl, by simp, fun id => by rw [hnone]⟩
  · simp only [bind, Except.bind] at h
    split at h
    · cases h
    · next parsed hparse =>
      cases h
      obtain rfl := parse_eq_ok hparse
      refine ⟨rfl, fun event hevent => ?_, fun id => ?_⟩
      · obtain hevent | hevent := List.mem_append.mp hevent
        · exact hmerges event hevent
        · rw [List.mem_singleton.mp hevent]
          rfl
      · simp [MemoryEvent.supersedes]

end After

section Outcome
variable {o : EmbeddedMemoryOptions} {p p' : Projection} {claim kept : MemoryClaim} {now : String}
  {events : List MemoryEvent} {report : MemoryConsolidationReport}

theorem nodup_sorted (h : p.Keyed) (claim : MemoryClaim) :
    (sortBy (recordedFirst o) (duplicates o p claim)).Nodup :=
  (List.perm_insertionSort ..).nodup_iff.mpr
    ((List.Nodup.of_map _ (Projection.active_ids h)).filter _)

theorem keptOf_sorted {rest : List MemoryClaim}
    (h : sortBy (recordedFirst o) (duplicates o p claim) = kept :: rest) :
    keptOf o p claim = some kept := by
  rw [keptOf, h]
  rfl

/-- An active claim is superseded exactly when another one of its key is kept. -/
theorem superseded_iff (hkeyed : p.Keyed) (hclaim : claim ∈ p.active) :
    ((mergesOf o p).map Prod.snd).flatten.any (·.supersedes claim.id) ↔
      keptOf o p claim ≠ some claim := by
  rw [List.any_eq_true]
  constructor
  · rintro ⟨event, hevent, hsupersedes⟩
    obtain ⟨batch, hbatch, hevent⟩ := List.mem_flatten.mp hevent
    obtain ⟨merge, hmerge, rfl⟩ := List.mem_map.mp hbatch
    obtain ⟨kept, first, rest, hkept, hsorted, rfl⟩ := mem_mergesOf.mp hmerge
    obtain ⟨duplicate, hduplicate, rfl⟩ := List.mem_map.mp hevent
    have hmem := mem_duplicates.mp (mem_sortBy.mp (hsorted ▸ List.mem_cons_of_mem _ hduplicate))
    have hid : duplicate.id = claim.id := by
      simpa [MemoryEvent.supersedes, mergeEvent] using hsupersedes
    obtain rfl := eq_of_id_eq hkeyed hmem.1 hclaim hid
    rw [keptOf_congr hmem.2, keptOf_sorted hsorted]
    rintro heq
    obtain rfl := Option.some.inj heq
    have hnodup := nodup_sorted (o := o) hkeyed kept
    rw [hsorted, List.nodup_cons] at hnodup
    exact hnodup.1 hduplicate
  · intro hne
    obtain ⟨kept, hkept⟩ := exists_keptOf hclaim
    have hdiffer : claim ≠ kept := fun heq => hne (hkept.trans (congrArg some heq.symm))
    obtain ⟨hactive, hkey⟩ := mem_of_keptOf hkept
    obtain ⟨rest, hsorted⟩ := List.head?_eq_some_iff.mp (keptOf_kept hkept)
    have hmem : claim ∈ rest := by
      have hin : claim ∈ sortBy (recordedFirst o) (duplicates o p kept) :=
        mem_sortBy.mpr (mem_duplicates.mpr ⟨hclaim, hkey.symm⟩)
      rw [hsorted] at hin
      exact (List.mem_cons.mp hin).resolve_left hdiffer
    cases rest with
    | nil => cases hmem
    | cons first rest =>
      exact ⟨mergeEvent kept claim, List.mem_flatten.mpr ⟨_, List.mem_map.mpr ⟨_,
        mem_mergesOf.mpr ⟨kept, first, rest, hactive, hsorted, rfl⟩, rfl⟩,
        List.mem_map_of_mem hmem⟩, by simp [mergeEvent, MemoryEvent.supersedes]⟩

theorem active_after (hkeyed : p.Keyed) (h : p.consolidateNow o now = .ok (events, report)) :
    claim ∈ (events.foldl (Projection.replay o) p).active ↔
      claim ∈ p.active ∧ keptOf o p claim = some claim := by
  obtain ⟨-, hmerges, hsame⟩ := consolidateNow_ok h
  rw [mem_active_foldl hkeyed hmerges, hsame]
  refine and_congr_right fun hclaim => ?_
  rw [← Bool.not_eq_true, superseded_iff hkeyed hclaim, not_not]

theorem consolidateNow_settled (hkeyed : p.Keyed)
    (h : ∀ claim ∈ p.active, keptOf o p claim = some claim) (now : String) :
    p.consolidateNow o now = .ok ([], ⟨p.active.length, [], now⟩) := by
  have hnone : mergesOf o p = [] := by
    refine List.eq_nil_iff_forall_not_mem.mpr fun merge hmerge => ?_
    obtain ⟨kept, first, rest, hkept, hsorted, -⟩ := mem_mergesOf.mp hmerge
    have hfirst := mem_duplicates.mp (mem_sortBy.mp
      (hsorted ▸ List.mem_cons_of_mem _ List.mem_cons_self : first ∈ _))
    have hsame := (h first hfirst.1).symm.trans
      ((keptOf_congr hfirst.2).trans (keptOf_sorted hsorted))
    have hnodup := nodup_sorted (o := o) hkeyed kept
    rw [hsorted, List.nodup_cons] at hnodup
    exact hnodup.1 (Option.some.inj hsame ▸ List.mem_cons_self)
  unfold Projection.consolidateNow
  rw [← mergesOf, hnone]
  rfl

/-- The merges of a consolidation leave one claim of each group active. -/
theorem one_after (hkeyed : p.Keyed) (h : p.consolidateNow o now = .ok (events, report)) :
    ∀ merge ∈ report.merged, ∀ id ∈ merge.kept :: merge.superseded,
      (events.foldl (Projection.replay o) p).statusOf id = some .active ↔ id = merge.kept := by
  intro merge hmerge id hid
  rw [(consolidateNow_ok h).1] at hmerge
  obtain ⟨pair, hpair, rfl⟩ := List.mem_map.mp hmerge
  obtain ⟨kept, first, rest, hkept, hsorted, rfl⟩ := mem_mergesOf.mp hpair
  have hids : id ∈ (kept :: first :: rest).map (·.id) := hid
  obtain ⟨claim, hclaim, rfl⟩ := List.mem_map.mp hids
  have hmem := mem_duplicates.mp (mem_sortBy.mp (hsorted ▸ hclaim))
  have hkeptOf : keptOf o p claim = some kept :=
    (keptOf_congr hmem.2).trans (keptOf_sorted hsorted)
  have hkeyed' : (events.foldl (Projection.replay o) p).Keyed := Projection.keyed_foldl hkeyed
  constructor
  · intro hstatus
    obtain ⟨claim', hget, hactive⟩ := Option.map_eq_some_iff.mp hstatus
    have hafter := (active_after hkeyed h).mp (mem_active.mpr ⟨⟨_, hget⟩, hactive⟩)
    obtain rfl := eq_of_id_eq hkeyed hafter.1 hmem.1 (hkeyed' _ _ hget)
    rw [Option.some.inj (hafter.2.symm.trans hkeptOf)]
  · intro heq
    obtain rfl := eq_of_id_eq hkeyed hmem.1 hkept heq
    exact Projection.statusOf_active hkeyed' ((active_after hkeyed h).mpr ⟨hkept, hkeptOf⟩)

theorem again_after (hkeyed : p.Keyed) (h : p.consolidateNow o now = .ok (events, report)) :
    ∀ claim ∈ (events.foldl (Projection.replay o) p).active,
      keptOf o (events.foldl (Projection.replay o) p) claim = some claim := by
  intro claim hclaim
  obtain ⟨kept, hkept⟩ := exists_keptOf (o := o) hclaim
  obtain ⟨hactive, hkey⟩ := mem_of_keptOf hkept
  have hsame := ((active_after hkeyed h).mp hactive).2.symm.trans
    ((keptOf_congr hkey).trans ((active_after hkeyed h).mp hclaim).2)
  rw [hkept, Option.some.inj hsame]

theorem exists_merge (h : p.consolidateNow o now = .ok (events, report))
    (hclaim : claim ∈ p.active) (hkept : keptOf o p claim = some kept) (hne : claim ≠ kept) :
    ∃ merge ∈ report.merged, claim.id ∈ merge.superseded ∧ merge.kept = kept.id := by
  obtain ⟨hactive, hkey⟩ := mem_of_keptOf hkept
  obtain ⟨rest, hsorted⟩ := List.head?_eq_some_iff.mp (keptOf_kept hkept)
  have hin : claim ∈ sortBy (recordedFirst o) (duplicates o p kept) :=
    mem_sortBy.mpr (mem_duplicates.mpr ⟨hclaim, hkey.symm⟩)
  rw [hsorted] at hin
  have hmem := (List.mem_cons.mp hin).resolve_left hne
  cases rest with
  | nil => cases hmem
  | cons first rest =>
    refine ⟨⟨kept.id, (first :: rest).map (·.id)⟩, ?_, List.mem_map_of_mem hmem, rfl⟩
    rw [(consolidateNow_ok h).1]
    exact List.mem_map.mpr ⟨_, mem_mergesOf.mpr ⟨kept, first, rest, hactive, hsorted, rfl⟩, rfl⟩

theorem get_of_mem_active (hkeyed : p.Keyed) (hclaim : claim ∈ p.active) :
    p.claims.get claim.id = some claim := by
  obtain ⟨⟨id, hget⟩, -⟩ := mem_active.mp hclaim
  rw [hkeyed id claim hget]
  exact hget

/-- Only claims that tell the same are merged, where what is merged tells what is kept. -/
theorem equal_of_mergeable (h : p.consolidateNow o now = .ok (events, report)) (hkeyed : p.Keyed)
    (hmergeable : Mergeable o p) : ∀ merge ∈ report.merged, ∀ id ∈ merge.superseded, ∃ claim kept,
      p.claims.get id = some claim ∧ p.claims.get merge.kept = some kept ∧
        tripleOf o claim = tripleOf o kept := by
  intro merge hmerge id hid
  rw [(consolidateNow_ok h).1] at hmerge
  obtain ⟨pair, hpair, rfl⟩ := List.mem_map.mp hmerge
  obtain ⟨kept, first, rest, hkept, hsorted, rfl⟩ := mem_mergesOf.mp hpair
  obtain ⟨claim, hclaim, rfl⟩ := List.mem_map.mp hid
  have hmem := mem_duplicates.mp (mem_sortBy.mp (hsorted ▸ List.mem_cons_of_mem _ hclaim))
  have hkeptOf := (keptOf_congr hmem.2).trans (keptOf_sorted hsorted)
  exact ⟨claim, kept, get_of_mem_active hkeyed hmem.1, get_of_mem_active hkeyed hkept,
    (hmergeable claim hmem.1 kept hkeptOf).1⟩

theorem consolidated_iff_mergeable (hkeyed : p.Keyed)
    (h : p.consolidateNow o now = .ok (events, report)) :
    Consolidated o p (events.foldl (Projection.replay o) p) report ↔ Mergeable o p := by
  constructor
  · intro hconsolidated claim hclaim kept hkept
    obtain ⟨hactive, hkey⟩ := mem_of_keptOf hkept
    have htriple : tripleOf o claim = tripleOf o kept := by
      by_cases hsame : claim = kept
      · rw [hsame]
      · obtain ⟨merge, hmerge, hid, hmergeKept⟩ := exists_merge h hclaim hkept hsame
        obtain ⟨claim', kept', hclaim', hkept', htriple⟩ :=
          hconsolidated.equal merge hmerge claim.id hid
        rw [hmergeKept, get_of_mem_active hkeyed hactive] at hkept'
        rw [get_of_mem_active hkeyed hclaim] at hclaim'
        rw [Option.some.inj hclaim', Option.some.inj hkept']
        exact htriple
    refine ⟨htriple, within_iff.mpr fun time hvalid => ?_⟩
    -- the one claim that still tells the same at that time is the one that is kept
    obtain ⟨found, hfound, hvalid', htriple'⟩ :=
      (hconsolidated.lossless time (tripleOf o claim)).mpr ⟨claim, hclaim, hvalid, rfl⟩
    have hfoundOf := ((active_after hkeyed h).mp hfound).2
    rw [keptOf_congr (duplicateKey_of_tripleOf htriple'), hkept] at hfoundOf
    rw [Option.some.inj hfoundOf]
    exact hvalid'
  · intro hmergeable
    refine ⟨fun time triple => ⟨?_, ?_⟩, equal_of_mergeable h hkeyed hmergeable,
      one_after hkeyed h, ?_⟩
    · rintro ⟨claim, hclaim, htells⟩
      exact ⟨claim, ((active_after hkeyed h).mp hclaim).1, htells⟩
    · rintro ⟨claim, hclaim, hvalid, rfl⟩
      obtain ⟨kept, hkept⟩ := exists_keptOf (o := o) hclaim
      obtain ⟨htriple, hwithin⟩ := hmergeable claim hclaim kept hkept
      exact ⟨kept, (active_after hkeyed h).mpr ⟨(mem_of_keptOf hkept).1, keptOf_kept hkept⟩,
        within_iff.mp hwithin time hvalid, htriple.symm⟩
    · exact consolidateNow_settled (Projection.keyed_foldl hkeyed) (again_after hkeyed h)

end Outcome

/-- A consolidation of any memory loses nothing, merges only what is equal, leaves one claim of each
merged group active and has nothing left to merge, exactly where the active claims of one key tell
what the first of them tells, at times at which that one holds. -/
theorem consolidated_iff (o : EmbeddedMemoryOptions) (stream : List MemoryEvent) (now : String)
    (events : List MemoryEvent) (report : MemoryConsolidationReport)
    (h : (replayAll o stream).consolidateNow o now = .ok (events, report)) :
    Consolidated o (replayAll o stream) (replayAll o (stream ++ events)) report ↔
      Mergeable o (replayAll o stream) := by
  rw [replayAll_append]
  exact consolidated_iff_mergeable (Projection.keyed_foldl (by simp [Projection.Keyed])) h

section Sample

def seasonalOptions : EmbeddedMemoryOptions :=
  { sampleOptions with unicode := { sampleOptions.unicode with lower := id } }

/-- A claim that held for January, and the same claim again from March on. -/
def seasonalStream : List MemoryEvent :=
  [.claimRecorded { sampleClaim with
      validTime := ⟨"2026-01-01T00:00:00Z", some "2026-02-01T00:00:00Z"⟩ },
    .claimRecorded { sampleClaim with
      id := "8c2d1e5a-0000-4000-8000-000000000002"
      validTime := ⟨"2026-03-01T00:00:00Z", none⟩
      recordedAt := "2026-03-01T00:00:00Z" }]

theorem seasonal_consolidates : ∃ events report,
    (replayAll seasonalOptions seasonalStream).consolidateNow seasonalOptions
      "2026-04-01T00:00:00Z" = .ok (events, report) := by
  have hok : ((replayAll seasonalOptions seasonalStream).consolidateNow seasonalOptions
      "2026-04-01T00:00:00Z").isOk = true := by decide +kernel
  cases h : (replayAll seasonalOptions seasonalStream).consolidateNow seasonalOptions
      "2026-04-01T00:00:00Z" with
  | error e =>
    rw [h] at hok
    cases hok
  | ok result => exact ⟨result.1, result.2, rfl⟩

theorem consolidated_iff_sample : ∃ events report,
    Consolidated seasonalOptions (replayAll seasonalOptions seasonalStream)
        (replayAll seasonalOptions (seasonalStream ++ events)) report ↔
      Mergeable seasonalOptions (replayAll seasonalOptions seasonalStream) := by
  obtain ⟨events, report, h⟩ := seasonal_consolidates
  exact ⟨events, report, consolidated_iff seasonalOptions seasonalStream _ events report h⟩

/-- What holds from March on is merged into what held in January, and is lost. -/
theorem later_validity_lost : ∃ events report,
    (replayAll seasonalOptions seasonalStream).consolidateNow seasonalOptions
      "2026-04-01T00:00:00Z" = .ok (events, report) ∧
    ¬ Consolidated seasonalOptions (replayAll seasonalOptions seasonalStream)
      (events.foldl (Projection.replay seasonalOptions) (replayAll seasonalOptions seasonalStream))
      report := by
  obtain ⟨events, report, h⟩ := seasonal_consolidates
  refine ⟨events, report, h, fun hconsolidated => ?_⟩
  have hkeyed : (replayAll seasonalOptions seasonalStream).Keyed :=
    Projection.keyed_foldl (by simp [Projection.Keyed])
  have hmergeable := (consolidated_iff_mergeable hkeyed h).mp hconsolidated
  have hactive : (replayAll seasonalOptions seasonalStream).active.map (fun claim =>
      ((keptOf seasonalOptions (replayAll seasonalOptions seasonalStream) claim).map
        fun kept => kept.validTime.to_, claim.validTime.to_)) =
      [(some (some "2026-02-01T00:00:00Z"), some "2026-02-01T00:00:00Z"),
        (some (some "2026-02-01T00:00:00Z"), none)] := by decide +kernel
  obtain ⟨claim, hclaim, hpair⟩ := List.mem_map.mp
    (hactive ▸ List.mem_cons_of_mem _ List.mem_cons_self :
      (some (some "2026-02-01T00:00:00Z"), none) ∈ _)
  obtain ⟨hkept, hto⟩ := Prod.mk.inj hpair
  obtain ⟨kept, hkeptOf, hkeptTo⟩ := Option.map_eq_some_iff.mp hkept
  obtain ⟨u, hu, -⟩ | ⟨-, hwithin⟩ := (hmergeable claim hclaim kept hkeptOf).2
  · rw [hto] at hu
    cases hu
  · obtain ⟨v, hv, -⟩ := hwithin _ hkeptTo
    rw [hto] at hv
    cases hv

end Sample

end BeeAgent.Memory
