import BeeAgent.Kernel.Reconcile
import BeeAgent.Data.Canonical
import Mathlib.Logic.Relation

/-! Live updates: what a plan lets through, and what one call of `updateInPlace` leaves however its
awaits settle. -/
namespace BeeAgent.Structure
open BeeAgent.Data

/-! ### What the plan lets through -/

def descriptorText (plugin : RuntimePlugin) : String := canonicalJson (pluginDescriptor plugin)

/-- Two descriptors that differ have one hash. -/
def Collide (sha256 : String → String) (before after : RuntimePlugin) : Prop :=
  descriptorText before ≠ descriptorText after ∧
    sha256 (descriptorText before) = sha256 (descriptorText after)

/-- Two plugins of tier a differ in nothing but their configuration. -/
structure ConfiguredOnly (before after : RuntimePlugin) : Prop where
  id : before.id = after.id
  version : before.version = after.version
  inject : before.inject = after.inject
  provides : before.provides = after.provides
  tierBefore : before.replacementTier = some .a
  tierAfter : after.replacementTier = some .a

/-- Plugins with one topology agree in all that is not configuration or tier. -/
theorem topologyDescriptor_inj {before after : RuntimePlugin}
    (h : canonicalJson (topologyDescriptor before) = canonicalJson (topologyDescriptor after)) :
    before.id = after.id ∧ before.version = after.version ∧ before.inject = after.inject ∧
      before.provides = after.provides := by
  obtain ⟨v, hv, hid⟩ := @exists_field_of_canonicalJson _ _ h "id" (.string before.id) (by simp)
  obtain rfl : v = .string after.id := by simpa using hv
  obtain ⟨v, hv, hversion⟩ :=
    @exists_field_of_canonicalJson _ _ h "version" (.string before.version) (by simp)
  obtain rfl : v = .string after.version := by simpa using hv
  obtain ⟨v, hv, hinject⟩ := @exists_field_of_canonicalJson _ _ h "inject"
    (before.inject.elim .undefined strings) (by simp)
  obtain rfl : v = after.inject.elim .undefined strings := by simpa using hv
  obtain ⟨v, hv, hprovides⟩ := @exists_field_of_canonicalJson _ _ h "provides"
    (before.provides.elim .undefined strings) (by simp)
  obtain rfl : v = after.provides.elim .undefined strings := by simpa using hv
  exact ⟨(string_of_canonicalJson hid).symm, (string_of_canonicalJson hversion).symm,
    (optionalStrings_inj hinject).symm, (optionalStrings_inj hprovides).symm⟩

section Plan
variable {sha256 : String → String} {current incoming : List RuntimePlugin} {id : String}
  {before after : RuntimePlugin}

theorem replacementTier_eq_a (h : replacementTier (some before) (some after) = .a) :
    before.replacementTier = some .a ∧ after.replacementTier = some .a := by
  unfold replacementTier at h
  cases hbefore : before.replacementTier with
  | none => cases hafter : after.replacementTier with
    | none => simp [hbefore, hafter] at h
    | some tier => cases tier <;> simp [hbefore, hafter] at h
  | some tier => cases hafter : after.replacementTier with
    | none => cases tier <;> simp [hbefore, hafter] at h
    | some tier' => cases tier <;> cases tier' <;> simp [hbefore, hafter] at h ⊢

theorem raised_ne_a (tier : ReplacementTier) : raised tier ≠ .a := by
  cases tier <;> decide

theorem pluginChange_configured
    (h : ∀ change, pluginChange? sha256 current incoming id = some change →
      change.tier = .a ∧ change.kind = .configured) :
    ∃ before after, byId current id = some before ∧ byId incoming id = some after ∧
      (pluginDescriptorDigest sha256 before = pluginDescriptorDigest sha256 after ∨
        ConfiguredOnly before after) := by
  unfold pluginChange? at h
  cases hbefore : byId current id with
  | none =>
    simp only [hbefore] at h
    cases (h _ rfl).2
  | some before =>
    cases hafter : byId incoming id with
    | none =>
      simp only [hbefore, hafter] at h
      cases (h _ rfl).2
    | some after =>
      refine ⟨before, after, rfl, rfl, ?_⟩
      simp only [hbefore, hafter] at h
      by_cases hdigest :
          pluginDescriptorDigest sha256 before = pluginDescriptorDigest sha256 after
      · exact .inl hdigest
      · rw [if_neg hdigest] at h
        by_cases htopology : canonicalJson (topologyDescriptor before) =
            canonicalJson (topologyDescriptor after)
        · rw [if_pos htopology] at h
          obtain ⟨hid, hversion, hinject, hprovides⟩ := topologyDescriptor_inj htopology
          obtain ⟨hbefore, hafter⟩ := replacementTier_eq_a (h _ rfl).1
          exact .inr ⟨hid, hversion, hinject, hprovides, hbefore, hafter⟩
        · rw [if_neg htopology] at h
          exact absurd (h _ rfl).1 (raised_ne_a _)

theorem byId_ne_none_iff {plugins : List RuntimePlugin} :
    byId plugins id ≠ none ↔ id ∈ plugins.map RuntimePlugin.id := by
  simp [byId]

theorem liveUpdate_changes (h : (createReconcilePlan sha256 current incoming).kind = .liveUpdate)
    (hid : id ∈ (current ++ incoming).map RuntimePlugin.id) (change : PluginChange)
    (hchange : pluginChange? sha256 current incoming id = some change) :
    change.tier = .a ∧ change.kind = .configured := by
  unfold createReconcilePlan at h
  simp only at h
  split at h
  · cases h
  split at h
  · cases h
  split at h
  · next hall =>
    have hmem := List.all_eq_true.mp hall change
      (List.mem_filterMap.mpr ⟨id, List.mem_eraseDups.mpr hid, hchange⟩)
    simpa using hmem
  · cases h

theorem descriptorText_of_digest
    (h : pluginDescriptorDigest sha256 before = pluginDescriptorDigest sha256 after) :
    descriptorText before = descriptorText after ∨ Collide sha256 before after := by
  by_cases hsame : descriptorText before = descriptorText after
  · exact .inl hsame
  · exact .inr ⟨hsame, (String.append_right_inj _).mp h⟩

/-- A live update keeps the ids, and what differs is configured at tier a. -/
theorem liveUpdate_configuredOnly
    (h : (createReconcilePlan sha256 current incoming).kind = .liveUpdate) :
    (∀ id, id ∈ current.map RuntimePlugin.id ↔ id ∈ incoming.map RuntimePlugin.id) ∧
    ∀ id before after, byId current id = some before → byId incoming id = some after →
      pluginDescriptorDigest sha256 before ≠ pluginDescriptorDigest sha256 after →
      ConfiguredOnly before after := by
  have hboth : ∀ id ∈ (current ++ incoming).map RuntimePlugin.id, ∃ before after,
      byId current id = some before ∧ byId incoming id = some after ∧
        (pluginDescriptorDigest sha256 before = pluginDescriptorDigest sha256 after ∨
          ConfiguredOnly before after) := fun id hid =>
    pluginChange_configured (liveUpdate_changes h hid)
  constructor
  · intro id
    rw [List.map_append] at hboth
    constructor
    · intro hid
      obtain ⟨_, after, -, hafter, -⟩ := hboth id (List.mem_append_left _ hid)
      exact byId_ne_none_iff.mp (by simp [hafter])
    · intro hid
      obtain ⟨before, _, hbefore, -⟩ := hboth id (List.mem_append_right _ hid)
      exact byId_ne_none_iff.mp (by simp [hbefore])
  · intro id before after hbefore hafter hdiffer
    have hid : id ∈ current.map RuntimePlugin.id := byId_ne_none_iff.mp (by simp [hbefore])
    obtain ⟨before', after', hbefore', hafter', hcases⟩ :=
      hboth id (by rw [List.map_append]; exact List.mem_append_left _ hid)
    obtain rfl := Option.some.inj (hbefore.symm.trans hbefore')
    obtain rfl := Option.some.inj (hafter.symm.trans hafter')
    exact hcases.resolve_left hdiffer

end Plan

/-! ### One call of `updateInPlace` -/

section Update
variable (sha256 : String → String) (graph : PluginGraph) (bootstrap : List String)
  (ordered : List RuntimePlugin)

/-- `updateInPlace` up to its first await. -/
def updateInPlace (gen : Generation) : UpdateNext :=
  match validateAndOrder graph.plugins bootstrap with
  | .error error => .failed gen error
  | .ok ordered =>
    if (createReconcilePlan sha256 gen.plugins ordered).kind ≠ .liveUpdate ∨
        gen.references ≠ 0 then
      .failed gen .notEligible
    else updateFrom sha256 graph ordered gen 0 []

/-- One await of the call settles. -/
def UpdateStep (next next' : UpdateNext) : Prop :=
  ∃ gen pc await, next = .goto gen pc ∧
    updateStep sha256 graph ordered gen pc await = some next'

def UpdateRuns : UpdateNext → UpdateNext → Prop :=
  Relation.ReflTransGen (UpdateStep sha256 graph ordered)

/-! #### What becomes of a mounted plugin -/

/-- What a mounted plugin is changed to. -/
def change (m : MountedPlugin) : Option RuntimePlugin :=
  match byId ordered m.spec.id with
  | none => none
  | some after =>
    if pluginDescriptorDigest sha256 after = pluginDescriptorDigest sha256 m.spec then none
    else some after

/-- The plugin once its fiber has been given the new configuration. -/
def configured (m : MountedPlugin) : MountedPlugin :=
  match change sha256 ordered m with
  | some after => { m with config := after.config }
  | none => m

/-- The plugin once it is updated. -/
def changed (m : MountedPlugin) : MountedPlugin :=
  match change sha256 ordered m with
  | some after => ⟨after, after.config⟩
  | none => m

/-- The plugin once it is rolled back: its fiber has been given what its specification says. -/
def restored (m : MountedPlugin) : MountedPlugin :=
  match change sha256 ordered m with
  | some _ => ⟨m.spec, m.spec.config⟩
  | none => m

/-- The plugins as the update of position `index` leaves them. -/
def updatedAt (index i : ℕ) (m : MountedPlugin) : MountedPlugin :=
  if i < index then changed sha256 ordered m
  else if i = index then configured sha256 ordered m
  else m

def undone (n i : ℕ) (m : MountedPlugin) : MountedPlugin :=
  if i < n then restored sha256 ordered m else m

end Update

section Run
variable {sha256 : String → String} {graph : PluginGraph} {ordered : List RuntimePlugin}
  {start gen : Generation} {m : MountedPlugin} {index i n : ℕ} {updated : List (ℕ × RuntimePlugin)}
  {f g : ℕ → MountedPlugin → MountedPlugin} {error : KernelError} {failures : List String}

theorem changed_of_none (h : change sha256 ordered m = none) : changed sha256 ordered m = m := by
  simp [changed, h]

theorem restored_of_none (h : change sha256 ordered m = none) : restored sha256 ordered m = m := by
  simp [restored, h]

theorem updatedAt_of_none (h : change sha256 ordered m = none) (index i : ℕ) :
    updatedAt sha256 ordered index i m = m := by
  unfold updatedAt
  split
  · exact changed_of_none h
  split
  · simp [configured, h]
  · rfl

/-- A generation differs from another one in its mounted plugins only, and has what `f` makes of
those of the other. -/
structure Holds (start : Generation) (f : ℕ → MountedPlugin → MountedPlugin) (gen : Generation) :
    Prop where
  rest : gen = { start with mounted := gen.mounted }
  mounted : ∀ i, gen.mounted[i]? = (start.mounted[i]?).map (f i)

namespace Holds

theorem refl (start : Generation) : Holds start (fun _ m => m) start :=
  ⟨rfl, fun _ => Option.map_id'.symm ▸ rfl⟩

theorem congr (h : Holds start f gen) (hfg : ∀ i m, start.mounted[i]? = some m → f i m = g i m) :
    Holds start g gen := by
  refine ⟨h.rest, fun i => (h.mounted i).trans ?_⟩
  cases hm : start.mounted[i]? with
  | none => rfl
  | some m => exact congrArg some (hfg i m hm)

theorem setConfig (h : Holds start f gen) (index : ℕ) (config : Option Value) :
    Holds start (Function.update f index fun m => { f index m with config })
      (setConfig gen index config) := by
  refine ⟨?_, fun i => ?_⟩
  · conv_lhs => rw [Structure.setConfig, h.rest]
    rfl
  · simp only [Structure.setConfig, List.getElem?_modify, h.mounted i]
    by_cases hi : index = i
    · subst hi
      simp [Function.comp_def]
    · simp [hi, Function.update_of_ne (Ne.symm hi)]

theorem setSpec (h : Holds start f gen) (index : ℕ) (spec : RuntimePlugin) :
    Holds start (Function.update f index fun m => { f index m with spec })
      (setSpec gen index spec) := by
  refine ⟨?_, fun i => ?_⟩
  · conv_lhs => rw [Structure.setSpec, h.rest]
    rfl
  · simp only [Structure.setSpec, List.getElem?_modify, h.mounted i]
    by_cases hi : index = i
    · subst hi
      simp [Function.comp_def]
    · simp [hi, Function.update_of_ne (Ne.symm hi)]

theorem eq_start (h : Holds start f gen) (hf : ∀ i m, start.mounted[i]? = some m → f i m = m) :
    gen = start := by
  have hmounted : gen.mounted = start.mounted :=
    List.ext_getElem? fun i => ((h.congr hf).mounted i).trans Option.map_id'
  rw [h.rest, hmounted]

end Holds

/-- The plugins before `n` that are changed, by their positions. -/
def Logs (sha256 : String → String) (ordered : List RuntimePlugin) (start : Generation) (n : ℕ)
    (updated : List (ℕ × RuntimePlugin)) : Prop :=
  ∀ e, e ∈ updated ↔ ∃ m, e.1 < n ∧ start.mounted[e.1]? = some m ∧ e.2 = m.spec ∧
    change sha256 ordered m ≠ none

theorem changedFrom_eq (mounted : List MountedPlugin) (index : ℕ) :
    changedFrom sha256 ordered mounted index = (mounted.zipIdx.drop index).findSome? fun e =>
      (change sha256 ordered e.1).map fun after => (e.2, e.1, after) := by
  unfold changedFrom change
  congr 1
  funext e
  cases byId ordered e.1.spec.id with
  | none => rfl
  | some after =>
    simp only
    split <;> rfl

theorem getElem?_zipIdx_drop (mounted : List MountedPlugin) (index k : ℕ) :
    (mounted.zipIdx.drop index)[k]? = (mounted[index + k]?).map fun m => (m, index + k) := by
  simp [List.getElem?_drop, List.getElem?_zipIdx]

theorem changedFrom_cases (mounted : List MountedPlugin) (index : ℕ) :
    changedFrom sha256 ordered mounted index = none ∧
        (∀ i m, index ≤ i → mounted[i]? = some m → change sha256 ordered m = none) ∨
      ∃ i m after, changedFrom sha256 ordered mounted index = some (i, m, after) ∧ index ≤ i ∧
        mounted[i]? = some m ∧ change sha256 ordered m = some after ∧
        ∀ j m, index ≤ j → j < i → mounted[j]? = some m → change sha256 ordered m = none := by
  rw [changedFrom_eq]
  have hplace : ∀ i m, index ≤ i → mounted[i]? = some m →
      (mounted.zipIdx.drop index)[i - index]? = some (m, i) := by
    intro i m hi hm
    rw [getElem?_zipIdx_drop, Nat.add_sub_cancel' hi, hm]
    rfl
  cases hfind : (mounted.zipIdx.drop index).findSome? fun e =>
      (change sha256 ordered e.1).map fun after => (e.2, e.1, after) with
  | none =>
    refine .inl ⟨rfl, fun i m hi hm => ?_⟩
    have hnone := List.findSome?_eq_none_iff.mp hfind (m, i)
      (List.mem_of_getElem? (hplace i m hi hm))
    exact Option.map_eq_none_iff.mp hnone
  | some found =>
    obtain ⟨before, e, rest, hsplit, hfound, hbefore⟩ := List.findSome?_eq_some_iff.mp hfind
    obtain ⟨after, hafter, rfl⟩ := Option.map_eq_some_iff.mp hfound
    have he : (mounted.zipIdx.drop index)[before.length]? = some e := by simp [hsplit]
    rw [getElem?_zipIdx_drop] at he
    obtain ⟨m, hm, rfl⟩ := Option.map_eq_some_iff.mp he
    refine .inr ⟨_, _, after, rfl, Nat.le_add_right .., hm, hafter, fun j m' hj hlt hm' => ?_⟩
    have hplaced := hplace j m' hj hm'
    rw [hsplit, List.getElem?_append_left (by omega)] at hplaced
    exact Option.map_eq_none_iff.mp (hbefore _ (List.mem_of_getElem? hplaced))

/-! #### The rollback -/

/-- Where a rollback stands: only the plugins that remain are not yet as they are to be, and the
fiber of the next one has been given its configuration. -/
structure RollsBack (sha256 : String → String) (ordered : List RuntimePlugin) (start : Generation)
    (n : ℕ) (remaining : List (ℕ × RuntimePlugin)) (gen : Generation) : Prop where
  logged : ∀ e ∈ remaining, ∃ m, e.1 < n ∧ start.mounted[e.1]? = some m ∧ e.2 = m.spec ∧
    change sha256 ordered m ≠ none
  mounted : ∃ f, Holds start f gen ∧ ∀ i m, i ∉ remaining.map Prod.fst →
    start.mounted[i]? = some m → f i m = undone sha256 ordered n i m

/-- What holds of a call that has failed after the first `n` plugins, as long as its rollback
does not fail. -/
def Recovers (sha256 : String → String) (ordered : List RuntimePlugin) (start : Generation)
    (n : ℕ) : UpdateNext → Prop
  | .goto gen (.rollingBack remaining _ failures) => failures = [] →
    ∃ i before rest, remaining = (i, before) :: rest ∧
      RollsBack sha256 ordered start n rest (setSpec gen i before) ∧
      ∀ e ∈ remaining, ∃ m, e.1 < n ∧ start.mounted[e.1]? = some m ∧ e.2 = m.spec ∧
        change sha256 ordered m ≠ none
  | .goto gen (.resettling _ _ failures) => failures = [] →
    Holds start (undone sha256 ordered n) gen
  | .failed gen error => (∀ e failures, error ≠ .rollbackFailed e failures) →
    Holds start (undone sha256 ordered n) gen
  | _ => False

theorem Recovers.resettleFrom (h : failures = [] → Holds start (undone sha256 ordered n) gen)
    (index : ℕ) : Recovers sha256 ordered start n (resettleFrom gen index error failures) := by
  unfold Structure.resettleFrom
  split
  · exact h
  · intro hrecovered
    split at hrecovered
    · next hnone => exact h hnone
    · exact absurd rfl (hrecovered error failures)

theorem Recovers.rollBack {remaining : List (ℕ × RuntimePlugin)}
    (h : failures = [] → RollsBack sha256 ordered start n remaining gen) :
    Recovers sha256 ordered start n (rollBack gen remaining error failures) := by
  cases remaining with
  | nil =>
    refine .resettleFrom (fun hnone => ?_) 0
    obtain ⟨f, hf, hundone⟩ := (h hnone).mounted
    exact hf.congr fun i m hm => hundone i m (by simp) hm
  | cons e rest =>
    obtain ⟨i, before⟩ := e
    intro hnone
    obtain ⟨hlogged, f, hf, hundone⟩ := h hnone
    refine ⟨i, before, rest, rfl, ⟨fun e he => hlogged e (List.mem_cons_of_mem _ he), ?_⟩, hlogged⟩
    refine ⟨_, (hf.setConfig i before.config).setSpec i before, fun j m hj hm => ?_⟩
    by_cases hji : j = i
    · subst hji
      obtain ⟨m', hlt, hm', rfl, hchange⟩ := hlogged (j, before) (List.mem_cons_self ..)
      obtain rfl := Option.some.inj (hm.symm.trans hm')
      obtain ⟨after, hafter⟩ := Option.ne_none_iff_exists'.mp hchange
      simp only at hlt
      simp [undone, hlt, restored, hafter]
    · rw [Function.update_of_ne hji, Function.update_of_ne hji]
      exact hundone j m (by simp [hji, hj]) hm

theorem Recovers.step {next next' : UpdateNext} (h : Recovers sha256 ordered start n next)
    (hstep : UpdateStep sha256 graph ordered next next') :
    Recovers sha256 ordered start n next' := by
  obtain ⟨gen, pc, await, rfl, hstep⟩ := hstep
  cases pc with
  | updating | settling | checking => exact h.elim
  | rollingBack remaining error failures =>
    cases remaining with
    | nil => cases await <;> cases hstep
    | cons e rest =>
      obtain ⟨i, before⟩ := e
      cases await with
      | ok =>
        cases hstep
        refine .rollBack fun hnone => ?_
        obtain ⟨_, _, _, heq, hrolls, -⟩ := h hnone
        cases heq
        exact hrolls
      | thrown message =>
        cases hstep
        exact .rollBack fun hnone => absurd hnone (by simp)
      | unhealthy | cleaned | emitFailed => cases hstep
  | resettling index error failures =>
    cases await with
    | ok =>
      cases hstep
      exact .resettleFrom h _
    | thrown message =>
      cases hstep
      exact .resettleFrom (fun hnone => absurd hnone (by simp)) _
    | unhealthy | cleaned | emitFailed => cases hstep

/-! #### The update -/

/-- What holds of a call as long as it has not failed. -/
def Proceeds (sha256 : String → String) (graph : PluginGraph) (ordered : List RuntimePlugin)
    (start : Generation) : UpdateNext → Prop
  | .goto gen (.updating index updated) =>
    Holds start (updatedAt sha256 ordered index) gen ∧
      Logs sha256 ordered start (index + 1) updated ∧
      ∃ m, start.mounted[index]? = some m ∧ change sha256 ordered m ≠ none
  | .goto gen (.settling _ updated) | .goto gen (.checking _ updated) =>
    Holds start (fun _ => changed sha256 ordered) gen ∧
      Logs sha256 ordered start start.mounted.length updated
  | .commit gen' => ∃ gen, Holds start (fun _ => changed sha256 ordered) gen ∧
      gen' = commitUpdate sha256 graph ordered gen
  | _ => False

theorem Proceeds.settleFrom (h : Holds start (fun _ => changed sha256 ordered) gen)
    (hlogs : Logs sha256 ordered start start.mounted.length updated) (index : ℕ) :
    Proceeds sha256 graph ordered start (settleFrom sha256 graph ordered gen index updated) := by
  unfold Structure.settleFrom
  split
  · exact ⟨h, hlogs⟩
  · exact ⟨gen, h, rfl⟩

theorem Proceeds.updateFrom
    (h : Holds start (fun i m => if i < index then changed sha256 ordered m else m) gen)
    (hlogs : Logs sha256 ordered start index updated) :
    Proceeds sha256 graph ordered start (updateFrom sha256 graph ordered gen index updated) := by
  have hlater : ∀ i m, index ≤ i → (gen.mounted[i]? = some m ↔ start.mounted[i]? = some m) := by
    intro i m hi
    rw [h.mounted i]
    simp [Nat.not_lt.mpr hi]
  unfold Structure.updateFrom
  obtain ⟨hfind, hnone⟩ | ⟨i, m, after, hfind, hi, hm, hafter, hbetween⟩ :=
    @changedFrom_cases sha256 ordered gen.mounted index
  · rw [hfind]
    refine .settleFrom (h.congr fun i m hm => ?_) (fun e => (hlogs e).trans ?_) 0
    · split
      · rfl
      · next hi =>
        have hle := Nat.not_lt.mp hi
        exact (changed_of_none (hnone i m hle ((hlater i m hle).mpr hm))).symm
    · refine exists_congr fun m => ⟨?_, ?_⟩
      · rintro ⟨-, hm, hrest⟩
        exact ⟨(List.getElem?_eq_some_iff.mp hm).1, hm, hrest⟩
      · rintro ⟨-, hm, hspec, hchange⟩
        refine ⟨?_, hm, hspec, hchange⟩
        by_contra hle
        exact hchange (hnone _ m (Nat.not_lt.mp hle) ((hlater _ m (Nat.not_lt.mp hle)).mpr hm))
  · rw [hfind]
    have hmstart := (hlater i m hi).mp hm
    have hchange : change sha256 ordered m ≠ none := by simp [hafter]
    refine ⟨(h.setConfig i after.config).congr fun j m' hm' => ?_, fun e => ?_, m, hmstart, hchange⟩
    · unfold updatedAt
      by_cases hji : j = i
      · subst hji
        obtain rfl := Option.some.inj (hmstart.symm.trans hm')
        simp [configured, hafter, Nat.not_lt.mpr hi]
      · rw [Function.update_of_ne hji]
        by_cases hj : j < index
        · rw [if_pos hj, if_pos (by omega)]
        · rw [if_neg hj]
          split
          · next hlt =>
            have hle := Nat.not_lt.mp hj
            exact (changed_of_none (hbetween j m' hle hlt ((hlater j m' hle).mpr hm'))).symm
          · rfl
    · rw [List.mem_append, List.mem_singleton, hlogs]
      constructor
      · rintro (⟨m', hlt, hrest⟩ | rfl)
        · exact ⟨m', by omega, hrest⟩
        · exact ⟨m, Nat.lt_succ_self i, hmstart, rfl, hchange⟩
      · rintro ⟨m', hlt, hm', hspec, hchange'⟩
        by_cases hindex : e.1 < index
        · exact .inl ⟨m', hindex, hm', hspec, hchange'⟩
        · have hle := Nat.not_lt.mp hindex
          by_cases hlti : e.1 < i
          · exact absurd (hbetween e.1 m' hle hlti ((hlater e.1 m' hle).mpr hm')) hchange'
          · have hei : e.1 = i := by omega
            rw [hei] at hm'
            obtain rfl := Option.some.inj (hmstart.symm.trans hm')
            exact .inr (Prod.ext hei hspec)

theorem change_eq_some {after : RuntimePlugin} (h : change sha256 ordered m = some after) :
    byId ordered m.spec.id = some after := by
  unfold change at h
  split at h
  · cases h
  · next hafter =>
    split at h
    · cases h
    · exact hafter.trans h

theorem RollsBack.of_logs (h : Holds start f gen) (hlogs : Logs sha256 ordered start n updated)
    (hf : ∀ i m, start.mounted[i]? = some m → change sha256 ordered m = none ∨ n ≤ i → f i m = m) :
    RollsBack sha256 ordered start n updated.reverse gen := by
  refine ⟨fun e he => (hlogs e).mp (List.mem_reverse.mp he), f, h, fun i m hi hm => ?_⟩
  have hkept : change sha256 ordered m = none ∨ n ≤ i := by
    by_contra hnot
    obtain ⟨hchange, hlt⟩ := not_or.mp hnot
    have hlogged := (hlogs (i, m.spec)).mpr ⟨m, Nat.not_le.mp hlt, hm, rfl, hchange⟩
    exact hi (List.mem_map_of_mem (List.mem_reverse.mpr hlogged))
  rw [hf i m hm hkept, undone]
  split
  · next hlt => exact (restored_of_none (hkept.resolve_right (Nat.not_le.mpr hlt))).symm
  · rfl

theorem Proceeds.updating_rollsBack {gen : Generation}
    (h : Proceeds sha256 graph ordered start (.goto gen (.updating index updated))) :
    RollsBack sha256 ordered start (index + 1) updated.reverse gen := by
  obtain ⟨hholds, hlogs, -⟩ := h
  refine .of_logs hholds hlogs fun i m _ hkept => ?_
  obtain hnone | hle := hkept
  · exact updatedAt_of_none hnone ..
  · rw [updatedAt, if_neg (by omega), if_neg (by omega)]

theorem rollsBack_of_changed (h : Holds start (fun _ => changed sha256 ordered) gen)
    (hlogs : Logs sha256 ordered start start.mounted.length updated) :
    RollsBack sha256 ordered start start.mounted.length updated.reverse gen := by
  refine .of_logs h hlogs fun i m hm hkept => ?_
  obtain hnone | hle := hkept
  · exact changed_of_none hnone
  · exact absurd (List.getElem?_eq_some_iff.mp hm).1 (Nat.not_lt.mpr hle)

theorem Proceeds.settles_updating {gen : Generation} {next : UpdateNext}
    (h : Proceeds sha256 graph ordered start (.goto gen (.updating index updated)))
    (hstep : updateStep sha256 graph ordered gen (.updating index updated) .ok = some next) :
    Proceeds sha256 graph ordered start next := by
  obtain ⟨hholds, hlogs, m, hm, hchange⟩ := h
  obtain ⟨after, hafter⟩ := Option.ne_none_iff_exists'.mp hchange
  have hmounted : gen.mounted[index]? = some { m with config := after.config } := by
    rw [hholds.mounted index, hm]
    simp [updatedAt, configured, hafter]
  have hspec : (gen.mounted[index]?).bind (fun m => byId ordered m.spec.id) = some after := by
    rw [hmounted]
    exact change_eq_some hafter
  cases hstep
  rw [hspec]
  refine .updateFrom ((hholds.setSpec index after).congr fun j m' hm' => ?_) hlogs
  by_cases hj : j = index
  · subst hj
    obtain rfl := Option.some.inj (hm.symm.trans hm')
    simp [updatedAt, configured, changed, hafter]
  · rw [Function.update_of_ne hj, updatedAt, if_neg hj]
    by_cases hlt : j < index
    · rw [if_pos hlt, if_pos (by omega)]
    · rw [if_neg hlt, if_neg (by omega)]

theorem Proceeds.step {next next' : UpdateNext} (h : Proceeds sha256 graph ordered start next)
    (hstep : UpdateStep sha256 graph ordered next next') :
    Proceeds sha256 graph ordered start next' ∨ ∃ n, Recovers sha256 ordered start n next' := by
  obtain ⟨gen, pc, await, rfl, hstep⟩ := hstep
  cases pc with
  | rollingBack | resettling => exact h.elim
  | updating index updated =>
    cases await with
    | ok => exact .inl (h.settles_updating hstep)
    | thrown message =>
      cases hstep
      exact .inr ⟨_, .rollBack fun _ => h.updating_rollsBack⟩
    | unhealthy | cleaned | emitFailed => cases hstep
  | settling index updated =>
    cases await with
    | ok =>
      cases hstep
      exact .inl h
    | thrown message =>
      cases hstep
      exact .inr ⟨_, .rollBack fun _ => rollsBack_of_changed h.1 h.2⟩
    | unhealthy | cleaned | emitFailed => cases hstep
  | checking index updated =>
    cases await with
    | ok =>
      cases hstep
      exact .inl (.settleFrom h.1 h.2 _)
    | thrown message | unhealthy detail =>
      cases hstep
      exact .inr ⟨_, .rollBack fun _ => rollsBack_of_changed h.1 h.2⟩
    | cleaned | emitFailed => cases hstep

/-- However the awaits settle, a call proceeds or recovers. -/
theorem UpdateRuns.invariant {next next' : UpdateNext}
    (hruns : UpdateRuns sha256 graph ordered next next')
    (h : Proceeds sha256 graph ordered start next) :
    Proceeds sha256 graph ordered start next' ∨ ∃ n, Recovers sha256 ordered start n next' := by
  induction hruns with
  | refl => exact .inl h
  | tail _ hstep ih =>
    obtain h | ⟨n, h⟩ := ih
    · exact h.step hstep
    · exact .inr ⟨n, h.step hstep⟩

theorem UpdateRuns.recovers {next next' : UpdateNext}
    (hruns : UpdateRuns sha256 graph ordered next next')
    (h : Recovers sha256 ordered start n next) :
    Recovers sha256 ordered start n next' := by
  induction hruns with
  | refl => exact h
  | tail _ hstep ih => exact ih.step hstep

theorem proceeds_start (sha256 : String → String) (graph : PluginGraph)
    (ordered : List RuntimePlugin) (start : Generation) :
    Proceeds sha256 graph ordered start (updateFrom sha256 graph ordered start 0 []) :=
  .updateFrom (.refl start) fun e => by simp

end Run

/-! #### Every call can be brought to an end -/

section Exists
variable {sha256 : String → String} {graph : PluginGraph} {ordered : List RuntimePlugin}
  {gen : Generation} {updated : List (ℕ × RuntimePlugin)}

theorem UpdateRuns.head {pc : UpdatePc} {next next' : UpdateNext} (await : Await)
    (hstep : updateStep sha256 graph ordered gen pc await = some next)
    (hruns : UpdateRuns sha256 graph ordered next next') :
    UpdateRuns sha256 graph ordered (.goto gen pc) next' :=
  Relation.ReflTransGen.head ⟨gen, pc, await, rfl, hstep⟩ hruns

@[simp] theorem setConfig_length (gen : Generation) (index : ℕ) (config : Option Value) :
    (setConfig gen index config).mounted.length = gen.mounted.length := by
  simp [setConfig]

@[simp] theorem setSpec_length (gen : Generation) (index : ℕ) (spec : RuntimePlugin) :
    (setSpec gen index spec).mounted.length = gen.mounted.length := by
  simp [setSpec]

@[simp] theorem commitUpdate_mounted (gen : Generation) :
    (commitUpdate sha256 graph ordered gen).mounted = gen.mounted := rfl

theorem exists_settling (gen : Generation) (index : ℕ) (updated : List (ℕ × RuntimePlugin)) :
    ∃ gen' updated', gen'.mounted.length = gen.mounted.length ∧
      UpdateRuns sha256 graph ordered (updateFrom sha256 graph ordered gen index updated)
        (settleFrom sha256 graph ordered gen' 0 updated') := by
  induction hleft : gen.mounted.length - index using Nat.strong_induction_on
    generalizing gen index updated with
  | _ left ih =>
    unfold updateFrom
    obtain ⟨hfind, -⟩ | ⟨i, m, after, hfind, hi, hm, -⟩ :=
      @changedFrom_cases sha256 ordered gen.mounted index
    · rw [hfind]
      exact ⟨gen, updated, rfl, .refl⟩
    · have hlt := (List.getElem?_eq_some_iff.mp hm).1
      rw [hfind]
      let next := setConfig gen i after.config
      let settled := match (next.mounted[i]?).bind fun m => byId ordered m.spec.id with
        | some after => setSpec next i after
        | none => next
      have hlength : settled.mounted.length = gen.mounted.length := by
        simp only [settled]
        split <;> simp [next]
      obtain ⟨gen', updated', hgen', hruns⟩ := ih (settled.mounted.length - (i + 1))
        (by omega) settled (i + 1) (updated ++ [(i, m.spec)]) rfl
      exact ⟨gen', updated', hgen'.trans hlength, .head .ok rfl hruns⟩

theorem exists_commit (gen : Generation) (index : ℕ) (updated : List (ℕ × RuntimePlugin)) :
    UpdateRuns sha256 graph ordered (settleFrom sha256 graph ordered gen index updated)
      (.commit (commitUpdate sha256 graph ordered gen)) := by
  induction hleft : gen.mounted.length - index generalizing index with
  | zero =>
    rw [settleFrom, if_neg (by omega)]
    exact .refl
  | succ left ih =>
    rw [settleFrom, if_pos (by omega)]
    exact .head .ok rfl (.head .ok rfl (ih (index + 1) (by omega)))

theorem exists_resettled (gen : Generation) (index : ℕ) (error : KernelError) :
    UpdateRuns sha256 graph ordered (resettleFrom gen index error []) (.failed gen error) := by
  induction hleft : gen.mounted.length - index generalizing index with
  | zero =>
    rw [resettleFrom, if_neg (by omega)]
    exact .refl
  | succ left ih =>
    rw [resettleFrom, if_pos (by omega)]
    exact .head .ok rfl (ih (index + 1) (by omega))

theorem exists_rolledBack (gen : Generation) (remaining : List (ℕ × RuntimePlugin))
    (error : KernelError) : ∃ gen', UpdateRuns sha256 graph ordered
      (rollBack gen remaining error []) (.failed gen' error) := by
  induction remaining generalizing gen with
  | nil => exact ⟨gen, exists_resettled gen 0 error⟩
  | cons e rest ih =>
    obtain ⟨i, before⟩ := e
    obtain ⟨gen', hruns⟩ := ih (setSpec (setConfig gen i before.config) i before)
    exact ⟨gen', .head .ok rfl hruns⟩

end Exists

/-! ### When an update is atomic -/

section Atomic
variable (sha256 : String → String) (graph : PluginGraph) (bootstrap : List String)
  (start : Generation)

/-- The incoming plugins; there are none to go through where the graph is refused. -/
def orderedPlugins : List RuntimePlugin :=
  match validateAndOrder graph.plugins bootstrap with
  | .ok ordered => ordered
  | .error _ => []

/-- The call settles with a result, however its awaits settle. -/
def UpdateSettles (result : UpdateNext) : Prop :=
  UpdateRuns sha256 graph (orderedPlugins graph bootstrap)
    (updateInPlace sha256 graph bootstrap start) result

/-- A mounted plugin is an incoming one, and its fiber runs with the configuration of that. -/
def IsIncoming (m : MountedPlugin) : Prop :=
  ∃ after, byId (orderedPlugins graph bootstrap) m.spec.id = some after ∧
    pluginDescriptorDigest sha256 after = pluginDescriptorDigest sha256 m.spec ∧
    configDigest sha256 (m.config.getD .undefined) =
      configDigest sha256 (after.config.getD .undefined)

/-- A call that rejects without a failure of its rollback leaves everything as it was, and one that
succeeds leaves what came in. -/
structure AtomicUpdate : Prop where
  rejected : ∀ gen error, UpdateSettles sha256 graph bootstrap start (.failed gen error) →
    (∀ cause failures, error ≠ .rollbackFailed cause failures) → gen = start
  committed : ∀ gen, UpdateSettles sha256 graph bootstrap start (.commit gen) →
    gen.plugins = orderedPlugins graph bootstrap ∧
    gen.structureVersion = graph.structureVersion ∧
    gen.graphDigest = pluginGraphDigest sha256 graph.plugins ∧
    ∀ m ∈ gen.mounted, IsIncoming sha256 graph bootstrap m

/-- The call goes on to update plugins. -/
def Eligible : Prop :=
  (∃ ordered, validateAndOrder graph.plugins bootstrap = .ok ordered) ∧
    (createReconcilePlan sha256 start.plugins (orderedPlugins graph bootstrap)).kind =
      .liveUpdate ∧ start.references = 0

/-- The fiber of a plugin that is to change holds what the plugin's specification says; any other
is what comes in. -/
def KeepsConfiguration (m : MountedPlugin) : Prop :=
  match change sha256 (orderedPlugins graph bootstrap) m with
  | some _ => m.config = m.spec.config
  | none => IsIncoming sha256 graph bootstrap m

variable {sha256 graph bootstrap start}

theorem updateInPlace_of_eligible (h : Eligible sha256 graph bootstrap start) :
    updateInPlace sha256 graph bootstrap start =
      updateFrom sha256 graph (orderedPlugins graph bootstrap) start 0 [] := by
  obtain ⟨⟨ordered, hordered⟩, hplan, hreferences⟩ := h
  have hincoming : orderedPlugins graph bootstrap = ordered := by
    rw [orderedPlugins, hordered]
  rw [hincoming] at hplan ⊢
  rw [updateInPlace, hordered]
  simp [hplan, hreferences]

theorem updateInPlace_of_not (h : ¬ Eligible sha256 graph bootstrap start) :
    ∃ error, updateInPlace sha256 graph bootstrap start = .failed start error := by
  unfold updateInPlace
  cases hordered : validateAndOrder graph.plugins bootstrap with
  | error error => exact ⟨error, rfl⟩
  | ok ordered =>
    refine ⟨.notEligible, if_pos ?_⟩
    by_contra hnot
    obtain ⟨hplan, hreferences⟩ := not_or.mp hnot
    refine h ⟨⟨ordered, hordered⟩, ?_, not_not.mp hreferences⟩
    rw [orderedPlugins, hordered]
    exact not_not.mp hplan

theorem UpdateRuns.of_failed {ordered : List RuntimePlugin} {gen : Generation}
    {error : KernelError} {next : UpdateNext}
    (h : UpdateRuns sha256 graph ordered (.failed gen error) next) : next = .failed gen error := by
  obtain heq | ⟨_, ⟨_, _, _, heq, -⟩, -⟩ := Relation.ReflTransGen.cases_head h
  · exact heq.symm
  · cases heq

theorem isIncoming_changed {m : MountedPlugin}
    (h : change sha256 (orderedPlugins graph bootstrap) m ≠ none) :
    IsIncoming sha256 graph bootstrap (changed sha256 (orderedPlugins graph bootstrap) m) := by
  obtain ⟨after, hafter⟩ := Option.ne_none_iff_exists'.mp h
  have hfound := change_eq_some hafter
  have hid : after.id = m.spec.id := by
    have hpred := List.find?_some hfound
    simpa using hpred
  refine ⟨after, ?_, ?_, ?_⟩ <;> simp [changed, hafter, hid, hfound]

theorem AtomicUpdate.of_keeps
    (h : Eligible sha256 graph bootstrap start → ∀ m ∈ start.mounted,
      KeepsConfiguration sha256 graph bootstrap m) :
    AtomicUpdate sha256 graph bootstrap start := by
  by_cases heligible : Eligible sha256 graph bootstrap start
  · have hproceeds := proceeds_start sha256 graph (orderedPlugins graph bootstrap) start
    constructor
    · intro gen error hsettles hrecovered
      rw [UpdateSettles, updateInPlace_of_eligible heligible] at hsettles
      obtain hfalse | ⟨n, hrecovers⟩ := hsettles.invariant hproceeds
      · exact hfalse.elim
      · refine (hrecovers hrecovered).eq_start fun i m hm => ?_
        have hkeeps := h heligible m (List.mem_of_getElem? hm)
        unfold KeepsConfiguration at hkeeps
        unfold undone restored
        split
        · cases hchange : change sha256 (orderedPlugins graph bootstrap) m with
          | none => rfl
          | some after =>
            rw [hchange] at hkeeps
            obtain ⟨spec, config⟩ := m
            exact congrArg _ hkeeps.symm
        · rfl
    · intro gen hsettles
      rw [UpdateSettles, updateInPlace_of_eligible heligible] at hsettles
      obtain ⟨gen', hholds, rfl⟩ | ⟨n, hfalse⟩ := hsettles.invariant hproceeds
      · refine ⟨rfl, rfl, rfl, fun m hm => ?_⟩
        obtain ⟨i, hi⟩ := List.getElem?_of_mem hm
        obtain ⟨m', hm', rfl⟩ := Option.map_eq_some_iff.mp ((hholds.mounted i).symm.trans hi)
        have hkeeps := h heligible m' (List.mem_of_getElem? hm')
        by_cases hchange : change sha256 (orderedPlugins graph bootstrap) m' = none
        · rw [changed_of_none hchange]
          unfold KeepsConfiguration at hkeeps
          rwa [hchange] at hkeeps
        · exact isIncoming_changed hchange
      · exact hfalse.elim
  · obtain ⟨error, hfailed⟩ := updateInPlace_of_not heligible
    constructor
    · intro gen error' hsettles _
      rw [UpdateSettles, hfailed] at hsettles
      cases hsettles.of_failed
      rfl
    · intro gen hsettles
      rw [UpdateSettles, hfailed] at hsettles
      cases hsettles.of_failed

theorem AtomicUpdate.keeps (h : AtomicUpdate sha256 graph bootstrap start)
    (heligible : Eligible sha256 graph bootstrap start) (m : MountedPlugin)
    (hm : m ∈ start.mounted) : KeepsConfiguration sha256 graph bootstrap m := by
  have hproceeds := proceeds_start sha256 graph (orderedPlugins graph bootstrap) start
  obtain ⟨i, hi⟩ := List.getElem?_of_mem hm
  obtain ⟨gen, updated, hlength, hruns⟩ := @exists_settling sha256 graph
    (orderedPlugins graph bootstrap) start 0 []
  unfold KeepsConfiguration
  cases hchange : change sha256 (orderedPlugins graph bootstrap) m with
  | none =>
    -- where every await succeeds, the plugin is left as it is
    have hcommit := Relation.ReflTransGen.trans hruns (exists_commit gen 0 updated)
    obtain ⟨gen', hholds, heq⟩ | ⟨n, hfalse⟩ := UpdateRuns.invariant hcommit hproceeds
    · have hsettles : UpdateSettles sha256 graph bootstrap start
          (.commit (commitUpdate sha256 graph (orderedPlugins graph bootstrap) gen)) := by
        rw [UpdateSettles, updateInPlace_of_eligible heligible]
        exact hcommit
      have hmounted := congrArg Generation.mounted heq
      rw [commitUpdate_mounted, commitUpdate_mounted] at hmounted
      have hplace := hholds.mounted i
      rw [hi, Option.map_some, changed_of_none hchange, ← hmounted] at hplace
      exact (h.committed _ hsettles).2.2.2 m (List.mem_of_getElem? hplace)
    · exact hfalse.elim
  | some after =>
    -- where the first fiber does not come up, the plugin is rolled back
    have hpositive : 0 < gen.mounted.length := by
      have := (List.getElem?_eq_some_iff.mp hi).1
      omega
    rw [settleFrom, if_pos hpositive] at hruns
    obtain ⟨hholds, hlogs⟩ | ⟨n, hfalse⟩ := UpdateRuns.invariant hruns hproceeds
    · obtain ⟨gen', hback⟩ := @exists_rolledBack sha256 graph (orderedPlugins graph bootstrap) gen
        updated.reverse (.thrown "")
      have hrecovers := UpdateRuns.recovers hback
        (.rollBack fun _ => rollsBack_of_changed hholds hlogs)
      have hsettles : UpdateSettles sha256 graph bootstrap start (.failed gen' (.thrown "")) := by
        rw [UpdateSettles, updateInPlace_of_eligible heligible]
        exact Relation.ReflTransGen.trans hruns (UpdateRuns.head (.thrown "") rfl hback)
      have hthrown : ∀ cause failures, KernelError.thrown "" ≠ .rollbackFailed cause failures :=
        fun _ _ heq => by cases heq
      have hsame := h.rejected _ _ hsettles hthrown
      have hplace := (hrecovers hthrown).mounted i
      rw [hsame, hi, Option.map_some, undone,
        if_pos (List.getElem?_eq_some_iff.mp hi).1, restored, hchange] at hplace
      exact congrArg MountedPlugin.config (Option.some.inj hplace)
    · exact hfalse.elim

/-- A live update is of configurations only, and it is atomic exactly when the fiber of every
plugin that is to change holds what the plugin's specification says. -/
theorem live_update_atomic_iff (sha256 : String → String) (graph : PluginGraph)
    (bootstrap : List String) (start : Generation) :
    (∀ current incoming, (createReconcilePlan sha256 current incoming).kind = .liveUpdate →
      (∀ id, id ∈ current.map RuntimePlugin.id ↔ id ∈ incoming.map RuntimePlugin.id) ∧
      ∀ id before after, byId current id = some before → byId incoming id = some after →
        descriptorText before = descriptorText after ∨ ConfiguredOnly before after ∨
          Collide sha256 before after) ∧
    (AtomicUpdate sha256 graph bootstrap start ↔
      (Eligible sha256 graph bootstrap start → ∀ m ∈ start.mounted,
        KeepsConfiguration sha256 graph bootstrap m)) := by
  refine ⟨fun current incoming hplan => ?_, AtomicUpdate.keeps, AtomicUpdate.of_keeps⟩
  obtain ⟨hids, hconfigured⟩ := liveUpdate_configuredOnly hplan
  refine ⟨hids, fun id before after hbefore hafter => ?_⟩
  by_cases hdigest : pluginDescriptorDigest sha256 before = pluginDescriptorDigest sha256 after
  · exact (descriptorText_of_digest hdigest).imp_right .inr
  · exact .inr (.inl (hconfigured id before after hbefore hafter hdigest))

end Atomic

/-! ### An update after a rollback that failed -/

def tierA (config : String) : RuntimePlugin :=
  { id := "p", version := "1.0.0", config := some (.string config), replacementTier := some .a }

def tierAGraph (config : String) : PluginGraph := ⟨config, [tierA config]⟩

/-- A generation whose plugin runs with a configuration, and is said to have another. -/
def tierAGeneration (spec config : String) : Generation :=
  { structureVersion := "1", graphDigest := pluginGraphDigest id [tierA "1"],
    plugins := [tierA "1"], mounted := [⟨tierA spec, (tierA config).config⟩], state := .active }

/-- A call whose awaits settle as listed. -/
def updateThrough (graph : PluginGraph) (ordered : List RuntimePlugin) (next : UpdateNext)
    (awaits : List Await) : Option UpdateNext :=
  awaits.foldlM (fun next await => match next with
    | .goto gen pc => updateStep id graph ordered gen pc await
    | .commit _ | .failed _ _ => none) next

theorem UpdateRuns.of_through {graph : PluginGraph} {ordered : List RuntimePlugin}
    {awaits : List Await} {next next' : UpdateNext}
    (h : updateThrough graph ordered next awaits = some next') :
    UpdateRuns id graph ordered next next' := by
  induction awaits generalizing next with
  | nil =>
    cases h
    exact .refl
  | cons await awaits ih =>
    obtain ⟨middle, hstep, hrest⟩ := Option.bind_eq_some_iff.mp h
    cases next with
    | goto gen pc => exact .head await hstep (ih hrest)
    | commit | failed => cases hstep

/-- What the next rollback brings back is neither what the plugin ran with nor what the generation
was made of. -/
theorem update_not_atomic :
    UpdateSettles id (tierAGraph "2") [] (tierAGeneration "1" "1")
      (.failed (tierAGeneration "2" "1") (.rollbackFailed (.thrown "down") ["stuck"])) ∧
    UpdateSettles id (tierAGraph "3") [] (tierAGeneration "2" "1")
      (.failed (tierAGeneration "2" "2") (.thrown "down")) ∧
    ¬ AtomicUpdate id (tierAGraph "3") [] (tierAGeneration "2" "1") := by
  have hfirst : updateThrough (tierAGraph "2") (orderedPlugins (tierAGraph "2") [])
      (updateInPlace id (tierAGraph "2") [] (tierAGeneration "1" "1"))
      [.ok, .ok, .unhealthy (some "down"), .thrown "stuck", .ok] =
      some (.failed (tierAGeneration "2" "1") (.rollbackFailed (.thrown "down") ["stuck"])) := rfl
  have hsecond : updateThrough (tierAGraph "3") (orderedPlugins (tierAGraph "3") [])
      (updateInPlace id (tierAGraph "3") [] (tierAGeneration "2" "1"))
      [.ok, .ok, .unhealthy (some "down"), .ok, .ok] =
      some (.failed (tierAGeneration "2" "2") (.thrown "down")) := rfl
  have hrejected : UpdateSettles id (tierAGraph "3") [] (tierAGeneration "2" "1")
      (.failed (tierAGeneration "2" "2") (.thrown "down")) := .of_through hsecond
  refine ⟨.of_through hfirst, hrejected, fun h => ?_⟩
  have hsame := h.rejected _ _ hrejected fun _ _ heq => by cases heq
  have hconfig := congrArg (fun gen => gen.mounted.map MountedPlugin.config) hsame
  simp [tierAGeneration, tierA] at hconfig

end BeeAgent.Structure
