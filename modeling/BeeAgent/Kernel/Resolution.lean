import BeeAgent.Kernel.StructureText

/-! What the resolution of a bundle comes to, and the bundles for which it does. -/
namespace BeeAgent.Bundles
open BeeAgent.Data
open OrderedMap (LastOf)
open Relation (ReflTransGen TransGen)

def Loads (load : Option BundleLoader) (ref : StructureRef) (b : Bundle) : Prop :=
  ∃ f, load = some f ∧ f ref = some b

def Includes (load : Option BundleLoader) (b b' : Bundle) : Prop :=
  ∃ ref ∈ b.includes, Loads load ref b'

def Reaches (load : Option BundleLoader) : Bundle → Bundle → Prop := ReflTransGen (Includes load)

/-- Why a bundle has no structure. -/
inductive Fault (load : Option BundleLoader) (root : Bundle) : Prop
  | cycle {b b' : Bundle} (hreached : Reaches load root b)
    (hcycle : TransGen (Includes load) b b') (hsame : b'.ref = b.ref)
  | missing {b : Bundle} {ref : StructureRef} (hreached : Reaches load root b)
    (hinclude : ref ∈ b.includes) (hmissing : ∀ b', ¬ Loads load ref b')
  | mismatch {b b' : Bundle} {ref : StructureRef} (hreached : Reaches load root b)
    (hinclude : ref ∈ b.includes) (hloads : Loads load ref b') (hne : b'.ref ≠ ref)
  | unpinned {name : ScalarSlotName} (h : ∀ b, Reaches load root b → b.scalar name = none)

/-- The last bundle of the chain that has a setting of the key sets it. -/
def Wins {κ α : Type} (chain : List Bundle) (settings : Bundle → List (κ × α)) (k : κ) (a : α)
    (source : BundleSource) : Prop :=
  ∃ before b after, chain = before ++ b :: after ∧ b.source = source ∧ LastOf (settings b) k a ∧
    ∀ b' ∈ after, k ∉ (settings b').map Prod.fst

def refsById (refs : List StructureRef) : List (Name × StructureRef) :=
  refs.map fun ref => (ref.id, ref)

def pluginsById (plugins : List BundlePlugin) : List (Name × BundlePlugin) :=
  plugins.map fun plugin => (plugin.id, plugin)

def DigestInput.slot (input : DigestInput) : ScalarSlotName → EffectiveSlot
  | .model => input.model
  | .prompt => input.prompt
  | .contextPolicy => input.contextPolicy
  | .memoryView => input.memoryView
  | .sandbox => input.sandbox
  | .evalPolicy => input.evalPolicy

/-- What is folded from the chain: the last setting of everything, and all permissions. -/
structure Folded (chain : List Bundle) (input : DigestInput) : Prop where
  bundles : input.bundles = chain.map Bundle.source
  scalars : ∀ name, Wins chain Bundle.scalars name (input.slot name).ref (input.slot name).source
  skills : ∀ slot, slot ∈ input.skills ↔
    Wins chain (fun b => refsById b.skills) slot.ref.id slot.ref slot.source
  tools : ∀ slot, slot ∈ input.tools ↔
    Wins chain (fun b => refsById b.tools) slot.ref.id slot.ref slot.source
  plugins : ∀ plugin, plugin ∈ input.plugins ↔
    Wins chain (fun b => pluginsById b.plugins) plugin.id plugin.toBundlePlugin plugin.source
  budgets : ∀ budget, budget ∈ input.budgets ↔
    Wins chain Bundle.budgets budget.name budget.value budget.source
  permissions : ∀ name, name ∈ input.permissions.map EffectivePermission.name ↔
    ∃ b ∈ chain, name ∈ b.permissions

/-- A chain that holds every bundle reached, by its id and version, once and behind those it
includes. -/
structure Complete (load : Option BundleLoader) (root : Bundle) (chain : List Bundle) : Prop where
  once : (chain.map Bundle.ref).Nodup
  reached : ∀ b ∈ chain, Reaches load root b
  all : ∀ b, Reaches load root b → b.ref ∈ chain.map Bundle.ref
  behind : ∀ before b after, chain = before ++ b :: after →
    ∀ ref ∈ b.includes, ref ∈ before.map Bundle.ref

/-- The structure passes its own check, also as it is read back from JSON. -/
structure Accepted (sha256 : String → String) (effective : EffectiveStructure) : Prop where
  direct : verifyEffectiveStructure sha256 effective.toValue = some effective
  reread : ∃ v, parseJson (stringify effective.toValue) = some v ∧
    (verifyEffectiveStructure sha256 v).isSome

/-- What a resolution may come to. -/
def Meets (sha256 : String → String) (load : Option BundleLoader) (root : Bundle) :
    Except (Option ResolveError) EffectiveStructure → Prop
  | .error none => False
  | .error (some _) => Fault load root
  | .ok effective => ¬ Fault load root ∧
    (∃ chain, Complete load root chain ∧ Folded chain effective.toDigestInput) ∧
    Accepted sha256 effective

/-- With enough fuel the resolution is over, and comes to what it may. -/
def Resolved (sha256 : String → String) (load : Option BundleLoader) (root : Bundle) : Prop :=
  ∃ n, ∀ fuel, n ≤ fuel → Meets sha256 load root (resolveEffectiveStructure sha256 load fuel root)

/-- The includes behind the bundles that are there already, each after all it includes. -/
inductive IncludesFirst (load : Option BundleLoader) :
    List Bundle → List StructureRef → List Bundle → Prop
  | nil {chain : List Bundle} : IncludesFirst load chain [] chain
  | again {chain chain' : List Bundle} {ref : StructureRef} {refs : List StructureRef}
    (hdone : ref ∈ chain.map Bundle.ref) (hrest : IncludesFirst load chain refs chain') :
    IncludesFirst load chain (ref :: refs) chain'
  | load {chain chain₁ chain' : List Bundle} {ref : StructureRef} {refs : List StructureRef}
    {b : Bundle} (hnew : ref ∉ chain.map Bundle.ref) (hloads : Loads load ref b)
    (hincludes : IncludesFirst load chain b.includes chain₁)
    (hrest : IncludesFirst load (chain₁ ++ [b]) refs chain') :
    IncludesFirst load chain (ref :: refs) chain'

def Named (load : Option BundleLoader) (root : Bundle) (ref : StructureRef) : Prop :=
  ∃ b, Reaches load root b ∧ (ref = b.ref ∨ ref ∈ b.includes)

/-- What a bundle and its loader must be like: finitely many bundles are reached, the references met
are told apart by their joined keys, and JSON can carry the configuration of every plugin that is
in effect. -/
structure Sound (load : Option BundleLoader) (root : Bundle) : Prop where
  finite : ∃ refs : List StructureRef, ∀ b, Reaches load root b → b.ref ∈ refs
  distinct : ∀ ref ref', Named load root ref → Named load root ref' → refKey ref = refKey ref' →
    ref = ref'
  json : ∀ before, IncludesFirst load [] root.includes before → ∀ plugin source,
    Wins (before ++ [root]) (fun b => pluginsById b.plugins) plugin.id plugin source → plugin.Json

variable {sha256 : String → String} {load : Option BundleLoader} {root b b' : Bundle}
  {ref : StructureRef}

/-! ### The traversal -/

/-- What becomes of an include. -/
inductive Include (load : Option BundleLoader) (resolved : List String) (ref : StructureRef) :
    Except (Option ResolveError) (Option Bundle) → Prop
  | again (hdone : refKey ref ∈ resolved) : Include load resolved ref (.ok none)
  | missing (e : ResolveError) (hmissing : ∀ b, ¬ Loads load ref b) :
    Include load resolved ref (.error (some e))
  | mismatch {b : Bundle} (e : ResolveError) (hloads : Loads load ref b)
    (hkey : b.key ≠ refKey ref) : Include load resolved ref (.error (some e))
  | loaded {b : Bundle} (hnew : refKey ref ∉ resolved) (hloads : Loads load ref b)
    (hkey : b.key = refKey ref) : Include load resolved ref (.ok (some b))

theorem loadInclude_include (load : Option BundleLoader) (key : String) (resolved : List String)
    (ref : StructureRef) : Include load resolved ref (loadInclude load key resolved ref) := by
  by_cases hdone : refKey ref ∈ resolved
  · simp only [loadInclude, if_pos hdone]
    exact .again hdone
  simp only [loadInclude, if_neg hdone]
  cases load with
  | none => exact .missing _ (by rintro b ⟨_, h, -⟩; cases h)
  | some load =>
  cases hloads : load ref with
  | none =>
    simp only [hloads]
    refine .missing _ ?_
    rintro b ⟨_, ⟨⟩, hb⟩
    exact absurd (hloads.symm.trans hb) (by simp)
  | some loaded =>
    by_cases hkey : loaded.key = refKey ref
    · simp only [hloads, hkey, ne_eq, not_true_eq_false, if_false]
      exact .loaded hdone ⟨load, rfl, hloads⟩ hkey
    · simp only [hloads, hkey, ne_eq, not_false_eq_true, if_true]
      exact .mismatch _ ⟨load, rfl, hloads⟩ hkey

theorem loadInclude_none {key : String} {resolved : List String}
    (h : loadInclude load key resolved ref = .ok none) : refKey ref ∈ resolved := by
  have hinclude := loadInclude_include load key resolved ref
  rw [h] at hinclude
  cases hinclude with
  | again hdone => exact hdone

theorem loadInclude_some {key : String} {resolved : List String}
    (h : loadInclude load key resolved ref = .ok (some b)) :
    refKey ref ∉ resolved ∧ Loads load ref b ∧ b.key = refKey ref := by
  have hinclude := loadInclude_include load key resolved ref
  rw [h] at hinclude
  cases hinclude with
  | loaded hnew hloads hkey => exact ⟨hnew, hloads, hkey⟩

theorem loadInclude_error {key : String} {resolved : List String} {e : Option ResolveError}
    (h : loadInclude load key resolved ref = .error e) :
    e ≠ none ∧ ((∀ b, ¬ Loads load ref b) ∨ ∃ b, Loads load ref b ∧ b.key ≠ refKey ref) := by
  have hinclude := loadInclude_include load key resolved ref
  rw [h] at hinclude
  cases hinclude with
  | missing _ hmissing => exact ⟨nofun, .inl hmissing⟩
  | mismatch _ hloads hkey => exact ⟨nofun, .inr ⟨_, hloads, hkey⟩⟩

/-- The bundles by their joined keys, with the references they include as their children. -/
def bundleTraversal (load : Option BundleLoader) :
    Traversal (Option ResolveError) Bundle (String × StructureRef) String where
  key := Bundle.key
  children bundle := bundle.includes.map (bundle.key, ·)
  target child := refKey child.2
  resolve resolved child := loadInclude load child.1 resolved child.2
  cyclic _ bundle := some (.includeCycle bundle.key)
  exhausted _ _ := none
  skipped h := loadInclude_none h
  resolved h := (loadInclude_some h).2.2

@[simp] theorem bundleTraversal_key (bundle : Bundle) :
    (bundleTraversal load).key bundle = bundle.key := rfl

@[simp] theorem bundleTraversal_cyclic (path : List Bundle) (bundle : Bundle) :
    (bundleTraversal load).cyclic path bundle = some (.includeCycle bundle.key) := rfl

@[simp] theorem bundleTraversal_resolve (resolved : List String) (child : String × StructureRef) :
    (bundleTraversal load).resolve resolved child = loadInclude load child.1 resolved child.2 := rfl

@[simp] theorem bundleTraversal_keys (chain : List Bundle) :
    (bundleTraversal load).keys chain = chain.map Bundle.key := rfl

@[simp] theorem bundleTraversal_children (bundle : Bundle) :
    (bundleTraversal load).children bundle = bundle.includes.map (bundle.key, ·) := rfl

theorem visitBundle_eq (fuel : ℕ) (chain visiting : List Bundle) (bundle : Bundle) :
    visitBundle load fuel chain visiting bundle =
      (bundleTraversal load).visit fuel chain visiting bundle := by
  induction fuel generalizing chain visiting bundle with
  | zero => rfl
  | succ fuel ih =>
    simp only [visitBundle, ih, Traversal.visit, bundleTraversal_children, List.foldlM_map,
      bundleTraversal_keys, bundleTraversal_key, bundleTraversal_cyclic]
    refine if_congr Iff.rfl rfl (if_congr Iff.rfl rfl ?_)
    refine congrArg (· >>= _) (congrArg (List.foldlM · chain bundle.includes) (funext₂ ?_))
    intro chain ref
    rw [Traversal.enter, bundleTraversal_resolve, bundleTraversal_keys]
    cases loadInclude load bundle.key (chain.map Bundle.key) ref with
    | error e => rfl
    | ok loaded => cases loaded <;> rfl

theorem leads_iff : (bundleTraversal load).Leads b b' ↔
    ∃ ref ∈ b.includes, Loads load ref b' ∧ b'.key = refKey ref := by
  constructor
  · rintro ⟨child, hchild, keys, hresolve⟩
    obtain ⟨ref, href, rfl⟩ := List.mem_map.mp hchild
    exact ⟨ref, href, (loadInclude_some hresolve).2⟩
  · rintro ⟨ref, href, ⟨load, rfl, hloads⟩, hkey⟩
    refine ⟨(b.key, ref), List.mem_map_of_mem href, [], ?_⟩
    simp [bundleTraversal, loadInclude, hloads, hkey]

theorem includes_of_leads (h : (bundleTraversal load).Leads b b') : Includes load b b' := by
  obtain ⟨ref, href, hloads, -⟩ := leads_iff.mp h
  exact ⟨ref, href, hloads⟩

theorem reaches_of_leads (h : ReflTransGen (bundleTraversal load).Leads b b') :
    Reaches load b b' := ReflTransGen.mono (fun _ _ => includes_of_leads) _ _ h

/-! ### The chain -/

section Chain
variable {fuel : ℕ} {chain chain' : List Bundle}

theorem named_ref (h : Reaches load root b) : Named load root b.ref := ⟨b, h, .inl rfl⟩

theorem named_include (h : Reaches load root b) (href : ref ∈ b.includes) : Named load root ref :=
  ⟨b, h, .inr href⟩

/-- What is known of a chain that a visit of the root comes to. -/
structure Visited (load : Option BundleLoader) (root : Bundle) (chain : List Bundle) : Prop where
  ordered : (bundleTraversal load).Ordered chain
  reached : ∀ b ∈ chain, ReflTransGen (bundleTraversal load).Leads root b
  last : ∃ before, chain = before ++ [root]

theorem visited_of_ok (h : visitBundle load fuel [] [] root = .ok chain) :
    Visited load root chain := by
  rw [visitBundle_eq] at h
  obtain ⟨hprogress, -⟩ := Traversal.visit_ok .nil (by simp) h
  refine ⟨hprogress.ordered, fun b hb => ?_, Traversal.visit_first h⟩
  obtain hold | ⟨_, rfl, hreaches⟩ := hprogress.reached b hb
  · cases hold
  · exact hreaches

/-- References are told apart by their joined keys. -/
def Distinct (load : Option BundleLoader) (root : Bundle) : Prop :=
  ∀ ref ref', Named load root ref → Named load root ref' → refKey ref = refKey ref' → ref = ref'

namespace Visited

theorem reaches (h : Visited load root chain) (hb : b ∈ chain) : Reaches load root b :=
  reaches_of_leads (h.reached b hb)

theorem once (h : Visited load root chain) : (chain.map Bundle.ref).Nodup := by
  have hkeys : ((chain.map Bundle.ref).map refKey).Nodup := by
    rw [List.map_map]
    exact h.ordered.nodup
  exact hkeys.of_map refKey

theorem behind (h : Visited load root chain) (hdistinct : Distinct load root)
    {before after : List Bundle} (heq : chain = before ++ b :: after) (href : ref ∈ b.includes) :
    ∃ c ∈ before, c.ref = ref := by
  have hkey : refKey ref ∈ before.map Bundle.key :=
    h.ordered.behind before b after heq (b.key, ref) (by simpa using href)
  obtain ⟨c, hc, hsame⟩ := List.mem_map.mp hkey
  have hcreached : Reaches load root c := h.reaches (heq ▸ List.mem_append_left _ hc)
  have hbreached : Reaches load root b := h.reaches (by simp [heq])
  exact ⟨c, hc, hdistinct _ _ (named_ref hcreached) (named_include hbreached href) hsame⟩

theorem loads (h : Visited load root chain) (hdistinct : Distinct load root)
    {before after : List Bundle} (heq : chain = before ++ b :: after) (hb' : b' ∈ before) :
    Loads load b'.ref b' := by
  have hmem : b' ∈ chain := heq ▸ List.mem_append_left _ hb'
  obtain rfl | ⟨parent, hparent, hleads⟩ := (h.reached b' hmem).cases_tail
  · -- the root is the last of the chain
    obtain ⟨all, hlast⟩ := h.last
    have hnodup := h.ordered.nodup
    obtain rfl | ⟨after', last, rfl⟩ := after.eq_nil_or_concat
    · obtain ⟨rfl, hroot⟩ := List.append_inj' (heq.symm.trans hlast) rfl
      rw [hlast, Traversal.keys_append, List.nodup_append] at hnodup
      exact absurd rfl (hnodup.2.2 _ (Traversal.key_mem_keys hb') _ (by simp))
    · have hlast' : (before ++ b :: after') ++ [last] = all ++ [b'] :=
        (heq.trans (by simp)).symm.trans hlast
      obtain ⟨rfl, -⟩ := List.append_inj' hlast' rfl
      rw [hlast, Traversal.keys_append, List.nodup_append] at hnodup
      exact absurd rfl (hnodup.2.2 _
        (Traversal.key_mem_keys (List.mem_append_left _ hb')) _ (by simp))
  · obtain ⟨ref, href, hloads, hkey⟩ := leads_iff.mp hleads
    have hsame : b'.ref = ref := hdistinct _ _ (named_ref (h.reaches hmem))
      (named_include (reaches_of_leads hparent) href) hkey
    rwa [hsame]

/-- What a bundle of the chain includes is in the chain, before it, and no other bundle is loaded
for it. -/
theorem include_unique (h : Visited load root chain) (hdistinct : Distinct load root)
    (hb : b ∈ chain) (href : ref ∈ b.includes) :
    ∃ c ∈ chain, c.ref = ref ∧ Loads load ref c ∧ ∀ b', Loads load ref b' → b' = c := by
  obtain ⟨before, after, heq⟩ := List.append_of_mem hb
  obtain ⟨c, hc, rfl⟩ := h.behind hdistinct heq href
  have hloads := h.loads hdistinct heq hc
  refine ⟨c, heq ▸ List.mem_append_left _ hc, rfl, hloads, fun b' hb' => ?_⟩
  obtain ⟨f, hf, hfc⟩ := hloads
  obtain ⟨f', hf', hfb'⟩ := hb'
  obtain rfl : f = f' := Option.some.inj (hf.symm.trans hf')
  exact Option.some.inj (hfb'.symm.trans hfc)

theorem mem_of_reaches (h : Visited load root chain) (hdistinct : Distinct load root)
    (hreaches : Reaches load root b) : b ∈ chain := by
  induction hreaches with
  | refl =>
    obtain ⟨before, rfl⟩ := h.last
    simp
  | tail _ hincludes ih =>
    obtain ⟨ref, href, hloads⟩ := hincludes
    obtain ⟨c, hc, -, -, hunique⟩ := h.include_unique hdistinct ih href
    exact hunique _ hloads ▸ hc

theorem complete (h : Visited load root chain) (hdistinct : Distinct load root) :
    Complete load root chain where
  once := h.once
  reached _ := h.reaches
  all _ hreaches := List.mem_map_of_mem (h.mem_of_reaches hdistinct hreaches)
  behind _ _ _ heq _ href := by
    obtain ⟨c, hc, rfl⟩ := h.behind hdistinct heq href
    exact List.mem_map_of_mem hc

theorem edge_of_includes (h : Visited load root chain) (hdistinct : Distinct load root)
    (hb : b ∈ chain) (hincludes : Includes load b b') :
    b' ∈ chain ∧ (bundleTraversal load).Edge chain b.key b'.key := by
  obtain ⟨ref, href, hloads⟩ := hincludes
  obtain ⟨c, hc, rfl, -, hunique⟩ := h.include_unique hdistinct hb href
  obtain rfl := hunique _ hloads
  exact ⟨hc, b, hb, rfl, (b.key, b'.ref), by simpa using href, rfl⟩

theorem edges_of_includes (h : Visited load root chain) (hdistinct : Distinct load root)
    (hb : b ∈ chain) (hincludes : TransGen (Includes load) b b') :
    b' ∈ chain ∧ TransGen ((bundleTraversal load).Edge chain) b.key b'.key := by
  induction hincludes with
  | single hincludes =>
    obtain ⟨hmem, hedge⟩ := h.edge_of_includes hdistinct hb hincludes
    exact ⟨hmem, .single hedge⟩
  | tail _ hincludes ih =>
    obtain ⟨hmem, hedge⟩ := h.edge_of_includes hdistinct ih.1 hincludes
    exact ⟨hmem, ih.2.tail hedge⟩

theorem fault (h : Visited load root chain) (hdistinct : Distinct load root)
    (hfault : Fault load root) :
    ∃ name, ∀ b ∈ chain, b.scalar name = none := by
  cases hfault with
  | cycle hreached hcycle hsame =>
    have hedges := (h.edges_of_includes hdistinct (h.mem_of_reaches hdistinct hreached) hcycle).2
    simp only [Bundle.key, hsame] at hedges
    exact absurd hedges (h.ordered.acyclic _)
  | missing hreached hinclude hmissing =>
    obtain ⟨c, -, -, hloads, -⟩ :=
      h.include_unique hdistinct (h.mem_of_reaches hdistinct hreached) hinclude
    exact absurd hloads (hmissing c)
  | mismatch hreached hinclude hloads hne =>
    obtain ⟨c, -, hc, -, hunique⟩ :=
      h.include_unique hdistinct (h.mem_of_reaches hdistinct hreached) hinclude
    exact absurd (hunique _ hloads ▸ hc) hne
  | @unpinned name hunpinned => exact ⟨name, fun b hb => hunpinned b (h.reaches hb)⟩

end Visited

theorem fault_of_error (hdistinct : Distinct load root) {e : ResolveError}
    (h : visitBundle load fuel [] [] root = .error (some e)) : Fault load root := by
  rw [visitBundle_eq] at h
  obtain ⟨path, last, hwalk, hthrows⟩ :=
    Traversal.visit_error (.start : (bundleTraversal load).Walk root [] root) h
  have hreaches : ∀ b ∈ path ++ [last], Reaches load root b := fun b hb =>
    reaches_of_leads (hwalk.reaches b hb)
  have hlast : Reaches load root last := hreaches last (by simp)
  generalize hthrown : some e = thrown at hthrows
  cases hthrows with
  | unresolved hchild hresolve =>
    obtain ⟨ref, href, rfl⟩ := List.mem_map.mp hchild
    obtain ⟨-, hmissing | ⟨b, hloads, hkey⟩⟩ := loadInclude_error hresolve
    · exact .missing hlast href hmissing
    · exact .mismatch hlast href hloads fun heq => hkey (by rw [Bundle.key, heq])
  | cyclic hagain =>
    obtain ⟨b, hb, hkey⟩ := List.mem_map.mp hagain
    have hb' : Reaches load root b := hreaches b (List.mem_append_left _ hb)
    refine .cycle hb' (Relation.TransGen.mono (fun _ _ => includes_of_leads) _ _
      (hwalk.leads b hb)) (hdistinct _ _ (named_ref hlast) (named_ref hb') hkey.symm)
  | exhausted => cases hthrown

/-- The fuel is enough where there are no more bundles than it. -/
theorem visit_ends {refs : List StructureRef} (hfinite : ∀ b, Reaches load root b → b.ref ∈ refs)
    (hfuel : refs.length < fuel) : visitBundle load fuel [] [] root ≠ .error none := by
  intro h
  rw [visitBundle_eq] at h
  obtain ⟨path, last, hwalk, hthrows⟩ :=
    Traversal.visit_error (.start : (bundleTraversal load).Walk root [] root) h
  have hall : ∀ b, ReflTransGen (bundleTraversal load).Leads root b → b.key ∈ refs.map refKey :=
    fun b hb => List.mem_map_of_mem (f := refKey) (hfinite b (reaches_of_leads hb))
  have hshort := hwalk.length_le hall
  rw [List.length_map] at hshort
  generalize hthrown : (none : Option ResolveError) = thrown at hthrows
  cases hthrows with
  | unresolved hchild hresolve =>
    exact (loadInclude_error hresolve).1 hthrown.symm
  | cyclic => cases hthrown
  | exhausted hlong =>
    simp only [List.length_nil, Nat.zero_add] at hlong
    omega

end Chain

/-! ### The fold -/

section Fold
variable {chain : List Bundle}

theorem lastOf_iff_wins {κ α β : Type} (chain : List Bundle) (settings : Bundle → List (κ × α))
    (value : κ × α → BundleSource → β) (k : κ) (y : β) :
    LastOf (chain.flatMap fun b => (settings b).map fun e => (e.1, value e b.source)) k y ↔
      ∃ a source, Wins chain settings k a source ∧ value (k, a) source = y := by
  have hkeys : ∀ b : Bundle, ((settings b).map fun e => (e.1, value e b.source)).map Prod.fst =
      (settings b).map Prod.fst := fun b => by
    rw [List.map_map]
    rfl
  rw [OrderedMap.lastOf_flatMap]
  simp only [hkeys]
  constructor
  · rintro ⟨before, b, after, heq, ⟨earlier, later, hsettings, hlater⟩, hafter⟩
    obtain ⟨earlier, rest, hsplit, rfl, hrest⟩ := List.map_eq_append_iff.mp hsettings
    obtain ⟨⟨k', a⟩, later, rfl, hk, rfl⟩ := List.map_eq_cons_iff.mp hrest
    obtain ⟨rfl, rfl⟩ := Prod.mk.inj hk
    refine ⟨a, b.source, ⟨before, b, after, heq, rfl, ⟨earlier, later, hsplit, ?_⟩, hafter⟩, rfl⟩
    rwa [List.map_map] at hlater
  · rintro ⟨a, _, ⟨before, b, after, heq, rfl, ⟨earlier, later, hsettings, hlater⟩, hafter⟩, rfl⟩
    refine ⟨before, b, after, heq, ⟨earlier.map fun e => (e.1, value e b.source),
      later.map fun e => (e.1, value e b.source), by simp [hsettings], ?_⟩, hafter⟩
    rwa [List.map_map]

theorem foldl_add (chain : List Bundle) (slots : Slots) : chain.foldl Slots.add slots = {
    scalars := slots.scalars.setAll (chain.flatMap fun b =>
      b.scalars.map fun e => (e.1, ⟨e.2, b.source⟩))
    skills := slots.skills.setAll (chain.flatMap fun b =>
      b.skills.map fun ref => (ref.id, ⟨ref, b.source⟩))
    tools := slots.tools.setAll (chain.flatMap fun b =>
      b.tools.map fun ref => (ref.id, ⟨ref, b.source⟩))
    plugins := slots.plugins.setAll (chain.flatMap fun b =>
      b.plugins.map fun plugin => (plugin.id, ⟨plugin, b.source⟩))
    permissions := slots.permissions.setAll (chain.flatMap fun b =>
      b.permissions.map fun name => (name, b.source))
    budgets := slots.budgets.setAll (chain.flatMap fun b =>
      b.budgets.map fun e => (e.1, ⟨e.1, e.2, b.source⟩)) } := by
  induction chain generalizing slots with
  | nil => rfl
  | cons b chain ih => simp [ih, Slots.add, mergeList, OrderedMap.setAll_append]

theorem mem_scalars {name : ScalarSlotName} {ref : StructureRef} :
    (name, ref) ∈ b.scalars ↔ b.scalar name = some ref := by
  have hall : name ∈ ScalarSlotName.all := by cases name <;> simp [ScalarSlotName.all]
  simp only [Bundle.scalars, List.mem_filterMap, Option.map_eq_some_iff, Prod.mk.injEq]
  constructor
  · rintro ⟨_, -, _, hscalar, rfl, rfl⟩
    exact hscalar
  · intro hscalar
    exact ⟨name, hall, ref, hscalar, rfl, rfl⟩

def slotsOf (chain : List Bundle) : Slots := chain.foldl Slots.add {}

theorem get_scalars {name : ScalarSlotName} {slot : EffectiveSlot} :
    (slotsOf chain).scalars.get name = some slot ↔
      Wins chain Bundle.scalars name slot.ref slot.source := by
  rw [slotsOf, foldl_add, OrderedMap.get_setAll]
  rw [lastOf_iff_wins chain Bundle.scalars fun e source => EffectiveSlot.mk e.2 source]
  constructor
  · rintro ⟨ref, source, hwins, rfl⟩
    exact hwins
  · intro hwins
    exact ⟨slot.ref, slot.source, hwins, rfl⟩

theorem get_scalars_none {name : ScalarSlotName} (h : (slotsOf chain).scalars.get name = none) :
    ∀ b ∈ chain, b.scalar name = none := by
  intro b hb
  by_contra hsome
  obtain ⟨ref, href⟩ := Option.ne_none_iff_exists'.mp hsome
  have hkey : name ∈ (slotsOf chain).scalars.keys := by
    rw [slotsOf, foldl_add, OrderedMap.mem_keys_setAll, List.mem_map]
    exact ⟨_, List.mem_flatMap.mpr ⟨b, hb, List.mem_map_of_mem (mem_scalars.mpr href)⟩, rfl⟩
  obtain ⟨slot, hslot⟩ := OrderedMap.mem_keys_iff.mp hkey
  rw [h] at hslot
  cases hslot

theorem mem_refs {refs : Bundle → List StructureRef} {slot : EffectiveSlot} :
    slot ∈ ((OrderedMap.empty : OrderedMap Name EffectiveSlot).setAll (chain.flatMap fun b =>
      (refs b).map fun ref => (ref.id, ⟨ref, b.source⟩))).values ↔
      Wins chain (fun b => refsById (refs b)) slot.ref.id slot.ref slot.source := by
  have hlast := fun k => lastOf_iff_wins chain (fun b => refsById (refs b))
    (fun e source => EffectiveSlot.mk e.2 source) k slot
  simp only [refsById, List.map_map, Function.comp_def] at hlast
  rw [OrderedMap.mem_values_setAll]
  simp only [hlast]
  constructor
  · rintro ⟨k, ref, source, hwins, rfl⟩
    obtain ⟨before, b, after, -, -, hset, -⟩ := id hwins
    obtain ⟨_, -, heq⟩ := List.mem_map.mp hset.mem
    obtain ⟨rfl, rfl⟩ := Prod.mk.inj heq
    exact hwins
  · intro hwins
    exact ⟨_, slot.ref, slot.source, hwins, rfl⟩

theorem mem_plugins {plugin : EffectivePlugin} :
    plugin ∈ (slotsOf chain).plugins.values ↔
      Wins chain (fun b => pluginsById b.plugins) plugin.id plugin.toBundlePlugin
        plugin.source := by
  have hlast := fun k => lastOf_iff_wins chain (fun b => pluginsById b.plugins)
    (fun e source => EffectivePlugin.mk e.2 source) k plugin
  simp only [pluginsById, List.map_map, Function.comp_def] at hlast
  rw [slotsOf, foldl_add, OrderedMap.mem_values_setAll]
  simp only [hlast]
  constructor
  · rintro ⟨k, inner, source, hwins, rfl⟩
    obtain ⟨before, b, after, -, -, hset, -⟩ := id hwins
    obtain ⟨_, -, heq⟩ := List.mem_map.mp hset.mem
    obtain ⟨rfl, rfl⟩ := Prod.mk.inj heq
    exact hwins
  · intro hwins
    exact ⟨_, plugin.toBundlePlugin, plugin.source, hwins, rfl⟩

theorem mem_budgets {budget : EffectiveBudget} :
    budget ∈ (slotsOf chain).budgets.values ↔
      Wins chain Bundle.budgets budget.name budget.value budget.source := by
  have hlast := fun k => lastOf_iff_wins chain Bundle.budgets
    (fun e source => EffectiveBudget.mk e.1 e.2 source) k budget
  rw [slotsOf, foldl_add, OrderedMap.mem_values_setAll]
  simp only [hlast]
  constructor
  · rintro ⟨k, value, source, hwins, rfl⟩
    exact hwins
  · intro hwins
    exact ⟨_, budget.value, budget.source, hwins, rfl⟩

theorem mem_permissions {name : Name} :
    name ∈ (slotsOf chain).permissions.keys ↔ ∃ b ∈ chain, name ∈ b.permissions := by
  rw [slotsOf, foldl_add, OrderedMap.mem_keys_setAll]
  simp only [List.map_flatMap, List.map_map, Function.comp_def, List.map_id', List.mem_flatMap]

theorem pick_cases (chain : List Bundle) (name : ScalarSlotName) :
    (∃ slot, pick (slotsOf chain) name = .ok slot ∧
        Wins chain Bundle.scalars name slot.ref slot.source) ∨
      pick (slotsOf chain) name = .error (some (.unpinned name)) ∧
        ∀ b ∈ chain, b.scalar name = none := by
  cases hget : (slotsOf chain).scalars.get name with
  | some slot => exact .inl ⟨slot, by rw [pick, hget], get_scalars.mp hget⟩
  | none => exact .inr ⟨by rw [pick, hget], get_scalars_none hget⟩

/-- The fold fails on a slot that no bundle pins, or gives what is set last. -/
theorem foldChain_cases (chain : List Bundle) :
    (∃ input, foldChain chain = .ok input ∧ Folded chain input) ∨
      ∃ name, foldChain chain = .error (some (.unpinned name)) ∧
        ∀ b ∈ chain, b.scalar name = none := by
  have hfold : foldChain chain = do
      return {
        bundles := chain.map Bundle.source
        model := ← pick (slotsOf chain) .model
        prompt := ← pick (slotsOf chain) .prompt
        contextPolicy := ← pick (slotsOf chain) .contextPolicy
        memoryView := ← pick (slotsOf chain) .memoryView
        sandbox := ← pick (slotsOf chain) .sandbox
        evalPolicy := ← pick (slotsOf chain) .evalPolicy
        skills := (slotsOf chain).skills.values
        tools := (slotsOf chain).tools.values
        plugins := (slotsOf chain).plugins.values
        permissions := ((slotsOf chain).permissions.entries.map fun entry =>
          ⟨entry.1, entry.2⟩).insertionSort fun a b => keyLe a.name b.name
        budgets := (slotsOf chain).budgets.values.insertionSort
          fun a b => keyLe a.name b.name } := rfl
  obtain ⟨model, hmodel, hmodel'⟩ | ⟨herror, hnone⟩ := pick_cases chain .model
  case inr => exact .inr ⟨_, by rw [hfold, herror]; rfl, hnone⟩
  obtain ⟨prompt, hprompt, hprompt'⟩ | ⟨herror, hnone⟩ := pick_cases chain .prompt
  case inr => exact .inr ⟨_, by rw [hfold, hmodel, herror]; rfl, hnone⟩
  obtain ⟨contextPolicy, hcontext, hcontext'⟩ | ⟨herror, hnone⟩ := pick_cases chain .contextPolicy
  case inr => exact .inr ⟨_, by rw [hfold, hmodel, hprompt, herror]; rfl, hnone⟩
  obtain ⟨memoryView, hmemory, hmemory'⟩ | ⟨herror, hnone⟩ := pick_cases chain .memoryView
  case inr => exact .inr ⟨_, by rw [hfold, hmodel, hprompt, hcontext, herror]; rfl, hnone⟩
  obtain ⟨sandbox, hsandbox, hsandbox'⟩ | ⟨herror, hnone⟩ := pick_cases chain .sandbox
  case inr => exact .inr ⟨_, by rw [hfold, hmodel, hprompt, hcontext, hmemory, herror]; rfl, hnone⟩
  obtain ⟨evalPolicy, heval, heval'⟩ | ⟨herror, hnone⟩ := pick_cases chain .evalPolicy
  case inr =>
    exact .inr ⟨_, by rw [hfold, hmodel, hprompt, hcontext, hmemory, hsandbox, herror]; rfl, hnone⟩
  refine .inl ⟨_, by rw [hfold, hmodel, hprompt, hcontext, hmemory, hsandbox, heval]; rfl, ?_⟩
  exact {
    bundles := rfl
    scalars := fun name => by cases name <;> assumption
    skills := fun slot => by rw [slotsOf, foldl_add]; exact mem_refs
    tools := fun slot => by rw [slotsOf, foldl_add]; exact mem_refs
    plugins := fun plugin => mem_plugins
    budgets := fun budget => by rw [List.mem_insertionSort]; exact mem_budgets
    permissions := fun name => by
      rw [← mem_permissions, ((List.perm_insertionSort _ _).map _).mem_iff, List.map_map]
      rfl }

end Fold

/-! ### The resolution -/

section Resolve
variable {fuel : ℕ} {chain : List Bundle}

theorem isStructureDigest_compute (hhex : ∀ text, isStructureDigest ("sha256:" ++ sha256 text))
    (input : DigestInput) : isStructureDigest (computeStructureDigest sha256 input) := hhex _

theorem resolve_cases (hhex : ∀ text, isStructureDigest ("sha256:" ++ sha256 text))
    (load : Option BundleLoader) (fuel : ℕ) (root : Bundle) :
    (∃ e, visitBundle load fuel [] [] root = .error e ∧
      resolveEffectiveStructure sha256 load fuel root = .error e) ∨
    (∃ chain name, visitBundle load fuel [] [] root = .ok chain ∧
      (∀ b ∈ chain, b.scalar name = none) ∧
      resolveEffectiveStructure sha256 load fuel root = .error (some (.unpinned name))) ∨
    ∃ chain input, visitBundle load fuel [] [] root = .ok chain ∧ Folded chain input ∧
      resolveEffectiveStructure sha256 load fuel root =
        .ok ⟨input, computeStructureDigest sha256 input⟩ := by
  unfold resolveEffectiveStructure
  cases hvisit : visitBundle load fuel [] [] root with
  | error e => exact .inl ⟨e, rfl, rfl⟩
  | ok chain =>
    refine .inr ?_
    obtain ⟨input, hfold, hfolded⟩ | ⟨name, hfold, hnone⟩ := foldChain_cases chain
    · refine .inr ⟨chain, input, rfl, hfolded, ?_⟩
      have hschema := EffectiveStructureSchema_toValue
        ⟨input, computeStructureDigest sha256 input⟩ (isStructureDigest_compute hhex input)
      simp only [bind, Except.bind, hfold, hschema]
      rfl
    · refine .inl ⟨chain, name, rfl, hnone, ?_⟩
      simp only [bind, Except.bind, hfold]

theorem Loads.unique (h : Loads load ref b) (h' : Loads load ref b') : b = b' := by
  obtain ⟨f, hf, hfb⟩ := h
  obtain ⟨f', hf', hfb'⟩ := h'
  obtain rfl : f = f' := Option.some.inj (hf.symm.trans hf')
  exact Option.some.inj (hfb.symm.trans hfb')

namespace IncludesFirst
variable {chain' : List Bundle} {refs : List StructureRef}

theorem unique {chain'' : List Bundle} (h : IncludesFirst load chain refs chain')
    (h' : IncludesFirst load chain refs chain'') : chain' = chain'' := by
  induction h generalizing chain'' with
  | nil =>
    cases h'
    rfl
  | again hdone _ ih =>
    cases h' with
    | again _ hrest => exact ih hrest
    | load hnew => exact absurd hdone hnew
  | load hnew hloads _ _ ihIncludes ihRest =>
    cases h' with
    | again hdone => exact absurd hdone hnew
    | load _ hloads' hincludes hrest =>
      obtain rfl := hloads.unique hloads'
      obtain rfl := ihIncludes hincludes
      exact ihRest hrest

theorem reached (h : IncludesFirst load chain refs chain')
    (hchain : ∀ c ∈ chain, Reaches load root c)
    (hrefs : ∀ ref ∈ refs, ∀ b, Loads load ref b → Reaches load root b) :
    ∀ c ∈ chain', Reaches load root c := by
  induction h with
  | nil => exact hchain
  | again _ _ ih => exact ih hchain fun ref href => hrefs ref (List.mem_cons_of_mem _ href)
  | @load chain chain₁ _ ref refs b _ hloads _ _ ihIncludes ihRest =>
    have hb : Reaches load root b := hrefs ref List.mem_cons_self b hloads
    refine ihRest (fun c hc => ?_) fun ref href => hrefs ref (List.mem_cons_of_mem _ href)
    obtain hc | rfl := List.mem_append.mp hc |>.imp_right List.mem_singleton.mp
    · exact ihIncludes hchain (fun ref' href' b' hloads' => hb.tail ⟨ref', href', hloads'⟩) c hc
    · exact hb

end IncludesFirst

theorem includesFirst_of_visit (hdistinct : Distinct load root) (hb : Reaches load root b)
    {chain' visiting : List Bundle} (hchain : ∀ c ∈ chain, Reaches load root c)
    (hnew : b.key ∉ chain.map Bundle.key)
    (h : (bundleTraversal load).visit fuel chain visiting b = .ok chain') :
    ∃ before, chain' = before ++ [b] ∧ IncludesFirst load chain b.includes before := by
  induction fuel generalizing chain chain' visiting b with
  | zero => cases h
  | succ fuel ih =>
    rw [Traversal.visit, bundleTraversal_key, bundleTraversal_keys, if_neg hnew] at h
    split at h
    · cases h
    cases hfold : ((bundleTraversal load).children b).foldlM ((bundleTraversal load).enter
        fun done next => (bundleTraversal load).visit fuel done (visiting ++ [b]) next) chain with
    | error e => simp [-bundleTraversal_children, hfold, bind, Except.bind] at h
    | ok before =>
      obtain rfl : before ++ [b] = chain' := by
        simpa [-bundleTraversal_children, hfold, bind, Except.bind, pure, Except.pure] using h
      refine ⟨before, rfl, ?_⟩
      have hrefs : ∀ ref ∈ b.includes, Named load root ref ∧
          ∀ c, Loads load ref c → Reaches load root c := fun ref href =>
        ⟨named_include hb href, fun c hloads => hb.tail ⟨ref, href, hloads⟩⟩
      rw [bundleTraversal_children] at hfold
      clear h hnew
      generalize b.includes = refs at hfold hrefs
      induction refs generalizing chain with
      | nil =>
        obtain rfl : chain = before := Except.ok.inj hfold
        exact .nil
      | cons ref refs ihRefs =>
        obtain ⟨chain₁, henter, hrest⟩ := foldlM_cons_ok.mp hfold
        obtain ⟨hnamed, hloaded⟩ := hrefs ref List.mem_cons_self
        have hrefs' : ∀ ref ∈ refs, Named load root ref ∧
            ∀ c, Loads load ref c → Reaches load root c := fun ref href =>
          hrefs ref (List.mem_cons_of_mem _ href)
        obtain ⟨rfl, hdone⟩ | ⟨loaded, hresolve, hvisit⟩ := Traversal.enter_ok henter
        · obtain ⟨c, hc, hkey⟩ := List.mem_map.mp hdone
          have hsame : c.ref = ref := hdistinct _ _ (named_ref (hchain c hc)) hnamed hkey
          exact .again (hsame ▸ List.mem_map_of_mem hc) (ihRefs hchain hrest hrefs')
        · obtain ⟨hnew, hloads, hkey⟩ := loadInclude_some hresolve
          have hnew' : ref ∉ chain.map Bundle.ref := fun hmem => by
            obtain ⟨c, hc, rfl⟩ := List.mem_map.mp hmem
            exact hnew (List.mem_map_of_mem hc)
          have hreached := hloaded loaded hloads
          obtain ⟨inner, rfl, hincludes⟩ := ih hreached hchain (hkey ▸ hnew) hvisit
          have hinner : ∀ c ∈ inner ++ [loaded], Reaches load root c := fun c hc => by
            obtain hc | rfl := List.mem_append.mp hc |>.imp_right List.mem_singleton.mp
            · exact hincludes.reached hchain
                (fun ref' href' b' hloads' => hreached.tail ⟨ref', href', hloads'⟩) c hc
            · exact hreached
          exact .load hnew' hloads hincludes (ihRefs hinner hrest hrefs')

theorem includesFirst_of_ok (hdistinct : Distinct load root)
    (h : visitBundle load fuel [] [] root = .ok chain) :
    ∃ before, chain = before ++ [root] ∧ IncludesFirst load [] root.includes before := by
  rw [visitBundle_eq] at h
  exact includesFirst_of_visit hdistinct .refl (by simp) (by simp) h

theorem resolved_of_sound (hhex : ∀ text, isStructureDigest ("sha256:" ++ sha256 text))
    (h : Sound load root) : Resolved sha256 load root := by
  obtain ⟨refs, hfinite⟩ := h.finite
  refine ⟨refs.length + 1, fun fuel hfuel => ?_⟩
  obtain ⟨e, hvisit, hresolve⟩ | ⟨chain, name, hvisit, hnone, hresolve⟩ |
    ⟨chain, input, hvisit, hfolded, hresolve⟩ := resolve_cases hhex load fuel root
  · rw [hresolve]
    cases e with
    | none => exact visit_ends hfinite hfuel hvisit
    | some e => exact fault_of_error h.distinct hvisit
  · rw [hresolve]
    have hvisited := visited_of_ok hvisit
    exact .unpinned fun b hb => hnone b (hvisited.mem_of_reaches h.distinct hb)
  · rw [hresolve]
    have hvisited := visited_of_ok hvisit
    have hcompute := isStructureDigest_compute hhex input
    refine ⟨fun hfault => ?_, ⟨chain, hvisited.complete h.distinct, hfolded⟩,
      verify_toValue hcompute rfl, ?_⟩
    · obtain ⟨name, hnone⟩ := hvisited.fault h.distinct hfault
      obtain ⟨before, b, after, rfl, -, hset, -⟩ := hfolded.scalars name
      have hscalar := mem_scalars.mp hset.mem
      rw [hnone b (by simp)] at hscalar
      cases hscalar
    · refine ⟨_, EffectiveStructure.parseJson_stringify _, ?_⟩
      obtain ⟨before, rfl, hincludes⟩ := includesFirst_of_ok h.distinct hvisit
      have hjson : ∀ plugin ∈ input.plugins, plugin.Json := fun plugin hplugin =>
        h.json before hincludes _ _ ((hfolded.plugins plugin).mp hplugin)
      have hsame := (canonicalJson_reread_iff input).mpr hjson
      have hreread := @verify_reread_iff sha256 ⟨input, computeStructureDigest sha256 input⟩
      exact (hreread hcompute rfl fun _ => hsame).mpr hjson

theorem resolve_mono {fuel' : ℕ} (hle : fuel ≤ fuel')
    (hvisit : visitBundle load fuel [] [] root = .ok chain) :
    resolveEffectiveStructure sha256 load fuel' root =
      resolveEffectiveStructure sha256 load fuel root := by
  have hvisit' : visitBundle load fuel' [] [] root = .ok chain := by
    rw [visitBundle_eq] at hvisit ⊢
    exact Traversal.visit_mono hle hvisit
  rw [resolveEffectiveStructure, resolveEffectiveStructure, hvisit, hvisit']

theorem reached_of_named (hfault : ¬ Fault load root) (h : Named load root ref) :
    ∃ b, Reaches load root b ∧ b.ref = ref := by
  obtain ⟨b, hb, rfl | href⟩ := h
  · exact ⟨b, hb, rfl⟩
  · by_cases hmissing : ∀ b', ¬ Loads load ref b'
    · exact absurd (.missing hb href hmissing) hfault
    · obtain ⟨b', hloads⟩ := not_forall_not.mp hmissing
      exact ⟨b', hb.tail ⟨ref, href, hloads⟩, not_not.mp fun hne =>
        hfault (.mismatch hb href hloads hne)⟩

/-- A bundle that is resolved as it may be is as it must be, unless the two texts its structure has
before and after JSON have one digest. -/
theorem sound_of_resolved (hhex : ∀ text, isStructureDigest ("sha256:" ++ sha256 text))
    {effective : EffectiveStructure}
    (hresolve : resolveEffectiveStructure sha256 load fuel root = .ok effective)
    (hsha : sha256 (canonicalJson effective.toDigestInput.reread.toValue) =
      sha256 (canonicalJson effective.toDigestInput.toValue) →
      canonicalJson effective.toDigestInput.reread.toValue =
        canonicalJson effective.toDigestInput.toValue)
    (h : Resolved sha256 load root) : Sound load root := by
  obtain ⟨e, -, herror⟩ | ⟨_, name, -, -, herror⟩ | ⟨chain, input, hvisit, hfolded, hok⟩ :=
    resolve_cases hhex load fuel root
  · rw [herror] at hresolve
    cases hresolve
  · rw [herror] at hresolve
    cases hresolve
  obtain rfl := Except.ok.inj (hok.symm.trans hresolve)
  obtain ⟨n, hn⟩ := h
  have hmeets := hn (max n fuel) (le_max_left ..)
  rw [resolve_mono (le_max_right ..) hvisit, hresolve] at hmeets
  obtain ⟨hfault, ⟨chain', hcomplete, hfolded'⟩, haccepted⟩ := hmeets
  have hrefs : chain'.map Bundle.ref = chain.map Bundle.ref := by
    have hsources := congrArg (List.map fun source : BundleSource =>
      StructureRef.mk source.bundleId source.bundleVersion)
      (hfolded'.bundles.symm.trans hfolded.bundles)
    rw [List.map_map, List.map_map] at hsources
    exact hsources
  have hall : ∀ ref, Named load root ref → ref ∈ chain.map Bundle.ref := fun ref href => by
    obtain ⟨b, hb, rfl⟩ := reached_of_named hfault href
    exact hrefs ▸ hcomplete.all b hb
  have hkeys : ((chain.map Bundle.ref).map refKey).Nodup := by
    rw [List.map_map]
    exact (visited_of_ok hvisit).ordered.nodup
  have hdistinct : Distinct load root := fun ref ref' href href' hkey =>
    List.inj_on_of_nodup_map hkeys (hall ref href) (hall ref' href') hkey
  refine ⟨⟨chain.map Bundle.ref, fun b hb => hall _ (named_ref hb)⟩, hdistinct, ?_⟩
  intro before hbefore plugin source hwins
  obtain ⟨before', rfl, hincludes⟩ := includesFirst_of_ok hdistinct hvisit
  obtain rfl := hbefore.unique hincludes
  obtain ⟨v, hparse, hverify⟩ := haccepted.reread
  rw [EffectiveStructure.parseJson_stringify] at hparse
  obtain rfl := Option.some.inj hparse
  have hreread := @verify_reread_iff sha256 ⟨input, computeStructureDigest sha256 input⟩
    (isStructureDigest_compute hhex input) rfl hsha
  exact hreread.mp hverify ⟨plugin, source⟩ ((hfolded.plugins _).mpr hwins)

end Resolve

section Samples

def samplePin : StructureRef := ⟨⟨"pin", by decide⟩, ⟨"1", by decide⟩⟩

def sampleRoot (includes : List StructureRef) : Bundle where
  id := ⟨"root", by decide⟩
  version := ⟨"1", by decide⟩
  model := some samplePin
  prompt := some samplePin
  contextPolicy := some samplePin
  memoryView := some samplePin
  sandbox := some samplePin
  evalPolicy := some samplePin
  includes := includes

def sampleSha256 (_ : String) : String := String.ofList (List.replicate 64 '0')

theorem sampleSha256_hex (text : String) : isStructureDigest ("sha256:" ++ sampleSha256 text) := by
  have hdigest : isStructureDigest
      ("sha256:" ++ String.ofList (List.replicate 64 '0')) := by decide +kernel
  exact hdigest

def sampleLoader : BundleLoader := fun ref => some { id := ref.id, version := ref.version }

def sampleIncludes : List StructureRef :=
  [⟨⟨"a", by decide⟩, ⟨"b@c", by decide⟩⟩, ⟨⟨"a@b", by decide⟩, ⟨"c", by decide⟩⟩]

theorem sampleChain : visitBundle (some sampleLoader) 3 [] [] (sampleRoot sampleIncludes) =
    .ok [{ id := ⟨"a", by decide⟩, version := ⟨"b@c", by decide⟩ }, sampleRoot sampleIncludes] := by
  rfl

end Samples

end BeeAgent.Bundles
