import BeeAgent.Data.DepthFirst
import BeeAgent.Kernel.Plan

/-! The activation order of a plugin graph: when there is one, and that it is one. -/
namespace BeeAgent.Structure
open BeeAgent.Data

namespace RuntimePlugin

def injected (plugin : RuntimePlugin) : List String := plugin.inject.getD []

def provided (plugin : RuntimePlugin) : List String := plugin.provides.getD []

end RuntimePlugin

/-- `plugin` injects a service that `provider` provides. -/
def Depends (specs : List RuntimePlugin) (plugin provider : RuntimePlugin) : Prop :=
  plugin ∈ specs ∧ provider ∈ specs ∧ ∃ service ∈ plugin.injected, service ∈ provider.provided

/-- What keeps plugins from being activated one after another. -/
inductive Unorderable (specs : List RuntimePlugin) (bootstrap : List String) : Prop
  | sameId (h : ¬ (specs.map RuntimePlugin.id).Nodup)
  | providedTwice (h : ¬ (specs.flatMap RuntimePlugin.provided).Nodup)
  | missing {plugin : RuntimePlugin} {service : String} (hplugin : plugin ∈ specs)
    (hservice : service ∈ plugin.injected) (hbootstrap : service ∉ bootstrap)
    (hprovider : ∀ provider ∈ specs, service ∉ provider.provided)
  | cycle {plugin : RuntimePlugin} (h : Relation.TransGen (Depends specs) plugin plugin)

/-- Every service that a plugin injects is there before it. -/
def Activatable (bootstrap : List String) (ordered : List RuntimePlugin) : Prop :=
  ∀ before plugin after, ordered = before ++ plugin :: after → ∀ service ∈ plugin.injected,
    service ∈ bootstrap ∨ ∃ provider ∈ before, service ∈ provider.provided

variable {specs : List RuntimePlugin} {bootstrap : List String}

section Providers
variable {providers providers' : List (String × String)} {services : List String} {id : String}

/-- The providers of the services that one plugin adds. -/
structure Provides (providers : List (String × String)) (id : String) (services : List String)
    (providers' : List (String × String)) : Prop where
  nodup : services.Nodup
  fresh : ∀ service ∈ services, providers.lookup service = none
  lookup : ∀ service, providers'.lookup service =
    if service ∈ services then some id else providers.lookup service

def addProvider (id : String) (providers : List (String × String)) (service : String) :
    Except KernelError (List (String × String)) :=
  match providers.lookup service with
  | some existing => throw (.duplicateServiceProvider service [existing, id])
  | none => pure ((service, id) :: providers)

theorem Provides.nil : Provides providers id [] providers :=
  ⟨List.nodup_nil, by simp, by simp⟩

theorem Provides.snoc {providers'' : List (String × String)} {service : String}
    (h : Provides providers id services providers')
    (hadd : addProvider id providers' service = .ok providers'') :
    Provides providers id (services ++ [service]) providers'' := by
  unfold addProvider at hadd
  split at hadd
  · cases hadd
  next hnone =>
  obtain rfl := Except.ok.inj hadd
  have hlookup := h.lookup service
  rw [hnone] at hlookup
  have hnew : service ∉ services := fun hmem => by simp [hmem] at hlookup
  refine ⟨?_, fun other hother => ?_, fun other => ?_⟩
  · exact List.nodup_append.mpr ⟨h.nodup, by simp, by
      rintro a ha b hb rfl
      exact hnew (List.mem_singleton.mp hb ▸ ha)⟩
  · obtain hold | rfl := List.mem_append.mp hother |>.imp_right List.mem_singleton.mp
    · exact h.fresh other hold
    · simpa [hnew] using hlookup.symm
  · by_cases heq : other = service
    · simp [heq]
    · simp [List.lookup_cons, heq, beq_eq_false_iff_ne.mpr heq, h.lookup other]

/-- What is known of the plugins that were added. -/
structure Provided (specs : List RuntimePlugin) (ids : List String)
    (providers : List (String × String)) : Prop where
  ids : ∀ id, id ∈ ids ↔ id ∈ specs.map RuntimePlugin.id
  nodup : (specs.map RuntimePlugin.id).Nodup
  services : (specs.flatMap RuntimePlugin.provided).Nodup
  lookup : ∀ service id, providers.lookup service = some id ↔
    ∃ plugin ∈ specs, plugin.id = id ∧ service ∈ plugin.provided

theorem Provided.lookup_none {ids : List String} (h : Provided specs ids providers)
    (service : String) :
    providers.lookup service = none ↔ service ∉ specs.flatMap RuntimePlugin.provided := by
  rw [Option.eq_none_iff_forall_ne_some]
  simp only [ne_eq, h.lookup, List.mem_flatMap, not_exists, not_and]
  exact ⟨fun hnone plugin hplugin hservice => hnone _ plugin hplugin rfl hservice,
    fun hnone id plugin hplugin _ hservice => hnone plugin hplugin hservice⟩

def addPlugin (acc : List String × List (String × String)) (spec : RuntimePlugin) :
    Except KernelError (List String × List (String × String)) := do
  if spec.id ∈ acc.1 then throw (.duplicatePlugin spec.id)
  let providers ← spec.provided.foldlM (addProvider spec.id) acc.2
  return (spec.id :: acc.1, providers)

theorem Provided.nil : Provided [] [] [] :=
  ⟨by simp, List.nodup_nil, List.nodup_nil, by simp⟩

theorem Provided.snoc {ids : List String} {spec : RuntimePlugin}
    (h : Provided specs ids providers) (hid : spec.id ∉ ids)
    (hservices : Provides providers spec.id spec.provided providers') :
    Provided (specs ++ [spec]) (spec.id :: ids) providers' := by
  have hfresh : ∀ service ∈ spec.provided, service ∉ specs.flatMap RuntimePlugin.provided :=
    fun service hservice => (h.lookup_none service).mp (hservices.fresh service hservice)
  refine ⟨fun id => by simp [h.ids id, or_comm], ?_, ?_, fun service id => ?_⟩
  · rw [List.map_append]
    refine List.nodup_append.mpr ⟨h.nodup, by simp, ?_⟩
    rintro id hmem id' hmem' rfl
    exact hid ((h.ids id).mpr hmem |> (List.mem_singleton.mp hmem' ▸ ·))
  · rw [List.flatMap_append]
    refine List.nodup_append.mpr ⟨h.services, by simpa using hservices.nodup, ?_⟩
    rintro service hmem service' hmem' rfl
    exact hfresh service (by simpa using hmem') hmem
  · rw [hservices.lookup service]
    split
    · next hservice =>
      have hnone := hfresh service hservice
      simp only [List.mem_flatMap, not_exists, not_and] at hnone
      constructor
      · intro heq
        exact ⟨spec, by simp, Option.some.inj heq, hservice⟩
      · rintro ⟨plugin, hplugin, rfl, hprovided⟩
        obtain hold | rfl := List.mem_append.mp hplugin |>.imp_right List.mem_singleton.mp
        · exact absurd hprovided (hnone plugin hold)
        · rfl
    · next hservice =>
      rw [h.lookup service id]
      constructor
      · rintro ⟨plugin, hplugin, hprovided⟩
        exact ⟨plugin, List.mem_append_left _ hplugin, hprovided⟩
      · rintro ⟨plugin, hplugin, rfl, hprovided⟩
        obtain hold | rfl := List.mem_append.mp hplugin |>.imp_right List.mem_singleton.mp
        · exact ⟨plugin, hold, rfl, hprovided⟩
        · exact absurd hprovided hservice

theorem addPlugin_ok {acc acc' : List String × List (String × String)} {spec : RuntimePlugin}
    (h : Provided specs acc.1 acc.2) (hadd : addPlugin acc spec = .ok acc') :
    Provided (specs ++ [spec]) acc'.1 acc'.2 := by
  unfold addPlugin at hadd
  split at hadd
  · cases hadd
  next hid =>
  cases hservices : spec.provided.foldlM (addProvider spec.id) acc.2 with
  | error e => simp [hservices, bind, Except.bind] at hadd
  | ok providers =>
    obtain rfl : (spec.id :: acc.1, providers) = acc' := by
      simpa [hservices, bind, Except.bind, pure, Except.pure] using hadd
    exact h.snoc hid (foldlM_ok (Provides acc.2 spec.id)
      (fun _ _ _ _ _ hprovides => hprovides.snoc) .nil hservices)

theorem addPlugin_error {acc : List String × List (String × String)} {spec : RuntimePlugin}
    {error : KernelError} (h : Provided specs acc.1 acc.2)
    (hadd : addPlugin acc spec = .error error) :
    spec.id ∈ specs.map RuntimePlugin.id ∨
      ¬ (specs.flatMap RuntimePlugin.provided ++ spec.provided).Nodup := by
  unfold addPlugin at hadd
  split at hadd
  · next hid => exact .inl ((h.ids _).mp hid)
  cases hservices : spec.provided.foldlM (addProvider spec.id) acc.2 with
  | ok providers => simp [hservices, bind, Except.bind, pure, Except.pure] at hadd
  | error e =>
    obtain ⟨done, service, rest, providers, heq, hprovides, herror⟩ := foldlM_error
      (Provides acc.2 spec.id) (fun _ _ _ _ _ hprovides => hprovides.snoc) .nil hservices
    refine .inr fun hnodup => ?_
    unfold addProvider at herror
    split at herror
    · next existing hlookup =>
      rw [hprovides.lookup service] at hlookup
      rw [heq, List.nodup_append] at hnodup
      split at hlookup
      · next hmem =>
        exact (List.nodup_append.mp hnodup.2.1).2.2 service hmem service List.mem_cons_self rfl
      · obtain ⟨plugin, hplugin, -, hservice⟩ := (h.lookup service existing).mp hlookup
        exact hnodup.2.2 service (List.mem_flatMap.mpr ⟨plugin, hplugin, hservice⟩) service
          (by simp) rfl
    · cases herror

theorem providersOf_ok {result : List String × List (String × String)}
    (h : providersOf specs = .ok result) : Provided specs result.1 result.2 :=
  foldlM_ok (fun specs acc => Provided specs acc.1 acc.2)
    (fun _ _ _ _ _ hprovided => addPlugin_ok hprovided) .nil h

theorem providersOf_error {error : KernelError} (h : providersOf specs = .error error) :
    Unorderable specs bootstrap := by
  obtain ⟨done, spec, rest, acc, rfl, hprovided, hadd⟩ :=
    foldlM_error (fun specs acc => Provided specs acc.1 acc.2)
      (fun _ _ _ _ _ hprovided => addPlugin_ok hprovided) .nil h
  obtain hid | hservices := addPlugin_error hprovided hadd
  · refine .sameId fun hnodup => ?_
    rw [List.map_append, List.nodup_append] at hnodup
    exact hnodup.2.2 _ hid _ (by simp) rfl
  · refine .providedTwice fun hnodup => hservices ?_
    rw [List.append_cons, List.flatMap_append, List.flatMap_append,
      List.flatMap_singleton] at hnodup
    exact (List.nodup_append.mp hnodup).1

end Providers

section Dependencies
variable {providers : List (String × String)} {dependencies : List (String × List String)}

def addEdge (providers : List (String × String)) (bootstrap : List String) (pluginId : String)
    (edges : List String) (service : String) : Except KernelError (List String) :=
  match providers.lookup service with
  | some provider => pure (edges ++ [provider])
  | none =>
    if service ∈ bootstrap then pure edges
    else throw (.missingPluginDependency pluginId service)

/-- What is known of the edges for the services of one plugin. -/
structure Edges (providers : List (String × String)) (bootstrap services edges : List String) :
    Prop where
  mem : ∀ id, id ∈ edges ↔ ∃ service ∈ services, providers.lookup service = some id
  present : ∀ service ∈ services, providers.lookup service = none → service ∈ bootstrap

theorem Edges.snoc {services edges edges' : List String} {pluginId service : String}
    (h : Edges providers bootstrap services edges)
    (hadd : addEdge providers bootstrap pluginId edges service = .ok edges') :
    Edges providers bootstrap (services ++ [service]) edges' := by
  unfold addEdge at hadd
  split at hadd
  · next provider hlookup =>
    obtain rfl := Except.ok.inj hadd
    refine ⟨fun id => ?_, fun other hother hnone => ?_⟩
    · simp [h.mem id, hlookup, or_and_right, exists_or, eq_comm]
    · obtain hold | rfl := List.mem_append.mp hother |>.imp_right List.mem_singleton.mp
      · exact h.present other hold hnone
      · exact absurd (hlookup.symm.trans hnone) (by simp)
  · next hlookup =>
    split at hadd
    · next hbootstrap =>
      obtain rfl := Except.ok.inj hadd
      refine ⟨fun id => ?_, fun other hother hnone => ?_⟩
      · simp [h.mem id, hlookup, or_and_right, exists_or]
      · obtain hold | rfl := List.mem_append.mp hother |>.imp_right List.mem_singleton.mp
        · exact h.present other hold hnone
        · exact hbootstrap
    · cases hadd

def dependenciesOfPlugin (bootstrap : List String) (providers : List (String × String))
    (spec : RuntimePlugin) : Except KernelError (String × List String) := do
  let edges ← spec.injected.foldlM (addEdge providers bootstrap spec.id) []
  return (spec.id, edges.eraseDups)

theorem dependenciesOfPlugin_ok {spec : RuntimePlugin} {entry : String × List String}
    (h : dependenciesOfPlugin bootstrap providers spec = .ok entry) :
    entry.1 = spec.id ∧ Edges providers bootstrap spec.injected entry.2 := by
  unfold dependenciesOfPlugin at h
  cases hedges : spec.injected.foldlM (addEdge providers bootstrap spec.id) [] with
  | error e => simp [hedges, bind, Except.bind] at h
  | ok edges =>
    obtain rfl : (spec.id, edges.eraseDups) = entry := by
      simpa [hedges, bind, Except.bind, pure, Except.pure] using h
    have hdone := foldlM_ok (Edges providers bootstrap)
      (fun _ _ _ _ _ h => Edges.snoc h) ⟨by simp, by simp⟩ hedges
    exact ⟨rfl, fun id => by simpa using hdone.mem id, hdone.present⟩

theorem dependenciesOfPlugin_error {spec : RuntimePlugin} {error : KernelError}
    (h : dependenciesOfPlugin bootstrap providers spec = .error error) :
    ∃ service ∈ spec.injected, service ∉ bootstrap ∧ providers.lookup service = none := by
  unfold dependenciesOfPlugin at h
  cases hedges : spec.injected.foldlM (addEdge providers bootstrap spec.id) [] with
  | ok edges => simp [hedges, bind, Except.bind, pure, Except.pure] at h
  | error e =>
    obtain ⟨done, service, rest, edges, heq, -, hadd⟩ :=
      foldlM_error (fun _ _ => True) (fun _ _ _ _ _ _ _ => trivial) trivial hedges
    refine ⟨service, by simp [heq], ?_⟩
    unfold addEdge at hadd
    split at hadd
    · cases hadd
    next hlookup =>
    split at hadd
    · cases hadd
    next hbootstrap => exact ⟨hbootstrap, hlookup⟩

theorem lookup_of_forall₂ {R : RuntimePlugin → List String → Prop} {spec : RuntimePlugin}
    (h : List.Forall₂ (fun spec entry => entry.1 = spec.id ∧ R spec entry.2) specs dependencies)
    (hnodup : (specs.map RuntimePlugin.id).Nodup) (hspec : spec ∈ specs) :
    ∃ edges, dependencies.lookup spec.id = some edges ∧ R spec edges := by
  induction h with
  | nil => cases hspec
  | @cons first entry specs dependencies hfirst _ ih =>
    obtain ⟨id, edges⟩ := entry
    obtain ⟨rfl, hedges⟩ := hfirst
    rw [List.map_cons, List.nodup_cons] at hnodup
    obtain rfl | htail := List.mem_cons.mp hspec
    · exact ⟨edges, by simp, hedges⟩
    · have hne : spec.id ≠ first.id := fun heq => hnodup.1 (heq ▸ List.mem_map_of_mem htail)
      simpa [List.lookup_cons, beq_eq_false_iff_ne.mpr hne] using ih hnodup.2 htail

end Dependencies

section Visit

/-- The plugins by their ids, with what they depend on as their children. -/
def dependencyTraversal (dependencies : List (String × List String)) :
    Traversal KernelError String String String where
  key id := id
  children id := (dependencies.lookup id).getD []
  target id := id
  resolve _ id := .ok (some id)
  cyclic path id := .pluginDependencyCycle (path.dropWhile (· != id) ++ [id])
  exhausted path id := .pluginDependencyCycle (path ++ [id])
  skipped h := by cases h
  resolved h := by cases h; rfl

variable {dependencies : List (String × List String)}

@[simp] theorem dependencyTraversal_keys (ids : List String) :
    (dependencyTraversal dependencies).keys ids = ids := List.map_id ids

@[simp] theorem dependencyTraversal_key (id : String) :
    (dependencyTraversal dependencies).key id = id := rfl

@[simp] theorem dependencyTraversal_target (id : String) :
    (dependencyTraversal dependencies).target id = id := rfl

theorem visit_eq (fuel : ℕ) (permanent path : List String) (id : String) :
    visit dependencies fuel permanent path id =
      (dependencyTraversal dependencies).visit fuel permanent path id := by
  induction fuel generalizing permanent path id with
  | zero => rfl
  | succ fuel ih =>
    simp only [visit, Traversal.visit, dependencyTraversal_keys, funext₂ (ih · (path ++ [id]))]
    rfl

/-- The checked plugins and the edges between them. -/
structure Checked (specs : List RuntimePlugin) (bootstrap : List String)
    (dependencies : List (String × List String)) : Prop where
  nodup : (specs.map RuntimePlugin.id).Nodup
  services : (specs.flatMap RuntimePlugin.provided).Nodup
  present : ∀ spec ∈ specs, ∀ service ∈ spec.injected, service ∈ bootstrap ∨
    ∃ provider ∈ specs, service ∈ provider.provided
  edges : ∀ spec ∈ specs, ∀ id, id ∈ (dependencies.lookup spec.id).getD [] ↔
    ∃ provider, Depends specs spec provider ∧ provider.id = id

theorem checked_of_ok {result : List String × List (String × String)}
    (hproviders : providersOf specs = .ok result)
    (hdependencies : dependenciesOf specs bootstrap result.2 = .ok dependencies) :
    Checked specs bootstrap dependencies := by
  have hprovided := providersOf_ok hproviders
  have hentries := (mapM_forall₂ hdependencies).imp fun _ _ => dependenciesOfPlugin_ok
  have hlookup : ∀ spec ∈ specs, ∃ edges, dependencies.lookup spec.id = some edges ∧
      Edges result.2 bootstrap spec.injected edges :=
    fun _ hspec => lookup_of_forall₂ hentries hprovided.nodup hspec
  refine ⟨hprovided.nodup, hprovided.services, fun spec hspec service hservice => ?_,
    fun spec hspec id => ?_⟩
  · obtain ⟨edges, -, hedges⟩ := hlookup spec hspec
    cases hnone : result.2.lookup service with
    | none => exact .inl (hedges.present service hservice hnone)
    | some id =>
      obtain ⟨provider, hprovider, -, hprovides⟩ := (hprovided.lookup service id).mp hnone
      exact .inr ⟨provider, hprovider, hprovides⟩
  · obtain ⟨edges, hentry, hedges⟩ := hlookup spec hspec
    simp only [hentry, Option.getD_some, hedges.mem id, hprovided.lookup]
    constructor
    · rintro ⟨service, hservice, provider, hprovider, rfl, hprovides⟩
      exact ⟨provider, ⟨hspec, hprovider, service, hservice, hprovides⟩, rfl⟩
    · rintro ⟨provider, ⟨-, hprovider, service, hservice, hprovides⟩, rfl⟩
      exact ⟨service, hservice, provider, hprovider, rfl, hprovides⟩

theorem unorderable_of_error {result : List String × List (String × String)} {error : KernelError}
    (hproviders : providersOf specs = .ok result)
    (h : dependenciesOf specs bootstrap result.2 = .error error) : Unorderable specs bootstrap := by
  obtain ⟨spec, hspec, herror⟩ := mapM_error h
  obtain ⟨service, hservice, hbootstrap, hlookup⟩ := dependenciesOfPlugin_error herror
  refine .missing hspec hservice hbootstrap fun provider hprovider hprovides => ?_
  have hnone := ((providersOf_ok hproviders).lookup_none service).mp hlookup
  exact hnone (List.mem_flatMap.mpr ⟨provider, hprovider, hprovides⟩)

namespace Checked

theorem eq_of_id (h : Checked specs bootstrap dependencies) {p q : RuntimePlugin}
    (hp : p ∈ specs) (hq : q ∈ specs) (heq : p.id = q.id) : p = q :=
  List.inj_on_of_nodup_map h.nodup hp hq heq

theorem byId_eq (h : Checked specs bootstrap dependencies) {plugin : RuntimePlugin}
    (hplugin : plugin ∈ specs) : byId specs plugin.id = some plugin := by
  have hfound : (byId specs plugin.id).isSome := by
    simp only [byId, List.find?_isSome, List.mem_reverse, beq_iff_eq]
    exact ⟨plugin, hplugin, rfl⟩
  obtain ⟨found, hfound⟩ := Option.isSome_iff_exists.mp hfound
  have hid : found.id = plugin.id := by simpa using List.find?_some hfound
  rw [hfound, h.eq_of_id (List.mem_reverse.mp (List.mem_of_find?_eq_some hfound)) hplugin hid]

theorem leads_iff (h : Checked specs bootstrap dependencies) {plugin : RuntimePlugin}
    (hplugin : plugin ∈ specs) {id : String} :
    (dependencyTraversal dependencies).Leads plugin.id id ↔
      ∃ provider, Depends specs plugin provider ∧ provider.id = id := by
  rw [← h.edges plugin hplugin id]
  constructor
  · rintro ⟨child, hchild, _, hresolve⟩
    obtain rfl := Option.some.inj (Except.ok.inj hresolve)
    exact hchild
  · intro hmem
    exact ⟨id, hmem, [], rfl⟩

theorem reaches (h : Checked specs bootstrap dependencies) {plugin : RuntimePlugin}
    (hplugin : plugin ∈ specs) {id : String}
    (hreaches : Relation.ReflTransGen (dependencyTraversal dependencies).Leads plugin.id id) :
    ∃ reached ∈ specs, reached.id = id := by
  induction hreaches with
  | refl => exact ⟨plugin, hplugin, rfl⟩
  | tail _ hleads ih =>
    obtain ⟨reached, hreached, rfl⟩ := ih
    obtain ⟨provider, hdepends, rfl⟩ := (h.leads_iff hreached).mp hleads
    exact ⟨provider, hdepends.2.1, rfl⟩

theorem edge_iff (h : Checked specs bootstrap dependencies) {ids : List String}
    {plugin : RuntimePlugin} (hplugin : plugin ∈ specs) {id : String} :
    (dependencyTraversal dependencies).Edge ids plugin.id id ↔
      plugin.id ∈ ids ∧ ∃ provider, Depends specs plugin provider ∧ provider.id = id := by
  rw [← h.edges plugin hplugin id]
  constructor
  · rintro ⟨_, hmem, rfl, _, hchild, rfl⟩
    exact ⟨hmem, hchild⟩
  · rintro ⟨hmem, hchild⟩
    exact ⟨plugin.id, hmem, rfl, id, hchild, rfl⟩

theorem depends_of_leads (h : Checked specs bootstrap dependencies) {plugin : RuntimePlugin}
    (hplugin : plugin ∈ specs) {id : String}
    (hleads : Relation.TransGen (dependencyTraversal dependencies).Leads plugin.id id) :
    ∃ provider ∈ specs, provider.id = id ∧ Relation.TransGen (Depends specs) plugin provider := by
  induction hleads with
  | single hleads =>
    obtain ⟨provider, hdepends, rfl⟩ := (h.leads_iff hplugin).mp hleads
    exact ⟨provider, hdepends.2.1, rfl, .single hdepends⟩
  | tail _ hleads ih =>
    obtain ⟨reached, hreached, rfl, hreaches⟩ := ih
    obtain ⟨provider, hdepends, rfl⟩ := (h.leads_iff hreached).mp hleads
    exact ⟨provider, hdepends.2.1, rfl, hreaches.tail hdepends⟩

variable {done : List String}

/-- Where the visits succeed, the ids are in order and nothing keeps them from being so. -/
theorem ordered_of_visits (h : Checked specs bootstrap dependencies)
    (hordered : (dependencyTraversal dependencies).Ordered done)
    (hperm : done.Perm (specs.map RuntimePlugin.id)) :
    (done.filterMap (byId specs)).Perm specs ∧
      Activatable bootstrap (done.filterMap (byId specs)) := by
  have hids : ∀ id ∈ done, ∃ plugin ∈ specs, plugin.id = id ∧ byId specs id = some plugin := by
    intro id hid
    obtain ⟨plugin, hplugin, rfl⟩ := List.mem_map.mp (hperm.mem_iff.mp hid)
    exact ⟨plugin, hplugin, rfl, h.byId_eq hplugin⟩
  have hmap : (done.filterMap (byId specs)).map RuntimePlugin.id = done := by
    rw [List.map_filterMap]
    refine (List.filterMap_congr fun id hid => ?_).trans List.filterMap_some
    obtain ⟨plugin, -, hid, hplugin⟩ := hids id hid
    rw [hplugin, Option.map_some, hid]
  have hspecs : (done.filterMap (byId specs)).Perm specs := by
    refine (hperm.filterMap (byId specs)).trans (.of_eq ?_)
    rw [List.filterMap_map]
    exact (List.filterMap_congr fun plugin hplugin => h.byId_eq hplugin).trans List.filterMap_some
  refine ⟨hspecs, fun before plugin after heq service hservice => ?_⟩
  have hplugin : plugin ∈ specs := hspecs.mem_iff.mp (by simp [heq])
  refine (h.present plugin hplugin service hservice).imp_right ?_
  rintro ⟨provider, hprovider, hprovides⟩
  have hchild : provider.id ∈ (dependencies.lookup plugin.id).getD [] :=
    (h.edges plugin hplugin _).mpr
      ⟨provider, ⟨hplugin, hprovider, service, hservice, hprovides⟩, rfl⟩
  have hbefore : provider.id ∈ before.map RuntimePlugin.id := by
    have hdone : done = before.map RuntimePlugin.id ++ plugin.id :: after.map RuntimePlugin.id := by
      rw [← hmap, heq]
      simp
    simpa using hordered.behind _ _ _ hdone _ hchild
  obtain ⟨earlier, hearlier, hid⟩ := List.mem_map.mp hbefore
  have hmem : earlier ∈ specs := hspecs.mem_iff.mp (by simp [heq, hearlier])
  exact ⟨earlier, hearlier, h.eq_of_id hmem hprovider hid ▸ hprovides⟩

theorem orderable_of_visits (h : Checked specs bootstrap dependencies)
    (hordered : (dependencyTraversal dependencies).Ordered done)
    (hperm : done.Perm (specs.map RuntimePlugin.id)) : ¬ Unorderable specs bootstrap := by
  rintro (hid | htwice | ⟨hplugin, hservice, hbootstrap, hprovider⟩ | hcycle)
  · exact hid h.nodup
  · exact htwice h.services
  · obtain hpresent | ⟨provider, hmem, hprovides⟩ := h.present _ hplugin _ hservice
    · exact hbootstrap hpresent
    · exact hprovider provider hmem hprovides
  · refine hordered.acyclic _ (hcycle.lift RuntimePlugin.id fun p q hdepends => ?_)
    exact (h.edge_iff hdepends.1).mpr
      ⟨hperm.mem_iff.mpr (List.mem_map_of_mem hdepends.1), q, hdepends, rfl⟩

theorem perm_of_visits (h : Checked specs bootstrap dependencies)
    (hvisits : (dependencyTraversal dependencies).visitAll (specs.length + 1)
      (specs.map RuntimePlugin.id) [] = .ok done) :
    (dependencyTraversal dependencies).Ordered done ∧
      done.Perm (specs.map RuntimePlugin.id) := by
  obtain ⟨hordered, hall, hreached⟩ := Traversal.visitAll_ok hvisits
  have hnodup : done.Nodup := by simpa using hordered.nodup
  refine ⟨hordered, (List.perm_ext_iff_of_nodup hnodup h.nodup).mpr fun id => ⟨fun hid => ?_,
    fun hid => by simpa using hall id hid⟩⟩
  obtain ⟨start, hstart, hreaches⟩ := hreached id hid
  obtain ⟨plugin, hplugin, rfl⟩ := List.mem_map.mp hstart
  obtain ⟨reached, hmem, rfl⟩ := h.reaches hplugin hreaches
  exact List.mem_map_of_mem hmem

/-- Where a visit throws, it has gone round a cycle: the fuel is enough. -/
theorem cycle_of_visits (h : Checked specs bootstrap dependencies) {error : KernelError}
    (hvisits : (dependencyTraversal dependencies).visitAll (specs.length + 1)
      (specs.map RuntimePlugin.id) [] = .error error) : Unorderable specs bootstrap := by
  obtain ⟨start, hstart, path, last, hwalk, hthrows⟩ := Traversal.visitAll_error hvisits
  obtain ⟨plugin, hplugin, rfl⟩ := List.mem_map.mp hstart
  cases hthrows with
  | unresolved hchild hresolve => cases hresolve
  | cyclic hagain =>
    obtain ⟨reached, hreached, rfl⟩ := h.reaches hplugin (hwalk.reaches last (by simp))
    have hcycle := hwalk.leads _ (by simpa using hagain)
    obtain ⟨again, hagain, hid, hcycle⟩ := h.depends_of_leads hreached hcycle
    exact .cycle (h.eq_of_id hagain hreached hid ▸ hcycle)
  | exhausted hlong =>
    have hall : ∀ id, Relation.ReflTransGen (dependencyTraversal dependencies).Leads plugin.id id →
        id ∈ specs.map RuntimePlugin.id := fun id hreaches => by
      obtain ⟨reached, hreached, rfl⟩ := h.reaches hplugin hreaches
      exact List.mem_map_of_mem hreached
    have hshort := hwalk.length_le hall
    rw [List.length_map] at hshort
    omega

end Checked

end Visit

/-- An activation order holds every plugin once, each behind the providers of what it injects, and
there is one unless an id or a service is taken twice, a service is missing or the plugins depend
on one another in a cycle. -/
theorem validateAndOrder_correct (specs : List RuntimePlugin) (bootstrap : List String) :
    (∀ ordered, validateAndOrder specs bootstrap = .ok ordered →
      ordered.Perm specs ∧ Activatable bootstrap ordered) ∧
    ((∃ error, validateAndOrder specs bootstrap = .error error) ↔ Unorderable specs bootstrap) := by
  unfold validateAndOrder
  cases hproviders : providersOf specs with
  | error e =>
    refine ⟨fun _ h => by simp [bind, Except.bind] at h, fun _ => providersOf_error hproviders,
      fun _ => ⟨e, rfl⟩⟩
  | ok result =>
  cases hdependencies : dependenciesOf specs bootstrap result.2 with
  | error e =>
    refine ⟨fun _ h => by simp [hdependencies, bind, Except.bind] at h,
      fun _ => unorderable_of_error hproviders hdependencies, fun _ => ⟨e, ?_⟩⟩
    simp [hdependencies, bind, Except.bind]
  | ok dependencies =>
  have hchecked := checked_of_ok hproviders hdependencies
  have hall : specs.foldlM (fun permanent spec =>
      visit dependencies (specs.length + 1) permanent [] spec.id) [] =
      (dependencyTraversal dependencies).visitAll (specs.length + 1)
        (specs.map RuntimePlugin.id) [] := by
    rw [Traversal.visitAll, List.foldlM_map]
    simp only [visit_eq]
  cases hvisits : (dependencyTraversal dependencies).visitAll (specs.length + 1)
      (specs.map RuntimePlugin.id) [] with
  | error e =>
    refine ⟨fun _ h => by simp [hdependencies, hall, hvisits, bind, Except.bind] at h,
      fun _ => hchecked.cycle_of_visits hvisits, fun _ => ⟨e, ?_⟩⟩
    simp [hdependencies, hall, hvisits, bind, Except.bind]
  | ok done =>
    obtain ⟨hordered, hperm⟩ := hchecked.perm_of_visits hvisits
    refine ⟨fun ordered h => ?_, ?_,
      fun h => absurd h (hchecked.orderable_of_visits hordered hperm)⟩
    · obtain rfl : done.filterMap (byId specs) = ordered := by
        simpa [hdependencies, hall, hvisits, bind, Except.bind, pure, Except.pure] using h
      exact hchecked.ordered_of_visits hordered hperm
    · rintro ⟨_, h⟩
      simp [hdependencies, hall, hvisits, bind, Except.bind, pure, Except.pure] at h

/-- Plugins that are listed in an activation order are activated as they are listed: where none
injects what one behind it provides, nothing is moved. -/
theorem validateAndOrder_stable {ordered : List RuntimePlugin}
    (h : validateAndOrder specs bootstrap = .ok ordered)
    (hbehind : specs.Pairwise fun plugin later =>
      ∀ service ∈ plugin.injected, service ∉ later.provided) : ordered = specs := by
  unfold validateAndOrder at h
  cases hproviders : providersOf specs with
  | error e => simp [hproviders, bind, Except.bind] at h
  | ok result =>
  cases hdependencies : dependenciesOf specs bootstrap result.2 with
  | error e => simp [hproviders, hdependencies, bind, Except.bind] at h
  | ok dependencies =>
  have hchecked := checked_of_ok hproviders hdependencies
  have hall : specs.foldlM (fun permanent spec =>
      visit dependencies (specs.length + 1) permanent [] spec.id) [] =
      (dependencyTraversal dependencies).visitAll (specs.length + 1)
        (specs.map RuntimePlugin.id) [] := by
    rw [Traversal.visitAll, List.foldlM_map]
    simp only [visit_eq]
  cases hvisits : (dependencyTraversal dependencies).visitAll (specs.length + 1)
      (specs.map RuntimePlugin.id) [] with
  | error e => simp [hproviders, hdependencies, hall, hvisits, bind, Except.bind] at h
  | ok done =>
    obtain ⟨hdone, hperm⟩ := hchecked.perm_of_visits hvisits
    have hacyclic := hchecked.orderable_of_visits hdone hperm
    have hordered : (dependencyTraversal dependencies).Ordered (specs.map RuntimePlugin.id) := by
      refine ⟨by simpa using hchecked.nodup, fun before id after heq child hchild => ?_⟩
      obtain ⟨earlier, rest, rfl, rfl, hrest⟩ := List.map_eq_append_iff.mp heq
      obtain ⟨plugin, later, rfl, rfl, rfl⟩ := List.map_eq_cons_iff.mp hrest
      obtain ⟨provider, hdepends, rfl⟩ := (hchecked.edges plugin (by simp) child).mp hchild
      obtain ⟨hplugin, hprovider, service, hservice, hprovides⟩ := hdepends
      rw [dependencyTraversal_target, dependencyTraversal_keys]
      rcases List.mem_append.mp hprovider with hmem | hmem
      · exact List.mem_map_of_mem hmem
      rcases List.mem_cons.mp hmem with rfl | hmem
      · have hself : Relation.TransGen (Depends (earlier ++ provider :: later)) provider provider :=
          .single ⟨hplugin, hprovider, service, hservice, hprovides⟩
        exact absurd (.cycle hself) hacyclic
      · rw [List.pairwise_append, List.pairwise_cons] at hbehind
        exact absurd hprovides (hbehind.2.1.1 provider hmem service hservice)
    obtain rfl := Traversal.visitAll_ordered hordered hvisits
    have hspecs : (specs.map RuntimePlugin.id).filterMap (byId specs) = specs := by
      rw [List.filterMap_map]
      exact (List.filterMap_congr fun plugin hplugin => hchecked.byId_eq hplugin).trans
        List.filterMap_some
    simpa [hproviders, hdependencies, hall, hvisits, hspecs, bind, Except.bind, pure,
      Except.pure] using h.symm

def listedInOrder : List RuntimePlugin :=
  [{ id := "store", version := "1", provides := some ["db"] },
    { id := "board", version := "1", inject := some ["db"] }]

theorem validateAndOrder_stable_sample : ∃ ordered,
    validateAndOrder listedInOrder [] = .ok ordered ∧ ordered = listedInOrder := by
  obtain ⟨ordered, h⟩ : ∃ ordered, validateAndOrder listedInOrder [] = .ok ordered := ⟨_, rfl⟩
  exact ⟨ordered, h, validateAndOrder_stable h
    (by simp [listedInOrder, RuntimePlugin.injected, RuntimePlugin.provided])⟩

end BeeAgent.Structure
