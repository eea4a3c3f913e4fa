import BeeAgent.Kernel.Plan

/-! One versioned, reference-counted runtime graph, and the leases on it. -/
namespace BeeAgent.Structure
open BeeAgent.Data

inductive GenerationState where
  | preparing | active | draining | disposed | failed
  deriving DecidableEq, Repr

/-- A mounted plugin; `config` is what its fiber was given last. -/
structure MountedPlugin where
  spec : RuntimePlugin
  config : Option Value

/-- Where the one task that disposes a generation stands. -/
inductive Disposal where
  | idle
  | fibers (remaining : List MountedPlugin) (failures : List String)
  | emitting (failures : List String)
  | done (failures : List String)

def Disposal.started : Disposal → Bool
  | .idle => false
  | _ => true

structure Generation where
  structureVersion : String
  graphDigest : String
  plugins : List RuntimePlugin
  mounted : List MountedPlugin := []
  references : ℕ := 0
  state : GenerationState := .preparing
  disposal : Disposal := .idle

namespace Generation

def new (sha256 : String → String) (bootstrap : List String) (graph : PluginGraph) :
    Except KernelError Generation := do
  let plugins ← validateAndOrder graph.plugins bootstrap
  return { structureVersion := graph.structureVersion
           graphDigest := pluginGraphDigest sha256 graph.plugins
           plugins }

/-- `#dispose` runs on to its next await: the next fiber, or the event behind the last one. -/
def disposeOn (gen : Generation) (remaining : List MountedPlugin) (failures : List String) :
    Generation :=
  match remaining with
  | [] => { gen with mounted := [], state := .disposed, disposal := .emitting failures }
  | _ :: _ => { gen with disposal := .fibers remaining failures }

/-- `dispose`: there is one task, which the first call starts. -/
def dispose (gen : Generation) : Generation :=
  match gen.disposal with
  | .idle => gen.disposeOn gen.mounted.reverse []
  | _ => gen

/-- `acquire`, as far as the count goes. -/
def acquire (gen : Generation) : Option Generation :=
  if gen.state = .active ∨ gen.state = .draining then
    some { gen with references := gen.references + 1 }
  else none

/-- `drain` up to the await of the disposal. -/
def drain (gen : Generation) : Generation :=
  if gen.state = .disposed then gen
  else
    let gen := if gen.state = .active then { gen with state := .draining } else gen
    if gen.references = 0 then gen.dispose else gen

def release (gen : Generation) : Generation :=
  if gen.references = 0 then gen
  else
    let gen := { gen with references := gen.references - 1 }
    if gen.references = 0 ∧ gen.state = .draining then gen.dispose else gen

/-- What a holder of a lease sees of the generation: its version, and the configuration of each
mounted plugin. -/
def observed (gen : Generation) : String × List (Option Value) :=
  (gen.structureVersion, gen.mounted.map MountedPlugin.config)

/-- How the state, the count and the disposal of a generation go together. -/
def Coherent (gen : Generation) : Prop :=
  match gen.state with
  | .preparing => gen.references = 0 ∧ gen.disposal.started = false
  | .active => gen.disposal.started = false
  | .draining => gen.disposal.started ↔ gen.references = 0
  | .failed | .disposed => gen.references = 0 ∧ gen.disposal.started

variable {gen gen' : Generation}

theorem new_ok {sha256 : String → String} {bootstrap : List String} {graph : PluginGraph}
    (h : Generation.new sha256 bootstrap graph = .ok gen) :
    gen.state = .preparing ∧ gen.references = 0 ∧ gen.disposal.started = false ∧
      gen.structureVersion = graph.structureVersion ∧ gen.mounted = [] := by
  unfold Generation.new at h
  cases hp : validateAndOrder graph.plugins bootstrap with
  | error error => simp [hp, bind, Except.bind] at h
  | ok plugins =>
    simp only [hp, bind, Except.bind, pure, Except.pure, Except.ok.injEq] at h
    subst h
    exact ⟨rfl, rfl, rfl, rfl, rfl⟩

theorem disposeOn_cases (gen : Generation) (remaining : List MountedPlugin)
    (failures : List String) :
    (gen.disposeOn remaining failures).references = gen.references ∧
      (gen.disposeOn remaining failures).disposal.started ∧
      ((gen.disposeOn remaining failures).state = gen.state ∧
          (gen.disposeOn remaining failures).observed = gen.observed ∨
        (gen.disposeOn remaining failures).state = .disposed) := by
  cases remaining with
  | nil => exact ⟨rfl, rfl, .inr rfl⟩
  | cons m remaining => exact ⟨rfl, rfl, .inl ⟨rfl, rfl⟩⟩

theorem dispose_references (gen : Generation) : gen.dispose.references = gen.references := by
  unfold dispose
  split
  · exact (disposeOn_cases ..).1
  · rfl

theorem dispose_started (gen : Generation) : gen.dispose.disposal.started := by
  unfold dispose
  split
  · exact (disposeOn_cases ..).2.1
  · next hne =>
    cases hd : gen.disposal with
    | idle => exact absurd hd hne
    | _ => rfl

theorem dispose_state (gen : Generation) :
    gen.dispose.state = gen.state ∨ gen.dispose.state = .disposed := by
  unfold dispose
  split
  · exact (disposeOn_cases ..).2.2.imp_left And.left
  · exact .inl rfl

/-- A generation without references that is neither active nor preparing is coherent once its
disposal has started. -/
theorem Coherent.of_started (hreferences : gen.references = 0) (hstarted : gen.disposal.started)
    (hpreparing : gen.state ≠ .preparing) (hactive : gen.state ≠ .active) : gen.Coherent := by
  unfold Coherent
  cases hstate : gen.state with
  | preparing => exact absurd hstate hpreparing
  | active => exact absurd hstate hactive
  | draining => exact ⟨fun _ => hreferences, fun _ => hstarted⟩
  | disposed | failed => exact ⟨hreferences, hstarted⟩

theorem coherent_dispose (hreferences : gen.references = 0)
    (hstate : gen.state ≠ .preparing ∧ gen.state ≠ .active) : gen.dispose.Coherent := by
  have hr : gen.dispose.references = 0 := (dispose_references gen).trans hreferences
  obtain hs | hs := dispose_state gen
  · exact .of_started hr (dispose_started gen) (hs ▸ hstate.1) (hs ▸ hstate.2)
  · exact .of_started hr (dispose_started gen) (by simp [hs]) (by simp [hs])

theorem Coherent.started (h : gen.Coherent) (hstarted : gen.disposal.started) :
    gen.references = 0 ∧ gen.state ≠ .preparing ∧ gen.state ≠ .active := by
  unfold Coherent at h
  cases hstate : gen.state with
  | preparing | active => simp [hstate, hstarted] at h
  | draining | disposed | failed => simpa [hstate, hstarted] using h

theorem Coherent.acquire (h : gen.Coherent) (hactive : gen.state = .active)
    (hgen' : gen.acquire = some gen') :
    gen'.Coherent ∧ gen'.state = .active ∧ gen'.references = gen.references + 1 ∧
      gen'.observed = gen.observed := by
  unfold Generation.acquire at hgen'
  rw [if_pos (.inl hactive)] at hgen'
  cases hgen'
  refine ⟨?_, hactive, rfl, rfl⟩
  simp only [Coherent, hactive] at h ⊢
  exact h

theorem Coherent.drain (h : gen.Coherent) (hpreparing : gen.state ≠ .preparing) :
    gen.drain.Coherent ∧ gen.drain.references = gen.references ∧ gen.drain.state ≠ .preparing := by
  have hdispose : ∀ gen : Generation, gen.state ≠ .preparing → gen.dispose.state ≠ .preparing := by
    intro gen hne
    obtain hs | hs := dispose_state gen
    · rwa [hs]
    · simp [hs]
  unfold Generation.drain
  split
  · exact ⟨h, rfl, hpreparing⟩
  simp only
  split
  · next hactive =>
    split
    · next hzero =>
      exact ⟨coherent_dispose hzero (by simp), dispose_references _, hdispose _ (by simp)⟩
    · next hne =>
      refine ⟨?_, rfl, by simp⟩
      simp only [Coherent, hactive] at h ⊢
      simp [h, hne]
  · next hactive =>
    split
    · next hzero =>
      exact ⟨coherent_dispose hzero ⟨hpreparing, hactive⟩, dispose_references _,
        hdispose _ hpreparing⟩
    · exact ⟨h, rfl, hpreparing⟩

theorem Coherent.release (h : gen.Coherent) (hreferences : gen.references ≠ 0) :
    gen.release.Coherent ∧ gen.release.references = gen.references - 1 ∧
      gen.release.state ≠ .preparing ∧ (gen.state = .active → gen.release.state = .active) := by
  unfold Generation.release
  rw [if_neg hreferences]
  simp only
  split
  · next hdrained =>
    obtain ⟨hzero, hdraining⟩ := hdrained
    refine ⟨coherent_dispose hzero (by simp [hdraining]), dispose_references _, ?_, ?_⟩
    · obtain hs | hs := dispose_state { gen with references := gen.references - 1 }
      · rw [hs]
        simp [hdraining]
      · simp [hs]
    · simp [hdraining]
  · next hdrained =>
    cases hstate : gen.state with
    | preparing | disposed | failed =>
      simp only [Coherent, hstate] at h
      exact absurd h.1 hreferences
    | active =>
      refine ⟨?_, rfl, by simp, by simp⟩
      simp only [Coherent, hstate] at h ⊢
      exact h
    | draining =>
      simp only [hstate, and_true] at hdrained
      refine ⟨?_, rfl, by simp, by simp⟩
      simp only [Coherent, hstate] at h ⊢
      simp [h, hreferences, hdrained]

end Generation

end BeeAgent.Structure
