import BeeAgent.Kernel.Effects

/-! The accounts of the kernel: every reference count is the number of the leases that are out, and
the disposal of a generation that drains starts when its count is zero. -/
namespace BeeAgent.Structure
open Transition

/-- What the generations must satisfy at the point where call `t` stands. -/
structure Placed (generations : ℕ → Option Generation) (active : Option ℕ) (t : ℕ) (pc : Pc) :
    Prop where
  preparing : pc.preparing → ∃ gen, generations t = some gen ∧ gen.state = .preparing
  previous : ∀ p, pc.previous = some p →
    active ≠ some p ∧ ∃ gen, generations p = some gen ∧ gen.state ≠ .preparing

structure Accounted (k : Kernel) : Prop where
  freshTask : ∀ t, k.nextTask ≤ t → k.tasks t = none
  freshGeneration : ∀ g, k.nextTask ≤ g → k.generations g = none
  active : ∀ g, k.active = some g → ∃ gen, k.generations g = some gen ∧ gen.state = .active
  coherent : ∀ g gen, k.generations g = some gen → gen.Coherent
  counted : ∀ g gen, k.generations g = some gen → gen.references = k.leases.count ⟨g, false⟩
  leased : ∀ lease ∈ k.leases, ∃ gen, k.generations lease.generation = some gen
  placed : ∀ t task, k.tasks t = some task → Placed k.generations k.active t task.pc

/-- What may become of a generation while no lease on it is taken or given back; only its own call
takes it out of its preparation. -/
structure Generation.Follows (own : Prop) (gen gen' : Generation) : Prop where
  references : gen'.references = gen.references
  coherent : gen'.Coherent
  prepared : gen.state ≠ .preparing → gen'.state ≠ .preparing
  preparing : gen.state = .preparing → ¬own → gen'.state = .preparing

/-- Every generation goes on, and no other comes up, while call `t` does something. -/
def Following (t : ℕ) (generations generations' : ℕ → Option Generation) : Prop :=
  ∀ g, (generations g = none → generations' g = none) ∧ ∀ gen, generations g = some gen →
    ∃ gen', generations' g = some gen' ∧ gen.Follows (g = t) gen'

section Generations
variable {generations generations' : ℕ → Option Generation} {active active' : Option ℕ} {t g : ℕ}
  {pc pc' : Pc} {gen gen' : Generation}

theorem Generation.Follows.self {own : Prop} (h : gen.Coherent) : gen.Follows own gen :=
  ⟨rfl, h, id, fun hs _ => hs⟩

theorem Generation.SameCount.follows {own : Prop} (h : gen.Coherent) (hcount : gen.SameCount gen') :
    gen.Follows own gen' := by
  have hstate : gen'.state = gen.state := hcount.2.1
  exact ⟨hcount.1, hcount.coherent h, by rw [hstate]; exact id, fun hs _ => hstate.trans hs⟩

theorem following_self (hcoherent : ∀ g gen, generations g = some gen → gen.Coherent) :
    Following t generations generations :=
  fun g => ⟨id, fun gen hgen => ⟨gen, hgen, .self (hcoherent g gen hgen)⟩⟩

theorem following_update (hcoherent : ∀ g gen, generations g = some gen → gen.Coherent)
    (hgen : generations g = some gen) (hfollows : gen.Follows (g = t) gen') :
    Following t generations (Function.update generations g (some gen')) := by
  intro h
  by_cases hh : h = g
  · subst hh
    refine ⟨fun hnone => by simp [hgen] at hnone, fun gen₀ hgen₀ => ?_⟩
    obtain rfl : gen = gen₀ := Option.some.inj (hgen.symm.trans hgen₀)
    exact ⟨gen', Function.update_self .., hfollows⟩
  · rw [Function.update_of_ne hh]
    exact following_self hcoherent h

theorem Generation.follows_dispose {own : Prop} (hown : own) (h : gen.Coherent)
    (hpreparing : gen.state = .preparing) :
    gen.Follows own { gen with state := .failed }.dispose := by
  have hreferences : gen.references = 0 := by
    simp only [Coherent, hpreparing] at h
    exact h.1
  exact ⟨dispose_references _, coherent_dispose hreferences (by simp),
    fun hne => absurd hpreparing hne, fun _ hne => absurd hown hne⟩

theorem Generation.follows_drain {own : Prop} (h : gen.Coherent) (hne : gen.state ≠ .preparing) :
    gen.Follows own gen.drain := by
  obtain ⟨hcoherent, hreferences, hstate⟩ := h.drain hne
  exact ⟨hreferences, hcoherent, fun _ => hstate, fun hs => absurd hs hne⟩

theorem Effect.following (hcoherent : ∀ g gen, generations g = some gen → gen.Coherent)
    (hplaced : Placed generations active t pc)
    (h : Effect generations active t pc generations' active' pc') :
    Following t generations generations' := by
  cases h with
  | rest => exact following_self hcoherent
  | update hpc hgen hcount => exact following_update hcoherent hgen (hcount.follows (hcoherent _ _ hgen))
  | prepare hpc hpc' _ _ hgen hcount =>
    exact following_update hcoherent hgen (hcount.follows (hcoherent _ _ hgen))
  | discard hpc hpc' hgen =>
    obtain ⟨gen, hgen', hstate⟩ := hplaced.preparing hpc
    cases hgen.symm.trans hgen'
    exact following_update hcoherent hgen (Generation.follows_dispose rfl (hcoherent _ _ hgen) hstate)
  | activate hpc hgen hstate =>
    have hc := hcoherent _ _ hgen
    simp only [Generation.Coherent, hstate] at hc
    exact following_update hcoherent hgen ⟨rfl, hc.2, by simp, fun _ hne => absurd rfl hne⟩
  | activated => exact following_self hcoherent
  | drain hpc hgen hpc' =>
    subst hpc
    obtain ⟨hactive, gen, hgen', hstate⟩ := hplaced.previous _ rfl
    cases hgen.symm.trans hgen'
    exact following_update hcoherent hgen (Generation.follows_drain (hcoherent _ _ hgen) hstate)

theorem Effect.activeState (hplaced : Placed generations active t pc)
    (hactive : ∀ g, active = some g → ∃ gen, generations g = some gen ∧ gen.state = .active)
    (h : Effect generations active t pc generations' active' pc') :
    ∀ g, active' = some g → ∃ gen, generations' g = some gen ∧ gen.state = .active := by
  have hupdate : ∀ {h : ℕ} {gen gen' : Generation}, generations h = some gen →
      gen'.state = gen.state → ∀ g, active = some g →
      ∃ gen₁, Function.update generations h (some gen') g = some gen₁ ∧ gen₁.state = .active := by
    intro h gen gen' hgen hstate g hg
    obtain ⟨gen₀, hgen₀, hstate₀⟩ := hactive g hg
    by_cases hh : g = h
    · subst hh
      cases hgen.symm.trans hgen₀
      exact ⟨gen', Function.update_self .., hstate.trans hstate₀⟩
    · exact ⟨gen₀, by rw [Function.update_of_ne hh, hgen₀], hstate₀⟩
  have hother : ∀ {h : ℕ} {gen' : Generation}, active ≠ some h → ∀ g, active = some g →
      ∃ gen₁, Function.update generations h (some gen') g = some gen₁ ∧ gen₁.state = .active := by
    intro h gen' hne g hg
    obtain ⟨gen₀, hgen₀, hstate₀⟩ := hactive g hg
    have hgh : g ≠ h := fun heq => hne (heq ▸ hg)
    exact ⟨gen₀, by rw [Function.update_of_ne hgh, hgen₀], hstate₀⟩
  cases h with
  | rest => exact hactive
  | update hpc hgen hcount => exact hupdate hgen hcount.2.1
  | prepare hpc hpc' _ _ hgen hcount => exact hupdate hgen hcount.2.1
  | discard hpc hpc' hgen =>
    obtain ⟨gen, hgen', hstate⟩ := hplaced.preparing hpc
    refine hother fun hne => ?_
    obtain ⟨gen₀, hgen₀, hstate₀⟩ := hactive _ hne
    cases hgen'.symm.trans hgen₀
    simp [hstate] at hstate₀
  | activate hpc hgen hstate =>
    intro g hg
    cases hg
    exact ⟨_, Function.update_self .., rfl⟩
  | activated => exact hactive
  | drain hpc hgen hpc' =>
    subst hpc
    exact hother (hplaced.previous _ rfl).1

theorem Placed.of_not (hpreparing : pc.preparing = false) (hprevious : pc.previous = none) :
    Placed generations active t pc :=
  ⟨by simp [hpreparing], by simp [hprevious]⟩

theorem Pc.Rest.placed (h : pc.Rest) : Placed generations active t pc :=
  .of_not h.1 h.2.1

theorem Effect.placed (hplaced : Placed generations active t pc)
    (hactive : ∀ g, active = some g → ∃ gen, generations g = some gen ∧ gen.state = .active)
    (h : Effect generations active t pc generations' active' pc') :
    Placed generations' active' t pc' := by
  cases h with
  | rest hpc' => exact hpc'.placed
  | update hpc hgen hcount hobserved hpc' =>
    obtain hpc' | ⟨-, hpreparing, hprevious, -⟩ := hpc'
    · exact hpc'.placed
    · exact .of_not hpreparing hprevious
  | prepare hpc hpc' hprevious hchanges hgen hcount =>
    obtain ⟨gen, hgen', hstate⟩ := hplaced.preparing hpc
    cases hgen.symm.trans hgen'
    refine ⟨fun _ => ⟨_, Function.update_self .., hcount.2.1.trans hstate⟩, by simp [hprevious]⟩
  | discard hpc hpc' hgen => exact hpc'.placed
  | @activate gen hpc hgen hstate =>
    refine ⟨by simp [Pc.preparing], fun p hp => ?_⟩
    obtain ⟨gen₀, hgen₀, hstate₀⟩ := hactive p hp
    have hne : p ≠ t := by
      rintro rfl
      cases hgen.symm.trans hgen₀
      simp [hstate] at hstate₀
    refine ⟨fun heq => hne (Option.some.inj heq).symm, gen₀, ?_, by simp [hstate₀]⟩
    rw [Function.update_of_ne hne, hgen₀]
  | activated hpc =>
    subst hpc
    exact ⟨by simp [Pc.preparing], fun p hp => hplaced.previous p hp⟩
  | drain hpc hgen hpc' => exact hpc'.placed

theorem Following.placed (hfollowing : Following t generations generations')
    (hactive : active' = active ∨
      active' = some t ∧ ∃ gen, generations t = some gen ∧ gen.state = .preparing)
    {t' : ℕ} (ht' : t' ≠ t) (h : Placed generations active t' pc) :
    Placed generations' active' t' pc := by
  refine ⟨fun hpc => ?_, fun p hp => ?_⟩
  · obtain ⟨gen, hgen, hstate⟩ := h.preparing hpc
    obtain ⟨gen', hgen', hf⟩ := (hfollowing t').2 gen hgen
    exact ⟨gen', hgen', hf.preparing hstate ht'⟩
  · obtain ⟨hp, gen, hgen, hstate⟩ := h.previous p hp
    obtain ⟨gen', hgen', hf⟩ := (hfollowing p).2 gen hgen
    refine ⟨?_, gen', hgen', hf.prepared hstate⟩
    obtain rfl | ⟨rfl, gen₀, hgen₀, hstate₀⟩ := hactive
    · exact hp
    · rintro ⟨rfl⟩
      cases hgen.symm.trans hgen₀
      exact hstate hstate₀

theorem Effect.active_eq (h : Effect generations active t pc generations' active' pc') :
    active' = active ∨
      active' = some t ∧ ∃ gen, generations t = some gen ∧ gen.state = .preparing := by
  cases h with
  | activate hpc hgen hstate => exact .inr ⟨rfl, _, hgen, hstate⟩
  | _ => exact .inl rfl

end Generations

theorem Following.back {generations generations' : ℕ → Option Generation} {t g : ℕ}
    {gen' : Generation} (h : Following t generations generations')
    (hgen' : generations' g = some gen') :
    ∃ gen, generations g = some gen ∧ gen.Follows (g = t) gen' := by
  cases hgen : generations g with
  | none => simp [(h g).1 hgen] at hgen'
  | some gen =>
    obtain ⟨gen₁, hgen₁, hf⟩ := (h g).2 gen hgen
    cases hgen'.symm.trans hgen₁
    exact ⟨gen, rfl, hf⟩

namespace Accounted
variable {o : KernelOptions} {k k' : Kernel} {t : ℕ} {graph : PluginGraph} {pc : Pc}

theorem change (h : Accounted k) (hfollowing : Following t k.generations k'.generations)
    (hleases : k'.leases = k.leases) (hnext : k.nextTask ≤ k'.nextTask)
    (hactive : ∀ g, k'.active = some g → ∃ gen, k'.generations g = some gen ∧ gen.state = .active)
    (hplaced : ∀ t task, k'.tasks t = some task →
      t < k'.nextTask ∧ Placed k'.generations k'.active t task.pc) : Accounted k' := by
  refine ⟨fun t ht => ?_, fun g hg => ?_, hactive, fun g gen' hgen' => ?_, fun g gen' hgen' => ?_,
    fun lease hlease => ?_, fun t task htask => (hplaced t task htask).2⟩
  · by_contra htask
    obtain ⟨task, htask⟩ := Option.ne_none_iff_exists'.mp htask
    exact Nat.not_lt.mpr ht (hplaced t task htask).1
  · exact (hfollowing g).1 (h.freshGeneration g (Nat.le_trans hnext hg))
  · obtain ⟨gen, -, hf⟩ := hfollowing.back hgen'
    exact hf.coherent
  · obtain ⟨gen, hgen, hf⟩ := hfollowing.back hgen'
    rw [hleases, hf.references]
    exact h.counted g gen hgen
  · obtain ⟨gen, hgen⟩ := h.leased lease (hleases ▸ hlease)
    obtain ⟨gen', hgen', -⟩ := (hfollowing lease.generation).2 gen hgen
    exact ⟨gen', hgen'⟩

theorem task_lt {task : Reconcile} (h : Accounted k) (htask : k.tasks t = some task) :
    t < k.nextTask := by
  by_contra hlt
  simp [h.freshTask t (Nat.not_lt.mp hlt)] at htask

theorem advanced (h : Accounted k) (htask : k.tasks t = some ⟨graph, pc⟩)
    (hk' : k.Advanced t graph pc k') : Accounted k' := by
  obtain ⟨pc', heffect, htasks, hleases, hnext⟩ := hk'
  have hplaced : Placed k.generations k.active t pc := h.placed t _ htask
  have hfollowing := heffect.following h.coherent hplaced
  refine h.change hfollowing hleases (Nat.le_of_eq hnext.symm)
    (heffect.activeState hplaced h.active) fun t' task' htask' => ?_
  rw [hnext]
  rw [htasks] at htask'
  by_cases ht' : t' = t
  · subst ht'
    rw [Function.update_self] at htask'
    cases htask'
    exact ⟨h.task_lt htask, heffect.placed hplaced h.active⟩
  · rw [Function.update_of_ne ht'] at htask'
    exact ⟨h.task_lt htask', hfollowing.placed heffect.active_eq ht' (h.placed t' task' htask')⟩

theorem no_lease (h : Accounted k) (g : ℕ) (hg : k.nextTask ≤ g) :
    k.leases.count ⟨g, false⟩ = 0 := by
  rw [List.count_eq_zero]
  intro hmem
  obtain ⟨gen, hgen⟩ := h.leased _ hmem
  simp [h.freshGeneration g hg] at hgen

theorem started (h : Accounted k) (hk' : k.Started o graph k') : Accounted k' := by
  obtain ⟨pc', hbegun, hactive, htasks, hleases, hnext⟩ := hk'
  -- what a call that is at work already needs of the new generations gives the whole
  have hrest : ∀ {generations : ℕ → Option Generation}, k'.generations = generations →
      Following k.nextTask k.generations generations →
      (∀ g, k.active = some g → ∃ gen, generations g = some gen ∧ gen.state = .active) →
      pc'.preparing = false → pc'.previous = none → Accounted k' := by
    rintro generations rfl hfollowing hstate hpreparing hprevious
    refine h.change hfollowing hleases (by simp [hnext]) (hactive ▸ hstate) fun t task htask => ?_
    rw [htasks] at htask
    rw [hnext]
    by_cases ht : t = k.nextTask
    · subst ht
      rw [Function.update_self] at htask
      cases htask
      exact ⟨Nat.lt_succ_self _, .of_not hpreparing hprevious⟩
    · rw [Function.update_of_ne ht] at htask
      exact ⟨Nat.lt_succ_of_lt (h.task_lt htask),
        hfollowing.placed (.inl hactive) ht (h.placed t task htask)⟩
  generalize hgenerations : k'.generations = generations at hbegun
  cases hbegun with
  | rest hpc' =>
    exact hrest hgenerations (following_self h.coherent) h.active hpc'.1 hpc'.2.1
  | @update g gen gen' pc' hg hgen hreferences hcount hpc' =>
    have hpc : pc'.preparing = false ∧ pc'.previous = none := by
      obtain hpc' | hpc' := hpc'
      · exact ⟨hpc'.1, hpc'.2.1⟩
      · exact ⟨hpc'.1, hpc'.2.1⟩
    refine hrest hgenerations
      (following_update h.coherent hgen (hcount.follows (h.coherent g gen hgen))) ?_ hpc.1 hpc.2
    intro g' hg'
    cases hg.symm.trans hg'
    obtain ⟨gen₀, hgen₀, hstate₀⟩ := h.active g hg
    cases hgen.symm.trans hgen₀
    exact ⟨gen', Function.update_self .., hcount.2.1.trans hstate₀⟩
  | @candidate gen pc' hnew hpreparing hprevious hchanges =>
    obtain ⟨hstate, hreferences, hdisposal, -⟩ := Generation.new_ok hnew
    have hother : ∀ g gen, k.generations g = some gen →
        k'.generations g = some gen := fun g gen hgen => by
      have hne : g ≠ k.nextTask := by
        rintro rfl
        simp [h.freshGeneration _ (Nat.le_refl _)] at hgen
      rw [hgenerations, Function.update_of_ne hne, hgen]
    have hcases : ∀ g gen', k'.generations g = some gen' →
        g = k.nextTask ∧ gen' = gen ∨ k.generations g = some gen' := fun g gen' hgen' => by
      rw [hgenerations] at hgen'
      by_cases hg : g = k.nextTask
      · subst hg
        rw [Function.update_self] at hgen'
        exact .inl ⟨rfl, (Option.some.inj hgen').symm⟩
      · rw [Function.update_of_ne hg] at hgen'
        exact .inr hgen'
    refine ⟨fun t ht => ?_, fun g hg => ?_, fun g hg => ?_, fun g gen' hgen' => ?_,
      fun g gen' hgen' => ?_, fun lease hlease => ?_, fun t task htask => ?_⟩
    · rw [hnext] at ht
      rw [htasks, Function.update_of_ne (Nat.ne_of_gt ht)]
      exact h.freshTask t (Nat.le_of_succ_le ht)
    · rw [hnext] at hg
      rw [hgenerations, Function.update_of_ne (Nat.ne_of_gt hg)]
      exact h.freshGeneration g (Nat.le_of_succ_le hg)
    · obtain ⟨gen₀, hgen₀, hstate₀⟩ := h.active g (hactive ▸ hg)
      exact ⟨gen₀, hother g gen₀ hgen₀, hstate₀⟩
    · obtain ⟨-, rfl⟩ | hgen := hcases g gen' hgen'
      · simp only [Generation.Coherent, hstate]
        exact ⟨hreferences, hdisposal⟩
      · exact h.coherent g gen' hgen
    · rw [hleases]
      obtain ⟨rfl, rfl⟩ | hgen := hcases g gen' hgen'
      · rw [hreferences, h.no_lease _ (Nat.le_refl _)]
      · exact h.counted g gen' hgen
    · obtain ⟨gen₀, hgen₀⟩ := h.leased lease (hleases ▸ hlease)
      exact ⟨gen₀, hother _ _ hgen₀⟩
    · rw [htasks] at htask
      by_cases ht : t = k.nextTask
      · subst ht
        rw [Function.update_self] at htask
        cases htask
        exact ⟨fun _ => ⟨gen, by rw [hgenerations, Function.update_self], hstate⟩,
          by simp [hprevious]⟩
      · rw [Function.update_of_ne ht] at htask
        have hplaced := h.placed t task htask
        refine ⟨fun hpc => ?_, fun p hp => ?_⟩
        · obtain ⟨gen₀, hgen₀, hstate₀⟩ := hplaced.preparing hpc
          exact ⟨gen₀, hother _ _ hgen₀, hstate₀⟩
        · obtain ⟨hne, gen₀, hgen₀, hstate₀⟩ := hplaced.previous p hp
          exact ⟨hactive ▸ hne, gen₀, hother _ _ hgen₀, hstate₀⟩

/-- The next fiber of a generation is gone, or the event behind the last one is out. -/
inductive DisposeEffect (k : Kernel) (g : ℕ) (gen : Generation) :
    Generation → List StructureEvent → Prop where
  | fiber {m rest failures failures'} : gen.disposal = .fibers (m :: rest) failures →
      DisposeEffect k g gen (gen.disposeOn rest failures') k.log
  | emitted {failures failures' log} : gen.disposal = .emitting failures →
      (log = k.log ∨ log = k.log ++ [.lifecycle (.disposed g gen.structureVersion)]) →
      DisposeEffect k g gen { gen with disposal := .done failures' } log

theorem disposeStep_effect {g : ℕ} {gen : Generation} {await : Await}
    (h : k.disposeStep g gen await = some k') :
    ∃ gen' log, k' = ({ k with log } : Kernel).setGeneration g gen' ∧
      DisposeEffect k g gen gen' log := by
  unfold Kernel.disposeStep at h
  split at h
  · split at h <;> cases h
    next hdisposal => exact ⟨_, k.log, rfl, .fiber hdisposal⟩
  · split at h <;> cases h
    next hdisposal => exact ⟨_, k.log, rfl, .fiber hdisposal⟩
  · split at h
    · next hdisposal =>
      obtain ⟨⟨k₁, result⟩, hemit, rfl⟩ := Option.map_eq_some_iff.mp h
      obtain hlog | hlog := (Kernel.emit_log hemit).1
      · exact ⟨_, k.log, by rw [hlog], .emitted hdisposal (.inl rfl)⟩
      · exact ⟨_, _, by rw [hlog], .emitted hdisposal (.inr rfl)⟩
    · cases h

theorem DisposeEffect.cases {g : ℕ} {gen gen' : Generation} {log : List StructureEvent}
    (h : DisposeEffect k g gen gen' log) :
    gen.disposal.started ∧ gen'.disposal.started ∧ gen'.references = gen.references ∧
      (gen'.state = gen.state ∨ gen'.state = .disposed) := by
  cases h with
  | @fiber m rest failures failures' hdisposal =>
    obtain ⟨hreferences, hstarted, hstate⟩ := Generation.disposeOn_cases gen rest failures'
    exact ⟨by simp [hdisposal, Disposal.started], hstarted, hreferences, hstate.imp_left And.left⟩
  | emitted hdisposal => exact ⟨by simp [hdisposal, Disposal.started], rfl, rfl, .inl rfl⟩

theorem disposeStep_cases {g : ℕ} {gen : Generation} {await : Await}
    (h : k.disposeStep g gen await = some k') :
    ∃ gen' log, k' = ({ k with log } : Kernel).setGeneration g gen' ∧ gen.disposal.started ∧
      gen'.disposal.started ∧ gen'.references = gen.references ∧
      (gen'.state = gen.state ∨ gen'.state = .disposed) := by
  obtain ⟨gen', log, rfl, heffect⟩ := disposeStep_effect h
  exact ⟨gen', log, rfl, heffect.cases⟩

theorem disposed {g : ℕ} {gen : Generation} {await : Await} (h : Accounted k)
    (hgen : k.generations g = some gen) (hk' : k.disposeStep g gen await = some k') :
    Accounted k' := by
  obtain ⟨gen', log, rfl, hstarted, hstarted', hreferences', hstate'⟩ := disposeStep_cases hk'
  obtain ⟨hreferences, hpreparing, hactive⟩ := (h.coherent g gen hgen).started hstarted
  have hcoherent : gen'.Coherent := .of_started (hreferences'.trans hreferences) hstarted' (by
    obtain hs | hs := hstate' <;> simp [hs, hpreparing]) (by
    obtain hs | hs := hstate' <;> simp [hs, hactive])
  have hfollows : gen.Follows (g = k.nextTask) gen' := by
    refine ⟨hreferences', hcoherent, fun _ => ?_, fun hs => absurd hs hpreparing⟩
    obtain hs | hs := hstate' <;> simp [hs, hpreparing]
  have hfollowing := following_update h.coherent hgen hfollows
  refine h.change hfollowing rfl (Nat.le_refl _) (fun g' hg' => ?_) fun t task htask => ?_
  · obtain ⟨gen₀, hgen₀, hstate₀⟩ := h.active g' hg'
    have hne : g' ≠ g := by
      rintro rfl
      cases hgen.symm.trans hgen₀
      exact hactive hstate₀
    exact ⟨gen₀, (Kernel.setGeneration_of_ne hne ..).trans hgen₀, hstate₀⟩
  · exact ⟨h.task_lt htask,
      hfollowing.placed (.inl rfl) (Nat.ne_of_lt (h.task_lt htask)) (h.placed t task htask)⟩

/-- A change of the count of one generation, with the leases that go with it. -/
theorem counting {g : ℕ} {gen gen' : Generation} {leases : List Lease} (h : Accounted k)
    (hgen : k.generations g = some gen) (hcoherent : gen'.Coherent)
    (hpreparing : gen.state ≠ .preparing) (hpreparing' : gen'.state ≠ .preparing)
    (hactive : gen.state = .active → gen'.state = .active)
    (hreferences : gen'.references = leases.count ⟨g, false⟩)
    (hothers : ∀ g', g' ≠ g → leases.count ⟨g', false⟩ = k.leases.count ⟨g', false⟩)
    (hleases : ∀ lease ∈ leases, lease.generation = g ∨ ∃ lease' ∈ k.leases,
      lease'.generation = lease.generation) :
    Accounted { k.setGeneration g gen' with leases } := by
  have hset : ∀ g' gen₀, k.generations g' = some gen₀ →
      ∃ gen₁, (k.setGeneration g gen').generations g' = some gen₁ ∧
        (g' = g ∧ gen₀ = gen ∧ gen₁ = gen' ∨ g' ≠ g ∧ gen₁ = gen₀) := by
    intro g' gen₀ hgen₀
    by_cases hg' : g' = g
    · subst hg'
      cases hgen.symm.trans hgen₀
      exact ⟨gen', Kernel.setGeneration_self .., .inl ⟨rfl, rfl, rfl⟩⟩
    · exact ⟨gen₀, (Kernel.setGeneration_of_ne hg' ..).trans hgen₀, .inr ⟨hg', rfl⟩⟩
  have hback : ∀ g' gen₁, (k.setGeneration g gen').generations g' = some gen₁ →
      g' = g ∧ gen₁ = gen' ∨ g' ≠ g ∧ k.generations g' = some gen₁ := by
    intro g' gen₁ hgen₁
    by_cases hg' : g' = g
    · subst hg'
      exact .inl ⟨rfl, (Option.some.inj ((Kernel.setGeneration_self ..).symm.trans hgen₁)).symm⟩
    · exact .inr ⟨hg', (Kernel.setGeneration_of_ne hg' ..).symm.trans hgen₁⟩
  have hlt : g < k.nextTask := by
    by_contra hlt
    simp [h.freshGeneration g (Nat.not_lt.mp hlt)] at hgen
  refine ⟨h.freshTask, fun g' hg' => ?_, fun g' hg' => ?_, fun g' gen₁ hgen₁ => ?_,
    fun g' gen₁ hgen₁ => ?_, fun lease hlease => ?_, fun t task htask => ?_⟩
  · have hne : g' ≠ g := Nat.ne_of_gt (Nat.lt_of_lt_of_le hlt hg')
    exact (Kernel.setGeneration_of_ne hne ..).trans (h.freshGeneration g' hg')
  · obtain ⟨gen₀, hgen₀, hstate₀⟩ := h.active g' hg'
    obtain ⟨gen₁, hgen₁, ⟨rfl, rfl, rfl⟩ | ⟨hne, rfl⟩⟩ := hset g' gen₀ hgen₀
    · exact ⟨gen₁, hgen₁, hactive hstate₀⟩
    · exact ⟨gen₁, hgen₁, hstate₀⟩
  · obtain ⟨rfl, rfl⟩ | ⟨hne, hgen₀⟩ := hback g' gen₁ hgen₁
    · exact hcoherent
    · exact h.coherent g' gen₁ hgen₀
  · obtain ⟨rfl, rfl⟩ | ⟨hne, hgen₀⟩ := hback g' gen₁ hgen₁
    · exact hreferences
    · exact (h.counted g' gen₁ hgen₀).trans (hothers g' hne).symm
  · obtain hg' | ⟨lease', hlease', hg'⟩ := hleases lease hlease
    · exact ⟨gen', hg' ▸ Kernel.setGeneration_self ..⟩
    · obtain ⟨gen₀, hgen₀⟩ := h.leased lease' hlease'
      obtain ⟨gen₁, hgen₁, -⟩ := hset _ gen₀ hgen₀
      exact ⟨gen₁, hg' ▸ hgen₁⟩
  · have hplaced := h.placed t task htask
    refine ⟨fun hpc => ?_, fun p hp => ?_⟩
    · obtain ⟨gen₀, hgen₀, hstate₀⟩ := hplaced.preparing hpc
      obtain ⟨gen₁, hgen₁, ⟨rfl, rfl, rfl⟩ | ⟨hne, rfl⟩⟩ := hset t gen₀ hgen₀
      · exact absurd hstate₀ hpreparing
      · exact ⟨gen₁, hgen₁, hstate₀⟩
    · obtain ⟨hne, gen₀, hgen₀, hstate₀⟩ := hplaced.previous p hp
      obtain ⟨gen₁, hgen₁, ⟨rfl, rfl, rfl⟩ | ⟨hne', rfl⟩⟩ := hset p gen₀ hgen₀
      · exact ⟨hne, gen₁, hgen₁, hpreparing'⟩
      · exact ⟨hne, gen₁, hgen₁, hstate₀⟩

theorem beginTurn_cases (h : Accounted k) (hk' : k.beginTurn = some k') :
    ∃ g gen gen', k.active = some g ∧ k.generations g = some gen ∧ gen.state = .active ∧
      gen.acquire = some gen' ∧
      k' = { k.setGeneration g gen' with leases := k.leases ++ [⟨g, false⟩] } := by
  obtain ⟨g, hg, hk'⟩ := Option.bind_eq_some_iff.mp hk'
  obtain ⟨gen, hgen, hk'⟩ := Option.bind_eq_some_iff.mp hk'
  obtain ⟨gen', hgen', rfl⟩ := Option.map_eq_some_iff.mp hk'
  obtain ⟨gen₀, hgen₀, hstate⟩ := h.active g hg
  cases hgen.symm.trans hgen₀
  exact ⟨g, gen, gen', hg, hgen, hstate, hgen', rfl⟩

theorem begun (h : Accounted k) (hk' : k.beginTurn = some k') : Accounted k' := by
  obtain ⟨g, gen, gen', hg, hgen, hstate, hgen', rfl⟩ := h.beginTurn_cases hk'
  obtain ⟨hcoherent, hstate', hreferences, -⟩ := (h.coherent g gen hgen).acquire hstate hgen'
  refine h.counting hgen hcoherent (by simp [hstate]) (by simp [hstate']) (fun _ => hstate') ?_
    (fun g' hg' => ?_) fun lease hlease => ?_
  · rw [hreferences, h.counted g gen hgen, List.count_append, List.count_singleton_self]
  · rw [List.count_append, List.count_singleton]
    simp [Ne.symm hg']
  · obtain hlease | hlease := List.mem_append.mp hlease
    · exact .inr ⟨lease, hlease, rfl⟩
    · cases List.mem_singleton.mp hlease
      exact .inl rfl

theorem release_cases {l : ℕ} (hk' : k.releaseLease l = some k') :
    ∃ lease, k.leases[l]? = some lease ∧ (lease.released ∧ k' = k ∨
      lease.released = false ∧ ∃ gen, k.generations lease.generation = some gen ∧
        k' = { k.setGeneration lease.generation gen.release with
          leases := k.leases.set l { lease with released := true } }) := by
  obtain ⟨lease, hlease, hk'⟩ := Option.bind_eq_some_iff.mp hk'
  refine ⟨lease, hlease, ?_⟩
  split at hk'
  · next hreleased => exact .inl ⟨hreleased, (Option.some.inj hk').symm⟩
  · next hreleased =>
    obtain ⟨gen, hgen, rfl⟩ := Option.map_eq_some_iff.mp hk'
    exact .inr ⟨by simpa using hreleased, gen, hgen, rfl⟩

theorem released {l : ℕ} (h : Accounted k) (hk' : k.releaseLease l = some k') : Accounted k' := by
  obtain ⟨lease, hlease, ⟨-, rfl⟩ | ⟨hreleased, gen, hgen, rfl⟩⟩ := release_cases hk'
  · exact h
  obtain ⟨hl, hget⟩ := List.getElem?_eq_some_iff.mp hlease
  have hcount : ∀ g, (k.leases.set l { lease with released := true }).count ⟨g, false⟩ =
      k.leases.count ⟨g, false⟩ - if g = lease.generation then 1 else 0 := by
    intro g
    rw [List.count_set hl, hget]
    by_cases hg : g = lease.generation
    · subst hg
      simp [hreleased, Lease.ext_iff]
    · simp [Lease.ext_iff, Ne.symm hg, hg]
  have hone : k.leases.count ⟨lease.generation, false⟩ ≠ 0 := by
    rw [← Nat.pos_iff_ne_zero, List.count_pos_iff]
    exact hreleased ▸ hget ▸ List.getElem_mem hl
  have hreferences : gen.references ≠ 0 := by
    rw [h.counted _ gen hgen]
    exact hone
  obtain ⟨hcoherent, hreleased', hpreparing', hactive⟩ :=
    (h.coherent _ gen hgen).release hreferences
  refine h.counting hgen hcoherent ?_ hpreparing' hactive ?_ (fun g' hg' => ?_)
    fun lease' hlease' => ?_
  · intro hstate
    have hc := h.coherent _ gen hgen
    simp only [Generation.Coherent, hstate] at hc
    exact hreferences hc.1
  · rw [hreleased', hcount, h.counted _ gen hgen]
    simp
  · rw [hcount]
    simp [hg']
  · obtain hlease' | rfl := List.mem_or_eq_of_mem_set hlease'
    · exact .inr ⟨lease', hlease', rfl⟩
    · exact .inl rfl

theorem step {input : KernelInput} (h : Accounted k) (hk' : kernelStep o k input = some k') :
    Accounted k' := by
  cases input with
  | reconcile graph =>
    cases hk'
    exact h.started Kernel.reconcile_started
  | advance t await =>
    obtain ⟨task, htask, hk'⟩ := Option.bind_eq_some_iff.mp hk'
    exact h.advanced htask (Kernel.advance_advanced hk')
  | dispose g await =>
    obtain ⟨gen, hgen, hk'⟩ := Option.bind_eq_some_iff.mp hk'
    exact h.disposed hgen hk'
  | beginTurn => exact h.begun hk'
  | release l => exact h.released hk'

theorem initial (log : List StructureEvent) : Accounted (Kernel.initial log) :=
  ⟨fun _ _ => rfl, fun _ _ => rfl, (fun _ h => nomatch h), (fun _ _ h => nomatch h),
    (fun _ _ h => nomatch h), (fun _ h => nomatch h), (fun _ _ h => nomatch h)⟩

theorem reaches {G : Kernel → KernelInput → Prop} (h : Accounted k)
    (hk' : (kernel o).Reaches G k k') : Accounted k' :=
  hk'.invariant h fun _ _ _ h _ hs => h.step hs

theorem leases_kept {input : KernelInput} {l : ℕ} {lease : Lease} (h : Accounted k)
    (hk' : kernelStep o k input = some k') (hinput : input ≠ .release l)
    (hl : k.leases[l]? = some lease) : k'.leases[l]? = some lease := by
  cases input with
  | reconcile graph =>
    cases hk'
    obtain ⟨_, -, -, -, hleases, -⟩ : k.Started o graph _ := Kernel.reconcile_started
    rw [hleases, hl]
  | advance t await =>
    obtain ⟨task, htask, hk'⟩ := Option.bind_eq_some_iff.mp hk'
    obtain ⟨_, -, -, hleases, -⟩ := Kernel.advance_advanced hk'
    rw [hleases, hl]
  | dispose g' await =>
    obtain ⟨gen₀, hgen₀, hk'⟩ := Option.bind_eq_some_iff.mp hk'
    obtain ⟨gen', log, rfl, -⟩ := disposeStep_cases hk'
    exact hl
  | beginTurn =>
    obtain ⟨g', gen₀, gen', -, -, -, -, rfl⟩ := h.beginTurn_cases hk'
    exact (List.getElem?_append_left (List.getElem?_eq_some_iff.mp hl).1).trans hl
  | release l' =>
    obtain ⟨lease', hlease', ⟨-, rfl⟩ | ⟨-, gen₀, hgen₀, rfl⟩⟩ := release_cases hk'
    · exact hl
    · have hne : l' ≠ l := by
        rintro rfl
        exact hinput rfl
      exact (List.getElem?_set_ne hne).trans hl

end Accounted

end BeeAgent.Structure
