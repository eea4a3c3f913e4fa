import Mathlib.Data.List.Chain
import BeeAgent.Knowledge.WorldRecord

/-! The rebuild that rebases over version events whose digest disagrees with the facts, and the
streams that it heals. -/
namespace BeeAgent.Knowledge
open Data

/-- A version event, with the digest that the facts before it have. -/
structure Bump where
  version : ℕ
  digest : String
  actual : String
  deriving DecidableEq

def Bump.Agrees (b : Bump) : Prop := b.actual = b.digest

instance (b : Bump) : Decidable b.Agrees := inferInstanceAs (Decidable (_ = _))

section
variable (p : Platform)

def WorldEvent.bump? (w : Projection) : WorldEvent → Option Bump
  | .version v digest _ => some ⟨v, digest, w.digest p⟩
  | _ => none

def facts (log : List WorldEvent) : Projection := log.foldl Projection.fold .empty

def bumpsFrom (w : Projection) : List WorldEvent → List Bump
  | [] => []
  | event :: log => (event.bump? p w).toList ++ bumpsFrom (w.fold event) log

def bumps (log : List WorldEvent) : List Bump := bumpsFrom p .empty log

def versions (log : List WorldEvent) : List ℕ := (bumps p log).map Bump.version

/-- After one rebuild with the rebase policy, a further one under either policy succeeds, appends
nothing and gives the same snapshot; and the versions of the stream increase strictly. -/
def Heals (log : List WorldEvent) : Prop :=
  ∀ now notice, ∃ store appended, rebuild p .rebase now notice log = .ok (store, appended) ∧
    (∀ policy later notice', ∃ again,
      rebuild p policy later notice' (log ++ appended) = .ok (again, []) ∧
        again.snapshot p = store.snapshot p) ∧
    (versions p (log ++ appended)).Pairwise (· < ·)

/-- Between two version events that disagree with the facts is one that agrees, and where the last
one disagrees, the facts after it do not turn it into one that agrees. -/
structure Healable (log : List WorldEvent) : Prop where
  increasing : (versions p log).Pairwise (· < ·)
  isolated : (bumps p log).IsChain fun a b => a.Agrees ∨ b.Agrees
  trailing : ∀ b, (bumps p log).getLast? = some b → ¬b.Agrees → b.digest ≠ (facts log).digest p

/-- What a replay is in after a stream without two disagreeing version events in a row. -/
def replayed (log : List WorldEvent) : Replay :=
  let agreed := ((bumps p log).filter fun b => b.Agrees).getLast?
  let last := (bumps p log).getLast?
  { toProjection := facts log
    version := (agreed.map Bump.version).getD 0
    digest := (agreed.map Bump.digest).getD (Projection.empty.digest p)
    lastBumpDigest := last.map Bump.digest
    pendingBad := (last.filter fun b => ¬b.Agrees).map fun b => (b.version, b.digest) }

end

section
variable {p : Platform} {log : List WorldEvent} {policy : DriftPolicy}

theorem facts_append (log : List WorldEvent) (e : WorldEvent) :
    facts (log ++ [e]) = (facts log).fold e := by
  rw [facts, List.foldl_append]
  rfl

theorem bumpsFrom_append (w : Projection) (log : List WorldEvent) (e : WorldEvent) :
    bumpsFrom p w (log ++ [e]) =
      bumpsFrom p w log ++ (e.bump? p (log.foldl Projection.fold w)).toList := by
  induction log generalizing w with
  | nil => simp [bumpsFrom]
  | cons event log ih => simp [bumpsFrom, ih]

theorem bumps_append (log : List WorldEvent) (e : WorldEvent) :
    bumps p (log ++ [e]) = bumps p log ++ (e.bump? p (facts log)).toList := bumpsFrom_append ..

theorem bumps_fact (log : List WorldEvent) {e : WorldEvent} (h : e.bump? p (facts log) = none) :
    bumps p (log ++ [e]) = bumps p log := by
  rw [bumps_append, h]
  exact List.append_nil _

theorem bumps_version (log : List WorldEvent) (version : ℕ) (digest at_ : String) :
    bumps p (log ++ [.version version digest at_]) =
      bumps p log ++ [⟨version, digest, (facts log).digest p⟩] := bumps_append ..

theorem replayed_fact (log : List WorldEvent) {e : WorldEvent}
    (h : e.bump? p (facts log) = none) :
    replayed p (log ++ [e]) = { replayed p log with toProjection := (facts log).fold e } := by
  rw [replayed, bumps_fact log h, facts_append]
  rfl

theorem replayed_bump (policy : DriftPolicy) (log : List WorldEvent) (version : ℕ)
    (digest at_ : String)
    (h : (bumps p (log ++ [.version version digest at_])).IsChain fun a b => a.Agrees ∨ b.Agrees) :
    (replayed p log).bump p policy version digest =
      .ok (replayed p (log ++ [.version version digest at_])) := by
  rw [bumps_version] at h
  have hfacts : facts (log ++ [.version version digest at_]) = facts log := facts_append ..
  by_cases hagrees : (facts log).digest p = digest
  · have hbump : (⟨version, digest, (facts log).digest p⟩ : Bump).Agrees := hagrees
    have hactual : (replayed p log).toProjection.digest p = digest := hagrees
    rw [Replay.bump, if_pos hactual, replayed, replayed, bumps_version, hfacts]
    simp [hbump]
  · have hbump : ¬(⟨version, digest, (facts log).digest p⟩ : Bump).Agrees := hagrees
    have hactual : ¬(replayed p log).toProjection.digest p = digest := hagrees
    have hlast : ∀ b, (bumps p log).getLast? = some b → b.Agrees := by
      intro b hb
      have hpair := (List.isChain_append.mp h).2.2 b hb _ rfl
      exact hpair.resolve_right hbump
    have hpending : (replayed p log).pendingBad = none := by
      rw [replayed]
      cases hb : (bumps p log).getLast? with
      | none => rfl
      | some b => simp [Option.filter, hlast b hb]
    rw [Replay.bump, if_neg hactual]
    dsimp only
    rw [hpending, replayed, replayed, bumps_version, hfacts]
    simp [Option.filter, hbump]

theorem isChain_of_append {e : WorldEvent}
    (h : (bumps p (log ++ [e])).IsChain fun a b => a.Agrees ∨ b.Agrees) :
    (bumps p log).IsChain fun a b => a.Agrees ∨ b.Agrees := by
  rw [bumps_append] at h
  exact (List.isChain_append.mp h).1

/-- A stream without two disagreeing version events in a row replays under either policy. -/
theorem replay_isolated (policy : DriftPolicy)
    (h : (bumps p log).IsChain fun a b => a.Agrees ∨ b.Agrees) :
    log.foldlM (Replay.event p policy) (.start p) = .ok (replayed p log) := by
  induction log using List.reverseRecOn with
  | nil => rfl
  | append_singleton log e ih =>
    rw [List.foldlM_append, ih (isChain_of_append h)]
    show (Replay.event p policy (replayed p log) e).bind .ok = _
    cases e with
    | entity e => rw [replayed_fact log rfl]; rfl
    | relation r => rw [replayed_fact log rfl]; rfl
    | version version digest at_ =>
      rw [Replay.event, replayed_bump policy log version digest at_ h]
      rfl

/-- Two disagreeing version events in a row fail every strict replay. -/
theorem replay_drift (h : ¬(bumps p log).IsChain fun a b => a.Agrees ∨ b.Agrees) :
    ∃ error, log.foldlM (Replay.event p .fail) (.start p) = .error error := by
  induction log using List.reverseRecOn with
  | nil => exact absurd .nil h
  | append_singleton log e ih =>
    rw [List.foldlM_append]
    by_cases hbefore : (bumps p log).IsChain fun a b => a.Agrees ∨ b.Agrees
    · rw [replay_isolated .fail hbefore]
      show ∃ error, (Replay.event p .fail (replayed p log) e).bind .ok = .error error
      cases e with
      | entity e =>
        rw [bumps_fact log (e := .entity e) rfl] at h
        exact absurd hbefore h
      | relation r =>
        rw [bumps_fact log (e := .relation r) rfl] at h
        exact absurd hbefore h
      | version version digest at_ =>
        rw [bumps_version, List.isChain_append] at h
        have hpair : ∃ b, (bumps p log).getLast? = some b ∧ ¬b.Agrees ∧
            (facts log).digest p ≠ digest := by
          by_contra hnone
          refine h ⟨hbefore, .singleton _, fun a ha b hb => ?_⟩
          obtain rfl := Option.some.inj hb
          by_contra hneither
          obtain ⟨ha', hb'⟩ := not_or.mp hneither
          exact hnone ⟨a, ha, ha', hb'⟩
        obtain ⟨b, hb, hdisagrees, hdigest⟩ := hpair
        have hpending : (replayed p log).pendingBad = some (b.version, b.digest) := by
          simp [replayed, hb, Option.filter, hdisagrees]
        have hactual : ¬(replayed p log).toProjection.digest p = digest := hdigest
        rw [Replay.event, Replay.bump, if_neg hactual]
        dsimp only
        rw [hpending]
        exact ⟨_, rfl⟩
    · obtain ⟨error, herror⟩ := ih hbefore
      rw [herror]
      exact ⟨error, rfl⟩

/-! The end of a stream. -/

section
variable {r : Replay}

theorem finish_settled (policy : DriftPolicy) (now : String) (notice : Option DriftNotice)
    (hpending : r.pendingBad = none) (hdrifted : r.driftedAt = none) :
    r.finish p policy now notice = .ok (⟨r.toProjection, r.version, r.digest, notice⟩, []) := by
  obtain ⟨w, version, digest, driftedAt, last, pendingBad⟩ := r
  obtain rfl : pendingBad = none := hpending
  obtain rfl : driftedAt = none := hdrifted
  cases policy <;> rfl

variable {bad : ℕ × String}

theorem finish_fail (p : Platform) (now : String) (notice : Option DriftNotice)
    (hpending : r.pendingBad = some bad) :
    r.finish p .fail now notice = .error ⟨bad.1, bad.2, r.toProjection.digest p⟩ := by
  obtain ⟨w, version, digest, driftedAt, last, pendingBad⟩ := r
  obtain rfl : pendingBad = some bad := hpending
  rfl

theorem finish_rebase (p : Platform) (now : String) (notice : Option DriftNotice)
    (hpending : r.pendingBad = some bad) :
    r.finish p .rebase now notice = .ok (
    if r.lastBumpDigest = some (r.toProjection.digest p) then
      (⟨r.toProjection, r.version, r.toProjection.digest p, some ⟨bad.1, r.version⟩⟩, [])
    else
      let corrective := max (max r.version (bad.1 + 1)) bad.1 + 1
      (⟨r.toProjection, corrective, r.toProjection.digest p, some ⟨bad.1, corrective⟩⟩,
        [.version corrective (r.toProjection.digest p) now])) := by
  obtain ⟨w, version, digest, driftedAt, last, pendingBad⟩ := r
  obtain rfl : pendingBad = some bad := hpending
  show (if _ then _ else _) = _
  split <;> simp_all <;> rfl

end

section
variable {b : Bump} (hisolated : (bumps p log).IsChain fun a b => a.Agrees ∨ b.Agrees)

theorem pendingBad_of_last (hb : (bumps p log).getLast? = some b) (hdisagrees : ¬b.Agrees) :
    (replayed p log).pendingBad = some (b.version, b.digest) := by
  simp [replayed, hb, Option.filter, hdisagrees]

include hisolated

theorem rebuild_settled (policy : DriftPolicy) (now : String) (notice : Option DriftNotice)
    (hlast : ∀ b, (bumps p log).getLast? = some b → b.Agrees) :
    rebuild p policy now notice log =
      .ok (⟨facts log, (replayed p log).version, (replayed p log).digest, notice⟩, []) := by
  have hpending : (replayed p log).pendingBad = none := by
    cases hb : (bumps p log).getLast? with
    | none => simp [replayed, hb]
    | some b => simp [replayed, hb, Option.filter, hlast b hb]
  rw [rebuild, replay_isolated policy hisolated]
  exact finish_settled policy now notice hpending rfl

variable (hb : (bumps p log).getLast? = some b) (hdisagrees : ¬b.Agrees)
include hb hdisagrees

theorem rebuild_strict_error (now : String) (notice : Option DriftNotice) :
    ∃ error, rebuild p .fail now notice log = .error error := by
  rw [rebuild, replay_isolated .fail hisolated]
  exact ⟨_, finish_fail p now notice (pendingBad_of_last hb hdisagrees)⟩

/-- The facts after the last version event make its digest right: nothing is appended. -/
theorem rebuild_late (now : String) (notice : Option DriftNotice)
    (hsame : b.digest = (facts log).digest p) :
    ∃ store, rebuild p .rebase now notice log = .ok (store, []) := by
  have hlast : (replayed p log).lastBumpDigest = some ((replayed p log).toProjection.digest p) := by
    simp [replayed, hb, hsame]
  have hfinish := finish_rebase p now notice (pendingBad_of_last hb hdisagrees)
  rw [if_pos hlast] at hfinish
  rw [rebuild, replay_isolated .rebase hisolated]
  exact ⟨_, hfinish⟩

def corrective (p : Platform) (log : List WorldEvent) (b : Bump) : ℕ :=
  max (max (replayed p log).version (b.version + 1)) b.version + 1

theorem rebuild_corrects (now : String) (notice : Option DriftNotice)
    (hother : b.digest ≠ (facts log).digest p) :
    rebuild p .rebase now notice log =
      .ok (⟨facts log, corrective p log b, (facts log).digest p,
          some ⟨b.version, corrective p log b⟩⟩,
        [.version (corrective p log b) ((facts log).digest p) now]) := by
  have hlast : (replayed p log).lastBumpDigest ≠ some ((replayed p log).toProjection.digest p) := by
    intro heq
    simp only [replayed, hb, Option.map_some, Option.some.injEq] at heq
    exact hother heq
  have hfinish := finish_rebase p now notice (pendingBad_of_last hb hdisagrees)
  rw [if_neg hlast] at hfinish
  rw [rebuild, replay_isolated .rebase hisolated]
  exact hfinish

end

theorem versions_append (log : List WorldEvent) (version : ℕ) (digest at_ : String) :
    versions p (log ++ [.version version digest at_]) = versions p log ++ [version] := by
  rw [versions, bumps_version, List.map_append]
  rfl

theorem rebuild_corrected (hisolated : (bumps p log).IsChain fun a b => a.Agrees ∨ b.Agrees)
    {version : ℕ} {at_ : String} (policy : DriftPolicy) (now : String)
    (notice : Option DriftNotice) :
    rebuild p policy now notice (log ++ [.version version ((facts log).digest p) at_]) =
      .ok (⟨facts log, version, (facts log).digest p, notice⟩, []) := by
  have hagrees : (⟨version, (facts log).digest p, (facts log).digest p⟩ : Bump).Agrees := rfl
  have hbumps := bumps_version (p := p) log version ((facts log).digest p) at_
  have hfacts : facts (log ++ [.version version ((facts log).digest p) at_]) = facts log :=
    facts_append ..
  have hchain : (bumps p (log ++ [.version version ((facts log).digest p) at_])).IsChain
      fun a b => a.Agrees ∨ b.Agrees := by
    rw [hbumps]
    refine List.isChain_append.mpr ⟨hisolated, .singleton _, fun a ha b hb => ?_⟩
    obtain rfl := Option.some.inj hb
    exact .inr hagrees
  rw [rebuild_settled hchain policy now notice, replayed, hbumps, hfacts]
  · simp [hagrees]
  · intro b hb
    rw [hbumps, List.getLast?_concat] at hb
    obtain rfl := Option.some.inj hb
    exact hagrees

theorem lt_corrective {b : Bump} (h : (versions p log).Pairwise (· < ·))
    (hb : (bumps p log).getLast? = some b) : ∀ v ∈ versions p log, v < corrective p log b := by
  intro v hv
  obtain ⟨before, hbefore⟩ := List.getLast?_eq_some_iff.mp hb
  rw [versions, hbefore, List.map_append, List.map_singleton] at h hv
  have hle : v ≤ b.version := by
    obtain hv | hv := List.mem_append.mp hv
    · exact ((List.pairwise_append.mp h).2.2 v hv _ List.mem_cons_self).le
    · exact (List.mem_singleton.mp hv).le
  rw [corrective]
  omega

theorem bumps_extend (log more : List WorldEvent) : bumps p log <+: bumps p (log ++ more) := by
  induction more using List.reverseRecOn with
  | nil => simp
  | append_singleton more e ih =>
    rw [← List.append_assoc, bumps_append]
    exact ih.trans (List.prefix_append _ _)

/-- A stream that has healed was healable. -/
theorem Heals.healable (h : Heals p log) : Healable p log := by
  obtain ⟨store, appended, hrebase, hagain, hversions⟩ := h "" none
  obtain ⟨again, hstrict, -⟩ := hagain .fail "" none
  have hisolated : (bumps p log).IsChain fun a b => a.Agrees ∨ b.Agrees := by
    by_contra hdrift
    obtain ⟨error, herror⟩ := replay_drift hdrift
    rw [rebuild, List.foldlM_append, herror] at hstrict
    cases hstrict
  refine ⟨?_, hisolated, fun b hb hdisagrees hsame => ?_⟩
  · exact hversions.sublist ((bumps_extend log appended).map Bump.version).sublist
  · obtain ⟨late, hlate⟩ := rebuild_late hisolated hb hdisagrees "" none hsame
    obtain ⟨rfl, rfl⟩ := Prod.mk.inj (Except.ok.inj (hlate.symm.trans hrebase))
    obtain ⟨error, herror⟩ := rebuild_strict_error hisolated hb hdisagrees "" none
    rw [List.append_nil, herror] at hstrict
    cases hstrict

theorem Healable.heals (h : Healable p log) : Heals p log := by
  intro now notice
  by_cases hlast : ∀ b, (bumps p log).getLast? = some b → b.Agrees
  · refine ⟨_, _, rebuild_settled h.isolated .rebase now notice hlast, fun policy later again => ?_,
      ?_⟩
    · rw [List.append_nil]
      exact ⟨_, rebuild_settled h.isolated policy later again hlast, rfl⟩
    · rw [List.append_nil]
      exact h.increasing
  · push Not at hlast
    obtain ⟨b, hb, hdisagrees⟩ := hlast
    have hrebase := rebuild_corrects h.isolated hb hdisagrees now notice
      (h.trailing b hb hdisagrees)
    refine ⟨_, _, hrebase, fun policy later again => ?_, ?_⟩
    · exact ⟨_, rebuild_corrected h.isolated policy later again, rfl⟩
    · rw [versions_append]
      refine List.pairwise_append.mpr ⟨h.increasing, List.pairwise_singleton _ _, ?_⟩
      intro v hv w hw
      obtain rfl := List.mem_singleton.mp hw
      exact lt_corrective h.increasing hb v hv

/-- Rebase heals the stream exactly where it can be healed. -/
theorem heals_iff : Heals p log ↔ Healable p log := ⟨Heals.healable, Healable.heals⟩

end

/-- The stream of two calls; the first one writes a digest that its facts do not have, and so the
second one does. -/
def driftedTwice : List WorldEvent :=
  (twiceSeen.record samplePlatform (sampleCall ["2026-01-01T00:00:02Z"])).1.log

/-- The strict rebuild fails on that stream for ever. -/
theorem drift_stays : ¬∀ (p : Platform) (log : List WorldEvent), Heals p log := by
  intro h
  obtain ⟨store, appended, hrebase, hagain, -⟩ := h samplePlatform driftedTwice "" none
  obtain ⟨again, hstrict, -⟩ := hagain .fail "" none
  have herror : (driftedTwice.foldlM (Replay.event samplePlatform .fail)
      (.start samplePlatform)).toOption.isNone := by decide +kernel
  rw [rebuild, List.foldlM_append] at hstrict
  cases hreplay : driftedTwice.foldlM (Replay.event samplePlatform .fail)
      (.start samplePlatform) with
  | error error => rw [hreplay] at hstrict; cases hstrict
  | ok r => rw [hreplay] at herror; cases herror

end BeeAgent.Knowledge
