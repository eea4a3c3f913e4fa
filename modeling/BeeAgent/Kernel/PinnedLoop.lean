import BeeAgent.Kernel.Accounting

/-! The agent loop that keeps a generation lease across an approval suspension, over the kernel it
takes its leases from. -/
namespace BeeAgent.Structure
open Transition Machine

inductive CallKind where
  | runTurn
  | recoverTurn
  | resumeTurn (held : Bool)
  deriving DecidableEq, Repr

/-- A call of the loop that awaits the service of its lease. -/
structure Call where
  kind : CallKind
  turn : ℕ
  lease : ℕ
  deriving DecidableEq, Repr

inductive TurnStatus where
  | completed | failed | cancelled | suspended
  deriving DecidableEq, Repr

/-- How the service of a lease settles; a throw says whether it leaves the turn suspended. -/
inductive Settlement where
  | result (status : TurnStatus)
  | thrown (suspended : Bool)
  deriving DecidableEq, Repr

/-- `turnOf` and `left` are bookkeeping: the turn a lease was taken for, and whether the last call
of a turn left it suspended. -/
structure PinnedAgentLoop where
  kernel : Kernel
  suspended : ℕ → Option ℕ
  calls : ℕ → Option Call
  nextCall : ℕ
  nextTurn : ℕ
  turnOf : ℕ → Option ℕ
  left : ℕ → Bool

namespace PinnedAgentLoop

def initial (log : List StructureEvent) (nextTurn : ℕ) : PinnedAgentLoop :=
  { kernel := .initial log, suspended := fun _ => none, calls := fun _ => none, nextCall := 0,
    nextTurn, turnOf := fun _ => none, left := fun _ => false }

/-- `kernel.beginTurn()` for a turn; it throws when no generation is active. -/
def beginTurn (p : PinnedAgentLoop) (turn : ℕ) : Option (PinnedAgentLoop × ℕ) :=
  p.kernel.beginTurn.map fun kernel =>
    ({ p with kernel, turnOf := Function.update p.turnOf p.kernel.leases.length (some turn) },
      p.kernel.leases.length)

def startCall (p : PinnedAgentLoop) (kind : CallKind) (turn lease : ℕ) : PinnedAgentLoop :=
  { p with calls := Function.update p.calls p.nextCall (some ⟨kind, turn, lease⟩)
           nextCall := p.nextCall + 1 }

/-- The new turn gets an id that no caller knows before. -/
def runTurn (p : PinnedAgentLoop) : Option PinnedAgentLoop :=
  (p.beginTurn p.nextTurn).map fun (p, lease) =>
    { p.startCall .runTurn p.nextTurn lease with nextTurn := p.nextTurn + 1 }

/-- The lease that is held for the turn, or one on the active generation. -/
def heldOrBegin (p : PinnedAgentLoop) (turn : ℕ) : Option (PinnedAgentLoop × ℕ) :=
  match p.suspended turn with
  | some lease => some (p, lease)
  | none => p.beginTurn turn

def recoverTurn (p : PinnedAgentLoop) (turn : ℕ) : Option PinnedAgentLoop :=
  (p.heldOrBegin turn).map fun (p, lease) => p.startCall .recoverTurn turn lease

def resumeTurn (p : PinnedAgentLoop) (turn : ℕ) : Option PinnedAgentLoop :=
  (p.heldOrBegin turn).map fun (p', lease) =>
    p'.startCall (.resumeTurn (p.suspended turn).isSome) turn lease

def releaseLease (p : PinnedAgentLoop) (lease : ℕ) : Option PinnedAgentLoop :=
  (p.kernel.releaseLease lease).map fun kernel => { p with kernel }

def settleLease (p : PinnedAgentLoop) (status : TurnStatus) (turn lease : ℕ) :
    Option PinnedAgentLoop :=
  match status with
  | .suspended =>
    let previous := (p.suspended turn).filter (· ≠ lease)
    ((previous.elim (some p) p.releaseLease)).map fun p =>
      { p with suspended := Function.update p.suspended turn (some lease) }
  | _ => { p with suspended := Function.update p.suspended turn none }.releaseLease lease

/-- The catch clauses of the three calls. -/
def releasesOnThrow (p : PinnedAgentLoop) (call : Call) : Bool :=
  match call.kind with
  | .runTurn => true
  | .recoverTurn => (p.suspended call.turn).isNone
  | .resumeTurn held => !held

def settle (p : PinnedAgentLoop) (c : ℕ) (call : Call) (settlement : Settlement) :
    Option PinnedAgentLoop :=
  let p := { p with calls := Function.update p.calls c none }
  match settlement with
  | .result status =>
    { p with left := Function.update p.left call.turn (status == TurnStatus.suspended) }.settleLease status
      call.turn call.lease
  | .thrown suspended =>
    let p := { p with left := Function.update p.left call.turn suspended }
    if p.releasesOnThrow call then p.releaseLease call.lease else some p

end PinnedAgentLoop

inductive LoopInput where
  | runTurn
  | recoverTurn (turn : ℕ)
  | resumeTurn (turn : ℕ)
  | settle (call : ℕ) (settlement : Settlement)
  /-- What the others do with the kernel; they release the leases they took themselves. -/
  | kernel (input : KernelInput)

variable (o : KernelOptions)

def loopStep (p : PinnedAgentLoop) : LoopInput → Option PinnedAgentLoop
  | .runTurn => p.runTurn
  | .recoverTurn turn => if turn < p.nextTurn then p.recoverTurn turn else none
  | .resumeTurn turn => if turn < p.nextTurn then p.resumeTurn turn else none
  | .settle c settlement => (p.calls c).bind fun call => p.settle c call settlement
  | .kernel (.release l) =>
    if (p.turnOf l).isNone then
      (kernelStep o p.kernel (.release l)).map fun kernel => { p with kernel }
    else none
  | .kernel input => (kernelStep o p.kernel input).map fun kernel => { p with kernel }

def pinnedAgentLoop : Machine PinnedAgentLoop LoopInput := ⟨loopStep o⟩

namespace PinnedAgentLoop
variable (p : PinnedAgentLoop)

def Out (turn l : ℕ) : Prop :=
  p.turnOf l = some turn ∧ ∃ g, p.kernel.leases[l]? = some ⟨g, false⟩

def running (turn : ℕ) : Bool :=
  (List.range p.nextCall).any fun c => (p.calls c).any fun call => call.turn == turn

def alone (c turn : ℕ) : Bool :=
  (List.range p.nextCall).all fun c' => c' == c || (p.calls c').all fun call => call.turn != turn

end PinnedAgentLoop

/-- Calls of one turn overlap only on a lease that is held for it, and none of them gives that lease
back under another; a call that throws leaves its turn suspended exactly when its lease stays
held. -/
def sharing (p : PinnedAgentLoop) : LoopInput → Prop
  | .recoverTurn turn | .resumeTurn turn => p.suspended turn = none → p.running turn = false
  | .settle c settlement => ∀ call, p.calls c = some call →
      match settlement with
      | .result .suspended => True
      | .result _ => p.alone c call.turn
      | .thrown suspended => p.alone c call.turn → suspended = (p.suspended call.turn).isSome
  | _ => True

/-- Where the leases are that the loop has taken. -/
structure Holding (p : PinnedAgentLoop) : Prop where
  accounted : Accounted p.kernel
  fresh : ∀ c, p.nextCall ≤ c → p.calls c = none
  known : ∀ c call, p.calls c = some call → call.turn < p.nextTurn
  taken : ∀ l turn, p.turnOf l = some turn → l < p.kernel.leases.length ∧ turn < p.nextTurn
  out : ∀ c call, p.calls c = some call → p.Out call.turn call.lease
  kept : ∀ turn l, p.suspended turn = some l → p.Out turn l
  shape : ∀ c call, p.calls c = some call →
    p.suspended call.turn = some call.lease ∧
        (call.kind = .recoverTurn ∨ call.kind = .resumeTurn true) ∨
      p.suspended call.turn = none ∧ call.kind ≠ .resumeTurn true ∧
        ∀ c' call', p.calls c' = some call' → call'.turn = call.turn → c' = c
  owner : ∀ turn l, p.Out turn l → p.suspended turn = some l ∨
    ∃ c call, p.calls c = some call ∧ call.turn = turn ∧ call.lease = l
  left : ∀ turn, (∀ c call, p.calls c = some call → call.turn ≠ turn) →
    p.left turn = (p.suspended turn).isSome

namespace PinnedAgentLoop
variable {o : KernelOptions} {p p' : PinnedAgentLoop} {turn l c : ℕ} {call : Call}

theorem Out.unique {turn' : ℕ} (h : p.Out turn l) (h' : p.Out turn' l) : turn = turn' :=
  Option.some.inj (h.1.symm.trans h'.1)

theorem running_eq_false (h : p.running turn = false) (hfresh : ∀ c, p.nextCall ≤ c → p.calls c = none)
    (hcall : p.calls c = some call) : call.turn ≠ turn := by
  rintro rfl
  have hc : c < p.nextCall := by
    by_contra hc
    simp [hfresh c (Nat.not_lt.mp hc)] at hcall
  have hrunning : p.running call.turn = true := by
    simp only [running, List.any_eq_true, List.mem_range, Option.any_eq_true, beq_iff_eq]
    exact ⟨c, hc, call, hcall, rfl⟩
  simp [h] at hrunning

theorem exists_call (h : p.running turn = true) :
    ∃ c call, p.calls c = some call ∧ call.turn = turn := by
  simp only [running, List.any_eq_true, Option.any_eq_true, beq_iff_eq] at h
  obtain ⟨c, -, call, hcall, hturn⟩ := h
  exact ⟨c, call, hcall, hturn⟩

theorem alone_iff (hfresh : ∀ c, p.nextCall ≤ c → p.calls c = none) :
    p.alone c turn ↔ ∀ c' call, p.calls c' = some call → call.turn = turn → c' = c := by
  simp only [alone, List.all_eq_true, List.mem_range, Bool.or_eq_true, beq_iff_eq,
    Option.all_eq_true, bne_iff_ne]
  constructor
  · intro h c' call hcall hturn
    have hc : c' < p.nextCall := by
      by_contra hc
      simp [hfresh c' (Nat.not_lt.mp hc)] at hcall
    exact (h c' hc).resolve_right fun hne => hne call hcall hturn
  · intro h c' _
    by_cases hc : c' = c
    · exact .inl hc
    · exact .inr fun call hcall hturn => hc (h c' call hcall hturn)

theorem out_kernel {k : Kernel} {input : KernelInput} (h : Holding p)
    (hk : kernelStep o p.kernel input = some k)
    (hinput : ∀ l, input = .release l → p.turnOf l = none) :
    ({ p with kernel := k } : PinnedAgentLoop).Out turn l ↔ p.Out turn l := by
  have hkept : p.turnOf l = some turn → k.leases[l]? = p.kernel.leases[l]? := by
    intro hturn
    have hl := List.getElem?_eq_getElem (h.taken l turn hturn).1
    rw [hl]
    refine h.accounted.leases_kept hk (fun heq => ?_) hl
    simp [hinput l heq] at hturn
  constructor
  · rintro ⟨hturn, g, hg⟩
    exact ⟨hturn, g, (hkept hturn).symm.trans hg⟩
  · rintro ⟨hturn, g, hg⟩
    exact ⟨hturn, g, (hkept hturn).trans hg⟩

theorem beginTurn_cases (h : Holding p) (hb : p.beginTurn turn = some (p', l)) :
    ∃ k turnOf, p' = { p with kernel := k, turnOf } ∧ Accounted k ∧
      l = p.kernel.leases.length ∧ k.leases.length = l + 1 ∧
      (∀ l' turn', turnOf l' = some turn' ↔ p.turnOf l' = some turn' ∨ l' = l ∧ turn' = turn) ∧
      ∀ turn' l', p'.Out turn' l' ↔ p.Out turn' l' ∨ l' = l ∧ turn' = turn := by
  obtain ⟨k, hk, heq⟩ := Option.map_eq_some_iff.mp hb
  cases heq
  obtain ⟨g, gen, gen', -, -, -, -, hk'⟩ := h.accounted.beginTurn_cases hk
  have hleases : k.leases = p.kernel.leases ++ [⟨g, false⟩] := by rw [hk']
  have hnew : p.turnOf p.kernel.leases.length = none := by
    by_contra hne
    obtain ⟨turn', hturn'⟩ := Option.ne_none_iff_exists'.mp hne
    exact Nat.lt_irrefl _ (h.taken _ turn' hturn').1
  have hturnOf : ∀ l' turn', Function.update p.turnOf p.kernel.leases.length (some turn) l' =
      some turn' ↔ p.turnOf l' = some turn' ∨ l' = p.kernel.leases.length ∧ turn' = turn := by
    intro l' turn'
    by_cases hl' : l' = p.kernel.leases.length
    · subst hl'
      simp [hnew, eq_comm]
    · simp [hl']
  refine ⟨k, _, rfl, h.accounted.begun hk, rfl, by simp [hleases], hturnOf, fun turn' l' => ?_⟩
  unfold Out
  simp only [hturnOf, hleases]
  by_cases hl' : l' = p.kernel.leases.length
  · subst hl'
    simp [hnew]
  · constructor
    · rintro ⟨hturn | ⟨hl, -⟩, g', hg'⟩
      · rw [List.getElem?_append_left (h.taken l' turn' hturn).1] at hg'
        exact .inl ⟨hturn, g', hg'⟩
      · exact absurd hl hl'
    · rintro (⟨hturn, g', hg'⟩ | ⟨hl, -⟩)
      · exact ⟨.inl hturn, g', (List.getElem?_append_left (h.taken l' turn' hturn).1).trans hg'⟩
      · exact absurd hl hl'

theorem releaseLease_cases (h : Holding p) (hout : p.Out turn l)
    (hr : p.releaseLease l = some p') :
    ∃ k, p' = { p with kernel := k } ∧ Accounted k ∧ k.leases.length = p.kernel.leases.length ∧
      ∀ turn' l', p'.Out turn' l' ↔ p.Out turn' l' ∧ l' ≠ l := by
  obtain ⟨k, hk, rfl⟩ := Option.map_eq_some_iff.mp hr
  obtain ⟨-, g, hg⟩ := hout
  obtain ⟨lease, hlease, ⟨hreleased, -⟩ | ⟨-, gen, hgen, hk'⟩⟩ := Accounted.release_cases hk
  · cases hg.symm.trans hlease
    cases hreleased
  cases hg.symm.trans hlease
  have hleases : k.leases = p.kernel.leases.set l ⟨g, true⟩ := by rw [hk']
  refine ⟨k, rfl, h.accounted.released hk, by simp [hleases], fun turn' l' => ?_⟩
  unfold Out
  simp only [hleases]
  by_cases hl' : l' = l
  · subst hl'
    simp [List.getElem?_set_self (List.getElem?_eq_some_iff.mp hg).1]
  · simp [List.getElem?_set_ne (Ne.symm hl'), hl']

end PinnedAgentLoop

namespace Holding
variable {o : KernelOptions} {p p' : PinnedAgentLoop} {turn l c : ℕ} {call : Call}

theorem kernelStep {k : Kernel} {input : KernelInput} (h : Holding p)
    (hk : Structure.kernelStep o p.kernel input = some k)
    (hinput : ∀ l, input = .release l → p.turnOf l = none) :
    Holding { p with kernel := k } := by
  have hout : ∀ turn l, ({ p with kernel := k } : PinnedAgentLoop).Out turn l ↔ p.Out turn l :=
    fun _ _ => PinnedAgentLoop.out_kernel h hk hinput
  refine ⟨h.accounted.step hk, h.fresh, h.known, fun l turn hturn => ?_, fun c call hcall => ?_,
    fun turn l hl => ?_, h.shape, fun turn l hl => ?_, h.left⟩
  · obtain ⟨hl, hlt⟩ := h.taken l turn hturn
    refine ⟨?_, hlt⟩
    have hkept := h.accounted.leases_kept hk (fun heq => by simp [hinput l heq] at hturn)
      (List.getElem?_eq_getElem hl)
    exact (List.getElem?_eq_some_iff.mp hkept).1
  · exact (hout ..).mpr (h.out c call hcall)
  · exact (hout ..).mpr (h.kept turn l hl)
  · exact h.owner turn l ((hout ..).mp hl)

theorem startFresh {p₁ : PinnedAgentLoop} {kind : CallKind} {n : ℕ} (h : Holding p)
    (hb : p.beginTurn turn = some (p₁, l)) (hn : p.nextTurn ≤ n) (hturn : turn < n)
    (hsuspended : p.suspended turn = none)
    (hrunning : ∀ c call, p.calls c = some call → call.turn ≠ turn)
    (hkind : kind ≠ .resumeTurn true) :
    Holding { p₁.startCall kind turn l with nextTurn := n } := by
  obtain ⟨k, turnOf, rfl, haccounted, rfl, hlength, hturnOf, hout⟩ :=
    PinnedAgentLoop.beginTurn_cases h hb
  have hcalls : ∀ c call, Function.update p.calls p.nextCall
      (some ⟨kind, turn, p.kernel.leases.length⟩) c = some call ↔
        c = p.nextCall ∧ call = ⟨kind, turn, p.kernel.leases.length⟩ ∨ p.calls c = some call := by
    intro c call
    by_cases hc : c = p.nextCall
    · subst hc
      simp [h.fresh _ (Nat.le_refl _), eq_comm]
    · simp [hc]
  refine ⟨haccounted, fun c hc => ?_, fun c call hcall => ?_, fun l turn' hl => ?_,
    fun c call hcall => ?_, fun turn' l hl => ?_, fun c call hcall => ?_, fun turn' l hl => ?_,
    fun turn' hturn' => ?_⟩
  · exact (Function.update_of_ne (Nat.ne_of_gt hc) ..).trans (h.fresh c (Nat.le_of_succ_le hc))
  · obtain ⟨-, rfl⟩ | hcall := (hcalls c call).mp hcall
    · exact hturn
    · exact Nat.lt_of_lt_of_le (h.known c call hcall) hn
  · obtain hl | ⟨rfl, rfl⟩ := (hturnOf l turn').mp hl
    · obtain ⟨hlt, hturn'⟩ := h.taken l turn' hl
      exact ⟨hlength ▸ Nat.lt_succ_of_lt hlt, Nat.lt_of_lt_of_le hturn' hn⟩
    · exact ⟨hlength ▸ Nat.lt_succ_self _, hturn⟩
  · refine (hout ..).mpr ?_
    obtain ⟨-, rfl⟩ | hcall := (hcalls c call).mp hcall
    · exact .inr ⟨rfl, rfl⟩
    · exact .inl (h.out c call hcall)
  · exact (hout ..).mpr (.inl (h.kept turn' l hl))
  · obtain ⟨rfl, rfl⟩ | hcall := (hcalls c call).mp hcall
    · refine .inr ⟨hsuspended, hkind, fun c' call' hcall' hturn' => ?_⟩
      obtain ⟨rfl, -⟩ | hcall' := (hcalls c' call').mp hcall'
      · rfl
      · exact absurd hturn' (hrunning c' call' hcall')
    · refine (h.shape c call hcall).imp_right fun ⟨hs, hk, halone⟩ => ⟨hs, hk, ?_⟩
      intro c' call' hcall' hturn'
      obtain ⟨-, rfl⟩ | hcall' := (hcalls c' call').mp hcall'
      · exact absurd hturn'.symm (hrunning c call hcall)
      · exact halone c' call' hcall' hturn'
  · obtain hl | ⟨rfl, rfl⟩ := (hout ..).mp hl
    · refine (h.owner turn' l hl).imp_right fun ⟨c, call, hcall, hown⟩ => ?_
      exact ⟨c, call, (hcalls c call).mpr (.inr hcall), hown⟩
    · exact .inr ⟨p.nextCall, _, (hcalls ..).mpr (.inl ⟨rfl, rfl⟩), rfl, rfl⟩
  · exact h.left turn' fun c call hcall => hturn' c call ((hcalls c call).mpr (.inr hcall))

theorem startHeld {kind : CallKind} (h : Holding p) (hl : p.suspended turn = some l)
    (hkind : kind = .recoverTurn ∨ kind = .resumeTurn true) :
    Holding (p.startCall kind turn l) := by
  have hcalls : ∀ c call, Function.update p.calls p.nextCall (some ⟨kind, turn, l⟩) c = some call ↔
      c = p.nextCall ∧ call = ⟨kind, turn, l⟩ ∨ p.calls c = some call := by
    intro c call
    by_cases hc : c = p.nextCall
    · subst hc
      simp [h.fresh _ (Nat.le_refl _), eq_comm]
    · simp [hc]
  have hout := h.kept turn l hl
  refine ⟨h.accounted, fun c hc => ?_, fun c call hcall => ?_, h.taken, fun c call hcall => ?_,
    h.kept, fun c call hcall => ?_, fun turn' l' hl' => ?_, fun turn' hturn' => ?_⟩
  · exact (Function.update_of_ne (Nat.ne_of_gt hc) ..).trans (h.fresh c (Nat.le_of_succ_le hc))
  · obtain ⟨-, rfl⟩ | hcall := (hcalls c call).mp hcall
    · exact (h.taken l turn hout.1).2
    · exact h.known c call hcall
  · obtain ⟨-, rfl⟩ | hcall := (hcalls c call).mp hcall
    · exact hout
    · exact h.out c call hcall
  · obtain ⟨-, rfl⟩ | hcall := (hcalls c call).mp hcall
    · exact .inl ⟨hl, hkind⟩
    · refine (h.shape c call hcall).imp_right fun ⟨hs, hk, halone⟩ => ⟨hs, hk, ?_⟩
      intro c' call' hcall' hturn'
      obtain ⟨-, rfl⟩ | hcall' := (hcalls c' call').mp hcall'
      · simp [← hturn', hl] at hs
      · exact halone c' call' hcall' hturn'
  · refine (h.owner turn' l' hl').imp_right fun ⟨c, call, hcall, hown⟩ => ?_
    exact ⟨c, call, (hcalls c call).mpr (.inr hcall), hown⟩
  · exact h.left turn' fun c call hcall => hturn' c call ((hcalls c call).mpr (.inr hcall))

theorem calls_settled {c' : ℕ} {call' : Call} :
    Function.update p.calls c none c' = some call' ↔ c' ≠ c ∧ p.calls c' = some call' := by
  by_cases hc : c' = c
  · subst hc
    simp
  · simp [hc]

/-- A call of a turn that stays suspended settles: its lease is the held one from here on. -/
theorem settleHeld {left : Bool} (h : Holding p) (hcall : p.calls c = some call)
    (hleft : (∀ c' call', p.calls c' = some call' → call'.turn = call.turn → c' = c) → left = true) :
    Holding { p with calls := Function.update p.calls c none,
                     left := Function.update p.left call.turn left,
                     suspended := Function.update p.suspended call.turn (some call.lease) } := by
  have hsuspended : ∀ turn l, Function.update p.suspended call.turn (some call.lease) turn = some l ↔
      turn = call.turn ∧ l = call.lease ∨ turn ≠ call.turn ∧ p.suspended turn = some l := by
    intro turn l
    by_cases hturn : turn = call.turn
    · subst hturn
      simp [eq_comm]
    · simp [hturn]
  have hlease : ∀ c' call', p.calls c' = some call' → call'.turn = call.turn →
      c' = c ∨ p.suspended call.turn = some call.lease ∧ call'.lease = call.lease ∧
        (call'.kind = .recoverTurn ∨ call'.kind = .resumeTurn true) := by
    intro c' call' hcall' hturn
    obtain ⟨hs, hk⟩ | ⟨hs, -, halone⟩ := h.shape c' call' hcall'
    · obtain ⟨hs', -⟩ | ⟨hs', -, -⟩ := h.shape c call hcall
      · rw [hturn, hs'] at hs
        exact .inr ⟨hs', (Option.some.inj hs).symm, hk⟩
      · rw [hturn, hs'] at hs
        cases hs
    · exact .inl (halone c call hcall hturn.symm).symm
  refine ⟨h.accounted, fun c' hc' => ?_, fun c' call' hcall' => ?_, h.taken,
    fun c' call' hcall' => ?_, fun turn l hl => ?_, fun c' call' hcall' => ?_,
    fun turn l hl => ?_, fun turn hturn => ?_⟩
  · by_contra hne
    obtain ⟨call', hcall'⟩ := Option.ne_none_iff_exists'.mp hne
    have hcall' := (calls_settled.mp hcall').2
    simp [h.fresh c' hc'] at hcall'
  · exact h.known c' call' (calls_settled.mp hcall').2
  · exact h.out c' call' (calls_settled.mp hcall').2
  · obtain ⟨rfl, rfl⟩ | ⟨-, hl⟩ := (hsuspended turn l).mp hl
    · exact h.out c call hcall
    · exact h.kept turn l hl
  · obtain ⟨hc', hcall'⟩ := calls_settled.mp hcall'
    by_cases hturn : call'.turn = call.turn
    · obtain rfl | ⟨-, hl, hk⟩ := hlease c' call' hcall' hturn
      · exact absurd rfl hc'
      · exact .inl ⟨(hsuspended ..).mpr (.inl ⟨hturn, hl⟩), hk⟩
    · refine (h.shape c' call' hcall').imp (fun ⟨hs, hk⟩ => ?_) fun ⟨hs, hk, halone⟩ => ?_
      · exact ⟨(hsuspended ..).mpr (.inr ⟨hturn, hs⟩), hk⟩
      · refine ⟨(Function.update_of_ne hturn ..).trans hs, hk, fun c'' call'' hcall'' => ?_⟩
        exact halone c'' call'' (calls_settled.mp hcall'').2
  · obtain hs | ⟨c', call', hcall', rfl, rfl⟩ := h.owner turn l hl
    · by_cases hturn : turn = call.turn
      · subst hturn
        obtain ⟨hs', -⟩ | ⟨hs', -, -⟩ := h.shape c call hcall
        · cases hs.symm.trans hs'
          exact .inl ((hsuspended ..).mpr (.inl ⟨rfl, rfl⟩))
        · cases hs.symm.trans hs'
      · exact .inl ((hsuspended ..).mpr (.inr ⟨hturn, hs⟩))
    · by_cases hc' : c' = c
      · subst hc'
        cases hcall.symm.trans hcall'
        exact .inl ((hsuspended ..).mpr (.inl ⟨rfl, rfl⟩))
      · exact .inr ⟨c', call', calls_settled.mpr ⟨hc', hcall'⟩, rfl, rfl⟩
  · by_cases hturn' : turn = call.turn
    · subst hturn'
      simp only [Function.update_self, Option.isSome_some]
      refine hleft fun c' call' hcall' hturn' => ?_
      by_contra hc'
      exact hturn c' call' (calls_settled.mpr ⟨hc', hcall'⟩) hturn'
    · simp only [Function.update_of_ne hturn']
      refine h.left turn fun c' call' hcall' hne => ?_
      refine hturn c' call' (calls_settled.mpr ⟨?_, hcall'⟩) hne
      rintro rfl
      cases hcall.symm.trans hcall'
      exact hturn' hne.symm

/-- The last call of a turn settles and gives the lease of the turn back. -/
theorem settleReleased (h : Holding p) (hcall : p.calls c = some call)
    (halone : ∀ c' call', p.calls c' = some call' → call'.turn = call.turn → c' = c)
    (hr : p.releaseLease call.lease = some p') :
    Holding { p' with calls := Function.update p.calls c none,
                      left := Function.update p.left call.turn false,
                      suspended := Function.update p.suspended call.turn none } := by
  obtain ⟨k, rfl, haccounted, hlength, hout⟩ :=
    PinnedAgentLoop.releaseLease_cases h (h.out c call hcall) hr
  have hsuspended : ∀ turn l, Function.update p.suspended call.turn none turn = some l ↔
      turn ≠ call.turn ∧ p.suspended turn = some l := by
    intro turn l
    by_cases hturn : turn = call.turn
    · subst hturn
      simp
    · simp [hturn]
  -- the lease that is given back is no other turn's
  have hother : ∀ turn l, turn ≠ call.turn → p.Out turn l → l ≠ call.lease := by
    rintro turn l hturn hl rfl
    exact hturn (hl.unique (h.out c call hcall))
  have hrest : ∀ c' call', Function.update p.calls c none c' = some call' →
      p.calls c' = some call' ∧ call'.turn ≠ call.turn := by
    intro c' call' hcall'
    obtain ⟨hc', hcall'⟩ := calls_settled.mp hcall'
    exact ⟨hcall', fun hturn => hc' (halone c' call' hcall' hturn)⟩
  refine ⟨haccounted, fun c' hc' => ?_, fun c' call' hcall' => ?_, fun l turn hl => ?_,
    fun c' call' hcall' => ?_, fun turn l hl => ?_, fun c' call' hcall' => ?_,
    fun turn l hl => ?_, fun turn hturn => ?_⟩
  · by_contra hne
    obtain ⟨call', hcall'⟩ := Option.ne_none_iff_exists'.mp hne
    have hcall' := (calls_settled.mp hcall').2
    simp [h.fresh c' hc'] at hcall'
  · exact h.known c' call' (hrest c' call' hcall').1
  · exact hlength ▸ h.taken l turn hl
  · obtain ⟨hcall', hturn⟩ := hrest c' call' hcall'
    have hl := h.out c' call' hcall'
    exact (hout ..).mpr ⟨hl, hother _ _ hturn hl⟩
  · obtain ⟨hturn, hs⟩ := (hsuspended turn l).mp hl
    have hl := h.kept turn l hs
    exact (hout ..).mpr ⟨hl, hother _ _ hturn hl⟩
  · obtain ⟨hcall', hturn⟩ := hrest c' call' hcall'
    refine (h.shape c' call' hcall').imp (fun ⟨hs, hk⟩ => ?_) fun ⟨hs, hk, halone'⟩ => ?_
    · exact ⟨(hsuspended ..).mpr ⟨hturn, hs⟩, hk⟩
    · refine ⟨(Function.update_of_ne hturn ..).trans hs, hk, fun c'' call'' hcall'' => ?_⟩
      exact halone' c'' call'' (hrest c'' call'' hcall'').1
  · obtain ⟨hl, hne⟩ := (hout ..).mp hl
    obtain hs | ⟨c', call', hcall', rfl, rfl⟩ := h.owner turn l hl
    · by_cases hturn : turn = call.turn
      · subst hturn
        obtain ⟨hs', -⟩ | ⟨hs', -, -⟩ := h.shape c call hcall
        · exact absurd (Option.some.inj (hs.symm.trans hs')) hne
        · cases hs.symm.trans hs'
      · exact .inl ((hsuspended ..).mpr ⟨hturn, hs⟩)
    · have hc' : c' ≠ c := by
        rintro rfl
        cases hcall.symm.trans hcall'
        exact hne rfl
      exact .inr ⟨c', call', calls_settled.mpr ⟨hc', hcall'⟩, rfl, rfl⟩
  · by_cases hturn' : turn = call.turn
    · subst hturn'
      simp only [Function.update_self, Option.isSome_none]
    · simp only [Function.update_of_ne hturn']
      refine h.left turn fun c' call' hcall' hne => ?_
      refine hturn c' call' (calls_settled.mpr ⟨?_, hcall'⟩) hne
      rintro rfl
      cases hcall.symm.trans hcall'
      exact hturn' hne.symm

theorem settle {settlement : Settlement} (h : Holding p) (hcall : p.calls c = some call)
    (hguard : sharing p (.settle c settlement)) (hs : p.settle c call settlement = some p') :
    Holding p' := by
  have hshape := h.shape c call hcall
  cases settlement with
  | result status =>
    by_cases hstatus : status = .suspended
    · subst hstatus
      have hprevious : (p.suspended call.turn).filter (· ≠ call.lease) = none := by
        obtain ⟨hs, -⟩ | ⟨hs, -⟩ := hshape <;> simp [hs]
      simp only [PinnedAgentLoop.settle, PinnedAgentLoop.settleLease, hprevious, Option.elim_none,
        Option.map_some, Option.some.injEq] at hs
      subst hs
      exact h.settleHeld hcall fun _ => rfl
    · have halone : p.alone c call.turn := by
        have hguard := hguard call hcall
        cases status with
        | suspended => exact absurd rfl hstatus
        | _ => exact hguard
      have hreleased : ({ p with calls := Function.update p.calls c none,
                                 left := Function.update p.left call.turn false,
                                 suspended := Function.update p.suspended call.turn none } :
          PinnedAgentLoop).releaseLease call.lease = some p' := by
        cases status with
        | suspended => exact absurd rfl hstatus
        | _ => exact hs
      obtain ⟨k, hk, rfl⟩ := Option.map_eq_some_iff.mp hreleased
      have hr : p.releaseLease call.lease = some { p with kernel := k } :=
        Option.map_eq_some_iff.mpr ⟨k, hk, rfl⟩
      exact h.settleReleased hcall ((PinnedAgentLoop.alone_iff h.fresh).mp halone) hr
  | thrown suspended =>
    have hleft : p.alone c call.turn → suspended = (p.suspended call.turn).isSome :=
      hguard call hcall
    simp only [PinnedAgentLoop.settle] at hs
    obtain ⟨hheld, hkind⟩ | ⟨hfree, hkind, halone⟩ := hshape
    · -- the lease stays held
      rw [if_neg (by
        obtain hkind | hkind := hkind <;> simp [PinnedAgentLoop.releasesOnThrow, hkind, hheld])] at hs
      cases hs
      have hstays : (∀ c' call', p.calls c' = some call' → call'.turn = call.turn → c' = c) →
          suspended = true := fun halone => by
        rw [hleft ((PinnedAgentLoop.alone_iff h.fresh).mpr halone), hheld]
        rfl
      have hsettled := h.settleHeld hcall hstays
      rwa [Function.update_eq_self_iff.mpr hheld.symm] at hsettled
    · rw [if_pos (by
        cases hk : call.kind with
        | runTurn => simp [PinnedAgentLoop.releasesOnThrow, hk]
        | recoverTurn => simp [PinnedAgentLoop.releasesOnThrow, hk, hfree]
        | resumeTurn held => cases held <;> simp_all [PinnedAgentLoop.releasesOnThrow])] at hs
      have hsuspended : suspended = false := by
        rw [hleft ((PinnedAgentLoop.alone_iff h.fresh).mpr halone), hfree]
        rfl
      subst hsuspended
      obtain ⟨k, hk, rfl⟩ := Option.map_eq_some_iff.mp hs
      have hr : p.releaseLease call.lease = some { p with kernel := k } :=
        Option.map_eq_some_iff.mpr ⟨k, hk, rfl⟩
      have hsettled := h.settleReleased hcall halone hr
      rwa [Function.update_eq_self_iff.mpr hfree.symm] at hsettled

theorem no_call (h : Holding p) (hturn : p.suspended turn = none → p.running turn = false)
    (hfree : p.suspended turn = none) (c : ℕ) (call : Call) (hcall : p.calls c = some call) :
    call.turn ≠ turn :=
  PinnedAgentLoop.running_eq_false (hturn hfree) h.fresh hcall

theorem startOn {kind : CallKind} {p₁ : PinnedAgentLoop} (h : Holding p) (hlt : turn < p.nextTurn)
    (hguard : p.suspended turn = none → p.running turn = false)
    (hb : p.heldOrBegin turn = some (p₁, l))
    (hkind : kind = .recoverTurn ∨ kind = .resumeTurn (p.suspended turn).isSome) :
    Holding (p₁.startCall kind turn l) := by
  unfold PinnedAgentLoop.heldOrBegin at hb
  split at hb
  · next hheld =>
    cases hb
    exact h.startHeld hheld (by simpa [hheld] using hkind)
  · next hfree =>
    have hne : kind ≠ .resumeTurn true := by
      obtain rfl | rfl := hkind <;> simp [hfree]
    have hstarted := h.startFresh hb (Nat.le_refl _) hlt hfree (h.no_call hguard hfree) hne
    obtain ⟨k, turnOf, rfl, -⟩ := PinnedAgentLoop.beginTurn_cases h hb
    exact hstarted

theorem step {input : LoopInput} (h : Holding p) (hguard : sharing p input)
    (hs : loopStep o p input = some p') : Holding p' := by
  cases input with
  | runTurn =>
    obtain ⟨⟨p₁, l⟩, hb, rfl⟩ := Option.map_eq_some_iff.mp hs
    have hfree : p.suspended p.nextTurn = none := by
      by_contra hne
      obtain ⟨l', hl'⟩ := Option.ne_none_iff_exists'.mp hne
      exact Nat.lt_irrefl _ (h.taken l' _ (h.kept _ l' hl').1).2
    have hcalls : ∀ c call, p.calls c = some call → call.turn ≠ p.nextTurn := by
      rintro c call hcall heq
      exact Nat.lt_irrefl _ (heq ▸ h.known c call hcall)
    have hstarted := h.startFresh hb (Nat.le_succ _) (Nat.lt_succ_self _) hfree hcalls
      (show CallKind.runTurn ≠ .resumeTurn true by simp)
    obtain ⟨k, turnOf, rfl, -⟩ := PinnedAgentLoop.beginTurn_cases h hb
    exact hstarted
  | recoverTurn turn =>
    simp only [loopStep] at hs
    split at hs
    · next hlt =>
      obtain ⟨⟨p₁, l⟩, hb, rfl⟩ := Option.map_eq_some_iff.mp hs
      exact h.startOn hlt hguard hb (.inl rfl)
    · cases hs
  | resumeTurn turn =>
    simp only [loopStep] at hs
    split at hs
    · next hlt =>
      obtain ⟨⟨p₁, l⟩, hb, rfl⟩ := Option.map_eq_some_iff.mp hs
      exact h.startOn hlt hguard hb (.inr rfl)
    · cases hs
  | settle c settlement =>
    obtain ⟨call, hcall, hs⟩ := Option.bind_eq_some_iff.mp hs
    exact h.settle hcall hguard hs
  | kernel input =>
    cases input with
    | release l =>
      simp only [loopStep] at hs
      split at hs
      · next hl =>
        obtain ⟨k, hk, rfl⟩ := Option.map_eq_some_iff.mp hs
        refine h.kernelStep hk fun l' heq => ?_
        cases heq
        exact Option.isNone_iff_eq_none.mp hl
      · cases hs
    | reconcile | advance | dispose | beginTurn =>
      simp only [loopStep] at hs
      obtain ⟨k, hk, rfl⟩ := Option.map_eq_some_iff.mp hs
      exact h.kernelStep hk fun l' heq => nomatch heq

theorem initial (log : List StructureEvent) (nextTurn : ℕ) :
    Holding (.initial log nextTurn) where
  accounted := .initial log
  fresh _ _ := rfl
  known _ _ h := nomatch h
  taken _ _ h := nomatch h
  out _ _ h := nomatch h
  kept _ _ h := nomatch h
  shape _ _ h := nomatch h
  owner _ _ h := nomatch h.1
  left _ _ := rfl

theorem reaches {log : List StructureEvent} {nextTurn : ℕ}
    (hr : (pinnedAgentLoop o).Reaches sharing (.initial log nextTurn) p) : Holding p :=
  hr.invariant (.initial log nextTurn) fun _ _ _ h hg hs => h.step hg hs

theorem exists_unique_out (h : Holding p) (hturn : p.running turn ∨ p.left turn) :
    ∃! l, p.Out turn l := by
  cases hrunning : p.running turn with
  | true =>
    obtain ⟨c, call, hcall, rfl⟩ := PinnedAgentLoop.exists_call hrunning
    refine ⟨call.lease, h.out c call hcall, fun l hl => ?_⟩
    obtain hs | ⟨c', call', hcall', hturn', rfl⟩ := h.owner _ l hl
    · obtain ⟨hs', -⟩ | ⟨hs', -⟩ := h.shape c call hcall
      · exact Option.some.inj (hs.symm.trans hs')
      · cases hs.symm.trans hs'
    · obtain ⟨hs, -⟩ | ⟨-, -, halone⟩ := h.shape c call hcall
      · obtain ⟨hs', -⟩ | ⟨hs', -⟩ := h.shape c' call' hcall'
        · rw [hturn'] at hs'
          exact Option.some.inj (hs'.symm.trans hs)
        · rw [hturn'] at hs'
          cases hs.symm.trans hs'
      · obtain rfl := halone c' call' hcall' hturn'
        cases hcall.symm.trans hcall'
        rfl
  | false =>
    have hcalls : ∀ c call, p.calls c = some call → call.turn ≠ turn := fun c call =>
      PinnedAgentLoop.running_eq_false hrunning h.fresh
    have hleft : p.left turn = true := by simpa [hrunning] using hturn
    rw [h.left turn hcalls] at hleft
    obtain ⟨l, hl⟩ := Option.isSome_iff_exists.mp hleft
    refine ⟨l, h.kept turn l hl, fun l' hl' => ?_⟩
    obtain hs | ⟨c, call, hcall, hturn, -⟩ := h.owner turn l' hl'
    · exact Option.some.inj (hs.symm.trans hl)
    · exact absurd hturn (hcalls c call hcall)

theorem not_out (h : Holding p) (hrunning : p.running turn = false) (hleft : p.left turn = false)
    (l : ℕ) : ¬ p.Out turn l := by
  intro hl
  have hcalls : ∀ c call, p.calls c = some call → call.turn ≠ turn := fun c call =>
    PinnedAgentLoop.running_eq_false hrunning h.fresh
  obtain hs | ⟨c, call, hcall, hturn, -⟩ := h.owner turn l hl
  · simp [h.left turn hcalls, hs] at hleft
  · exact hcalls c call hcall hturn

end Holding

/-- The count of a generation is the number of the leases out on it, and its disposal goes with
that count. -/
theorem Accounted.counts {k : Kernel} {g : ℕ} {gen : Generation} (h : Accounted k)
    (hgen : k.generations g = some gen) :
    gen.references = k.leases.count ⟨g, false⟩ ∧
      (gen.state = .draining → (gen.disposal.started ↔ gen.references = 0)) ∧
      (gen.state = .disposed → gen.references = 0) := by
  have hcoherent := h.coherent g gen hgen
  refine ⟨h.counted g gen hgen, fun hstate => ?_, fun hstate => ?_⟩
  · simpa only [Generation.Coherent, hstate] using hcoherent
  · simp only [Generation.Coherent, hstate] at hcoherent
    exact hcoherent.1

/-- The lease accounts of the loop, over every run in which calls of one turn only overlap on a
lease that stays held. -/
theorem leases_accounted {o : KernelOptions} {log : List StructureEvent} {nextTurn : ℕ}
    {p : PinnedAgentLoop} (hr : (pinnedAgentLoop o).Reaches sharing (.initial log nextTurn) p) :
    (∀ g gen, p.kernel.generations g = some gen →
      gen.references = p.kernel.leases.count ⟨g, false⟩ ∧
        (gen.state = .draining → (gen.disposal.started ↔ gen.references = 0)) ∧
        (gen.state = .disposed → gen.references = 0)) ∧
      (∀ turn, p.running turn ∨ p.left turn → ∃! l, p.Out turn l) ∧
      (∀ turn, p.running turn = false → p.left turn = false → ∀ l, ¬ p.Out turn l) ∧
      ∀ c call, p.calls c = some call → p.Out call.turn call.lease ∧
        ∃ g gen, p.kernel.leases[call.lease]? = some ⟨g, false⟩ ∧
          p.kernel.generations g = some gen ∧ gen.disposal.started = false := by
  have h := Holding.reaches hr
  refine ⟨fun g gen hgen => h.accounted.counts hgen, fun turn => h.exists_unique_out,
    fun turn => h.not_out, fun c call hcall => ?_⟩
  have hout := h.out c call hcall
  obtain ⟨g, hg⟩ := hout.2
  obtain ⟨gen, hgen⟩ := h.accounted.leased _ (List.mem_of_getElem? hg)
  refine ⟨hout, g, gen, hg, hgen, ?_⟩
  by_contra hstarted
  have hzero := ((h.accounted.coherent g gen hgen).started (by simpa using hstarted)).1
  rw [h.accounted.counted g gen hgen] at hzero
  exact absurd (List.mem_of_getElem? hg) (List.count_eq_zero.mp hzero)

section Sample

def loopOptions : KernelOptions := { sha256 := id }

/-- A generation without plugins becomes the active one, and a turn runs on it up to its first
approval. -/
def suspendFirst : List LoopInput :=
  [.kernel (.reconcile ⟨"1", []⟩), .kernel (.advance 0 .ok), .kernel (.advance 0 .ok), .runTurn,
    .settle 0 (.result .suspended)]

def sharingCheck (p : PinnedAgentLoop) : LoopInput → Bool
  | .recoverTurn turn | .resumeTurn turn => (p.suspended turn).isSome || !p.running turn
  | .settle c settlement => (p.calls c).all fun call =>
      match settlement with
      | .result .suspended => true
      | .result _ => p.alone c call.turn
      | .thrown suspended =>
        !p.alone c call.turn || suspended == (p.suspended call.turn).isSome
  | _ => true

theorem sharing_of_check (p : PinnedAgentLoop) (input : LoopInput) (h : sharingCheck p input) :
    sharing p input := by
  cases input with
  | runTurn | kernel => trivial
  | recoverTurn turn | resumeTurn turn =>
    intro hfree
    simpa [sharingCheck, hfree] using h
  | settle c settlement =>
    intro call hcall
    simp only [sharingCheck, hcall, Option.all_some] at h
    cases settlement with
    | result status => cases status <;> trivial
    | thrown suspended =>
      intro halone
      simpa [halone] using h

theorem leases_accounted_sample :
    ∃ p, (pinnedAgentLoop loopOptions).Reaches sharing (.initial [] 0) p ∧ p.left 0 = true ∧
      ∃! l, p.Out 0 l := by
  have hrun : ((pinnedAgentLoop loopOptions).exec (.initial [] 0) suspendFirst).any (fun p =>
      p.left 0 && (pinnedAgentLoop loopOptions).allSteps sharingCheck (.initial [] 0)
        suspendFirst) = true := by decide +kernel
  obtain ⟨p, hp, hrun⟩ := (Option.any_eq_true ..).mp hrun
  obtain ⟨hleft, hguard⟩ := Bool.and_eq_true_iff.mp hrun
  have hreaches := exec_reaches _ (guarded_of_allSteps sharing_of_check _ hguard) hp
  exact ⟨p, hreaches, hleft, (leases_accounted hreaches).2.1 0 (.inr hleft)⟩

/-- Two calls resume one turn, and the first that ends gives the lease of both back. -/
theorem overlapping_resumes :
    ∃ p, (pinnedAgentLoop loopOptions).Reaches anyStep (.initial [] 0) p ∧ p.running 0 = true ∧
      ∀ l, ¬ p.Out 0 l := by
  obtain ⟨p, hp, hrun⟩ := exists_reaches_of_exec_map
    (M := pinnedAgentLoop loopOptions) (s := .initial [] 0)
    (f := fun p => (p.running 0, p.kernel.leases)) (a := (true, [⟨0, true⟩]))
    (suspendFirst ++ [.resumeTurn 0, .resumeTurn 0, .settle 1 (.result .completed)])
    (by decide +kernel)
  obtain ⟨hrunning, hleases⟩ := Prod.mk.injEq .. ▸ hrun
  refine ⟨p, hp, hrunning, fun l hl => ?_⟩
  obtain ⟨-, g, hg⟩ := hl
  have hmem := List.mem_of_getElem? hg
  rw [hleases] at hmem
  simp at hmem

end Sample

end BeeAgent.Structure
