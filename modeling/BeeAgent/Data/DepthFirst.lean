import BeeAgent.Data.Folds
import Mathlib.Data.List.Infix
import Mathlib.Data.List.Perm.Subperm
import Mathlib.Data.List.Chain
import Mathlib.Logic.Relation

/-! Depth-first traversals that put each node behind all the nodes it leads to. -/
namespace BeeAgent.Data

/-- A graph whose nodes are told apart by a key. The children of a node are resolved while it is
visited, and only those that are not among the keys done by then need be. -/
structure Traversal (ε α β κ : Type) where
  key : α → κ
  children : α → List β
  target : β → κ
  resolve : List κ → β → Except ε (Option α)
  cyclic : List α → α → ε
  exhausted : List α → α → ε
  skipped : ∀ {keys : List κ} {child : β}, resolve keys child = .ok none → target child ∈ keys
  resolved : ∀ {keys : List κ} {child : β} {node : α}, resolve keys child = .ok (some node) →
    key node = target child

namespace Traversal

section Order
variable {ε α β κ : Type} (t : Traversal ε α β κ)

def keys (nodes : List α) : List κ := nodes.map t.key

def Leads (node next : α) : Prop :=
  ∃ child ∈ t.children node, ∃ keys, t.resolve keys child = .ok (some next)

def Edge (nodes : List α) (k k' : κ) : Prop :=
  ∃ node ∈ nodes, t.key node = k ∧ ∃ child ∈ t.children node, t.target child = k'

/-- No key comes twice, and each node comes behind all the nodes it leads to. -/
structure Ordered (done : List α) : Prop where
  nodup : (t.keys done).Nodup
  behind : ∀ before node after, done = before ++ node :: after →
    ∀ child ∈ t.children node, t.target child ∈ t.keys before

/-- The path of a visit that began at `first` and is now at `last`. -/
inductive Walk (first : α) : List α → α → Prop
  | start : Walk first [] first
  | snoc {path : List α} {last next : α} (walk : Walk first path last)
    (hnew : t.key last ∉ t.keys path) (hleads : t.Leads last next) :
    Walk first (path ++ [last]) next

variable {t} {done done' path : List α} {node first last : α}

@[simp] theorem keys_nil : t.keys [] = [] := rfl

@[simp] theorem keys_append (nodes nodes' : List α) :
    t.keys (nodes ++ nodes') = t.keys nodes ++ t.keys nodes' := List.map_append

@[simp] theorem keys_cons (nodes : List α) : t.keys (node :: nodes) = t.key node :: t.keys nodes :=
  rfl

theorem key_mem_keys (h : node ∈ done) : t.key node ∈ t.keys done := List.mem_map_of_mem h

theorem keys_grown (h : done <+: done') : t.keys done <+: t.keys done' := h.map t.key

namespace Walk

theorem nodup (h : t.Walk first path last) : (t.keys path).Nodup := by
  induction h with
  | start => exact List.nodup_nil
  | snoc _ hnew _ ih =>
    rw [keys_append]
    exact List.nodup_append.mpr ⟨ih, by simp, by
      rintro k hk k' hk' rfl
      exact hnew (List.mem_singleton.mp hk' ▸ hk)⟩

theorem reaches (h : t.Walk first path last) :
    ∀ n ∈ path ++ [last], Relation.ReflTransGen t.Leads first n := by
  induction h with
  | start => simpa using Relation.ReflTransGen.refl
  | snoc _ _ hleads ih =>
    intro n hn
    obtain hmem | rfl := List.mem_append.mp hn |>.imp_right List.mem_singleton.mp
    · exact ih n hmem
    · exact (ih _ (by simp)).tail hleads

theorem leads (h : t.Walk first path last) :
    ∀ n ∈ path, Relation.TransGen t.Leads n last := by
  induction h with
  | start => simp
  | snoc _ _ hleads ih =>
    intro n hn
    obtain hmem | rfl := List.mem_append.mp hn |>.imp_right List.mem_singleton.mp
    · exact (ih n hmem).tail hleads
    · exact .single hleads

theorem length_le (h : t.Walk first path last) {all : List κ}
    (hall : ∀ n, Relation.ReflTransGen t.Leads first n → t.key n ∈ all) :
    path.length ≤ all.length := by
  have hsub : t.keys path ⊆ all := fun k hk => by
    obtain ⟨n, hn, rfl⟩ := List.mem_map.mp hk
    exact hall n (h.reaches n (List.mem_append_left _ hn))
  simpa [keys] using (h.nodup.subperm hsub).length_le

end Walk

namespace Ordered

theorem nil : t.Ordered [] where
  nodup := List.nodup_nil
  behind before node after h := by simp at h

theorem snoc (h : t.Ordered done) (hnew : t.key node ∉ t.keys done)
    (hchildren : ∀ child ∈ t.children node, t.target child ∈ t.keys done) :
    t.Ordered (done ++ [node]) where
  nodup := by
    rw [keys_append]
    exact List.nodup_append.mpr ⟨h.nodup, by simp, by
      rintro k hk k' hk' rfl
      exact hnew (List.mem_singleton.mp hk' ▸ hk)⟩
  behind before node' after heq := by
    obtain rfl | ⟨after', last, rfl⟩ := after.eq_nil_or_concat
    · obtain ⟨rfl, hnode⟩ := List.append_inj' heq rfl
      rw [← List.singleton_inj.mp hnode]
      exact hchildren
    · have hlast : done ++ [node] = (before ++ node' :: after') ++ [last] := heq.trans (by simp)
      have hdone : done = before ++ node' :: after' := (List.append_inj' hlast rfl).1
      exact h.behind before node' after' hdone

variable [DecidableEq κ]

theorem idxOf_lt (h : t.Ordered done) {k k' : κ} (hedge : t.Edge done k k') :
    k' ∈ t.keys done ∧ (t.keys done).idxOf k' < (t.keys done).idxOf k := by
  obtain ⟨node, hnode, rfl, child, hchild, rfl⟩ := hedge
  obtain ⟨before, after, rfl⟩ := List.append_of_mem hnode
  have hbefore : t.target child ∈ t.keys before := h.behind _ _ _ rfl child hchild
  have hnot : t.key node ∉ t.keys before := fun hmem => by
    have hnodup := h.nodup
    rw [keys_append, List.nodup_append] at hnodup
    exact hnodup.2.2 _ hmem _ (by simp) rfl
  refine ⟨by simp [hbefore], ?_⟩
  rw [keys_append, List.idxOf_append_of_mem hbefore, List.idxOf_append_of_notMem hnot]
  have := List.idxOf_lt_length_of_mem hbefore
  omega

theorem acyclic (h : t.Ordered done) (k : κ) : ¬ Relation.TransGen (t.Edge done) k k := by
  intro hcycle
  have hless : ∀ {k k' : κ}, Relation.TransGen (t.Edge done) k k' →
      (t.keys done).idxOf k' < (t.keys done).idxOf k := by
    intro k k' hreaches
    induction hreaches with
    | single hedge => exact (h.idxOf_lt hedge).2
    | tail _ hedge ih => exact (h.idxOf_lt hedge).2.trans ih
  exact absurd (hless hcycle) (lt_irrefl _)

end Ordered

end Order

section Progress
variable {ε α β κ : Type} (t : Traversal ε α β κ)

/-- A child is visited where it must be. -/
def enter (visit : List α → α → Except ε (List α)) (done : List α) (child : β) :
    Except ε (List α) := do
  match ← t.resolve (t.keys done) child with
  | none => pure done
  | some next => visit done next

variable {t} {done done' path : List α} {node : α} {e : ε}

/-- What a visit, or the visits of all the children, leaves behind. -/
structure Progress (t : Traversal ε α β κ) (path : List α) (start : α → Prop)
    (done done' : List α) : Prop where
  ordered : t.Ordered done'
  grown : done <+: done'
  apart : ∀ node ∈ path, t.key node ∉ t.keys done'
  reached : ∀ node ∈ done', node ∈ done ∨ ∃ first, start first ∧
    Relation.ReflTransGen t.Leads first node

namespace Progress
variable {start : α → Prop}

theorem refl (hordered : t.Ordered done) (hapart : ∀ node ∈ path, t.key node ∉ t.keys done) :
    t.Progress path start done done :=
  ⟨hordered, List.prefix_rfl, hapart, fun _ h => .inl h⟩

theorem trans {done'' : List α} (h : t.Progress path start done done')
    (h' : t.Progress path start done' done'') : t.Progress path start done done'' where
  ordered := h'.ordered
  grown := h.grown.trans h'.grown
  apart := h'.apart
  reached node hnode := (h'.reached node hnode).elim (h.reached node) .inr

end Progress

theorem enter_ok {visit : List α → α → Except ε (List α)} {child : β}
    (h : t.enter visit done child = .ok done') :
    (done' = done ∧ t.target child ∈ t.keys done) ∨
      ∃ next, t.resolve (t.keys done) child = .ok (some next) ∧ visit done next = .ok done' := by
  unfold enter at h
  cases hresolve : t.resolve (t.keys done) child with
  | error e => simp [hresolve, bind, Except.bind] at h
  | ok next? =>
    cases next? with
    | none =>
      obtain rfl : done = done' := by
        simpa [hresolve, bind, Except.bind, pure, Except.pure] using h
      exact .inl ⟨rfl, t.skipped hresolve⟩
    | some next => exact .inr ⟨next, rfl, by simpa [hresolve, bind, Except.bind] using h⟩

theorem enter_congr_ok {visit visit' : List α → α → Except ε (List α)} {child : β}
    (hvisit : ∀ next done', visit done next = .ok done' → visit' done next = .ok done')
    (h : t.enter visit done child = .ok done') : t.enter visit' done child = .ok done' := by
  unfold enter at h ⊢
  cases hresolve : t.resolve (t.keys done) child with
  | error e => simp [hresolve, bind, Except.bind] at h
  | ok next? =>
    cases next? with
    | none => simpa [hresolve, bind, Except.bind] using h
    | some next =>
      have hnext : visit done next = .ok done' := by simpa [hresolve, bind, Except.bind] using h
      simpa [bind, Except.bind] using hvisit next done' hnext

theorem enter_error {visit : List α → α → Except ε (List α)} {child : β}
    (h : t.enter visit done child = .error e) :
    t.resolve (t.keys done) child = .error e ∨
      ∃ next, t.resolve (t.keys done) child = .ok (some next) ∧ visit done next = .error e := by
  unfold enter at h
  cases hresolve : t.resolve (t.keys done) child with
  | error e' => exact .inl (by simpa [hresolve, bind, Except.bind] using h)
  | ok next? =>
    cases next? with
    | none => simp [hresolve, bind, Except.bind, pure, Except.pure] at h
    | some next => exact .inr ⟨next, rfl, by simpa [hresolve, bind, Except.bind] using h⟩

end Progress

section Visit
variable {ε α β κ : Type} [DecidableEq κ] (t : Traversal ε α β κ)

/-- The fuel bounds the length of the path. -/
def visit : ℕ → List α → List α → α → Except ε (List α)
  | 0, _, path, node => .error (t.exhausted path node)
  | fuel + 1, done, path, node =>
    if t.key node ∈ t.keys done then .ok done
    else if t.key node ∈ t.keys path then .error (t.cyclic path node)
    else do
      let done ← (t.children node).foldlM
        (t.enter fun done next => visit fuel done (path ++ [node]) next) done
      return done ++ [node]

def visitAll (fuel : ℕ) (nodes done : List α) : Except ε (List α) :=
  nodes.foldlM (fun done node => t.visit fuel done [] node) done

variable {t} {fuel : ℕ} {done done' path : List α} {node first : α} {e : ε}

/-- A visit that succeeds puts the node and all it leads to behind what was done. -/
theorem visit_ok (hordered : t.Ordered done) (hapart : ∀ node ∈ path, t.key node ∉ t.keys done)
    (h : t.visit fuel done path node = .ok done') :
    t.Progress path (· = node) done done' ∧ t.key node ∈ t.keys done' := by
  induction fuel generalizing done done' path node with
  | zero => cases h
  | succ fuel ih =>
    rw [visit] at h
    split at h
    · next hmem =>
      obtain rfl : done = done' := Except.ok.inj h
      exact ⟨.refl hordered hapart, hmem⟩
    next hnotdone =>
    split at h
    · cases h
    next hnotpath =>
    cases hchildren : (t.children node).foldlM
        (t.enter fun done next => t.visit fuel done (path ++ [node]) next) done with
    | error e => simp [hchildren, bind, Except.bind] at h
    | ok visited =>
      obtain rfl : visited ++ [node] = done' := by
        simpa [hchildren, bind, Except.bind, pure, Except.pure] using h
      have hapart' : ∀ n ∈ path ++ [node], t.key n ∉ t.keys done := by
        simpa [or_imp, forall_and] using ⟨hapart, hnotdone⟩
      have hvisited : t.Progress (path ++ [node]) (t.Leads node) done visited ∧
          ∀ child ∈ t.children node, t.target child ∈ t.keys visited := by
        refine foldlM_ok (fun children visited => t.Progress (path ++ [node]) (t.Leads node) done
          visited ∧ ∀ child ∈ children, t.target child ∈ t.keys visited) ?_
          ⟨.refl hordered hapart', by simp⟩ hchildren
        intro children visited child visited' hchild ⟨hprogress, hcovered⟩ henter
        have hfurther : t.Progress (path ++ [node]) (t.Leads node) visited visited' ∧
            t.target child ∈ t.keys visited' := by
          obtain ⟨rfl, hmem⟩ | ⟨next, hresolve, hnext⟩ := enter_ok henter
          · exact ⟨.refl hprogress.ordered hprogress.apart, hmem⟩
          obtain ⟨hprogress', hmem⟩ := ih hprogress.ordered hprogress.apart hnext
          refine ⟨⟨hprogress'.ordered, hprogress'.grown, hprogress'.apart, fun n hn => ?_⟩,
            t.resolved hresolve ▸ hmem⟩
          obtain hold | ⟨first, rfl, hreaches⟩ := hprogress'.reached n hn
          · exact .inl hold
          · exact .inr ⟨first, ⟨child, hchild, _, hresolve⟩, hreaches⟩
        refine ⟨hprogress.trans hfurther.1, fun child' hchild' => ?_⟩
        obtain hold | rfl := List.mem_append.mp hchild' |>.imp_right List.mem_singleton.mp
        · exact (keys_grown hfurther.1.grown).subset (hcovered child' hold)
        · exact hfurther.2
      obtain ⟨hprogress, hcovered⟩ := hvisited
      have hnew : t.key node ∉ t.keys visited := hprogress.apart node (by simp)
      refine ⟨⟨hprogress.ordered.snoc hnew hcovered,
        hprogress.grown.trans (List.prefix_append _ _), fun n hn => ?_, fun n hn => ?_⟩, by simp⟩
      · have hne : t.key n ≠ t.key node := fun heq => hnotpath (heq ▸ key_mem_keys hn)
        simpa [hne] using hprogress.apart n (List.mem_append_left _ hn)
      · obtain hmem | rfl := List.mem_append.mp hn |>.imp_right List.mem_singleton.mp
        · obtain hold | ⟨first, hleads, hreaches⟩ := hprogress.reached n hmem
          · exact .inl hold
          · exact .inr ⟨node, rfl, .head hleads hreaches⟩
        · exact .inr ⟨n, rfl, .refl⟩

theorem visit_first (h : t.visit fuel [] [] node = .ok done) :
    ∃ before, done = before ++ [node] := by
  cases fuel with
  | zero => cases h
  | succ fuel =>
    rw [visit, if_neg (by simp), if_neg (by simp)] at h
    simp only [List.nil_append] at h
    cases hchildren : (t.children node).foldlM
        (t.enter fun done next => t.visit fuel done [node] next) [] with
    | error e => simp [hchildren, bind, Except.bind] at h
    | ok visited =>
      exact ⟨visited, by simpa [hchildren, bind, Except.bind, pure, Except.pure] using h.symm⟩

theorem visit_mono {fuel' : ℕ} (hle : fuel ≤ fuel') (h : t.visit fuel done path node = .ok done') :
    t.visit fuel' done path node = .ok done' := by
  induction fuel generalizing fuel' done done' path node with
  | zero => cases h
  | succ fuel ih =>
    obtain ⟨more, rfl⟩ : ∃ more, fuel' = more + 1 := ⟨fuel' - 1, by omega⟩
    rw [visit] at h ⊢
    split at h
    · next hdone => rwa [if_pos hdone]
    next hnotdone =>
    split at h
    · cases h
    next hnotpath =>
    rw [if_neg hnotdone, if_neg hnotpath]
    cases hchildren : (t.children node).foldlM
        (t.enter fun done next => t.visit fuel done (path ++ [node]) next) done with
    | error e => simp [hchildren, bind, Except.bind] at h
    | ok visited =>
      have hmore : (t.children node).foldlM
          (t.enter fun done next => t.visit more done (path ++ [node]) next) done = .ok visited :=
        foldlM_congr_ok (fun _ _ _ _ => enter_congr_ok fun _ _ => ih (by omega)) hchildren
      simpa [hchildren, hmore, bind, Except.bind] using h

/-- Why a visit at the end of a walk throws. -/
inductive Throws (t : Traversal ε α β κ) (bound : ℕ) (path : List α) (last : α) : ε → Prop
  | unresolved {child : β} {keys : List κ} {e : ε} (hchild : child ∈ t.children last)
    (hresolve : t.resolve keys child = .error e) : Throws t bound path last e
  | cyclic (hagain : t.key last ∈ t.keys path) : Throws t bound path last (t.cyclic path last)
  | exhausted (hlong : path.length = bound) : Throws t bound path last (t.exhausted path last)

/-- A visit that throws does so where a walk from its start comes back to a node, or comes to one
that has a child that cannot be resolved. -/
theorem visit_error (hwalk : t.Walk first path node) (h : t.visit fuel done path node = .error e) :
    ∃ path' last, t.Walk first path' last ∧ t.Throws (path.length + fuel) path' last e := by
  induction fuel generalizing done path node with
  | zero =>
    obtain rfl : t.exhausted path node = e := Except.error.inj h
    exact ⟨path, node, hwalk, .exhausted rfl⟩
  | succ fuel ih =>
    rw [visit] at h
    split at h
    · cases h
    split at h
    · rename_i hagain
      obtain rfl : t.cyclic path node = e := Except.error.inj h
      exact ⟨path, node, hwalk, .cyclic hagain⟩
    next hnew =>
    cases hchildren : (t.children node).foldlM
        (t.enter fun done next => t.visit fuel done (path ++ [node]) next) done with
    | ok visited => simp [hchildren, bind, Except.bind, pure, Except.pure] at h
    | error e' =>
      obtain rfl : e' = e := by simpa [hchildren, bind, Except.bind] using h
      obtain ⟨_, child, _, visited, heq, -, henter⟩ :=
        foldlM_error (fun _ _ => True) (fun _ _ _ _ _ _ _ => trivial) trivial hchildren
      have hchild : child ∈ t.children node := by simp [heq]
      obtain hresolve | ⟨next, hresolve, hnext⟩ := enter_error henter
      · exact ⟨path, node, hwalk, .unresolved hchild hresolve⟩
      · have := ih (hwalk.snoc hnew ⟨child, hchild, _, hresolve⟩) hnext
        simpa [Nat.add_assoc, Nat.add_comm 1] using this

theorem visitAll_ok {nodes : List α} (h : t.visitAll fuel nodes [] = .ok done) :
    t.Ordered done ∧ (∀ node ∈ nodes, t.key node ∈ t.keys done) ∧
      ∀ n ∈ done, ∃ node ∈ nodes, Relation.ReflTransGen t.Leads node n := by
  have hdone : t.Progress [] (· ∈ nodes) [] done ∧ ∀ node ∈ nodes, t.key node ∈ t.keys done := by
    refine foldlM_ok (fun visited done => t.Progress [] (· ∈ nodes) [] done ∧
      ∀ node ∈ visited, t.key node ∈ t.keys done) ?_ ⟨.refl .nil (by simp), by simp⟩ h
    intro visited done node done' hnode ⟨hprogress, hcovered⟩ hvisit
    obtain ⟨hprogress', hmem⟩ := visit_ok hprogress.ordered (by simp) hvisit
    refine ⟨hprogress.trans
      ⟨hprogress'.ordered, hprogress'.grown, hprogress'.apart, fun n hn => ?_⟩,
      fun node' hnode' => ?_⟩
    · obtain hold | ⟨_, rfl, hreaches⟩ := hprogress'.reached n hn
      · exact .inl hold
      · exact .inr ⟨_, hnode, hreaches⟩
    · obtain hold | rfl := List.mem_append.mp hnode' |>.imp_right List.mem_singleton.mp
      · exact (keys_grown hprogress'.grown).subset (hcovered node' hold)
      · exact hmem
  refine ⟨hdone.1.ordered, hdone.2, fun n hn => ?_⟩
  obtain hold | hreached := hdone.1.reached n hn
  · cases hold
  · exact hreached

theorem visit_done (hmem : t.key node ∈ t.keys done)
    (h : t.visit fuel done path node = .ok done') : done' = done := by
  cases fuel with
  | zero => cases h
  | succ fuel =>
    rw [visit, if_pos hmem] at h
    exact (Except.ok.inj h).symm

theorem visit_ready (hnew : t.key node ∉ t.keys done)
    (hready : ∀ child ∈ t.children node, t.target child ∈ t.keys done)
    (h : t.visit fuel done path node = .ok done') : done' = done ++ [node] := by
  cases fuel with
  | zero => cases h
  | succ fuel =>
    rw [visit, if_neg hnew] at h
    split at h
    · cases h
    cases hchildren : (t.children node).foldlM
        (t.enter fun done next => t.visit fuel done (path ++ [node]) next) done with
    | error e => simp [hchildren, bind, Except.bind] at h
    | ok visited =>
      have hvisited : visited = done := by
        refine foldlM_ok (fun _ visited => visited = done) ?_ rfl hchildren
        rintro _ _ child visited hchild rfl henter
        obtain ⟨heq, -⟩ | ⟨next, hresolve, hnext⟩ := enter_ok henter
        · exact heq
        · exact visit_done (t.resolved hresolve ▸ hready child hchild) hnext
      simpa [hchildren, hvisited, bind, Except.bind, pure, Except.pure] using h.symm

/-- Nodes that are in order already come back in their order. -/
theorem visitAll_ordered {nodes : List α} (hordered : t.Ordered (done ++ nodes))
    (h : t.visitAll fuel nodes done = .ok done') : done' = done ++ nodes := by
  induction nodes generalizing done with
  | nil =>
    rw [List.append_nil]
    exact (Except.ok.inj h).symm
  | cons node nodes ih =>
    cases hvisit : t.visit fuel done [] node with
    | error e => simp [visitAll, hvisit, bind, Except.bind] at h
    | ok visited =>
      have hnew : t.key node ∉ t.keys done := fun hmem => by
        have hnodup := hordered.nodup
        rw [keys_append, List.nodup_append] at hnodup
        exact hnodup.2.2 _ hmem _ (by simp) rfl
      obtain rfl := visit_ready hnew (hordered.behind _ _ _ rfl) hvisit
      rw [List.append_cons] at hordered ⊢
      exact ih hordered (by simpa [visitAll, hvisit, bind, Except.bind] using h)

theorem visitAll_error {nodes : List α} (h : t.visitAll fuel nodes done = .error e) :
    ∃ node ∈ nodes, ∃ path last, t.Walk node path last ∧ t.Throws fuel path last e := by
  obtain ⟨_, node, _, visited, heq, -, hvisit⟩ :=
    foldlM_error (fun _ _ => True) (fun _ _ _ _ _ _ _ => trivial) trivial h
  have hnode : node ∈ nodes := by simp [heq]
  have hthrows := visit_error (Walk.start : t.Walk node [] node) hvisit
  exact ⟨node, hnode, by simpa using hthrows⟩

end Visit

end Traversal

end BeeAgent.Data
