import BeeAgent.Execution.World
import Mathlib.Data.Finset.Basic
import Mathlib.Order.Lattice

/-! Authorization as a meet: rules in layers, the decision of their intersection, and the wrapper by
which a grant the user keeps turns an ask into an allow. -/
namespace BeeAgent.Execution

namespace Decision

def rank : Decision → ℕ
  | deny => 0
  | ask => 1
  | allow => 2

/-- A decision is below one that is less restrictive. -/
instance : LinearOrder Decision :=
  LinearOrder.lift' rank fun a b h => by cases a <;> cases b <;> first | rfl | cases h

theorem deny_le (d : Decision) : deny ≤ d := Nat.zero_le _

theorem le_allow (d : Decision) : d ≤ allow := by cases d <;> decide

def meet (ds : List Decision) : Decision := ds.foldr min allow

variable {a : Decision} {ds es : List Decision}

theorem le_meet : a ≤ meet ds ↔ ∀ d ∈ ds, a ≤ d := by
  induction ds with
  | nil => simp [meet, le_allow]
  | cons d ds ih =>
    rw [meet, List.foldr_cons, le_min_iff, List.forall_mem_cons]
    exact and_congr_right fun _ => ih

theorem meet_le {d : Decision} (h : d ∈ ds) : meet ds ≤ d := le_meet.mp le_rfl d h

theorem meet_anti (h : ∀ d ∈ ds, d ∈ es) : meet es ≤ meet ds :=
  le_meet.mpr fun d hd => meet_le (h d hd)

theorem meet_eq (hmem : a ∈ ds) (hle : ∀ d ∈ ds, a ≤ d) : meet ds = a :=
  le_antisymm (meet_le hmem) (le_meet.mpr hle)

theorem eq_ask {d : Decision} (hdeny : d ≠ deny) (hallow : d ≠ allow) : d = ask := by
  cases d <;> first | rfl | contradiction

theorem eq_allow {d : Decision} (hdeny : d ≠ deny) (hask : d ≠ ask) : d = allow := by
  cases d <;> first | rfl | contradiction

end Decision

structure CapabilityRule where
  capability : String
  decision : Decision
  reason : String
  deriving DecidableEq

structure PermissionLayer where
  id : String
  rules : List CapabilityRule
  deriving DecidableEq

/-- An authorization policy that can tell how it comes to a decision. -/
structure SnapshotAuthorizationPolicy where
  authorize : ActionRequest → AuthorizationDecision
  snapshot : ActionRequest → PermissionSnapshot

def PermissionLayer.matches (layer : PermissionLayer) (capability : String) : List CapabilityRule :=
  layer.rules.filter fun rule => rule.capability = capability || rule.capability = "*"

/-- The rule that a layer goes by. -/
def PermissionLayer.rule? (layer : PermissionLayer) (capability : String) : Option CapabilityRule :=
  let found := layer.matches capability
  found.find? (·.decision = .deny) <|> found.find? (·.decision = .ask) <|> found.head?

def PermissionLayer.decide (layer : PermissionLayer) (capability : String) :
    PermissionLayerDecision :=
  match layer.rule? capability with
  | some rule => ⟨layer.id, rule.decision, rule.reason⟩
  | none =>
    ⟨layer.id, .deny, "Layer '" ++ layer.id ++ "' does not grant '" ++ capability ++ "'"⟩

/-- Some layers, each with an id of its own. -/
structure IntersectionAuthorizationPolicy where
  layers : List PermissionLayer
  nonempty : layers ≠ []
  distinct : (layers.map PermissionLayer.id).Nodup

namespace IntersectionAuthorizationPolicy

/-- The first id that a layer before it has. -/
def duplicate? : List String → List PermissionLayer → Option String
  | _, [] => none
  | ids, layer :: layers =>
    if layer.id ∈ ids then some layer.id else duplicate? (ids ++ [layer.id]) layers

theorem nodup_of_duplicate? {ids : List String} {layers : List PermissionLayer} (hids : ids.Nodup)
    (h : duplicate? ids layers = none) : (ids ++ layers.map PermissionLayer.id).Nodup := by
  induction layers generalizing ids with
  | nil => simpa using hids
  | cons layer layers ih =>
    unfold duplicate? at h
    split at h
    · cases h
    · next hnew =>
      have hgrown : (ids ++ [layer.id]).Nodup :=
        hids.append (List.nodup_singleton _) (List.disjoint_singleton.mpr hnew)
      simpa using ih hgrown h

/-- The constructor. -/
def new (layers : List PermissionLayer) : Except String IntersectionAuthorizationPolicy :=
  if hnonempty : layers = [] then .error "At least one permission layer is required"
  else
    match h : duplicate? [] layers with
    | some id => .error ("Duplicate permission layer '" ++ id ++ "'")
    | none => .ok ⟨layers, hnonempty, by simpa using nodup_of_duplicate? List.nodup_nil h⟩

def snapshot (policy : IntersectionAuthorizationPolicy) (request : ActionRequest) :
    PermissionSnapshot :=
  let layers := policy.layers.map (·.decide request.capability)
  match layers.find? (·.decision = .deny) with
  | some denied =>
    { capability := request.capability, decision := .deny, reason := denied.reason, layers }
  | none =>
    match layers.find? (·.decision = .ask) with
    | some asked =>
      { capability := request.capability, decision := .ask, reason := asked.reason, layers }
    | none =>
      { capability := request.capability
        decision := .allow
        reason := "All " ++ toString layers.length ++ " permission layers grant '" ++
          request.capability ++ "'"
        layers }

def authorize (policy : IntersectionAuthorizationPolicy) (request : ActionRequest) :
    AuthorizationDecision :=
  ⟨(policy.snapshot request).decision, (policy.snapshot request).reason⟩

def toPolicy (policy : IntersectionAuthorizationPolicy) : SnapshotAuthorizationPolicy :=
  ⟨policy.authorize, policy.snapshot⟩

end IntersectionAuthorizationPolicy

def Decision.text : Decision → String
  | .allow => "allow"
  | .ask => "ask"
  | .deny => "deny"

/-- `PersistedGrantPolicy` -/
def persistedGrantPolicy (inner : SnapshotAuthorizationPolicy) (grants : Finset String) :
    SnapshotAuthorizationPolicy where
  authorize := fun request =>
    if request.capability ∉ grants then inner.authorize request
    else
      let decided := inner.authorize request
      if decided.decision = .deny then decided
      else ⟨.allow, "用户已持久授权 '" ++ request.capability ++ "'（内层决定 " ++
        decided.decision.text ++ "）"⟩
  snapshot := fun request =>
    let taken := inner.snapshot request
    if request.capability ∉ grants then taken
    else if taken.decision = .deny then taken
    else
      { taken with
        decision := .allow
        reason := "用户已持久授权 '" ++ request.capability ++ "'"
        layers := taken.layers ++
          [⟨"persisted-grant", .allow, "用户记忆授权覆盖了 " ++ taken.decision.text⟩] }

section Meet
variable {layer : PermissionLayer} {capability : String} {request : ActionRequest}
variable {policy : IntersectionAuthorizationPolicy}

/-- A layer decides by the most restrictive rule that matches, and denies where none does. -/
theorem PermissionLayer.decide_eq : (layer.decide capability).decision =
    if layer.matches capability = [] then .deny
    else Decision.meet ((layer.matches capability).map (·.decision)) := by
  have hdecide : (layer.decide capability).decision =
      ((layer.rule? capability).map (·.decision)).getD .deny := by
    unfold PermissionLayer.decide
    cases layer.rule? capability <;> rfl
  rw [hdecide, PermissionLayer.rule?]
  cases hdeny : (layer.matches capability).find? (·.decision = .deny) with
  | some rule =>
    have hmem := List.mem_of_find?_eq_some hdeny
    have hrule : rule.decision = .deny := by simpa using List.find?_some hdeny
    rw [if_neg (List.ne_nil_of_mem hmem),
      Decision.meet_eq (List.mem_map_of_mem hmem) fun d _ => hrule ▸ Decision.deny_le d]
    rfl
  | none =>
    have hnone : ∀ rule ∈ layer.matches capability, rule.decision ≠ .deny := by
      simpa using hdeny
    cases hask : (layer.matches capability).find? (·.decision = .ask) with
    | some rule =>
      have hmem := List.mem_of_find?_eq_some hask
      have hrule : rule.decision = .ask := by simpa using List.find?_some hask
      have hle : ∀ d ∈ (layer.matches capability).map (·.decision), rule.decision ≤ d := by
        intro d hd
        obtain ⟨other, hother, rfl⟩ := List.mem_map.mp hd
        have hnot := hnone other hother
        rw [hrule]
        revert hnot
        cases other.decision <;> decide
      rw [if_neg (List.ne_nil_of_mem hmem), Decision.meet_eq (List.mem_map_of_mem hmem) hle]
      rfl
    | none =>
      have hnoask : ∀ rule ∈ layer.matches capability, rule.decision ≠ .ask := by
        simpa using hask
      have hallow : ∀ rule ∈ layer.matches capability, rule.decision = .allow := fun rule hrule =>
        Decision.eq_allow (hnone rule hrule) (hnoask rule hrule)
      cases hfound : layer.matches capability with
      | nil => rfl
      | cons rule rules =>
        have hfirst : rule.decision = .allow := hallow rule (by simp [hfound])
        have hall : ∀ d ∈ (rule :: rules).map (·.decision), Decision.allow ≤ d := by
          intro d hd
          obtain ⟨other, hother, rfl⟩ := List.mem_map.mp hd
          rw [hallow other (hfound ▸ hother)]
        have hmem : Decision.allow ∈ (rule :: rules).map (·.decision) :=
          hfirst ▸ List.mem_map_of_mem List.mem_cons_self
        rw [if_neg (List.cons_ne_nil _ _), Decision.meet_eq hmem hall]
        exact hfirst

namespace IntersectionAuthorizationPolicy

theorem snapshot_decision : (policy.snapshot request).decision =
    Decision.meet (policy.layers.map fun layer => (layer.decide request.capability).decision) := by
  have hmap : (policy.layers.map fun layer => (layer.decide request.capability).decision) =
      (policy.layers.map (·.decide request.capability)).map (·.decision) := by
    rw [List.map_map]
    rfl
  rw [hmap]
  unfold snapshot
  simp only
  split
  · next denied hdenied =>
    have hdecision : denied.decision = .deny := by simpa using List.find?_some hdenied
    rw [Decision.meet_eq (List.mem_map_of_mem (List.mem_of_find?_eq_some hdenied)) fun d _ =>
      hdecision ▸ Decision.deny_le d, hdecision]
  · next hnodeny =>
    have hnone : ∀ taken ∈ policy.layers.map (·.decide request.capability), taken.decision ≠ .deny := by
      intro taken htaken
      simpa using List.find?_eq_none.mp hnodeny taken htaken
    split
    · next asked hasked =>
      have hdecision : asked.decision = .ask := by simpa using List.find?_some hasked
      have hle : ∀ d ∈ (policy.layers.map (·.decide request.capability)).map (·.decision),
          asked.decision ≤ d := by
        intro d hd
        obtain ⟨taken, htaken, rfl⟩ := List.mem_map.mp hd
        have hnot := hnone taken htaken
        rw [hdecision]
        revert hnot
        cases taken.decision <;> decide
      rw [Decision.meet_eq (List.mem_map_of_mem (List.mem_of_find?_eq_some hasked)) hle, hdecision]
    · next hnoask =>
      refine (le_antisymm (Decision.le_allow _) (Decision.le_meet.mpr fun d hd => ?_)).symm
      obtain ⟨taken, htaken, rfl⟩ := List.mem_map.mp hd
      rw [Decision.eq_allow (hnone taken htaken)
        (by simpa using List.find?_eq_none.mp hnoask taken htaken)]

end IntersectionAuthorizationPolicy

theorem PermissionLayer.decide_insert_deny {before after : List CapabilityRule} {rule : CapabilityRule}
    {id : String} (hrule : rule.decision = .deny) :
    ((⟨id, before ++ rule :: after⟩ : PermissionLayer).decide capability).decision ≤
      ((⟨id, before ++ after⟩ : PermissionLayer).decide capability).decision := by
  have hmatches : ∀ other, other ∈ (⟨id, before ++ after⟩ : PermissionLayer).matches capability →
      other ∈ (⟨id, before ++ rule :: after⟩ : PermissionLayer).matches capability := by
    intro other hother
    rw [PermissionLayer.matches, List.mem_filter] at hother ⊢
    refine ⟨?_, hother.2⟩
    rcases List.mem_append.mp hother.1 with hbefore | hafter
    · exact List.mem_append_left _ hbefore
    · exact List.mem_append_right _ (List.mem_cons_of_mem _ hafter)
  rw [PermissionLayer.decide_eq, PermissionLayer.decide_eq]
  split
  · exact Decision.deny_le _
  · next hsome =>
    split
    · next hnone =>
      -- without the rule no rule matched, so that it is the only one
      have honly : ∀ other ∈ (⟨id, before ++ rule :: after⟩ : PermissionLayer).matches capability,
          other = rule := by
        intro other hother
        rw [PermissionLayer.matches, List.mem_filter] at hother
        by_contra hne
        have : other ∈ (⟨id, before ++ after⟩ : PermissionLayer).matches capability := by
          rw [PermissionLayer.matches, List.mem_filter]
          refine ⟨?_, hother.2⟩
          rcases List.mem_append.mp hother.1 with hbefore | hafter
          · exact List.mem_append_left _ hbefore
          · rcases List.mem_cons.mp hafter with rfl | hafter
            · exact absurd rfl hne
            · exact List.mem_append_right _ hafter
        rw [hnone] at this
        cases this
      obtain ⟨other, hother⟩ := List.exists_mem_of_ne_nil _ hsome
      refine (Decision.meet_le (List.mem_map_of_mem hother)).trans ?_
      rw [honly other hother, hrule]
    · refine Decision.meet_anti fun d hd => ?_
      obtain ⟨other, hother, rfl⟩ := List.mem_map.mp hd
      exact List.mem_map_of_mem (hmatches other hother)

end Meet

end BeeAgent.Execution
