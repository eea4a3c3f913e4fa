import BeeAgent.Data.Greedy
import BeeAgent.Data.Units
import BeeAgent.Memory.Forgetting
import BeeAgent.Memory.Rebuild
import Mathlib.Data.List.Sort

/-! Recall under a token budget: which of the claims that a query finds come into the context. -/
namespace BeeAgent.Memory
open Data Data.Greedy

def renderClaims (claims : List MemoryClaim) : String :=
  "\n".intercalate (claims.map renderClaimLine)

def Fits (budgetTokens : ℤ) (claims : List MemoryClaim) : Prop :=
  (estimateMemoryTokens (renderClaims claims) : ℤ) ≤ budgetTokens

instance (budgetTokens : ℤ) (claims : List MemoryClaim) : Decidable (Fits budgetTokens claims) :=
  inferInstanceAs (Decidable (_ ≤ _))

/-- What a context is to be of the claims that matched, the highest ranked first: the rendering of
those at the front, within the budget. -/
structure Recalled (budgetTokens : ℤ) (claims : List MemoryClaim) (context : MemoryContext)
    (included omitted : List MemoryClaim) : Prop where
  matched : (included ++ omitted).Perm claims
  ranked : included.Sublist claims
  claimIds : context.claimIds = included.map (·.id)
  content : context.content = renderClaims included
  tokens : context.tokens = estimateMemoryTokens context.content
  omitted : context.omitted = omitted.length
  within : (context.tokens : ℤ) ≤ budgetTokens
  front : included <+: claims

/-- Below a claim that no longer fits beside those above it none does either. -/
def Graded (budgetTokens : ℤ) (claims : List MemoryClaim) : Prop :=
  ∀ before claim after, claims = before ++ claim :: after → Fits budgetTokens before →
    ¬ Fits budgetTokens (before ++ [claim]) →
      ∀ lower ∈ after, ¬ Fits budgetTokens (before ++ [lower])

/-- What makes one claim come before another in the answer to a query. -/
def ranking (o : EmbeddedMemoryOptions) (p : Projection) (query : MemoryQuery)
    (a b : MemoryClaim) : Ordering :=
  let queryTerms := (tokenizeMemoryText o.unicode query.text).dedup
  if queryTerms = [] then
    (o.unicode.localeCompare b.recordedAt a.recordedAt).then (o.unicode.localeCompare b.id a.id)
  else
    (compare (p.score queryTerms b) (p.score queryTerms a)).then
      ((o.unicode.localeCompare b.recordedAt a.recordedAt).then
        (o.unicode.localeCompare a.id b.id))

section Fill
variable {budgetTokens : ℤ}

/-- A claim is admitted where it fits beside those that were taken. -/
def fit (budgetTokens : ℤ) (shown : List MemoryClaim) (claim : MemoryClaim) :
    Option (List MemoryClaim) :=
  if Fits budgetTokens (shown ++ [claim]) then some (shown ++ [claim]) else none

theorem fit_eq_some {shown shown' : List MemoryClaim} {claim : MemoryClaim} :
    fit budgetTokens shown claim = some shown' ↔
      Fits budgetTokens (shown ++ [claim]) ∧ shown' = shown ++ [claim] := by
  unfold fit
  split <;> simp_all [eq_comm]

theorem fit_eq_none {shown : List MemoryClaim} {claim : MemoryClaim} :
    fit budgetTokens shown claim = none ↔ ¬ Fits budgetTokens (shown ++ [claim]) := by
  unfold fit
  split <;> simp_all

/-- The assembly holds the claims that were taken. -/
structure Holds (a : Projection.Assembly) (shown : List MemoryClaim) (omitted : ℕ) : Prop where
  included : a.included = shown.map renderClaimLine
  claimIds : a.claimIds = shown.map (·.id)
  tokens : a.tokens = estimateMemoryTokens (renderClaims shown)
  omitted : a.omitted = omitted

theorem foldl_add (budgetTokens : ℤ) (claims : List MemoryClaim) {a : Projection.Assembly}
    {shown : List MemoryClaim} {count : ℕ} (h : Holds a shown count) :
    ∃ shown' included omitted, Fills (fit budgetTokens) shown claims shown' included omitted ∧
      Holds (claims.foldl (Projection.Assembly.add budgetTokens) a) shown'
        (count + omitted.length) := by
  induction claims generalizing a shown count with
  | nil => exact ⟨shown, [], [], .nil, h⟩
  | cons claim claims ih =>
    have hrender : "\n".intercalate (a.included ++ [renderClaimLine claim]) =
        renderClaims (shown ++ [claim]) := by
      rw [h.included, renderClaims, List.map_append]
      rfl
    by_cases hfits : Fits budgetTokens (shown ++ [claim])
    · have hadd : Holds (a.add budgetTokens claim) (shown ++ [claim]) count := by
        unfold Projection.Assembly.add
        rw [hrender, if_neg (Int.not_lt.mpr hfits)]
        exact ⟨by simp [h.included], by simp [h.claimIds], rfl, h.omitted⟩
      obtain ⟨shown', included, omitted, hfills, hholds⟩ := ih hadd
      exact ⟨shown', claim :: included, omitted, .take (fit_eq_some.mpr ⟨hfits, rfl⟩) hfills,
        hholds⟩
    · have hadd : Holds (a.add budgetTokens claim) shown (count + 1) := by
        unfold Projection.Assembly.add
        rw [hrender, if_pos (Int.not_le.mp hfits)]
        exact ⟨h.included, h.claimIds, h.tokens, congrArg (· + 1) h.omitted⟩
      obtain ⟨shown', included, omitted, hfills, hholds⟩ := ih hadd
      refine ⟨shown', included, claim :: omitted, .leave (fit_eq_none.mpr hfits) hfills, ?_⟩
      rwa [List.length_cons, Nat.add_comm omitted.length, ← Nat.add_assoc]

theorem shown_of_fills {claims shown included omitted : List MemoryClaim}
    (h : Fills (fit budgetTokens) [] claims shown included omitted) :
    shown = included ∧ (included ≠ [] → Fits budgetTokens included) := by
  refine h.accumulate (fun included shown => shown = included ∧
    (included ≠ [] → Fits budgetTokens included)) ⟨rfl, fun hne => absurd rfl hne⟩ ?_
  rintro included shown claim shown' ⟨rfl, -⟩ hfit
  obtain ⟨hfits, rfl⟩ := fit_eq_some.mp hfit
  exact ⟨rfl, fun _ => hfits⟩

theorem fits_nil : Fits budgetTokens [] ↔ 0 ≤ budgetTokens := Iff.rfl

theorem fits_of_append {shown : List MemoryClaim} {claim : MemoryClaim}
    (h : Fits budgetTokens (shown ++ [claim])) : Fits budgetTokens shown := by
  have hlength : (utf16 (renderClaims shown)).length ≤
      (utf16 (renderClaims (shown ++ [claim]))).length := by
    cases shown with
    | nil => exact Nat.zero_le _
    | cons first shown =>
      rw [renderClaims, renderClaims, List.map_append,
        String.intercalate_append_of_ne_nil (by simp) (by simp), length_utf16_append,
        length_utf16_append]
      omega
  have htokens : estimateMemoryTokens (renderClaims shown) ≤
      estimateMemoryTokens (renderClaims (shown ++ [claim])) :=
    Nat.div_le_div_right (Nat.add_le_add_right hlength 3)
  exact Int.le_trans (Int.ofNat_le.mpr htokens) h

/-- Claims are all admitted one after another exactly when they fit together. -/
theorem foldlM_fit (hbudget : 0 ≤ budgetTokens) (claims shown : List MemoryClaim) :
    claims.foldlM (fit budgetTokens) [] = some shown ↔
      Fits budgetTokens claims ∧ shown = claims := by
  induction claims using List.reverseRecOn generalizing shown with
  | nil =>
    simp only [List.foldlM_nil, Option.pure_def, Option.some.injEq, fits_nil, hbudget, true_and]
    exact eq_comm
  | append_singleton claims claim ih =>
    rw [List.foldlM_append]
    constructor
    · intro h
      obtain ⟨shown₁, hshown₁, hlast⟩ := Option.bind_eq_some_iff.mp h
      obtain ⟨-, rfl⟩ := (ih shown₁).mp hshown₁
      obtain ⟨shown₂, hshown₂, hend⟩ := Option.bind_eq_some_iff.mp hlast
      obtain ⟨hfits, rfl⟩ := fit_eq_some.mp hshown₂
      exact ⟨hfits, (Option.some.inj hend).symm⟩
    · rintro ⟨hfits, rfl⟩
      refine Option.bind_eq_some_iff.mpr ⟨claims, (ih claims).mpr ⟨fits_of_append hfits, rfl⟩, ?_⟩
      rw [List.foldlM_cons]
      exact Option.bind_eq_some_iff.mpr ⟨_, fit_eq_some.mpr ⟨hfits, rfl⟩, rfl⟩

/-- The claims at the front are taken, and no others, exactly when the claims are graded. -/
theorem front_iff_graded {claims shown included omitted : List MemoryClaim}
    (hbudget : 0 ≤ budgetTokens)
    (h : Fills (fit budgetTokens) [] claims shown included omitted) :
    included <+: claims ↔ Graded budgetTokens claims := by
  rw [h.front_iff]
  constructor
  · intro hall before claim after heq hbefore hclaim lower hlower
    have hfold := (foldlM_fit hbudget before before).mpr ⟨hbefore, rfl⟩
    have hnone := hall before claim after before heq hfold (fit_eq_none.mpr hclaim)
    exact fit_eq_none.mp (hnone lower hlower)
  · intro hgraded before claim after shown heq hfold hclaim lower hlower
    obtain ⟨hfits, hshown⟩ := (foldlM_fit hbudget before shown).mp hfold
    rw [hshown] at hclaim ⊢
    exact fit_eq_none.mpr (hgraded before claim after heq hfits (fit_eq_none.mp hclaim) lower
      hlower)

end Fill

section Query
variable {o : EmbeddedMemoryOptions} {p : Projection} {query : MemoryQuery} {clock : String}

theorem slice_sublist {α : Type} (xs : List α) (limit : ℤ) : (slice xs limit).Sublist xs := by
  unfold slice
  split <;> exact List.take_sublist ..

theorem query_ids_nodup (h : p.Keyed) : ((p.query o query clock).map (·.id)).Nodup := by
  have heligible : ((p.eligible query (query.now.getD clock)).map (·.id)).Nodup := by
    have hvalues : (p.claims.values.map (·.id)).Nodup :=
      Projection.values_ids h ▸ p.claims.nodup
    exact hvalues.sublist (List.filter_sublist.map _)
  unfold Projection.query
  dsimp only
  split
  · refine List.Nodup.sublist ((slice_sublist ..).map _) ?_
    exact ((List.perm_insertionSort ..).map _).nodup_iff.mpr heligible
  · rw [List.map_map]
    refine List.Nodup.sublist ((slice_sublist ..).map _) ?_
    refine ((List.perm_insertionSort ..).map _).nodup_iff.mpr ?_
    refine List.Nodup.sublist (List.filter_sublist.map _) ?_
    rw [List.map_map]
    exact heligible

theorem pairwise_sortBy {α : Type} (cmp : α → α → Ordering) [Std.TransCmp cmp] (xs : List α) :
    (sortBy cmp xs).Pairwise fun a b => cmp a b ≠ .gt := by
  have hle : ∀ a b, cmp a b ≠ .gt ↔ (cmp a b).isLE := fun a b => by
    cases cmp a b <;> simp
  have htotal : Std.Total fun a b : α => cmp a b ≠ .gt := ⟨fun a b => by
    rw [@Std.OrientedCmp.eq_swap _ cmp _ b a]
    cases cmp a b <;> simp⟩
  have htrans : IsTrans α fun a b => cmp a b ≠ .gt := ⟨fun a b c hab hbc =>
    (hle a c).mpr (Std.TransCmp.isLE_trans ((hle a b).mp hab) ((hle b c).mp hbc))⟩
  exact List.pairwise_insertionSort _ xs

theorem transCmp_by {α β : Type} (cmp : β → β → Ordering) [Std.TransCmp cmp] (f : α → β) :
    Std.TransCmp fun a b => cmp (f a) (f b) where
  eq_swap := Std.OrientedCmp.eq_swap
  isLE_trans := Std.TransCmp.isLE_trans

theorem score_of_mem {claims : List MemoryClaim} {f : MemoryClaim → ℕ} {q : MemoryClaim × ℕ → Bool}
    {cmp : MemoryClaim × ℕ → MemoryClaim × ℕ → Ordering} {limit : ℤ} {e : MemoryClaim × ℕ}
    (h : e ∈ slice (sortBy cmp ((claims.map fun claim => (claim, f claim)).filter q)) limit) :
    e.2 = f e.1 := by
  have hmem := (List.mem_filter.mp (mem_sortBy.mp (mem_of_mem_slice h))).1
  obtain ⟨claim, -, rfl⟩ := List.mem_map.mp hmem
  rfl

section Order
variable (hlocale : Std.TransCmp o.unicode.localeCompare)
include hlocale

theorem transCmp_recorded {α : Type} (f : α → MemoryClaim) : Std.TransCmp fun a b : α =>
    o.unicode.localeCompare (f b).recordedAt (f a).recordedAt :=
  @Std.TransCmp.opposite _ _
    (transCmp_by o.unicode.localeCompare fun a => (f a).recordedAt)

theorem transCmp_newest {α : Type} (f : α → MemoryClaim) : Std.TransCmp fun a b : α =>
    (o.unicode.localeCompare (f b).recordedAt (f a).recordedAt).then
      (o.unicode.localeCompare (f b).id (f a).id) :=
  have := transCmp_recorded hlocale f
  have : Std.TransCmp fun a b : α => o.unicode.localeCompare (f b).id (f a).id :=
    @Std.TransCmp.opposite _ _ (transCmp_by o.unicode.localeCompare fun a => (f a).id)
  inferInstanceAs (Std.TransCmp (compareLex _ _))

theorem transCmp_scored {α : Type} (f : α → MemoryClaim) (g : α → ℕ) :
    Std.TransCmp fun a b : α => (compare (g b) (g a)).then
      ((o.unicode.localeCompare (f b).recordedAt (f a).recordedAt).then
        (o.unicode.localeCompare (f a).id (f b).id)) :=
  have : Std.TransCmp fun a b : α => compare (g b) (g a) :=
    @Std.TransCmp.opposite _ _ (transCmp_by compare g)
  have := transCmp_recorded hlocale f
  have : Std.TransCmp fun a b : α => o.unicode.localeCompare (f a).id (f b).id :=
    transCmp_by o.unicode.localeCompare fun a => (f a).id
  inferInstanceAs (Std.TransCmp (compareLex _ (compareLex _ _)))

theorem pairwise_query :
    (p.query o query clock).Pairwise fun a b => ranking o p query a b ≠ .gt := by
  unfold ranking Projection.query
  dsimp only
  split
  · have := transCmp_newest hlocale fun claim => claim
    exact (pairwise_sortBy _ _).sublist (slice_sublist ..)
  · have := transCmp_scored hlocale (Prod.fst : MemoryClaim × ℕ → MemoryClaim) Prod.snd
    refine List.pairwise_map.mpr ?_
    refine List.Pairwise.imp_of_mem ?_ ((pairwise_sortBy _ _).sublist (slice_sublist ..))
    intro a b ha hb hab
    rw [score_of_mem ha, score_of_mem hb] at hab
    exact hab

end Order

end Query

theorem eq_of_map_eq {α β : Type} {f : α → β} {xs ys : List α}
    (hinj : ∀ x ∈ xs, ∀ y ∈ ys, f x = f y → x = y) (h : xs.map f = ys.map f) : xs = ys := by
  induction xs generalizing ys with
  | nil => exact (List.map_eq_nil_iff.mp h.symm).symm
  | cons x xs ih =>
    cases ys with
    | nil => cases h
    | cons y ys =>
      obtain ⟨hxy, hrest⟩ := List.cons.inj h
      rw [hinj x List.mem_cons_self y List.mem_cons_self hxy, ih (fun x hx y hy =>
        hinj x (List.mem_cons_of_mem _ hx) y (List.mem_cons_of_mem _ hy)) hrest]

/-- What comes into a context of the claims that match: the ones at the front of the ranking exactly
where the budget is not negative and no claim below one that is too long fits any more. -/
theorem recall_iff (o : EmbeddedMemoryOptions) (stream : List MemoryEvent) (input : MemoryQuery)
    (budgetTokens : ℤ) (clock : String) :
    ((∃ included omitted, Recalled budgetTokens ((replayAll o stream).query o input clock)
        ((replayAll o stream).buildContext o input budgetTokens clock) included omitted) ↔
      0 ≤ budgetTokens ∧ Graded budgetTokens ((replayAll o stream).query o input clock)) ∧
    (Std.TransCmp o.unicode.localeCompare →
      ((replayAll o stream).query o input clock).Pairwise fun a b =>
        ranking o (replayAll o stream) input a b ≠ .gt) := by
  refine ⟨?_, pairwise_query⟩
  have hkeyed : (replayAll o stream).Keyed :=
    Projection.keyed_foldl (by simp [Projection.Keyed])
  have hnodup := @query_ids_nodup o _ input clock hkeyed
  set claims := (replayAll o stream).query o input clock with hclaims
  obtain ⟨shown, taken, left, hfills, hholds⟩ := foldl_add budgetTokens claims
    (⟨rfl, rfl, rfl, rfl⟩ : Holds {} [] 0)
  obtain ⟨rfl, hfits⟩ := shown_of_fills hfills
  have hcontext : (replayAll o stream).buildContext o input budgetTokens clock =
      ⟨renderClaims shown, shown.map (·.id), estimateMemoryTokens (renderClaims shown),
        left.length⟩ := by
    simp only [Projection.buildContext, ← hclaims, hholds.included, hholds.claimIds, hholds.tokens,
      hholds.omitted, Nat.zero_add]
    rfl
  rw [hcontext]
  constructor
  · rintro ⟨included, omitted, h⟩
    have hbudget : 0 ≤ budgetTokens := Int.le_trans (Int.natCast_nonneg _) h.within
    -- two parts of the ranking with the same ids are the same
    have hsame : shown = included := eq_of_map_eq (fun a ha b hb heq =>
      List.inj_on_of_nodup_map hnodup (hfills.sublist.subset ha) (h.ranked.subset hb) heq)
      h.claimIds
    subst hsame
    exact ⟨hbudget, (front_iff_graded hbudget hfills).mp h.front⟩
  · rintro ⟨hbudget, hgraded⟩
    refine ⟨shown, left, hfills.perm, hfills.sublist, rfl, rfl, rfl, rfl, ?_,
      (front_iff_graded hbudget hfills).mpr hgraded⟩
    cases shown with
    | nil => exact fits_nil.mpr hbudget
    | cons claim shown => exact hfits (by simp)

section Sample

def rankedClaim (id statement : String) : MemoryClaim :=
  { sampleClaim with id, statement, kind := .fact }

def rankedStream : List MemoryEvent :=
  [.claimRecorded (rankedClaim "3" "tea"), .claimRecorded (rankedClaim "2" "espresso, no milk"),
    .claimRecorded (rankedClaim "1" "rye")]

/-- The claim in the middle is too long, and the one below it comes in. -/
theorem lower_ranked_included :
    ¬ ∃ included omitted, Recalled 6 ((replayAll sampleOptions rankedStream).query sampleOptions
        { text := "" } "2026-02-01T00:00:00Z")
      ((replayAll sampleOptions rankedStream).buildContext sampleOptions { text := "" } 6
        "2026-02-01T00:00:00Z") included omitted := by
  rintro ⟨included, omitted, h⟩
  have hids : ((replayAll sampleOptions rankedStream).buildContext sampleOptions { text := "" } 6
      "2026-02-01T00:00:00Z").claimIds = ["3", "1"] := by decide +kernel
  have hclaims : ((replayAll sampleOptions rankedStream).query sampleOptions { text := "" }
      "2026-02-01T00:00:00Z").map (·.id) = ["3", "2", "1"] := by decide +kernel
  have hfront := h.front.map (·.id)
  rw [hclaims, ← h.claimIds, hids] at hfront
  exact absurd hfront (by decide)

end Sample

end BeeAgent.Memory
