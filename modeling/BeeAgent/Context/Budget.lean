import BeeAgent.Context.Manifest
import BeeAgent.Data.Greedy
import BeeAgent.Data.Shedding
import BeeAgent.Data.Units

/-! The model context under a token budget: sections are taken in the order of their priorities
where they fit, protected ones always, and what is too long for the budget is compressed before. -/
namespace BeeAgent.Context
open Data Data.Greedy Data.Shedding

inductive ProtectedContent where
  | pendingApproval | unconsumedToolResult | activePlanConstraint | failureReason
  | artifactReference | memoryCitation | permissionBoundary
  deriving DecidableEq, Repr

structure PromptSection where
  id : String
  kind : SectionKind
  priority : ℕ
  content : String
  sourceIds : Option (List String) := none
  rendererVersion : Option String := none
  protectedBy : Option (List ProtectedContent) := none
  deriving DecidableEq, Repr

structure ContextAllocation where
  sections : List PromptSection := []
  omissions : List ContextOmission := []
  usedTokens : ℕ := 0
  totalTokens : ℕ := 0

def PromptSection.isProtected (section_ : PromptSection) : Bool :=
  0 < (section_.protectedBy.map List.length).getD 0

def PromptSection.tokens (section_ : PromptSection) : ℕ := estimateTokens section_.content

def byPriority (sections : List PromptSection) : List PromptSection :=
  sections.insertionSort fun a b => a.priority ≤ b.priority

def ContextAllocation.add (budgetTokens : ℤ) (a : ContextAllocation) (section_ : PromptSection) :
    ContextAllocation :=
  let tokens := estimateTokens section_.content
  if section_.isProtected ∨ (a.usedTokens + tokens : ℤ) ≤ budgetTokens then
    { a with sections := a.sections ++ [section_], usedTokens := a.usedTokens + tokens }
  else { a with omissions := a.omissions ++ [⟨section_.id, "budget-exceeded"⟩] }

def allocateContextBudget (sections : List PromptSection) (budgetTokens : ℤ) : ContextAllocation :=
  let total := sections.foldl (fun total section_ => total + estimateTokens section_.content) 0
  (byPriority sections).foldl (ContextAllocation.add budgetTokens) { totalTokens := total }

structure CompressionPolicy where
  version : String
  compress : String → ℤ → String

def truncatingCompression : CompressionPolicy where
  version := "truncate-v1"
  compress content maxTokens :=
    let maxChars := max 0 maxTokens * 4
    if ((utf16 content).length : ℤ) ≤ maxChars then content
    else sliceText content (maxChars - 1) ++ "…"

structure CompileContextInput where
  id : ℕ
  promptVersion : String
  structureVersion : String
  tokenBudget : ℤ
  sections : List PromptSection
  compression : Option CompressionPolicy := none

namespace CompileContextInput
variable (input : CompileContextInput)

def prepare (section_ : PromptSection) : PromptSection :=
  if section_.isProtected then section_
  else if (estimateTokens section_.content : ℤ) ≤ input.tokenBudget then section_
  else
    { section_ with
      content := (input.compression.getD truncatingCompression).compress section_.content
        input.tokenBudget }

def prepared : List PromptSection := input.sections.map input.prepare

end CompileContextInput

def PromptSection.draft (section_ : PromptSection) : ContextSectionDraft where
  kind := section_.kind
  sourceIds := section_.sourceIds.getD [section_.id]
  rendererVersion := section_.rendererVersion.getD "v1"
  priority := section_.priority
  content := section_.content

def compileContextManifest (sha256 : String → String) (input : CompileContextInput) :
    Except (List String) ContextManifest :=
  let allocation := allocateContextBudget input.prepared input.tokenBudget
  buildContextManifest sha256
    { id := input.id
      promptVersion := input.promptVersion
      structureVersion := input.structureVersion
      tokenBudget := input.tokenBudget
      sections := allocation.sections.map PromptSection.draft
      omissions := some allocation.omissions }

section Allocation

/-- A section is admitted when it is protected or still fits. -/
def fit (budgetTokens : ℤ) (used : ℕ) (section_ : PromptSection) : Option ℕ :=
  if section_.isProtected ∨ (used + section_.tokens : ℤ) ≤ budgetTokens then
    some (used + section_.tokens)
  else none

theorem foldl_add (budgetTokens : ℤ) (sections : List PromptSection) (a : ContextAllocation) :
    ∃ used included omitted,
      Fills (fit budgetTokens) a.usedTokens sections used included omitted ∧
        sections.foldl (ContextAllocation.add budgetTokens) a =
          { a with sections := a.sections ++ included, usedTokens := used
                   omissions := a.omissions ++
                     omitted.map fun section_ => ⟨section_.id, "budget-exceeded"⟩ } := by
  induction sections generalizing a with
  | nil => exact ⟨a.usedTokens, [], [], .nil, by simp⟩
  | cons section_ sections ih =>
    obtain ⟨used, included, omitted, hfills, hfold⟩ := ih (a.add budgetTokens section_)
    rw [List.foldl_cons, hfold]
    by_cases hfit : section_.isProtected ∨ (a.usedTokens + section_.tokens : ℤ) ≤ budgetTokens
    · have hadd : a.add budgetTokens section_ = { a with
          sections := a.sections ++ [section_]
          usedTokens := a.usedTokens + section_.tokens } := if_pos hfit
      rw [hadd] at hfills ⊢
      exact ⟨used, section_ :: included, omitted, .take (if_pos hfit) hfills, by simp⟩
    · have hadd : a.add budgetTokens section_ = { a with
          omissions := a.omissions ++ [⟨section_.id, "budget-exceeded"⟩] } := if_neg hfit
      rw [hadd] at hfills ⊢
      exact ⟨used, included, section_ :: omitted, .leave (if_neg hfit) hfills, by simp⟩

/-- An allocation fills the budget with the sections in the order of their priorities. -/
theorem allocate_fills (sections : List PromptSection) (budgetTokens : ℤ) :
    ∃ used included omitted,
      Fills (fit budgetTokens) 0 (byPriority sections) used included omitted ∧
        (allocateContextBudget sections budgetTokens).sections = included ∧
        (allocateContextBudget sections budgetTokens).omissions =
          omitted.map fun section_ => ⟨section_.id, "budget-exceeded"⟩ := by
  let total := sections.foldl (fun total section_ => total + estimateTokens section_.content) 0
  obtain ⟨used, included, omitted, hfills, hfold⟩ :=
    foldl_add budgetTokens (byPriority sections) { totalTokens := total }
  have hallocation : allocateContextBudget sections budgetTokens = _ := hfold
  exact ⟨used, included, omitted, hfills, by simp [hallocation], by simp [hallocation]⟩

end Allocation

def unprotectedLoad (sections : List PromptSection) : ℕ :=
  load PromptSection.tokens (sections.filter fun section_ => !section_.isProtected)

/-- What a manifest is to tell of the sections: which are in it and which are not, so that all are
accounted for, the protected ones as they are, and the others greedily within the budget. -/
structure Budgeted (sha256 : String → String) (input : CompileContextInput)
    (manifest : ContextManifest) (included omitted : List PromptSection) : Prop where
  sections : manifest.sections = included.map fun section_ => section_.draft.toSection sha256
  omissions : manifest.omissions =
    omitted.map fun section_ => ⟨section_.id, "budget-exceeded"⟩
  accounted : ((included ++ omitted).map PromptSection.id).Perm
    (input.sections.map PromptSection.id)
  once : ((included ++ omitted).map PromptSection.id).Nodup
  protected_ : ∀ section_ ∈ input.sections, section_.isProtected → section_ ∈ included
  within : 0 ≤ input.tokenBudget → (unprotectedLoad included : ℤ) ≤ input.tokenBudget
  tight : ∀ section_ ∈ omitted, section_.isProtected = false ∧ ∃ before after,
    byPriority input.prepared = before ++ section_ :: after ∧
      input.tokenBudget <
        (load PromptSection.tokens (before.filter (· ∈ included)) + section_.tokens : ℤ)

section Compile
variable {sha256 : String → String} {input : CompileContextInput}

theorem prepare_id (section_ : PromptSection) : (input.prepare section_).id = section_.id := by
  unfold CompileContextInput.prepare
  split
  · rfl
  split <;> rfl

theorem map_prepared_id : input.prepared.map PromptSection.id =
    input.sections.map PromptSection.id := by
  rw [CompileContextInput.prepared, List.map_map]
  exact List.map_congr_left fun section_ _ => prepare_id section_

theorem byPriority_perm (sections : List PromptSection) : (byPriority sections).Perm sections :=
  List.perm_insertionSort ..

theorem unprotectedLoad_append (sections : List PromptSection) (section_ : PromptSection) :
    unprotectedLoad (sections ++ [section_]) =
      unprotectedLoad sections + if section_.isProtected then 0 else section_.tokens := by
  rw [unprotectedLoad, List.filter_append, load_append, ← unprotectedLoad]
  cases h : section_.isProtected <;> simp [h]

theorem load_of_fills {budgetTokens : ℤ} {used : ℕ} {sections included omitted : List PromptSection}
    (h : Fills (fit budgetTokens) 0 sections used included omitted) :
    used = load PromptSection.tokens included ∧ unprotectedLoad included ≤ used ∧
      (0 ≤ budgetTokens → (unprotectedLoad included : ℤ) ≤ budgetTokens) := by
  refine h.accumulate (fun included used => used = load PromptSection.tokens included ∧
    unprotectedLoad included ≤ used ∧
      (0 ≤ budgetTokens → (unprotectedLoad included : ℤ) ≤ budgetTokens))
    ⟨rfl, Nat.le_refl _, id⟩ ?_
  rintro included used section_ used' ⟨hload, hle, hwithin⟩ hfit
  unfold fit at hfit
  split at hfit <;> cases hfit
  next hfits =>
  rw [unprotectedLoad_append, load_append, ← hload, load_cons, load_nil, Nat.add_zero]
  cases hprotected : section_.isProtected with
  | true =>
    rw [if_pos rfl]
    exact ⟨rfl, Nat.le_trans hle (Nat.le_add_right ..), hwithin⟩
  | false =>
    have hfits : (used + section_.tokens : ℤ) ≤ budgetTokens := by simpa [hprotected] using hfits
    rw [if_neg Bool.false_ne_true]
    exact ⟨rfl, Nat.add_le_add_right hle _, fun _ => by omega⟩

theorem not_protected_of_refused {budgetTokens : ℤ} {used : ℕ} {section_ : PromptSection}
    (h : fit budgetTokens used section_ = none) :
    section_.isProtected = false ∧ budgetTokens < (used + section_.tokens : ℤ) := by
  unfold fit at h
  split at h
  · cases h
  · next hnot =>
    rw [not_or] at hnot
    exact ⟨by simpa using hnot.1, by omega⟩

theorem budget_nonneg {manifest : ContextManifest} (h : manifest.issues "" = []) :
    0 ≤ manifest.tokenBudget := by
  simp only [ContextManifest.issues, List.append_eq_nil_iff] at h
  have hbudget := h.1.1.2
  unfold Kanban.Schema.nonnegative Kanban.Schema.check at hbudget
  split at hbudget
  · next hcheck => simpa using (Bool.and_eq_true_iff.mp hcheck).2
  · cases hbudget

theorem compile_eq (sha256 : String → String) (input : CompileContextInput)
    (hids : (input.sections.map PromptSection.id).Nodup) :
    ∃ manifest included omitted, Budgeted sha256 input manifest included omitted ∧
      compileContextManifest sha256 input = parse (ContextManifest.issues "") manifest ∧
        manifest.tokenBudget = input.tokenBudget := by
  obtain ⟨used, included, omitted, hfills, hsections, homissions⟩ :=
    allocate_fills input.prepared input.tokenBudget
  have hperm : (included ++ omitted).Perm input.prepared :=
    hfills.perm.trans (byPriority_perm _)
  have haccounted : ((included ++ omitted).map PromptSection.id).Perm
      (input.sections.map PromptSection.id) := map_prepared_id ▸ hperm.map PromptSection.id
  have hnodup : (byPriority input.prepared).Nodup :=
    (byPriority_perm _).nodup_iff.mpr (.of_map PromptSection.id (map_prepared_id ▸ hids))
  refine ⟨_, included, omitted, ⟨?_, ?_, haccounted, haccounted.nodup_iff.mpr hids, ?_, ?_, ?_⟩,
    rfl, rfl⟩
  · simp only [hsections, List.map_map]
    rfl
  · simp only [homissions, Option.getD_some]
  · intro section_ hmem hprotected
    have hsame : input.prepare section_ = section_ := if_pos hprotected
    have hprepared : section_ ∈ input.prepared := hsame ▸ List.mem_map_of_mem hmem
    obtain hincluded | homitted := List.mem_append.mp (hperm.mem_iff.mpr hprepared)
    · exact hincluded
    · obtain ⟨_, _, _, _, _, -, -, hrefused, -⟩ := hfills.refused homitted
      simp [(not_protected_of_refused hrefused).1] at hprotected
  · exact (load_of_fills hfills).2.2
  · intro section_ hmem
    obtain ⟨before, after, used₁, included₁, omitted₁, heq, hbefore, hrefused, included₂, rfl,
      hsub⟩ := hfills.refused hmem
    obtain ⟨hprotected, hlt⟩ := not_protected_of_refused hrefused
    refine ⟨hprotected, before, after, heq, ?_⟩
    rw [hbefore.taken_before (heq ▸ hnodup) hsub, ← (load_of_fills hbefore).1]
    exact hlt

end Compile

section Compression

theorem length_truncated (content : String) (count : ℕ) :
    (utf16 (truncatingCompression.compress content count)).length =
      if count = 0 then (utf16 content).length else min (count * 4) (utf16 content).length := by
  have hdots : (utf16 "…").length = 1 := by decide +kernel
  simp only [truncatingCompression]
  split
  · next hle =>
    split <;> omega
  · next hlt =>
    rw [length_utf16_append, hdots, sliceText, length_takeUnits, String.ofList_toList]
    split <;> split <;> omega

/-- The compressor keeps within the count unless the count is zero and there is something to
compress. -/
theorem truncated_le_iff (content : String) (count : ℕ) :
    estimateTokens (truncatingCompression.compress content count) ≤ count ↔
      0 < count ∨ content = "" := by
  rw [estimateTokens, length_truncated, ← length_utf16_eq_zero]
  split <;> omega

end Compression

/-- Every section is accounted for once, protected sections are kept as they are and the others fill
the budget in the order of their priorities; but the compressor keeps to its count only where the
count is not zero or there is nothing to compress. -/
theorem compile_budgeted (sha256 : String → String) (input : CompileContextInput)
    (hids : (input.sections.map PromptSection.id).Nodup) :
    (∃ manifest included omitted, Budgeted sha256 input manifest included omitted ∧
      compileContextManifest sha256 input = parse (ContextManifest.issues "") manifest ∧
      (manifest.issues "" = [] → 0 ≤ input.tokenBudget)) ∧
    ∀ (content : String) (count : ℕ),
      estimateTokens (truncatingCompression.compress content count) ≤ count ↔
        0 < count ∨ content = "" := by
  obtain ⟨manifest, included, omitted, hbudgeted, hcompile, hbudget⟩ :=
    compile_eq sha256 input hids
  exact ⟨⟨manifest, included, omitted, hbudgeted, hcompile, fun hissues =>
    hbudget ▸ budget_nonneg hissues⟩, truncated_le_iff⟩

section Sample

/-- A long section of low priority beside a protected one. -/
def sampleSections : List PromptSection :=
  [{ id := "history", kind := .memory, priority := 8, content := "a long history" },
    { id := "safety", kind := .instruction, priority := 1, content := "never",
      protectedBy := some [.permissionBoundary] }]

theorem compile_budgeted_sample : ∃ manifest included omitted,
    Budgeted id ⟨0, "1", "1", 1, sampleSections, none⟩ manifest included omitted := by
  obtain ⟨⟨manifest, included, omitted, hbudgeted, -⟩, -⟩ :=
    compile_budgeted id ⟨0, "1", "1", 1, sampleSections, none⟩ (by decide +kernel)
  exact ⟨manifest, included, omitted, hbudgeted⟩

/-- With no tokens asked for, the last character gives way to an ellipsis. -/
theorem truncated_to_zero : 0 < estimateTokens (truncatingCompression.compress "a" 0) := by
  decide +kernel

end Sample

end BeeAgent.Context
