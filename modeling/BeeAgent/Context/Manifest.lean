import BeeAgent.Data.OrderedMap
import BeeAgent.Data.RoundTrip
import BeeAgent.Kanban.Protocol

/-! The context manifest: every model call records the sections of its input by their sources,
renderer and digest, from which the input is rebuilt. -/
namespace BeeAgent.Context
open Data
open Kanban.Schema (each nonempty nonnegative)

inductive SectionKind where
  | instruction | goal | world | trajectory | memory | skill | tool
  deriving DecidableEq, Repr

def SectionKind.text : SectionKind → String
  | .instruction => "instruction"
  | .goal => "goal"
  | .world => "world"
  | .trajectory => "trajectory"
  | .memory => "memory"
  | .skill => "skill"
  | .tool => "tool"

structure ContextSection where
  kind : SectionKind
  sourceIds : List String
  rendererVersion : String
  priority : ℕ
  tokens : ℕ
  digest : String
  deriving DecidableEq, Repr

structure ContextOmission where
  sourceId : String
  reason : String
  deriving DecidableEq, Repr

/-- `id` numbers the draws of `randomUUID`. -/
structure ContextManifest where
  id : ℕ
  promptVersion : String
  structureVersion : String
  tokenBudget : ℤ
  sections : List ContextSection
  omissions : List ContextOmission
  deriving DecidableEq, Repr

/-- A section before its digest is computed: it carries the rendered text. -/
structure ContextSectionDraft where
  kind : SectionKind
  sourceIds : List String
  rendererVersion : String
  priority : ℕ
  content : String

structure BuildContextManifestInput where
  id : ℕ
  promptVersion : String
  structureVersion : String
  tokenBudget : ℤ
  sections : List ContextSectionDraft
  omissions : Option (List ContextOmission) := none

def sectionIssues (path : String) (s : ContextSection) : List String :=
  each (path ++ ".sourceIds") s.sourceIds nonempty ++
    nonempty (path ++ ".rendererVersion") s.rendererVersion ++
    nonnegative (path ++ ".priority") s.priority ++ nonnegative (path ++ ".tokens") s.tokens

def omissionIssues (path : String) (omission : ContextOmission) : List String :=
  nonempty (path ++ ".sourceId") omission.sourceId ++ nonempty (path ++ ".reason") omission.reason

/-- The paths of the fields that `ContextManifestSchema` refuses in a manifest whose id is a UUID
and whose digests are digests. -/
def ContextManifest.issues (parent : String) (manifest : ContextManifest) : List String :=
  nonempty (parent ++ "promptVersion") manifest.promptVersion ++
    nonempty (parent ++ "structureVersion") manifest.structureVersion ++
    nonnegative (parent ++ "tokenBudget") manifest.tokenBudget ++
    each (parent ++ "sections") manifest.sections sectionIssues ++
    each (parent ++ "omissions") manifest.omissions omissionIssues

def parse {α : Type} (issues : α → List String) (a : α) : Except (List String) α :=
  if issues a = [] then .ok a else .error (issues a)

/-- Characters over four, rounded up. -/
def estimateTokens (text : String) : ℕ := ((utf16 text).length + 3) / 4

section Digest
variable (sha256 : String → String)

def computeSectionDigest (kind : SectionKind) (sourceIds : List String)
    (rendererVersion content : String) : String :=
  "sha256:" ++ sha256 (canonicalJson (.object [("kind", .string kind.text),
    ("sourceIds", strings sourceIds), ("rendererVersion", .string rendererVersion),
    ("content", .string content)]))

def ContextSectionDraft.toSection (draft : ContextSectionDraft) : ContextSection where
  kind := draft.kind
  sourceIds := draft.sourceIds
  rendererVersion := draft.rendererVersion
  priority := draft.priority
  tokens := estimateTokens draft.content
  digest := computeSectionDigest sha256 draft.kind draft.sourceIds draft.rendererVersion
    draft.content

def buildContextManifest (input : BuildContextManifestInput) :
    Except (List String) ContextManifest :=
  parse (ContextManifest.issues "")
    { id := input.id
      promptVersion := input.promptVersion
      structureVersion := input.structureVersion
      tokenBudget := input.tokenBudget
      sections := input.sections.map (·.toSection sha256)
      omissions := input.omissions.getD [] }

inductive ContextError where
  | noRenderer (version : String)
  | oneSource (version : String)
  | sourceNotFound (sourceId : String)
  | reconstruction (section_ : ContextSection) (rebuiltDigest : String)

def ContextError.message : ContextError → String
  | .noRenderer version => "No renderer registered for version '" ++ version ++ "'"
  | .oneSource version => "Renderer '" ++ version ++ "' expects exactly one source"
  | .sourceNotFound sourceId => "Source '" ++ sourceId ++ "' not found"
  | .reconstruction section_ rebuiltDigest => "Section '" ++ section_.kind.text ++
    "' rebuilt to digest " ++ rebuiltDigest ++ ", expected " ++ section_.digest

structure ContextRenderer where
  version : String
  render : List String → OrderedMap String String → Except ContextError String

structure RebuiltSection where
  section_ : ContextSection
  text : String

def rebuildSection (sources : OrderedMap String String)
    (renderers : OrderedMap String ContextRenderer) (section_ : ContextSection) :
    Except ContextError RebuiltSection :=
  match renderers.get section_.rendererVersion with
  | none => .error (.noRenderer section_.rendererVersion)
  | some renderer => do
    let text ← renderer.render section_.sourceIds sources
    let rebuilt := computeSectionDigest sha256 section_.kind section_.sourceIds
      section_.rendererVersion text
    if rebuilt ≠ section_.digest then throw (.reconstruction section_ rebuilt)
    return ⟨section_, text⟩

/-- The sections in the order of their priorities, those of one priority in the order of the
manifest. -/
def rebuildContextInput (manifest : ContextManifest) (sources : OrderedMap String String)
    (renderers : OrderedMap String ContextRenderer) : Except ContextError (List RebuiltSection) :=
  (manifest.sections.insertionSort fun a b => a.priority ≤ b.priority).mapM
    (rebuildSection sha256 sources renderers)

variable {sha256 : String → String}

theorem parse_eq_ok {α : Type} {issues : α → List String} {a b : α} :
    parse issues a = .ok b ↔ issues a = [] ∧ a = b := by
  unfold parse
  split <;> simp_all

theorem mapM_eq_ok {α β ε : Type} {f : α → Except ε β} {g : α → β} {as : List α}
    (h : ∀ a ∈ as, f a = .ok (g a)) : as.mapM f = .ok (as.map g) := by
  induction as with
  | nil => rfl
  | cons a as ih =>
    rw [List.mapM_cons, h a (List.mem_cons_self ..), ih fun b hb => h b (List.mem_cons_of_mem _ hb)]
    rfl

/-- A section is rebuilt when its renderer gives its content again. -/
theorem rebuildSection_toSection {sources : OrderedMap String String}
    {renderers : OrderedMap String ContextRenderer} {draft : ContextSectionDraft}
    {renderer : ContextRenderer} (hrenderer : renderers.get draft.rendererVersion = some renderer)
    (hrender : renderer.render draft.sourceIds sources = .ok draft.content) :
    rebuildSection sha256 sources renderers (draft.toSection sha256) =
      .ok ⟨draft.toSection sha256, draft.content⟩ := by
  rw [rebuildSection, show (draft.toSection sha256).rendererVersion = draft.rendererVersion from rfl,
    hrenderer]
  simp only [show (draft.toSection sha256).sourceIds = draft.sourceIds from rfl, hrender]
  exact if_neg (not_not_intro rfl)

theorem rebuildContextInput_of_sorted {manifest : ContextManifest}
    {sources : OrderedMap String String} {renderers : OrderedMap String ContextRenderer}
    {drafts : List ContextSectionDraft}
    (hsections : manifest.sections = drafts.map (·.toSection sha256))
    (hsorted : drafts.Pairwise fun a b => a.priority ≤ b.priority)
    (h : ∀ draft ∈ drafts, ∃ renderer, renderers.get draft.rendererVersion = some renderer ∧
      renderer.render draft.sourceIds sources = .ok draft.content) :
    rebuildContextInput sha256 manifest sources renderers =
      .ok (drafts.map fun draft => ⟨draft.toSection sha256, draft.content⟩) := by
  have hpairwise : (drafts.map (·.toSection sha256)).Pairwise fun a b => a.priority ≤ b.priority :=
    List.pairwise_map.mpr hsorted
  rw [rebuildContextInput, hsections, hpairwise.insertionSort_eq, List.mapM_map]
  refine mapM_eq_ok fun draft hdraft => ?_
  obtain ⟨renderer, hrenderer, hrender⟩ := h draft hdraft
  exact rebuildSection_toSection hrenderer hrender

end Digest

end BeeAgent.Context
