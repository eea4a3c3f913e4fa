import BeeAgent.Data.OrderedMap
import BeeAgent.Memory.Claims
import Mathlib.Data.List.DropRight

/-! The embedded memory provider's projection over the serialized `memory` stream: the events that
its calls write, what they fold to, and what queries read off it. -/
namespace BeeAgent.Memory
open Data

/-- What the language reads off its Unicode tables. -/
structure Unicode where
  lower : String → String
  /-- `\p{L}` and `\p{N}`. -/
  word : Char → Bool
  /-- `\p{Script=Han}` -/
  han : Char → Bool
  localeCompare : String → String → Ordering

structure EmbeddedMemoryOptions where
  unicode : Unicode
  formats : Kanban.Formats

/-! ### Texts -/

def stopwords : List String :=
  ["the", "a", "an", "is", "are", "do", "does", "did", "i", "you", "we", "it", "in", "on", "of",
    "to", "and", "or", "for", "with", "that", "this", "please", "from", "be", "my", "me", "at",
    "as", "by"]

/-- English words and CJK single characters and bigrams, lowercased, by their code units. -/
def tokenizeMemoryText (u : Unicode) (text : String) : List (List ℕ) :=
  (((u.lower text).toList.splitOnP fun c => !u.word c).filter (· ≠ [])).flatMap fun token =>
    let units := utf16 (String.ofList token)
    if token.all u.han then
      token.map (fun c => utf16 (String.singleton c)) ++ units.zipWith (fun a b => [a, b]) units.tail
    else if String.ofList token ∉ stopwords then [units]
    else []

def isWhitespace (c : Char) : Bool :=
  c.toNat ∈ [9, 10, 11, 12, 13, 32, 0xA0, 0x1680, 0x2028, 0x2029, 0x202F, 0x205F, 0x3000, 0xFEFF] ||
    (0x2000 ≤ c.toNat && c.toNat ≤ 0x200A)

/-- `replace(/\s+/g, ' ')` -/
def collapseSpaces : List Char → List Char
  | [] => []
  | c :: cs =>
    if isWhitespace c then
      if (cs.head?.map isWhitespace).getD false then collapseSpaces cs else ' ' :: collapseSpaces cs
    else c :: collapseSpaces cs

def normalizeStatement (u : Unicode) (statement : String) : String :=
  let trimmed := (statement.toList.dropWhile isWhitespace).rdropWhile isWhitespace
  let spaced := collapseSpaces (u.lower (String.ofList trimmed)).toList
  String.ofList (spaced.rdropWhile fun c => c ∈ ['.', '!', '?', '。', '！', '？'])

/-- Same token convention as the context package: characters over four, rounded up. -/
def estimateMemoryTokens (text : String) : ℕ := ((utf16 text).length + 3) / 4

/-- `a > b` of two strings. -/
def after (a b : String) : Bool := utf16 b < utf16 a

def isValidAt (claim : MemoryClaim) (now : String) : Bool :=
  if after claim.validTime.from_ now then false
  else claim.validTime.to_.all fun until_ => after until_ now

def renderClaimLine (claim : MemoryClaim) : String :=
  "[" ++ claim.kind.text ++ "] " ++ claim.statement

/-- `slice(0, limit)` -/
def slice {α : Type} (xs : List α) (limit : ℤ) : List α :=
  if limit < 0 then xs.take (xs.length + limit).toNat else xs.take limit.toNat

def sortBy {α : Type} (compare : α → α → Ordering) (xs : List α) : List α :=
  xs.insertionSort fun a b => compare a b ≠ .gt

/-! ### The projection -/

/-- `EmbeddedMemoryProvider`'s maps. -/
structure Projection where
  claims : OrderedMap String MemoryClaim := .empty
  observations : OrderedMap String MemoryObservation := .empty
  order : List String := []
  terms : OrderedMap String (List (List ℕ)) := .empty

namespace Projection
variable (o : EmbeddedMemoryOptions) (p : Projection)

def fold : MemoryEvent → Except MemoryError Projection
  | .claimRecorded claim => .ok { p with
      order := if claim.id ∈ p.claims.keys then p.order else p.order ++ [claim.id]
      claims := p.claims.set claim.id claim
      terms := p.terms.set claim.id (tokenizeMemoryText o.unicode claim.statement ++
        tokenizeMemoryText o.unicode claim.kind.text).dedup }
  | .claimSuperseded claimId _ _ =>
    match p.claims.get claimId with
    | some claim =>
      if claim.status = .active then
        .ok { p with claims := p.claims.set claimId { claim with status := .superseded } }
      else .ok p
    | none => .ok p
  | .claimRetracted claimId _ =>
    match p.claims.get claimId with
    | some claim =>
      .ok { p with claims := p.claims.set claimId { claim with status := .retracted } }
    | none => .ok p
  | .observationRecorded observation =>
    .ok { p with observations := p.observations.set observation.id observation }
  | .consolidationCompleted _ => .ok p
  | event@(.healthChanged ..) => .error (.unknownEventType event.eventType)

/-- The events up to the first that does not fold, and the error of that. -/
def foldAll (p : Projection) : List MemoryEvent → Projection × Option MemoryError
  | [] => (p, none)
  | event :: events =>
    match p.fold o event with
    | .ok p' => foldAll p' events
    | .error e => (p, some e)

/-- The events and the claim of one candidate; `drawn` is the UUID that is drawn for it. -/
def ingestClaim (now : String) (candidate : NewMemoryClaimInput) (drawn : String) :
    Except MemoryError (List MemoryEvent × MemoryClaim) :=
  match candidate.id.bind p.claims.get with
  | some existing => .ok ([], existing)
  | none => do
    let claim ← parse (MemoryClaim.issues o.formats)
      { id := candidate.id.getD drawn
        kind := candidate.kind
        statement := candidate.statement
        subject := candidate.subject
        provenance := candidate.provenance
        validTime := candidate.validTime.getD { from_ := now }
        confidence := candidate.confidence.getD (.ofNat 1)
        status := .active
        supersedes := candidate.supersedes.getD []
        recordedAt := candidate.recordedAt.getD now }
    let superseded ← claim.supersedes.mapM fun supersededId =>
      match p.claims.get supersededId with
      | none => .error (.claimNotFound supersededId)
      | some target =>
        .ok (if target.status ≠ .active then []
          else [.claimSuperseded target.id claim.id (some "superseded by correction")])
    return (superseded.flatten ++ [.claimRecorded claim], claim)

def ingestObservation (now : String) (candidate : NewMemoryObservationInput) (drawn : String) :
    Except MemoryError (List MemoryEvent × MemoryObservation) :=
  match candidate.id.bind p.observations.get with
  | some existing => .ok ([], existing)
  | none => do
    let observation ← parse (MemoryObservation.issues o.formats)
      { id := candidate.id.getD drawn
        content := candidate.content
        provenance := candidate.provenance
        observedAt := candidate.observedAt.getD now
        confidence := candidate.confidence.getD (.ofNat 1) }
    return ([.observationRecorded observation], observation)

/-- `ids i` is the UUID that is drawn for the candidate `i`, the observations behind the claims. -/
def ingestNow (input : MemoryIngestInput) (now : String) (ids : ℕ → String) :
    Except MemoryError (List MemoryEvent × MemoryIngestResult) := do
  let claims ← input.claims.zipIdx.mapM fun c => p.ingestClaim o now c.1 (ids c.2)
  let observations ← (input.observations.zipIdx input.claims.length).mapM fun c =>
    p.ingestObservation o now c.1 (ids c.2)
  return ((claims.map Prod.fst).flatten ++ (observations.map Prod.fst).flatten,
    ⟨claims.map Prod.snd, observations.map Prod.snd⟩)

/-- What makes two claims duplicates of each other. -/
def duplicateKey (claim : MemoryClaim) : String :=
  "|".intercalate [claim.kind.text, claim.subject.type.text, claim.subject.id.getD "",
    normalizeStatement o.unicode claim.statement]

def active : List MemoryClaim := p.claims.values.filter fun claim => claim.status = .active

def groups : OrderedMap String (List MemoryClaim) :=
  p.active.foldl (fun groups claim =>
    let key := duplicateKey o claim
    groups.set key ((groups.get key).getD [] ++ [claim])) .empty

/-- The first recorded claim of a group is kept, the others are superseded by it. -/
def mergeGroup (group : List MemoryClaim) : Option (MemoryMerge × List MemoryEvent) :=
  if group.length < 2 then none
  else
    match sortBy (fun a b => (o.unicode.localeCompare a.recordedAt b.recordedAt).then
      (o.unicode.localeCompare a.id b.id)) group with
    | [] => none
    | kept :: superseded =>
      some (⟨kept.id, superseded.map (·.id)⟩, superseded.map fun duplicate =>
        .claimSuperseded duplicate.id kept.id
          (some "consolidation merged a duplicate statement"))

def consolidateNow (now : String) :
    Except MemoryError (List MemoryEvent × MemoryConsolidationReport) := do
  let merges := (p.groups o).values.filterMap (mergeGroup o)
  let events := (merges.map Prod.snd).flatten
  let report : MemoryConsolidationReport := ⟨p.active.length, merges.map Prod.fst, now⟩
  if events = [] then return ([], report)
  let report ← parse (MemoryConsolidationReport.issues o.formats) report
  return (events ++ [.consolidationCompleted report], report)

def retractNow (claimId : String) (reason : Option String) :
    Except MemoryError (List MemoryEvent) :=
  match p.claims.get claimId with
  | none => .error (.claimNotFound claimId)
  | some _ => .ok [.claimRetracted claimId reason]

/-! ### Query and context -/

def mostRecent (claims : List MemoryClaim) (limit : ℤ) : List MemoryClaim :=
  slice (sortBy (fun a b => (o.unicode.localeCompare b.recordedAt a.recordedAt).then
    (o.unicode.localeCompare b.id a.id)) claims) limit

def eligible (query : MemoryQuery) (now : String) : List MemoryClaim :=
  p.claims.values.filter fun claim =>
    claim.status = .active && isValidAt claim now &&
      query.kinds.all (fun kinds => claim.kind ∈ kinds) &&
      query.subjectType.all (fun subjectType => claim.subject.type = subjectType)

def score (queryTerms : List (List ℕ)) (claim : MemoryClaim) : ℕ :=
  queryTerms.countP fun term => term ∈ (p.terms.get claim.id).getD []

/-- `clock` is the provider's clock. -/
def query (query : MemoryQuery) (clock : String) : List MemoryClaim :=
  let eligible := p.eligible query (query.now.getD clock)
  let limit := query.limit.getD 8
  let queryTerms := (tokenizeMemoryText o.unicode query.text).dedup
  if queryTerms = [] then mostRecent o eligible limit
  else
    let scored := (eligible.map fun claim => (claim, p.score queryTerms claim)).filter (0 < ·.2)
    (slice (sortBy (fun a b => (compare b.2 a.2).then
      ((o.unicode.localeCompare b.1.recordedAt a.1.recordedAt).then
        (o.unicode.localeCompare a.1.id b.1.id))) scored) limit).map Prod.fst

structure Assembly where
  included : List String := []
  claimIds : List String := []
  tokens : ℕ := 0
  omitted : ℕ := 0

def Assembly.add (budgetTokens : ℤ) (a : Assembly) (claim : MemoryClaim) : Assembly :=
  let candidateTokens :=
    estimateMemoryTokens ("\n".intercalate (a.included ++ [renderClaimLine claim]))
  if budgetTokens < candidateTokens then { a with omitted := a.omitted + 1 }
  else
    { a with
      included := a.included ++ [renderClaimLine claim]
      claimIds := a.claimIds ++ [claim.id]
      tokens := candidateTokens }

def buildContext (input : MemoryQuery) (budgetTokens : ℤ) (clock : String) : MemoryContext :=
  let a := (p.query o input clock).foldl (Assembly.add budgetTokens) {}
  ⟨"\n".intercalate a.included, a.claimIds, a.tokens, a.omitted⟩

end Projection

/-- `rebuild` of a stream that is read to its end: the projection that it leaves, and what it
throws. -/
def rebuild (o : EmbeddedMemoryOptions) (stream : List MemoryEvent) :
    Projection × Option MemoryError :=
  Projection.foldAll o {} stream

end BeeAgent.Memory
