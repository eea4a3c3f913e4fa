import BeeAgent.Execution.Keychain

/-! Which strings of what an execution records and returns can hold a secret that was materialised
for it, in any interleaving of executions that share one keychain broker. -/
namespace BeeAgent.Execution
open BeeAgent.Data BeeAgent.Chronicle Transition

mutual
/-- Every string of a value: the keys of its objects and its string values. -/
def texts : Value → List String
  | .string s => [s]
  | .array items => itemTexts items
  | .object fields => fieldTexts fields
  | _ => []

def itemTexts : List Value → List String
  | [] => []
  | v :: vs => texts v ++ itemTexts vs

def fieldTexts : List (String × Value) → List String
  | [] => []
  | (k, v) :: fs => k :: texts v ++ fieldTexts fs
end

mutual
def keyTexts : Value → List String
  | .array items => itemKeys items
  | .object fields => fieldKeys fields
  | _ => []

def itemKeys : List Value → List String
  | [] => []
  | v :: vs => keyTexts v ++ itemKeys vs

def fieldKeys : List (String × Value) → List String
  | [] => []
  | (k, v) :: fs => k :: keyTexts v ++ fieldKeys fs
end

mutual
def leafTexts : Value → List String
  | .string s => [s]
  | .array items => itemLeaves items
  | .object fields => fieldLeaves fields
  | _ => []

def itemLeaves : List Value → List String
  | [] => []
  | v :: vs => leafTexts v ++ itemLeaves vs

def fieldLeaves : List (String × Value) → List String
  | [] => []
  | (_, v) :: fs => leafTexts v ++ fieldLeaves fs
end

def ActionResult.toValue (r : ActionResult) : Value :=
  .object ([("output", r.output), ("content", .string r.content)] ++
    optionalField "isError" (r.isError.map .boolean) ++ optionalField "worldDiff" r.worldDiff ++
    [("verification", strings r.verification)])

def EventType.text : EventType → String
  | .requested => "execution.requested"
  | .permissionSnapshot => "execution.permission_snapshot"
  | .authorized => "execution.authorized"
  | .approvalRequired => "execution.approval_required"
  | .denied => "execution.denied"
  | .started => "execution.started"
  | .completed => "execution.completed"
  | .failed => "execution.failed"

def event (eventType : EventType) (request : ActionRequest) (payload : Value) (draw : EventDraw) :
    Value :=
  .object [("eventType", .string eventType.text), ("actor", request.subject.toValue),
    ("threadId", .string request.scope.threadId), ("turnId", .string request.scope.turnId),
    ("structureVersion", request.structureVersion.elim .undefined .string), ("payload", payload),
    ("eventId", .string draw.eventId), ("schemaVersion", .number (.ofNat 1)),
    ("eventTime", .string draw.eventTime), ("correlationId", .string draw.eventId),
    ("classification", .string "internal"), ("retentionClass", .string "default")]

/-- What a terminal event carries. -/
@[simp] def ExecutionPayload.concluding? : ExecutionPayload → Option (EventType × Value)
  | .completed requestId result =>
    some (.completed, .object [("requestId", .string requestId), ("result", result.toValue)])
  | .failed requestId message =>
    some (.failed, .object [("requestId", .string requestId), ("message", .string message)])
  | _ => none

def ExecutionOutcome.toValue : ExecutionOutcome → Value
  | .result r replayed =>
    .object [("kind", .string "result"), ("result", r.toValue),
      ("replayed", .boolean replayed)]
  | .approvalRequired approvalId title detail =>
    .object [("kind", .string "approval-required"), ("approvalId", .string approvalId),
      ("title", .string title), ("detail", .string detail)]
  | .denied reason => .object [("kind", .string "denied"), ("reason", .string reason)]
  | .reconciliationRequired reason =>
    .object [("kind", .string "reconciliation-required"), ("reason", .string reason)]

/-- Every string of the recorded event and of the returned value. -/
def Report.texts (r : Report) : List String :=
  (r.payload.concluding?.elim [] fun p => Execution.texts (event p.1 r.request p.2 r.draw)) ++
    Execution.texts r.outcome.toValue

def Occurs (secret text : String) : Prop := secret.toList <:+: text.toList

instance (secret text : String) : Decidable (Occurs secret text) :=
  inferInstanceAs (Decidable (secret.toList <:+: text.toList))

def Report.Clean (r : Report) : Prop :=
  ∀ text ∈ r.texts, ∀ secret ∈ r.secrets, ¬ Occurs secret text

instance (r : Report) : Decidable r.Clean :=
  inferInstanceAs (Decidable (∀ text ∈ r.texts, ∀ secret ∈ r.secrets, ¬ Occurs secret text))

/-- How the sandbox leaves the try block. -/
inductive Ending where
  | completed (result : ActionResult) (worldDiff : Value)
  | failed (rawMessage : String)

def ending? (sha256 : String → String) (request : ActionRequest) (stream : List ExecutionEvent)
    (nextEventId : ℕ) : ExecutePc → Await → Option Ending
  | .observing result, .diff worldDiff => some (.completed result worldDiff)
  | .materializing _, .thrown message | .snapshotting _, .thrown message
  | .invoking _, .thrown message | .observing _, .thrown message
  | .positioning _ (.conclude _), .thrown message
  | .appending _ _ (.conclude _), .thrown message => some (.failed message)
  | .appending expectedSequence events (.conclude _), .ok =>
    match append stream (stamp nextEventId events) expectedSequence with
    | .ok _ => none
    | .error conflict =>
      some (.failed (ExecutionError.sequenceConflict
        (executionStreamId sha256 request.idempotencyKey) conflict).message)
  | _, _ => none

namespace Ending

/-- The strings that leave as they are: what the request, the clock and the code itself put in,
the keys of the values and the verification records. -/
def untouched (request : ActionRequest) (draw : EventDraw) : Ending → List String
  | .completed result worldDiff =>
    texts (event .completed request .undefined draw) ++
      ["requestId", request.id, "kind", "result", "replayed", "output", "content"] ++
      result.isError.elim [] (fun _ => ["isError"]) ++ ["worldDiff", "verification"] ++
      result.verification ++ keyTexts result.output ++ keyTexts worldDiff
  | .failed rawMessage =>
    texts (event .failed request .undefined draw) ++
      ["requestId", request.id, "message", "kind", "result", "replayed", "output", "error",
        "content", "isError", "verification"] ++
      if rawMessage = "" then ["Unknown execution failure"] else []

/-- The strings that pass through the broker. -/
def redacted : Ending → List String
  | .completed result worldDiff =>
    result.content :: leafTexts result.output ++ leafTexts worldDiff
  | .failed rawMessage => [rawMessage]

def payload (broker : SecretBroker) (request : ActionRequest) : Ending → ExecutionPayload
  | .completed result worldDiff =>
    .completed request.id (safeResult ⟨id, some broker⟩ result worldDiff)
  | .failed rawMessage =>
    .failed request.id
      (if broker.redact rawMessage = "" then "Unknown execution failure"
        else broker.redact rawMessage)

def outcome (broker : SecretBroker) : Ending → ExecutionOutcome
  | .completed result worldDiff => .result (safeResult ⟨id, some broker⟩ result worldDiff) false
  | .failed rawMessage =>
    .result
      { output := .object [("error", .string (broker.redact rawMessage))],
        content := broker.redact rawMessage, isError := some true } false

def after (broker : SecretBroker) (e : Ending) : After :=
  match e with
  | .completed .. => .conclude (e.outcome broker)
  | .failed _ => .concludeFailed (e.outcome broker)

def report (broker : SecretBroker) (c : ℕ) (secrets : List String) (request : ActionRequest)
    (draw : EventDraw) (e : Ending) : Report :=
  ⟨c, secrets, request, draw, e.payload broker request, e.outcome broker⟩

end Ending

/-- The marker and the text around it spell no secret of the call, and no string that leaves
unredacted holds one. -/
structure SecuredWorld.Redactable (s : SecuredWorld) (c : ℕ) (request : ActionRequest)
    (draw : EventDraw) (e : Ending) : Prop where
  untouched : ∀ text ∈ e.untouched request draw, ∀ secret ∈ s.broker.resolved c,
    ¬ Occurs secret text
  redacted : ∀ text ∈ e.redacted, ∀ secret ∈ s.broker.resolved c,
    ¬ Replacement.Spelled secret.toList (Replacement.cutAll
      (s.broker.secrets.map String.toList) KeychainSecretBroker.marker.toList text.toList)

instance (s : SecuredWorld) (c : ℕ) (request : ActionRequest) (draw : EventDraw) (e : Ending) :
    Decidable (s.Redactable c request draw e) :=
  decidable_of_iff (_ ∧ _) ⟨fun h => ⟨h.1, h.2⟩, fun h => ⟨h.untouched, h.redacted⟩⟩

/-! ### The strings of a report -/

section Texts
variable {broker : SecretBroker} {request : ActionRequest} {draw : EventDraw} {text : String}

mutual
theorem mem_texts_redactUnknown (v : Value) :
    text ∈ texts (redactUnknown broker v) ↔
      text ∈ keyTexts v ∨ ∃ leaf ∈ leafTexts v, broker.redact leaf = text := by
  match v with
  | .string s =>
    simp only [redactUnknown, texts, keyTexts, leafTexts, List.mem_singleton, List.not_mem_nil,
      false_or, exists_eq_left]
    exact eq_comm
  | .array items => simpa [redactUnknown, texts, keyTexts, leafTexts] using mem_itemTexts items
  | .object fields => simpa [redactUnknown, texts, keyTexts, leafTexts] using mem_fieldTexts fields
  | .undefined | .null | .boolean _ | .number _ => simp [redactUnknown, texts, keyTexts, leafTexts]

theorem mem_itemTexts (vs : List Value) :
    text ∈ itemTexts (redactItems broker vs) ↔
      text ∈ itemKeys vs ∨ ∃ leaf ∈ itemLeaves vs, broker.redact leaf = text := by
  match vs with
  | [] => simp [redactItems, itemTexts, itemKeys, itemLeaves]
  | v :: vs =>
    simp only [redactItems, itemTexts, itemKeys, itemLeaves, List.mem_append,
      mem_texts_redactUnknown v, mem_itemTexts vs, or_and_right, exists_or]
    exact or_or_or_comm

theorem mem_fieldTexts (fs : List (String × Value)) :
    text ∈ fieldTexts (redactFields broker fs) ↔
      text ∈ fieldKeys fs ∨ ∃ leaf ∈ fieldLeaves fs, broker.redact leaf = text := by
  match fs with
  | [] => simp [redactFields, fieldTexts, fieldKeys, fieldLeaves]
  | (k, v) :: fs =>
    simp only [redactFields, fieldTexts, fieldKeys, fieldLeaves, List.mem_append, List.mem_cons,
      mem_texts_redactUnknown v, mem_fieldTexts fs, or_and_right, exists_or]
    rw [← or_assoc, ← or_assoc (a := text = k), or_or_or_comm,
      or_assoc (a := text = k)]
    exact or_assoc
end

theorem mem_itemTexts_strings (ss : List String) :
    text ∈ itemTexts (ss.map .string) ↔ text ∈ ss := by
  induction ss with
  | nil => simp [itemTexts]
  | cons s ss ih => simp [itemTexts, texts, ih]

theorem fieldTexts_append (fs gs : List (String × Value)) :
    fieldTexts (fs ++ gs) = fieldTexts fs ++ fieldTexts gs := by
  induction fs with
  | nil => rfl
  | cons f fs ih => simp [fieldTexts, ih]

theorem mem_texts_event (eventType : EventType) (payload : Value) :
    text ∈ texts (event eventType request payload draw) ↔
      text ∈ texts (event eventType request .undefined draw) ∨ text ∈ texts payload := by
  simp only [event, texts, fieldTexts, List.mem_cons, List.mem_append]
  grind

theorem mem_texts_safeResult (result : ActionResult) (worldDiff : Value) :
    text ∈ texts (safeResult ⟨id, some broker⟩ result worldDiff).toValue ↔
      text ∈ ["output", "content", "worldDiff", "verification"] ++
          result.isError.elim [] (fun _ => ["isError"]) ++ result.verification ++
          keyTexts result.output ++ keyTexts worldDiff ∨
        ∃ leaf ∈ result.content :: leafTexts result.output ++ leafTexts worldDiff,
          broker.redact leaf = text := by
  have herror : text ∈ fieldTexts (optionalField "isError" (result.isError.map .boolean)) ↔
      text ∈ result.isError.elim [] (fun _ => ["isError"]) := by
    cases result.isError <;> simp [optionalField, fieldTexts, texts]
  have hdiff : ∀ v, optionalField "worldDiff" (some v) = [("worldDiff", v)] := fun _ => rfl
  simp only [ActionResult.toValue, safeResult, hdiff, texts, fieldTexts, fieldTexts_append, strings,
    List.mem_append, List.mem_cons, mem_texts_redactUnknown, mem_itemTexts_strings, herror,
    List.cons_append, List.nil_append, List.not_mem_nil, or_false, or_and_right, exists_or,
    exists_eq_left]
  grind

/-- The strings of a report are those that leave as they are and what the broker makes of the
others. -/
theorem Ending.mem_texts (hredact : ∀ s, broker.redact s = "" ↔ s = "") (e : Ending) (c : ℕ)
    (secrets : List String) :
    text ∈ (e.report broker c secrets request draw).texts ↔
      text ∈ e.untouched request draw ∨ ∃ source ∈ e.redacted, broker.redact source = text := by
  cases e with
  | completed result worldDiff =>
    simp only [Report.texts, Ending.report, Ending.payload, Ending.outcome,
      ExecutionPayload.concluding?, Option.elim_some, List.mem_append]
    rw [mem_texts_event]
    simp only [ExecutionOutcome.toValue, texts, fieldTexts, List.mem_cons, List.mem_append,
      mem_texts_safeResult, Ending.untouched, Ending.redacted, List.not_mem_nil, or_false]
    grind
  | failed rawMessage =>
    simp only [Report.texts, Ending.report, Ending.payload, Ending.outcome,
      ExecutionPayload.concluding?, Option.elim_some, List.mem_append]
    rw [mem_texts_event]
    simp only [ExecutionOutcome.toValue, texts, fieldTexts, List.mem_cons, List.mem_append,
      Ending.untouched, Ending.redacted, hredact, ActionResult.toValue, optionalField, strings,
      Option.map_some, List.map_nil, itemTexts, List.not_mem_nil, or_false, exists_eq_left,
      fieldTexts_append, List.append_nil]
    have hempty := (hredact rawMessage).mpr
    split <;> simp <;> grind

end Texts

namespace KeychainSecretBroker
variable {broker : KeychainSecretBroker} {secret text : String}

theorem marker_ne_nil : marker.toList ≠ [] := by decide

theorem mem_secrets : secret ∈ broker.secrets ↔
    ∃ call ∈ broker.materialized.values, secret ∈ broker.resolved call := by
  rw [secrets, List.mem_insertionSort, List.mem_eraseDups, List.mem_flatMap]

theorem redact_toList (text : String) :
    (broker.redact text).toList = (broker.secrets.map String.toList).foldl
      (fun redacted key => Replacement.replaceAll key marker.toList redacted) text.toList := by
  rw [redact, String.toList_ofList, List.foldl_map]

theorem redact_eq_empty_iff (text : String) : broker.redact text = "" ↔ text = "" := by
  rw [← String.toList_eq_nil_iff, redact_toList,
    Replacement.foldl_replaceAll_eq_nil_iff marker_ne_nil, String.toList_eq_nil_iff]

/-- Of a secret that is not released, a redacted text holds only what a marker helps to spell. -/
theorem occurs_redact_iff (hsecret : secret ∈ broker.secrets) (hne : secret ≠ "") :
    Occurs secret (broker.redact text) ↔
      Replacement.Spelled secret.toList (Replacement.cutAll
        (broker.secrets.map String.toList) marker.toList text.toList) := by
  rw [Occurs, redact_toList]
  exact Replacement.infix_replaced_iff marker_ne_nil
    (fun h => hne (String.toList_eq_nil_iff.mp h)) (List.mem_map_of_mem hsecret)

end KeychainSecretBroker

def SecuredWorld.report (s : SecuredWorld) (c : ℕ) (request : ActionRequest) (draw : EventDraw)
    (e : Ending) : Report :=
  e.report ⟨s.broker.redact⟩ c (s.broker.resolved c) request draw

theorem SecuredWorld.report_clean_iff {s : SecuredWorld} {c : ℕ} {request : ActionRequest}
    {draw : EventDraw} {e : Ending}
    (hheld : s.broker.materialized.get request.id = some c) (hne : "" ∉ s.broker.resolved c) :
    (s.report c request draw e).Clean ↔ s.Redactable c request draw e := by
  have hsecrets : ∀ secret ∈ s.broker.resolved c, secret ∈ s.broker.secrets :=
    fun secret h => KeychainSecretBroker.mem_secrets.mpr
      ⟨c, OrderedMap.mem_values_iff.mpr ⟨_, hheld⟩, h⟩
  have hoccurs : ∀ text, ∀ secret ∈ s.broker.resolved c, Occurs secret (s.broker.redact text) ↔
      Replacement.Spelled secret.toList (Replacement.cutAll
        (s.broker.secrets.map String.toList) KeychainSecretBroker.marker.toList text.toList) :=
    fun text secret h => KeychainSecretBroker.occurs_redact_iff (hsecrets secret h)
      fun heq => hne (heq ▸ h)
  have hmem : ∀ text, text ∈ (s.report c request draw e).texts ↔
      text ∈ e.untouched request draw ∨ ∃ source ∈ e.redacted, s.broker.redact source = text :=
    fun _ => Ending.mem_texts KeychainSecretBroker.redact_eq_empty_iff e c (s.broker.resolved c)
  constructor
  · intro h
    exact ⟨fun text ht secret hs => h text ((hmem text).mpr (.inl ht)) secret hs,
      fun text ht secret hs => (hoccurs text secret hs).not.mp
        (h _ ((hmem _).mpr (.inr ⟨text, ht, rfl⟩)) secret hs)⟩
  · intro h text ht secret hs
    rcases (hmem text).mp ht with huntouched | ⟨source, hsource, rfl⟩
    · exact h.untouched text huntouched secret hs
    · exact (hoccurs source secret hs).not.mpr (h.redacted source hsource secret hs)

/-! ### The steps of a call -/

@[simp] def ExecutionPayload.Concluding (p : ExecutionPayload) : Prop := p.concluding?.isSome

@[simp] def ExecutionOutcome.IsResult : ExecutionOutcome → Prop
  | .result .. => True
  | _ => False

@[simp] def After.Concluding : After → Prop
  | .conclude _ | .concludeFailed _ => True
  | _ => False

/-- The await lies between `materialize` and `release`. -/
@[simp] def ExecutePc.Holds : ExecutePc → Prop
  | .materializing _ | .snapshotting _ | .invoking _ | .observing _ => True
  | .positioning _ after | .appending _ _ after => after.Concluding
  | _ => False

/-- The append behind which the code materialises the secrets. -/
@[simp] def ExecutePc.Starts : ExecutePc → Prop
  | .appending _ _ (.run _) => True
  | _ => False

instance : DecidablePred ExecutePc.Starts := fun pc =>
  match pc with
  | .appending _ _ (.run _) => .isTrue trivial
  | .appending _ _ (.decide _) | .appending _ _ (.enforce _ _ _) | .appending _ _ (.respond _)
  | .appending _ _ (.conclude _) | .appending _ _ (.concludeFailed _) => .isFalse id
  | .reading | .positioning _ _ | .deciding _ | .materializing _ | .snapshotting _ | .invoking _
  | .observing _ | .releasing _ => .isFalse id

@[simp] def ExecutePc.Sandboxed : ExecutePc → Prop
  | .snapshotting _ | .invoking _ | .observing _ => True
  | _ => False

/-- What the code runs on to before it asks for the sandbox. -/
inductive Preliminary (stream : List ExecutionEvent) : Next → Prop where
  | deciding {existing} : Preliminary stream (.goto (.deciding existing))
  | positioning {events after} (hafter : ¬ after.Concluding)
    (hrespond : ∀ outcome, after = .respond outcome → ¬ outcome.IsResult)
    (hevents : ∀ p ∈ events, ¬ p.Concluding) : Preliminary stream (appendThen events after)
  | replayed {result} (h : ∃ e ∈ stream, completedResult? e = some result) :
    Preliminary stream (.settle (.ok (.result result true)))
  | refused {reason} : Preliminary stream (.settle (.ok (.denied reason)))
  | reconcile {reason} : Preliminary stream (.settle (.ok (.reconciliationRequired reason)))
  | asked {approvalId title detail} :
    Preliminary stream (.settle (.ok (.approvalRequired approvalId title detail)))
  | rejected {error} : Preliminary stream (.settle (.error error))

/-- What one step of a call can do. -/
inductive BodyMove (sha256 : String → String) (broker : SecretBroker) (request : ActionRequest)
    (stream : List ExecutionEvent) (n : ℕ) (await : Await) : ExecutePc → BodyStep → Prop where
  | preliminary {pc b} (hpc : ¬ pc.Holds) (hnext : Preliminary stream b.next)
    (hstream : b.stream = stream) : BodyMove sha256 broker request stream n await pc b
  | position {events after k b} (hnext : b.next = .goto (.appending k events after))
    (hstream : b.stream = stream) :
    BodyMove sha256 broker request stream n await (.positioning events after) b
  | proceed {events after k b} (hafter : ¬ after.Concluding) (hnext : Preliminary stream b.next ∨
      (∃ outcome, after = .respond outcome ∧ b.next = .settle (.ok outcome)) ∨
      ∃ decision, after = .run decision ∧ b.next = .goto (.materializing decision))
    (hstream : b.stream = stream ∨ b.stream = stream ++ stamp n events) :
    BodyMove sha256 broker request stream n await (.appending k events after) b
  | run {pc pc' b} (hpc : pc.Holds) (hnext : b.next = .goto pc') (hpc' : pc'.Sandboxed)
    (hstream : b.stream = stream) : BodyMove sha256 broker request stream n await pc b
  | conclude {pc e b} (hpc : pc.Holds) (he : ending? sha256 request stream n pc await = some e)
    (hnext : b.next = appendThen [e.payload broker request] (e.after broker))
    (hstream : b.stream = stream) : BodyMove sha256 broker request stream n await pc b
  | recorded {k events after outcome b}
    (hafter : after = .conclude outcome ∨ after = .concludeFailed outcome)
    (hnext : b.next = .goto (.releasing (.ok outcome)))
    (hstream : b.stream = stream ∨ b.stream = stream ++ stamp n events) :
    BodyMove sha256 broker request stream n await (.appending k events after) b
  | lost {pc error b} (hpc : pc.Holds) (hnext : b.next = .goto (.releasing (.error error)))
    (hstream : b.stream = stream) : BodyMove sha256 broker request stream n await pc b
  | released {settlement b}
    (hnext : b.next = .settle settlement ∨ ∃ error, b.next = .settle (.error error))
    (hstream : b.stream = stream) :
    BodyMove sha256 broker request stream n await (.releasing settlement) b

section Steps
variable {sha256 : String → String} {broker : SecretBroker} {host : Host} {request : ActionRequest}
  {approval : Option ApprovalAnswer} {stream existing : List ExecutionEvent} {n : ℕ}
  {policy : PolicyAnswer} {decision : AuthorizationDecision}
  {capabilities : SandboxCapabilityReport} {pc : ExecutePc} {await : Await} {b : BodyStep}
  {e : Ending}

theorem replay_preliminary : Preliminary stream (replay host request stream) := by
  unfold replay
  dsimp only
  split
  · exact .positioning id (fun _ h => by cases h) (by simp)
  split
  · exact .rejected
  split
  · next result hresult => exact .replayed (List.exists_of_findSome?_eq_some hresult)
  split
  · exact .reconcile
  split
  · exact .refused
  · exact .deciding

theorem enforce_preliminary :
    Preliminary stream (enforce host request approval existing decision capabilities) := by
  unfold enforce denyWith
  dsimp only
  split_ifs
  all_goals first
    | exact .asked
    | exact .positioning id (by rintro _ ⟨⟩; exact id) (by simp)
    | exact .positioning id (fun _ h => by cases h) (by simp)

theorem authorize_preliminary :
    Preliminary stream (authorize host request approval existing policy capabilities) := by
  unfold authorize
  split
  · exact enforce_preliminary
  · exact .positioning id (fun _ h => by cases h) (by simp)


theorem bodyStep_move
    (h : bodyStep ⟨sha256, some broker⟩ request approval stream n pc await = some b) :
    BodyMove sha256 broker request stream n await pc b := by
  cases pc with
  | reading =>
    cases await <;> cases h
    · exact .preliminary id replay_preliminary rfl
    · exact .preliminary id .rejected rfl
  | positioning events after =>
    cases await <;> cases h
    · exact .position rfl rfl
    · next message =>
      cases after with
      | conclude outcome => exact .conclude trivial rfl rfl rfl
      | concludeFailed outcome => exact .lost trivial rfl rfl
      | decide | enforce | respond | run => exact .preliminary id .rejected rfl
  | appending k events after =>
    cases await with
    | ok =>
      simp only [bodyStep] at h
      split at h <;> cases h
      · next stream' happend =>
        have hstream := append_ok happend
        cases after with
        | decide existing => exact .proceed id (.inl .deciding) hstream
        | enforce existing decision capabilities =>
          exact .proceed id (.inl enforce_preliminary) hstream
        | respond outcome => exact .proceed id (.inr (.inl ⟨outcome, rfl, rfl⟩)) hstream
        | run decision => exact .proceed id (.inr (.inr ⟨decision, rfl, rfl⟩)) hstream
        | conclude outcome => exact .recorded (.inl rfl) rfl hstream
        | concludeFailed outcome => exact .recorded (.inr rfl) rfl hstream
      · next conflict happend =>
        cases after with
        | conclude outcome =>
          have he : ending? sha256 request stream n (.appending k events (.conclude outcome)) .ok =
              some (.failed (ExecutionError.sequenceConflict
                (executionStreamId sha256 request.idempotencyKey) conflict).message) := by
            simp only [ending?, happend]
          exact .conclude trivial he rfl rfl
        | concludeFailed outcome => exact .lost trivial rfl rfl
        | decide | enforce | respond | run => exact .preliminary id .rejected rfl
    | thrown message =>
      cases h
      cases after with
      | conclude outcome => exact .conclude trivial rfl rfl rfl
      | concludeFailed outcome => exact .lost trivial rfl rfl
      | decide | enforce | respond | run => exact .preliminary id .rejected rfl
    | capabilities | result | diff => cases h
  | deciding existing =>
    cases await <;> cases h
    · exact .preliminary id authorize_preliminary rfl
    · exact .preliminary id .rejected rfl
  | materializing decision =>
    cases await <;> cases h
    · exact .run trivial rfl trivial rfl
    · exact .conclude trivial rfl rfl rfl
  | snapshotting decision =>
    cases await <;> cases h
    · exact .run trivial rfl trivial rfl
    · exact .conclude trivial rfl rfl rfl
  | invoking decision =>
    cases await <;> cases h
    · exact .run trivial rfl trivial rfl
    · exact .conclude trivial rfl rfl rfl
  | observing result =>
    cases await <;> cases h
    · exact .conclude trivial rfl rfl rfl
    · exact .conclude trivial rfl rfl rfl
  | releasing settlement =>
    cases await <;> cases h
    · exact .released (.inl rfl) rfl
    · exact .released (.inr ⟨_, rfl⟩) rfl

theorem ending?_holds (he : ending? sha256 request stream n pc await = some e) : pc.Holds := by
  unfold ending? at he
  split at he
  case h_9 => cases he
  all_goals trivial

theorem bodyStep_ending (he : ending? sha256 request stream n pc await = some e)
    (h : bodyStep ⟨sha256, some broker⟩ request approval stream n pc await = some b) :
    b.next = appendThen [e.payload broker request] (e.after broker) := by
  unfold ending? at he
  split at he
  case h_8 k events outcome =>
    split at he <;> cases he
    next conflict happend =>
    simp only [bodyStep, happend] at h
    cases h
    rfl
  case h_9 => cases he
  all_goals
    cases he
    cases h
    rfl

end Steps

end BeeAgent.Execution
