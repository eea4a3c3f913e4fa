import BeeAgent.ModelProviders.OpenAiChat

/-! Failures of a provider request: what the transport throws, how the runtime classifies it, and
which failures the agent loop retries. -/
namespace BeeAgent.ModelProviders
open Data Framing
open BeeAgent.Runtime (AgentLoopOptions LoopError Retryability Task)

/-- What `fetch` or the reading of a body rejects with: an `Error`, or any other value. -/
inductive Thrown where
  | error (name message : String)
  | value (text : String)

/-- A body, as it comes in up to its end or to where reading it fails. -/
inductive Body where
  | missing
  | bytes (chunks : List (List UInt8)) (broken : Option Thrown)

structure Response where
  status : ℕ
  retryAfter : Option String
  contentType : Option String
  body : Body

/-- What comes of `fetch`, and whether the timer of the request had gone off. -/
inductive FetchOutcome where
  | rejected (thrown : Thrown) (timedOut : Bool)
  | response (response : Response)

/-- What the code throws. -/
inductive Failure where
  /-- A `ModelProviderError`. -/
  | provider (message : String) (status : Option ℕ) (retryAfterMs : Option ℚ)
  /-- A `ModelProtocolError`, which is a `ModelProviderError` too. -/
  | protocol (message : String)
  | thrown (thrown : Thrown)

structure LlmRuntimeError where
  message : String
  retryability : Retryability
  providerCode : Option String := none
  retryAfterMs : Option ℚ := none

/-- What a call rejects with. -/
inductive Rejection where
  | runtime (error : LlmRuntimeError)
  | unclassified (message : String)

inductive Settled where
  | completed (emitted : Emitted)
  | cancelled
  | rejected (rejection : Rejection)

/-- What the provider takes from outside: the engine, the text of code units, the number and the
date that a header reads as, the clock, and its own address and timeout. -/
structure Transport where
  js : Engine
  ofUnits : JsString → String
  number : String → Option ℚ
  dateParse : String → Option ℚ
  now : ℚ
  url : String
  timeoutMs : ℕ

namespace Response

def ok (response : Response) : Bool := 200 ≤ response.status && response.status < 300

def eventStream : List Char := "text/event-stream".toList

def streams (response : Response) : Bool :=
  ((response.contentType.getD "").toList.tails).any (eventStream.isPrefixOf ·)

end Response

/-- `response.text()`, as bytes. -/
def Body.read : Body → Except Thrown (List UInt8)
  | missing => .ok []
  | bytes chunks none => .ok chunks.flatten
  | bytes _ (some thrown) => .error thrown

section Posting
variable (p : Transport)

def retryAfterMs (response : Response) : Option ℚ :=
  response.retryAfter.bind fun raw =>
    match (p.number raw).filter (0 ≤ ·) with
    | some seconds => some (seconds * 1000)
    | none => (p.dateParse raw).map fun date => max 0 (date - p.now)

def safeJsonParse (body : List UInt8) : Option Json :=
  let (cs, decoder) := Utf8.TextDecoder.read {} body
  let text := cs ++ decoder.finish
  if text.isEmpty then none else p.js.parse (units text)

def errorMessage (error : Json) : String :=
  ((error.record?.bind (Json.textAt "message")).map p.ofUnits).getD "unknown error"

/-- An `error` that is an object, an array or `null` is asked for its message. -/
def refusalMessage (status : ℕ) (parsed : Option Json) : String :=
  match (parsed.bind Json.record?).bind (Json.property? "error") with
  | some .null => errorMessage p .null
  | some (.array items) => errorMessage p (.array items)
  | some (.object fields) => errorMessage p (.object fields)
  | _ => "HTTP " ++ toString status

def postForStream (aborted : Bool) : FetchOutcome → Except Failure Response
  | .rejected (.error name message) timedOut =>
    if aborted then .error (.thrown (.error name message))
    else if name = "TimeoutError" ∨ timedOut then
      .error (.provider
        ("Request to " ++ p.url ++ " timed out after " ++ toString p.timeoutMs ++ "ms") none none)
    else .error (.thrown (.error name message))
  | .rejected (.value text) _ => .error (.thrown (.value text))
  | .response response =>
    if response.ok then .ok response
    else
      match response.body.read with
      | .error thrown => .error (.thrown thrown)
      | .ok body => .error (.provider ("Model provider rejected the request: " ++
          refusalMessage p response.status (safeJsonParse p body)) (some response.status)
          (retryAfterMs p response))

end Posting

def isAbortError : Failure → Bool
  | .thrown (.error name _) => name = "AbortError"
  | _ => false

/-- `/context|length|token/i` -/
def mentionsContext (message : String) : Bool :=
  (message.toList.map Char.toLower).tails.any fun rest =>
    "context".toList.isPrefixOf rest || "length".toList.isPrefixOf rest ||
      "token".toList.isPrefixOf rest

def classifyStatus (message : String) (status : ℕ) (retryAfterMs : Option ℚ) : LlmRuntimeError :=
  let retryAfterMs := retryAfterMs.filter (0 < ·)
  if status = 401 ∨ status = 403 then ⟨message, .fatal, some (toString status), retryAfterMs⟩
  else if status = 429 then ⟨message, .retryable, some "429", retryAfterMs⟩
  else if 500 ≤ status then ⟨message, .retryable, some (toString status), retryAfterMs⟩
  else if mentionsContext message then ⟨message, .contextOverflow, some (toString status), none⟩
  else ⟨message, .fatal, some (toString status), retryAfterMs⟩

def classifyProviderError : Failure → LlmRuntimeError
  | .provider message status retryAfterMs => classifyStatus message (status.getD 0) retryAfterMs
  | .protocol message => classifyStatus message 0 none
  | .thrown (.error _ message) => ⟨message, .retryable, none, none⟩
  | .thrown (.value text) => ⟨text, .fatal, none, none⟩

section Running
variable (p : Transport) (context : CallContext)

/-- A stream that breaks off gives what it came to if it was done before. -/
def readSse (chunks : List (List UInt8)) : Option Thrown → Except Failure Emitted
  | none => (runSse p.js context chunks).mapError .protocol
  | some thrown =>
    match handleEvents p.js {} (readAll findSeparator {} chunks).1 with
    | .error message => .error (.protocol message)
    | .ok (st, true) => .ok (settleSse p.js context st)
    | .ok (_, false) => .error (.thrown thrown)

/-- The catch clauses of `#run`, `#runSse` and `#runBuffered`. -/
def caught (aborted : Bool) (failure : Failure) : Settled :=
  if isAbortError failure ∨ aborted then .cancelled
  else .rejected (.runtime (classifyProviderError failure))

def consumeSse (aborted : Bool) : Body → Settled
  | .missing => .rejected (.unclassified "Streaming response has no body")
  | .bytes chunks broken =>
    match readSse p context chunks broken with
    | .ok emitted => .completed emitted
    | .error (.protocol message) =>
      if aborted then .cancelled else .rejected (.unclassified message)
    | .error failure => caught aborted failure

def consumeBuffered (aborted : Bool) (body : Body) : Settled :=
  match body.read with
  | .error thrown => caught aborted (.thrown thrown)
  | .ok bytes =>
    match runBuffered p.js context bytes with
    | .ok emitted => .completed emitted
    | .error message => .rejected (.unclassified message)

/-- `#run` behind the assembly of its request; `aborted` tells whether the caller has given up. -/
def run (aborted : Bool) (outcome : FetchOutcome) : Settled :=
  match postForStream p aborted outcome with
  | .error failure => caught aborted failure
  | .ok response =>
    if response.streams then consumeSse p context aborted response.body
    else consumeBuffered p context aborted response.body

end Running

/-- What the loop is told of a rejection. -/
def Rejection.toLoop : Rejection → LoopError
  | .runtime error => ⟨error.message, some error.retryability⟩
  | .unclassified message => ⟨message, none⟩

def retryDelayMs (override initial : Option ℚ) (retry : ℕ) : Rejection → ℚ
  | .runtime { retryAfterMs := some ms, .. } =>
    override.getD (if 0 < ms then ms else min (initial.getD 250 * Nat.pow 2 (retry - 1)) 30000)
  | _ => override.getD (min (initial.getD 250 * Nat.pow 2 (retry - 1)) 30000)

/-! ### What a failure is to come to -/

/-- What went wrong with a request, on the side of the provider. -/
inductive Cause where
  | unanswered (thrown : Thrown) (timedOut : Bool)
  | refused (response : Response)
  | broken (thrown : Thrown)
  | malformed (message : String)

def causeOf (p : Transport) (context : CallContext) : FetchOutcome → Option Cause
  | .rejected thrown timedOut => some (.unanswered thrown timedOut)
  | .response response =>
    if !response.ok then some (.refused response)
    else if response.streams then
      match response.body with
      | .missing => some (.malformed "Streaming response has no body")
      | .bytes chunks none =>
        match runSse p.js context chunks with
        | .ok _ => none
        | .error message => some (.malformed message)
      | .bytes chunks (some thrown) =>
        match handleEvents p.js {} (readAll findSeparator {} chunks).1 with
        | .error message => some (.malformed message)
        | .ok (_, true) => none
        | .ok (_, false) => some (.broken thrown)
    else
      match response.body.read with
      | .error thrown => some (.broken thrown)
      | .ok bytes =>
        match runBuffered p.js context bytes with
        | .ok _ => none
        | .error message => some (.malformed message)

namespace Cause

/-- The HTTP status that a failure carries. -/
def status : Cause → Option ℕ
  | refused response => some response.status
  | _ => none

/-- The delay that the provider asks for. -/
def delay (p : Transport) : Cause → Option ℚ
  | refused response => retryAfterMs p response
  | _ => none

/-- A failure without a status, a 429 or a 5xx. -/
def Transient (cause : Cause) : Prop :=
  ∀ status, cause.status = some status → status = 429 ∨ 500 ≤ status

end Cause

/-- The loop goes on with the same messages while retries are left, after the delay asked for. -/
structure Retried (rejection : Rejection) (delay : Option ℚ) : Prop where
  again : ∀ (o : AgentLoopOptions) log nextId task attempt, task.pc = .awaitingResult attempt →
    task.aborted = false → attempt.retry < o.maxRetries →
    ∃ step, Runtime.taskStep o log nextId task (.resultThrown rejection.toLoop) = some step ∧
      step.next = .continue (task.goto (.attempting (attempt.retry + 1) attempt.messages))
  waits : ∀ ms, delay = some ms → ∀ initial retry, retryDelayMs none initial retry rejection = ms

/-- What a failure is to come to. -/
structure Handled (p : Transport) (cause : Cause) (settled : Settled) : Prop where
  transient : cause.Transient → ∃ error, settled = .rejected (.runtime error) ∧
    error.retryability = .retryable ∧ error.retryAfterMs = cause.delay p ∧
    Retried (.runtime error) (cause.delay p)
  lasting : ∀ error status, settled = .rejected (.runtime error) → cause.status = some status →
    error.retryability ≠ .retryable → 400 ≤ status ∧ status < 500 ∧ status ≠ 429

/-- The failures that keep what they are: requests and bodies that reject with an `Error` which is
no abort, where the timer has not gone off; and refusals from 400 on, the delay of which, if it
matters and is given, is positive and not lost with an unreadable body. -/
def Cause.Kept (p : Transport) : Cause → Prop
  | .unanswered (.error name _) timedOut =>
    timedOut = false ∧ name ≠ "TimeoutError" ∧ name ≠ "AbortError"
  | .unanswered (.value _) _ => False
  | .refused response =>
    match response.body.read with
    | .ok _ => 400 ≤ response.status ∧
      (response.status = 429 ∨ 500 ≤ response.status →
        ∀ ms, retryAfterMs p response = some ms → 0 < ms)
    | .error (.error name _) => response.status = 429 ∨ 500 ≤ response.status →
      name ≠ "AbortError" ∧ retryAfterMs p response = none
    | .error (.value _) => 400 ≤ response.status ∧ response.status < 500 ∧ response.status ≠ 429
  | .broken (.error name _) => name ≠ "AbortError"
  | .broken (.value _) => False
  | .malformed _ => False

variable {p : Transport} {context : CallContext} {outcome : FetchOutcome} {cause : Cause}

theorem retried_of_retryable {error : LlmRuntimeError} {delay : Option ℚ}
    (h : error.retryability = .retryable) (hdelay : error.retryAfterMs = delay)
    (hpositive : ∀ ms, delay = some ms → 0 < ms) : Retried (.runtime error) delay := by
  refine ⟨fun o log nextId task attempt hpc habort hretry => ?_, fun ms hms initial retry => ?_⟩
  · refine ⟨Runtime.resultThrownStep o task attempt (Rejection.toLoop (.runtime error)),
      by simp [Runtime.taskStep, hpc], ?_⟩
    simp [Runtime.resultThrownStep, Rejection.toLoop, Runtime.attemptCaught, h, habort, hretry]
  · obtain ⟨message, retryability, code, retryAfterMs⟩ := error
    simp only at hdelay
    subst hdelay hms
    simp [retryDelayMs, hpositive ms rfl]

/-- How a failure settles, when the caller has not given up. -/
def settledOf (p : Transport) : Cause → Settled
  | .unanswered (.error name message) timedOut =>
    if name = "TimeoutError" ∨ timedOut then
      .rejected (.runtime (classifyStatus
        ("Request to " ++ p.url ++ " timed out after " ++ toString p.timeoutMs ++ "ms") 0 none))
    else caught false (.thrown (.error name message))
  | .unanswered (.value text) _ => caught false (.thrown (.value text))
  | .refused response =>
    match response.body.read with
    | .error thrown => caught false (.thrown thrown)
    | .ok body => .rejected (.runtime (classifyStatus ("Model provider rejected the request: " ++
        refusalMessage p response.status (safeJsonParse p body)) response.status
        (retryAfterMs p response)))
  | .broken thrown => caught false (.thrown thrown)
  | .malformed message => .rejected (.unclassified message)

theorem run_of_cause (h : causeOf p context outcome = some cause) :
    run p context false outcome = settledOf p cause := by
  cases outcome with
  | rejected thrown timedOut =>
    cases h
    cases thrown with
    | error name message =>
      by_cases htimeout : name = "TimeoutError" ∨ timedOut = true
      · simp [run, postForStream, settledOf, htimeout, caught, isAbortError, classifyProviderError]
      · simp [run, postForStream, settledOf, htimeout]
    | value text => rfl
  | response response =>
    simp only [causeOf] at h
    simp only [run, postForStream]
    cases hok : response.ok with
    | false =>
      simp only [hok, Bool.not_false, if_true, Option.some.injEq] at h
      subst h
      simp only [Bool.false_eq_true, if_false, settledOf]
      cases response.body.read with
      | error thrown => rfl
      | ok body => simp [caught, isAbortError, classifyProviderError]
    | true =>
      simp only [hok, Bool.not_true, Bool.false_eq_true, if_false] at h
      simp only [if_true]
      cases hstreams : response.streams with
      | true =>
        simp only [hstreams, if_true] at h ⊢
        rcases hbody : response.body with _ | ⟨chunks, _ | thrown⟩ <;> simp only [hbody] at h
        · cases h
          rfl
        · rcases hrun : runSse p.js context chunks with message | emitted
          · simp only [hrun, Option.some.injEq] at h
            subst h
            simp [consumeSse, readSse, hrun, Except.mapError, settledOf]
          · simp [hrun] at h
        · rcases hevents : handleEvents p.js {} (readAll findSeparator {} chunks).1 with
            message | ⟨st, _ | _⟩
          · simp only [hevents, Option.some.injEq] at h
            subst h
            simp [consumeSse, readSse, hevents, settledOf]
          · simp only [hevents, Option.some.injEq] at h
            subst h
            simp [consumeSse, readSse, hevents, settledOf]
          · simp [hevents] at h
      | false =>
        simp only [hstreams, Bool.false_eq_true, if_false] at h ⊢
        rcases hread : response.body.read with thrown | bytes
        · simp only [hread, Option.some.injEq] at h
          subst h
          simp [consumeBuffered, hread, settledOf]
        · rcases hrun : runBuffered p.js context bytes with message | emitted
          · simp only [hread, hrun, Option.some.injEq] at h
            subst h
            simp [consumeBuffered, hread, hrun, settledOf]
          · simp [hread, hrun] at h

theorem mem_filter_pos {delay : Option ℚ} :
    delay.filter (0 < ·) = delay ↔ ∀ ms, delay = some ms → 0 < ms := by
  cases delay with
  | none => simp
  | some ms => simp [Option.filter]

theorem classifyStatus_transient (message : String) {status : ℕ} (delay : Option ℚ)
    (h : status = 429 ∨ 500 ≤ status) :
    (classifyStatus message status delay).retryability = .retryable ∧
      (classifyStatus message status delay).retryAfterMs = delay.filter (0 < ·) := by
  rw [classifyStatus, if_neg (by omega)]
  by_cases hlimit : status = 429
  · simp [hlimit]
  · have hserver : 500 ≤ status := h.resolve_left hlimit
    simp [hlimit, hserver]

theorem classifyStatus_lasting (message : String) {status : ℕ} (delay : Option ℚ)
    (h : ¬ (status = 429 ∨ 500 ≤ status)) :
    (classifyStatus message status delay).retryability ≠ .retryable := by
  rw [not_or] at h
  simp only [classifyStatus, if_neg h.1, if_neg h.2]
  split
  · simp
  · split <;> simp

theorem not_transient_zero : ¬ ((0 : ℕ) = 429 ∨ 500 ≤ (0 : ℕ)) := by decide

theorem handled_of_transient_none {settled : Settled} (hstatus : cause.status = none)
    (hdelay : cause.delay p = none) :
    Handled p cause settled ↔
      ∃ error, settled = .rejected (.runtime error) ∧ error.retryability = .retryable ∧
        error.retryAfterMs = none := by
  constructor
  · intro h
    obtain ⟨error, hsettled, hretryable, hms, -⟩ := h.transient fun status hs => by
      rw [hstatus] at hs
      cases hs
    exact ⟨error, hsettled, hretryable, hms.trans hdelay⟩
  · rintro ⟨error, hsettled, hretryable, hms⟩
    refine ⟨fun _ => ⟨error, hsettled, hretryable, hms.trans hdelay.symm, ?_⟩,
      fun _ status _ hs => ?_⟩
    · rw [hdelay]
      exact retried_of_retryable hretryable hms fun ms hms => by cases hms
    · rw [hstatus] at hs
      cases hs

/-- What is thrown and no error of the package ends as retryable when it is an `Error` and no
abort. -/
theorem caught_retryable_iff (thrown : Thrown) :
    (∃ error, caught false (.thrown thrown) = .rejected (.runtime error) ∧
      error.retryability = .retryable ∧ error.retryAfterMs = none) ↔
      ∃ name message, thrown = .error name message ∧ name ≠ "AbortError" := by
  cases thrown with
  | error name message =>
    by_cases h : name = "AbortError" <;> simp [caught, isAbortError, classifyProviderError, h]
  | value text => simp [caught, isAbortError, classifyProviderError]

theorem delay_of_caught {aborted : Bool} {thrown : Thrown} {error : LlmRuntimeError}
    (h : caught aborted (.thrown thrown) = .rejected (.runtime error)) :
    error.retryAfterMs = none := by
  simp only [caught] at h
  by_cases habort : isAbortError (.thrown thrown) = true ∨ aborted = true
  · rw [if_pos habort] at h
    cases h
  · rw [if_neg habort] at h
    cases h
    cases thrown <;> rfl

/-- How a refusal whose body can be read ends. -/
theorem handled_refused_iff {response : Response} {message : String} :
    Handled p (.refused response)
        (.rejected (.runtime (classifyStatus message response.status (retryAfterMs p response)))) ↔
      400 ≤ response.status ∧ (response.status = 429 ∨ 500 ≤ response.status →
        ∀ ms, retryAfterMs p response = some ms → 0 < ms) := by
  by_cases htransient : response.status = 429 ∨ 500 ≤ response.status
  · obtain ⟨hretryable, hms⟩ := classifyStatus_transient message
      (retryAfterMs p response) htransient
    constructor
    · intro h
      obtain ⟨error, hsettled, -, hdelay, -⟩ := h.transient fun status hs => by
        cases hs
        exact htransient
      cases hsettled
      exact ⟨by omega, fun _ => mem_filter_pos.mp (hms.symm.trans hdelay)⟩
    · rintro ⟨-, hpositive⟩
      have hpositive := hpositive htransient
      have hms := hms.trans (mem_filter_pos.mpr hpositive)
      refine ⟨fun _ => ⟨_, rfl, hretryable, hms, retried_of_retryable hretryable hms hpositive⟩,
        fun error status hsettled _ hne => ?_⟩
      cases hsettled
      exact absurd hretryable hne
  · have hlasting := classifyStatus_lasting message (retryAfterMs p response) htransient
    constructor
    · intro h
      have := h.lasting _ _ rfl rfl hlasting
      exact ⟨this.1, fun ht => absurd ht htransient⟩
    · rintro ⟨hclient, -⟩
      refine ⟨fun ht => absurd (ht _ rfl) htransient, fun error status _ hs _ => ?_⟩
      cases hs
      omega

/-- How a refusal whose body cannot be read ends. -/
theorem handled_unreadable_iff {response : Response} (thrown : Thrown) :
    Handled p (.refused response) (caught false (.thrown thrown)) ↔
      match thrown with
      | .error name _ => response.status = 429 ∨ 500 ≤ response.status →
        name ≠ "AbortError" ∧ retryAfterMs p response = none
      | .value _ => 400 ≤ response.status ∧ response.status < 500 ∧ response.status ≠ 429 := by
  have hcaught := caught_retryable_iff thrown
  constructor
  · intro h
    have hretried : (response.status = 429 ∨ 500 ≤ response.status) →
        (∃ name message, thrown = .error name message ∧ name ≠ "AbortError") ∧
          retryAfterMs p response = none := by
      intro htransient
      obtain ⟨error, hsettled, hretryable, hms, -⟩ := h.transient fun status hs => by
        cases hs
        exact htransient
      have hnone : error.retryAfterMs = none := delay_of_caught hsettled
      exact ⟨hcaught.mp ⟨error, hsettled, hretryable, hnone⟩, hms.symm.trans hnone⟩
    cases thrown with
    | error name message =>
      intro htransient
      obtain ⟨⟨_, _, heq, hne⟩, hdelay⟩ := hretried htransient
      cases heq
      exact ⟨hne, hdelay⟩
    | value text =>
      exact h.lasting ⟨text, .fatal, none, none⟩ _ (by simp [caught, isAbortError,
        classifyProviderError]) rfl (by simp)
  · intro h
    cases thrown with
    | error name message =>
      refine ⟨fun ht => ?_, fun error status hsettled _ hne => ?_⟩
      · obtain ⟨hname, hdelay⟩ := h (ht _ rfl)
        obtain ⟨error, hsettled, hretryable, hms⟩ := hcaught.mpr ⟨name, message, rfl, hname⟩
        have hms : error.retryAfterMs = (Cause.refused response).delay p := hms.trans hdelay.symm
        exact ⟨error, hsettled, hretryable, hms, retried_of_retryable hretryable hms
          fun ms h => by rw [Cause.delay, hdelay] at h; cases h⟩
      · by_cases hname : name = "AbortError"
        · simp [caught, isAbortError, hname] at hsettled
        · simp [caught, isAbortError, classifyProviderError, hname] at hsettled
          exact absurd (congrArg LlmRuntimeError.retryability hsettled).symm hne
    | value text =>
      refine ⟨fun ht => ?_, fun error status _ hs _ => ?_⟩
      · have := ht _ rfl
        omega
      · cases hs
        exact h

/-- A failure comes to what it should exactly when it is kept. -/
theorem handled_iff (h : causeOf p context outcome = some cause) :
    Handled p cause (run p context false outcome) ↔ cause.Kept p := by
  rw [run_of_cause h]
  cases cause with
  | unanswered thrown timedOut =>
    rw [handled_of_transient_none rfl rfl]
    cases thrown with
    | error name message =>
      by_cases htimeout : name = "TimeoutError" ∨ timedOut = true
      · have hfatal := classifyStatus_lasting
          ("Request to " ++ p.url ++ " timed out after " ++ toString p.timeoutMs ++ "ms") none
          not_transient_zero
        refine iff_of_false ?_ fun hkept => ?_
        · rintro ⟨error, hsettled, hretryable, -⟩
          rw [settledOf, if_pos htimeout] at hsettled
          cases hsettled
          exact hfatal hretryable
        · rcases htimeout with hname | htimer
          · exact hkept.2.1 hname
          · exact Bool.false_ne_true (hkept.1.symm.trans htimer)
      · rw [settledOf, if_neg htimeout, caught_retryable_iff]
        rw [not_or, Bool.not_eq_true] at htimeout
        constructor
        · rintro ⟨_, _, heq, hne⟩
          cases heq
          exact ⟨htimeout.2, htimeout.1, hne⟩
        · exact fun hkept => ⟨name, message, rfl, hkept.2.2⟩
    | value text =>
      rw [settledOf, caught_retryable_iff]
      exact iff_of_false (by simp) id
  | refused response =>
    rcases hread : response.body.read with thrown | body
    · simp only [settledOf, hread, Cause.Kept, handled_unreadable_iff]
      cases thrown <;> rfl
    · simp only [settledOf, hread, Cause.Kept, handled_refused_iff]
  | broken thrown =>
    rw [handled_of_transient_none rfl rfl, settledOf, caught_retryable_iff]
    cases thrown with
    | error name message => simp [Cause.Kept]
    | value text => simp [Cause.Kept]
  | malformed message =>
    rw [handled_of_transient_none rfl rfl]
    exact iff_of_false (by simp [settledOf]) id

/-- A provider that gives up on a request after a minute. -/
def sampleTransport : Transport where
  js := ⟨fun _ => none, fun _ => []⟩
  ofUnits _ := ""
  number _ := none
  dateParse _ := none
  now := 0
  url := "https://api.example.com/v1/chat/completions"
  timeoutMs := 60000

theorem handled_iff_sample :
    causeOf sampleTransport ⟨fun _ => none, false⟩
        (.rejected (.error "TypeError" "fetch failed") false) =
      some (.unanswered (.error "TypeError" "fetch failed") false) ∧
    (Handled sampleTransport (.unanswered (.error "TypeError" "fetch failed") false)
        (run sampleTransport ⟨fun _ => none, false⟩ false
          (.rejected (.error "TypeError" "fetch failed") false)) ↔
      (Cause.unanswered (.error "TypeError" "fetch failed") false).Kept sampleTransport) :=
  ⟨rfl, handled_iff rfl⟩

/-- A request that times out before the headers is not retried. -/
theorem timeout_notHandled :
    ¬ Handled sampleTransport (.unanswered (.error "AbortError" "This operation was aborted") true)
      (run sampleTransport ⟨fun _ => none, false⟩ false
        (.rejected (.error "AbortError" "This operation was aborted") true)) := by
  intro h
  obtain ⟨error, hsettled, hretryable, -⟩ := h.transient fun status hs => by cases hs
  have hfatal := classifyStatus_lasting ("Request to " ++ sampleTransport.url ++
    " timed out after " ++ toString sampleTransport.timeoutMs ++ "ms") none not_transient_zero
  rw [run_of_cause rfl] at hsettled
  simp only [settledOf, or_true, if_true, Settled.rejected.injEq, Rejection.runtime.injEq] at hsettled
  exact hfatal (hsettled ▸ hretryable)

end BeeAgent.ModelProviders
