import BeeAgent.Data.Access
import BeeAgent.Data.OrderedMap
import BeeAgent.Data.Parse
import BeeAgent.Runtime.ToolExecution

/-! The web tools: what they declare of a call, the origins that searches grant, and the network
sandbox between an action and the transport. -/
namespace BeeAgent.Web
open Data
open BeeAgent.Execution (ResourceRequirements)
open BeeAgent.Runtime (ToolActionDescriptor toolCallValue)
open BeeAgent.Thread (ToolCall)

/-! ### URLs -/

structure Url where
  protocol : String
  origin : String
  path : String
  searchParams : List (String × String) := []
  deriving DecidableEq

namespace Url

def isHttp (u : Url) : Bool := u.protocol = "https:" || u.protocol = "http:"

/-- `searchParams.set`: the first pair of the name takes the value, and the others go. -/
def setSearchParam (u : Url) (name value : String) : Url :=
  let before := u.searchParams.takeWhile fun pair => pair.1 ≠ name
  let after := u.searchParams.dropWhile fun pair => pair.1 ≠ name
  { u with searchParams := before ++ (name, value) :: after.tail.filter fun pair => pair.1 ≠ name }

end Url

/-- The platform's `new URL`, without a base and with one, and `toString`. A path behind the origin
of an HTTP URL makes a URL of that origin. -/
structure UrlParser where
  parse : String → Option Url
  resolve : String → Url → Option Url
  toText : Url → String
  parse_origin : ∀ text u path, parse text = some u → u.isHttp →
    (path = "" ∨ path.toList.head? = some '/') →
      ∃ v, parse (u.origin ++ path) = some v ∧ v.origin = u.origin

section
variable (urls : UrlParser)

def parseUrl (text : String) : Except String Url :=
  match urls.parse text with
  | some url => .ok url
  | none => .error "Invalid URL"

def originOf (url : String) : Except String String :=
  match urls.parse url with
  | none => .error "Invalid URL"
  | some parsed =>
    if parsed.isHttp then .ok parsed.origin
    else .error ("web_fetch supports http/https URLs only, got '" ++ url ++ "'")

/-- An origin that `originOf` gave. -/
def Origin := { origin : String // ∃ url, originOf urls url = .ok origin }

/-! ### Granted origins -/

structure SearchOriginGrants where
  expiryByOrigin : OrderedMap String ℕ
  ttlMs : ℕ

namespace SearchOriginGrants
variable {urls}

def grantUrl (urls : UrlParser) (grants : SearchOriginGrants) (expiry : ℕ) (url : String) :
    SearchOriginGrants :=
  match urls.parse url with
  | none => grants
  | some parsed =>
    if parsed.isHttp then
      { grants with expiryByOrigin := grants.expiryByOrigin.set parsed.origin expiry }
    else grants

def grant (urls : UrlParser) (grants : SearchOriginGrants) (now : ℕ) (granted : List String) :
    SearchOriginGrants :=
  granted.foldl (grantUrl urls · (now + grants.ttlMs)) grants

def has (grants : SearchOriginGrants) (now : ℕ) (origin : String) : Bool × SearchOriginGrants :=
  match grants.expiryByOrigin.get origin with
  | none => (false, grants)
  | some expiry =>
    if expiry < now then
      (false, { grants with expiryByOrigin := grants.expiryByOrigin.delete origin })
    else (true, grants)

end SearchOriginGrants

/-- `has`, on grants that a host may do without, when the static origins do not answer. -/
def dynamicHas (grants : Option SearchOriginGrants) (now : ℕ) (origin : String) :
    Bool × Option SearchOriginGrants :=
  match grants with
  | none => (false, none)
  | some grants => ((grants.has now origin).1, some (grants.has now origin).2)

/-! ### The tools -/

def DEFAULT_TIMEOUT_MS : ℕ := 20000
def DEFAULT_MAX_BYTES : ℕ := 65536

def field (key : String) : Value → Value
  | .object fields => ((fields.find? fun f => f.1 = key).map Prod.snd).getD .undefined
  | _ => .undefined

/-- A natural number, as its shortest decimal form shows it. -/
def natural? (x : Number) : Option ℕ :=
  if x.negative = false ∧ 0 ≤ x.exponent then some (x.digits * Nat.pow 10 x.exponent.toNat)
  else none

def naturalBetween (low high : ℕ) : Value → Option ℕ
  | .number x => (natural? x).filter fun n => low ≤ n && n ≤ high
  | _ => none

structure FetchInput where
  url : String
  maxBytes : Option ℕ

/-- `FetchInputSchema.parse` -/
def parseFetchInput (input : Value) : Except String FetchInput :=
  match field "url" input, field "maxBytes" input with
  | .string url, .undefined => if url = "" then .error "invalid input" else .ok ⟨url, none⟩
  | .string url, maxBytes =>
    match naturalBetween 256 DEFAULT_MAX_BYTES maxBytes with
    | some n => if url = "" then .error "invalid input" else .ok ⟨url, some n⟩
    | none => .error "invalid input"
  | _, _ => .error "invalid input"

/-- `SearchInputSchema.parse`, which only checks. -/
def parseSearchInput (input : Value) : Except String Unit :=
  match field "query" input with
  | .string query =>
    if query = "" ∨ 400 < (utf16 query).length then .error "invalid input"
    else
      match field "maxResults" input with
      | .undefined => .ok ()
      | maxResults =>
        match naturalBetween 1 10 maxResults with
        | some _ => .ok ()
        | none => .error "invalid input"
  | _ => .error "invalid input"

structure WebFetchToolAdapter where
  origins : List (Origin urls)
  maxTimeoutMs : ℕ := DEFAULT_TIMEOUT_MS
  maxBytes : ℕ := DEFAULT_MAX_BYTES

structure WebSearchToolAdapter where
  origin : Origin urls
  maxTimeoutMs : ℕ := DEFAULT_TIMEOUT_MS

variable {urls}

namespace WebFetchToolAdapter

def toolId : String := "web_fetch"

def allowedOrigins (adapter : WebFetchToolAdapter urls) : List String :=
  adapter.origins.map Subtype.val

def descriptor (adapter : WebFetchToolAdapter urls) (origin : String) (maxBytes : Option ℕ) :
    ToolActionDescriptor where
  capability := "tool:web_fetch"
  requirements :=
    { networkTargets := [origin]
      timeoutMs := some adapter.maxTimeoutMs
      maxOutputBytes := some (min (maxBytes.getD adapter.maxBytes) DEFAULT_MAX_BYTES) }
  expectedEffects := ["Send one read-only GET to " ++ origin ++ " (size-capped response)"]
  verification := ["HTTP status and bounded page text are returned to the model"]

/-- The description, and the grants, out of which an expired one is dropped. -/
def describe (adapter : WebFetchToolAdapter urls) (grants : Option SearchOriginGrants) (now : ℕ)
    (call : ToolCall) : Except String ToolActionDescriptor × Option SearchOriginGrants :=
  match parseFetchInput call.input with
  | .error message => (.error message, grants)
  | .ok input =>
    match originOf urls input.url with
    | .error message => (.error message, grants)
    | .ok origin =>
      if origin ∈ adapter.allowedOrigins then
        (.ok (adapter.descriptor origin input.maxBytes), grants)
      else
        match dynamicHas grants now origin with
        | (true, grants) => (.ok (adapter.descriptor origin input.maxBytes), grants)
        | (false, grants) =>
          (.error ("web_fetch origin '" ++ origin ++ "' is not allowlisted; allowed: " ++
            ", ".intercalate adapter.allowedOrigins ++
              " (or any origin returned by a recent web_search)"), grants)

end WebFetchToolAdapter

namespace WebSearchToolAdapter

def toolId : String := "web_search"

def descriptor (adapter : WebSearchToolAdapter urls) : ToolActionDescriptor where
  capability := "tool:web_search"
  requirements :=
    { networkTargets := [adapter.origin.1]
      timeoutMs := some adapter.maxTimeoutMs
      maxOutputBytes := some DEFAULT_MAX_BYTES }
  expectedEffects :=
    ["Send one search query to " ++ adapter.origin.1 ++ " (structured results only)"]
  verification := ["Ranked results with title, URL, and snippet return"]

def describe (adapter : WebSearchToolAdapter urls) (call : ToolCall) :
    Except String ToolActionDescriptor :=
  (parseSearchInput call.input).map fun _ => adapter.descriptor

end WebSearchToolAdapter

/-! ### The sandbox -/

/-- What the tool service asks the sandbox for. -/
structure Action where
  call : ToolCall
  descriptor : ToolActionDescriptor

def Action.input (action : Action) : Value := .object [("call", toolCallValue action.call)]

structure AllowlistedNetworkSandbox where
  targets : List String

/-- `execute`, up to the transport: the target it is handed, and the grants that were looked at. -/
def AllowlistedNetworkSandbox.execute (sandbox : AllowlistedNetworkSandbox)
    (urls : UrlParser) (grants : Option SearchOriginGrants) (now : ℕ)
    (requirements : ResourceRequirements) : Except String String × Option SearchOriginGrants :=
  match requirements.networkTargets with
  | [networkTarget] =>
    if 0 < requirements.commands.length ∨ 0 < requirements.readPaths.length ∨
        0 < requirements.writePaths.length then
      (.error "Network sandbox does not accept process or filesystem effects", grants)
    else
      match urls.parse networkTarget with
      | none => (.error "Invalid URL", grants)
      | some parsed =>
        if parsed.origin ∈ sandbox.targets then (.ok parsed.origin, grants)
        else
          match dynamicHas grants now parsed.origin with
          | (true, grants) => (.ok parsed.origin, grants)
          | (false, grants) =>
            (.error ("Network target '" ++ parsed.origin ++ "' is not allowlisted"), grants)
  | _ => (.error "Network actions must declare exactly one target", grants)

end

end BeeAgent.Web
