import BeeAgent.Transition.Machine
import BeeAgent.Web.Tools

/-! The fetch transport over the platform's `fetch`, and the system of the tools, the sandbox and
the transport: servers answer the requests in flight in any order and as they like. -/
namespace BeeAgent.Web
open Data
open BeeAgent.Thread (ToolCall)
open BeeAgent.Runtime (ToolActionDescriptor)

/-! ### The platform -/

inductive Method where
  | get | post
  deriving DecidableEq

structure HttpRequest where
  method : Method := .get
  url : Url
  authorization : Option String := none
  body : Option String := none
  deriving DecidableEq

inductive RedirectMode where
  | follow | manual
  deriving DecidableEq

/-- A `fetch` in flight: its current request and how many redirects led to it. -/
structure Fetch where
  mode : RedirectMode
  request : HttpRequest
  redirects : ℕ := 0
  deriving DecidableEq

structure Response where
  status : ℕ
  location : Option String := none
  body : String := ""
  deriving DecidableEq

def Response.ok (r : Response) : Bool := 200 ≤ r.status && r.status < 300

/-- A server's answer; without one the network failed, or the request was aborted or timed out. -/
abbrev Reply := Option Response

def isRedirectStatus (status : ℕ) : Bool := status ∈ [301, 302, 303, 307, 308]

/-- The request after a redirect: a POST becomes a GET on 301, 302 and 303, and credentials do not
cross origins. -/
def HttpRequest.redirected (request : HttpRequest) (status : ℕ) (url : Url) : HttpRequest :=
  let kept := status ∈ [307, 308]
  { method := if kept then request.method else .get
    url
    authorization := if url.origin = request.url.origin then request.authorization else none
    body := if kept then request.body else none }

inductive Received where
  | redirected (fetch : Fetch)
  | response (response : Response)
  | failed
  deriving DecidableEq

/-- The redirect that the platform goes on with when it is not told otherwise; none that it cannot
resolve, that leaves HTTP or that is the twenty-first. -/
def Fetch.redirect? (urls : UrlParser) (fetch : Fetch) (response : Response) :
    Option (Option Url) :=
  if fetch.mode = .follow ∧ isRedirectStatus response.status then
    response.location.map fun location =>
      (urls.resolve location fetch.request.url).filter fun url => url.isHttp && fetch.redirects < 20
  else none

def Fetch.receive (urls : UrlParser) (fetch : Fetch) : Reply → Received
  | none => .failed
  | some response =>
    match fetch.redirect? urls response with
    | none => .response response
    | some none => .failed
    | some (some url) => .redirected
        { fetch with
          request := fetch.request.redirected response.status url
          redirects := fetch.redirects + 1 }

/-! ### The transport -/

inductive WebSearchBackend where
  | searxng (searchPath : Option String)
  | tavily (apiKey : String)

/-- The configuration that a host builds its tools, its sandbox and its transport from. -/
structure Host (urls : UrlParser) where
  fetchTool : Option (WebFetchToolAdapter urls)
  searchTool : Option (WebSearchToolAdapter urls)
  sandbox : AllowlistedNetworkSandbox
  searchBackend : Option WebSearchBackend
  allowedOrigins : Option (List (Origin urls))
  cacheTtlMs : ℕ := 600000
  cacheMaxEntries : ℕ := 50

/-- What `request` resolves to. -/
inductive WebResult where
  | error (message : String)
  | page (url : String) (status : ℕ) (cached : Bool)
  | results (query : String) (urls : List String)
  deriving DecidableEq

/-- An action behind the sandbox. -/
inductive Job where
  | page (url : String) (hop : ℕ)
  | search (query : String) (maxResults : ℕ)
  deriving DecidableEq

inductive Stage where
  | waiting (job : Job) (fetch : Fetch)
  | settled (result : WebResult)
  deriving DecidableEq

/-- The fetch that a search waits for. -/
def Stage.searching? : Stage → Option Fetch
  | .waiting (.search _ _) fetch => some fetch
  | _ => none

/-- One call of `request`, with the HTTP requests that it caused. -/
structure Flight where
  action : Action
  target : String
  sent : List HttpRequest
  stage : Stage

structure WebState where
  grants : Option SearchOriginGrants
  cache : OrderedMap String ℕ := .empty
  actions : List Action := []
  flights : List Flight := []

section
variable (urls : UrlParser) (host : Host urls)

def originAllowed (origins : List (Origin urls)) (origin : String) : Bool :=
  origin ∈ origins.map Subtype.val

/-- `input.payload`, as `request` takes it apart. -/
def payloadOf (input : Value) : Value :=
  let call := ((input.property? "call").getD .undefined)
  ((call.property? "input").getD .undefined).orElse input

/-- `#readCache`, by the time of the entry. -/
def readCache (cache : OrderedMap String ℕ) (now : ℕ) (url : String) : Bool × OrderedMap String ℕ :=
  if host.cacheTtlMs = 0 then (false, cache)
  else
    match cache.get url with
    | none => (false, cache)
    | some written =>
      if host.cacheTtlMs < now - written then (false, cache.delete url) else (true, cache)

def trimCache (cache : OrderedMap String ℕ) : ℕ → OrderedMap String ℕ
  | 0 => cache
  | fuel + 1 =>
    if host.cacheMaxEntries < cache.size then
      match cache.keys with
      | [] => cache
      | oldest :: _ => trimCache (cache.delete oldest) fuel
    else cache

def writeCache (cache : OrderedMap String ℕ) (now : ℕ) (url : String) : OrderedMap String ℕ :=
  if host.cacheTtlMs = 0 then cache
  else trimCache urls host ((cache.delete url).set url now) (cache.size + 1)

/-- `this.#fetch` on a text: the request goes out when the text is an HTTP URL. -/
def startFetch (mode : RedirectMode) (text : String) : Except String Fetch :=
  match urls.parse text with
  | none => .error "Failed to parse URL"
  | some url => if url.isHttp then .ok { mode, request := { url } } else .error "fetch failed"

def fetchFailed (url message : String) : WebResult :=
  .error ("web_fetch to " ++ url ++ " failed: " ++ message)

/-- One hop of `#fetchFollowing`: without an allowlist the platform follows. -/
def fetchHop (url : String) (hop : ℕ) (current : String) : Stage :=
  let mode := if host.allowedOrigins.isSome then RedirectMode.manual else .follow
  match startFetch urls mode current with
  | .error message => .settled (fetchFailed url message)
  | .ok fetch => .waiting (.page url hop) fetch

/-- What `#fetchFollowing` makes of a response: the next hop's URL, or nothing when it returns. -/
def nextHop (allowed : List (Origin urls)) (hop : ℕ) (current : Url) (response : Response) :
    Except String (Option String) :=
  match response.location with
  | none => .ok none
  | some location =>
    if response.status < 300 ∨ 400 ≤ response.status then .ok none
    else
      match urls.resolve location current with
      | none => .error "Invalid URL"
      | some resolved =>
        let next := urls.toText resolved
        match originOf urls next with
        | .error message => .error message
        | .ok origin =>
          if !originAllowed urls allowed origin then
            .error ("redirect " ++ toString response.status ++ " to '" ++ origin ++
              "' is outside the allowlisted origins")
          else if hop + 1 < 8 then .ok (some next)
          else .error "too many redirects (limit 8)"

def maxResultsOf : Value → ℕ
  | .number x =>
    if x.negative = false ∧ 0 < x.digits then
      min 10 (if 0 ≤ x.exponent then x.digits * Nat.pow 10 x.exponent.toNat
        else x.digits / Nat.pow 10 (-x.exponent).toNat)
    else 5
  | _ => 5

def searchPath : WebSearchBackend → String
  | .searxng path => path.getD "/search"
  | .tavily _ => "/search"

/-- The request of `#searxng` or `#tavily`. -/
def searchRequest (backend : WebSearchBackend) (query : String) (maxResults : ℕ) (url : Url) :
    HttpRequest :=
  match backend with
  | .searxng _ => { url := (url.setSearchParam "q" query).setSearchParam "format" "json" }
  | .tavily apiKey =>
    { method := .post
      url
      authorization := some ("Bearer " ++ apiKey)
      body := some (stringify (.object [("query", .string query),
        ("max_results", .number (.ofNat maxResults))])) }

def searchFailed (query message : String) : WebResult :=
  .error ("web_search for '" ++ query ++ "' failed: " ++ message)

/-- The engine's request; how its redirects are to be handled is not said. -/
def startSearch (target query : String) (maxResults : ℕ) : Stage :=
  match host.searchBackend with
  | none => .settled (.error "No search backend is configured on this host")
  | some backend =>
    match urls.parse (target ++ searchPath backend) with
    | none => .settled (searchFailed query "Invalid URL")
    | some url =>
      if url.isHttp then
        .waiting (.search query maxResults)
          { mode := .follow, request := searchRequest backend query maxResults url }
      else .settled (searchFailed query "fetch failed")

/-- `#fetchPage` up to its first request, and the cache, out of which an old entry is dropped. -/
def startPage (cache : OrderedMap String ℕ) (now : ℕ) (url target : String) :
    Stage × OrderedMap String ℕ :=
  match originOf urls url with
  | .error message => (.settled (.error message), cache)
  | .ok origin =>
    if origin ≠ target then
      (.settled (.error ("web_fetch URL origin '" ++ origin ++
        "' does not match the authorized target '" ++ target ++ "'")), cache)
    else
      match readCache urls host cache now url with
      | (true, cache) => (.settled (.page url 200 true), cache)
      | (false, cache) => (fetchHop urls host url 0 url, cache)

/-- `request` up to its first HTTP request. -/
def startRequest (cache : OrderedMap String ℕ) (now : ℕ) (target : String) (input : Value) :
    Stage × OrderedMap String ℕ :=
  let payload := payloadOf input
  match field "url" payload, field "query" payload with
  | .string url, _ => startPage urls host cache now url target
  | _, .string query =>
    (startSearch urls host target query (maxResultsOf (field "maxResults" payload)), cache)
  | _, _ =>
    (.settled (.error "web transport received neither a fetch url nor a search query"), cache)

/-- The URL of one search result; a result that is nothing throws. -/
def resultUrl (result : Value) : Except String String :=
  match result.property? "url" with
  | none => .error "TypeError"
  | some url => .ok (url.orElse (.string "")).interpolated

def resultUrls (maxResults : ℕ) (body : String) : Except String (List String) :=
  match parseJson body with
  | none => .error "SyntaxError"
  | some value =>
    match value.property? "results" with
    | none => .error "TypeError"
    | some results =>
      match results.orElse (.array []) with
      | .array items =>
        ((items.take maxResults).mapM resultUrl).map fun found => found.filter (· ≠ "")
      | _ => .error "TypeError"

def engineName : WebSearchBackend → String
  | .searxng _ => "SearxNG"
  | .tavily _ => "Tavily"

/-- The rest of `#search`, with the origins it grants. -/
def finishSearch (grants : Option SearchOriginGrants) (now : ℕ) (query : String) (maxResults : ℕ)
    (response : Response) : WebResult × Option SearchOriginGrants :=
  if !response.ok then
    (searchFailed query ((host.searchBackend.map engineName).getD "" ++ " answered HTTP " ++
      toString response.status), grants)
  else
    match resultUrls maxResults response.body with
    | .error message => (searchFailed query message, grants)
    | .ok found => (.results query found, grants.map (·.grant urls now found))

/-- What follows on the answer to the request of a job, with the grants and the cache. -/
def receive (grants : Option SearchOriginGrants) (cache : OrderedMap String ℕ) (now : ℕ) (job : Job)
    (fetch : Fetch) (reply : Reply) :
    Stage × Option SearchOriginGrants × OrderedMap String ℕ :=
  match fetch.receive urls reply, job with
  | .redirected next, job => (.waiting job next, grants, cache)
  | .failed, .page url _ => (.settled (fetchFailed url "fetch failed"), grants, cache)
  | .failed, .search query _ => (.settled (searchFailed query "fetch failed"), grants, cache)
  | .response response, .search query maxResults =>
    let (result, grants) := finishSearch urls host grants now query maxResults response
    (.settled result, grants, cache)
  | .response response, .page url hop =>
    match host.allowedOrigins.map fun allowed =>
      nextHop urls allowed hop fetch.request.url response with
    | some (.error message) => (.settled (fetchFailed url message), grants, cache)
    | some (.ok (some next)) => (fetchHop urls host url (hop + 1) next, grants, cache)
    | _ =>
      (.settled (.page (urls.toText fetch.request.url) response.status false), grants,
        if response.ok then writeCache urls host cache now url else cache)

/-! ### The system -/

/-- `describe` of the tool that a call names. -/
def describe (grants : Option SearchOriginGrants) (now : ℕ) (call : ToolCall) :
    Except String ToolActionDescriptor × Option SearchOriginGrants :=
  if call.toolId = WebFetchToolAdapter.toolId then
    match host.fetchTool with
    | none => (.error "unknown tool", grants)
    | some tool => tool.describe grants now call
  else if call.toolId = WebSearchToolAdapter.toolId then
    match host.searchTool with
    | none => (.error "unknown tool", grants)
    | some tool => (tool.describe call, grants)
  else (.error "unknown tool", grants)

inductive WebInput where
  | describe (call : ToolCall) (now : ℕ)
  | execute (action : ℕ) (now : ℕ)
  | reply (flight : ℕ) (reply : Reply) (now : ℕ)

/-- The requests that a stage has out. -/
def Stage.out : Stage → List HttpRequest
  | .waiting _ fetch => [fetch.request]
  | .settled _ => []

def web : Transition.Machine WebState WebInput where
  step s
    | .describe call now =>
      match describe urls host s.grants now call with
      | (.error _, grants) => some { s with grants }
      | (.ok descriptor, grants) =>
        some { s with grants, actions := s.actions ++ [⟨call, descriptor⟩] }
    | .execute index now =>
      match s.actions[index]? with
      | none => none
      | some action =>
        match host.sandbox.execute urls s.grants now action.descriptor.requirements with
        | (.error _, grants) => some { s with grants }
        | (.ok target, grants) =>
          let (stage, cache) := startRequest urls host s.cache now target action.input
          some { s with
            grants
            cache
            flights := s.flights ++ [⟨action, target, stage.out, stage⟩] }
    | .reply index reply now =>
      match s.flights[index]? with
      | none => none
      | some flight =>
        match flight.stage with
        | .settled _ => none
        | .waiting job fetch =>
          let (stage, grants, cache) := receive urls host s.grants s.cache now job fetch reply
          some { s with
            grants
            cache
            flights := s.flights.set index
              { flight with sent := flight.sent ++ stage.out, stage } }

end

end BeeAgent.Web
