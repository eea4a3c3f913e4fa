import BeeAgent.Web.Transport

/-! Where the requests of the transport go: with an allowlist, to the authorised target or to an
origin on the list, as long as no server redirects a search elsewhere. -/
namespace BeeAgent.Web
open Data Transition
open BeeAgent.Thread (ToolCall)
open BeeAgent.Runtime (ToolActionDescriptor toolCallValue)

section
variable (urls : UrlParser) (host : Host urls) (allowed : List (Origin urls))

/-- The origin of the one target that an action is authorised for. -/
def authorisedOrigin (action : Action) : Option String :=
  match action.descriptor.requirements.networkTargets with
  | [networkTarget] => (urls.parse networkTarget).map Url.origin
  | _ => none

def Permitted (action : Action) (origin : String) : Prop :=
  authorisedOrigin urls action = some origin ∨ originAllowed urls allowed origin

/-- The action's payload has a URL. -/
def Action.fetchesPage (action : Action) : Bool :=
  match field "url" (payloadOf action.input) with
  | .string _ => true
  | _ => false

/-- The key of the search API goes to the search engine. -/
def KeyKept (request : HttpRequest) : Prop :=
  request.authorization.isSome → ∃ tool, host.searchTool = some tool ∧
    request.url.origin = tool.origin.1

structure Flight.Confined (flight : Flight) : Prop where
  permitted : ∀ request ∈ flight.sent, Permitted urls allowed flight.action request.url.origin
  bounded : flight.action.fetchesPage → flight.sent.length ≤ 8
  keyKept : ∀ request ∈ flight.sent, KeyKept urls host request

instance (action : Action) (origin : String) : Decidable (Permitted urls allowed action origin) :=
  inferInstanceAs (Decidable (_ ∨ _))

/-- No server redirects a search to an origin that is not permitted, and the path that a host gives
its engine keeps to the engine's origin. -/
def Undisturbed (s : WebState) : WebInput → Prop
  | .describe _ _ => True
  | .execute index _ => ∀ action ∈ s.actions[index]?, action.fetchesPage = false →
      ∀ backend ∈ host.searchBackend, ∀ target ∈ authorisedOrigin urls action,
        ∀ url ∈ urls.parse (target ++ searchPath backend),
          Permitted urls allowed action url.origin
  | .reply index reply _ => ∀ flight ∈ s.flights[index]?, ∀ fetch ∈ flight.stage.searching?,
      ∀ response ∈ reply, ∀ url ∈ (fetch.redirect? urls response).join,
        Permitted urls allowed flight.action url.origin

instance (s : WebState) (i : WebInput) : Decidable (Undisturbed urls host allowed s i) := by
  cases i <;> unfold Undisturbed <;> infer_instance

/-! ### Actions -/

/-- What the tools describe: a page of the target, or a query to the engine. -/
def Described (action : Action) : Prop :=
  action.fetchesPage ∨ ∃ tool, host.searchTool = some tool ∧
    action.descriptor.requirements.networkTargets = [tool.origin.1]

variable {urls host allowed}

theorem keyKept_of_none {request : HttpRequest} (h : request.authorization = none) :
    KeyKept urls host request := by
  intro hsome
  rw [h] at hsome
  cases hsome

theorem payloadOf_input (action : Action) {fields : List (String × Value)}
    (h : action.call.input = .object fields) : payloadOf action.input = action.call.input := by
  simp [payloadOf, Action.input, toolCallValue, Value.property?, h, Value.orElse]

theorem field_object {input : Value} {key text : String} (h : field key input = .string text) :
    ∃ fields, input = .object fields := by
  cases input with
  | object fields => exact ⟨fields, rfl⟩
  | _ => cases h

theorem parseFetchInput_ok {input : Value} {parsed : FetchInput}
    (h : parseFetchInput input = .ok parsed) : field "url" input = .string parsed.url := by
  unfold parseFetchInput at h
  split at h
  · next hurl _ =>
    split at h
    · cases h
    · cases h
      exact hurl
  · next hurl _ =>
    split at h
    · split at h
      · cases h
      · cases h
        exact hurl
    · cases h
  · cases h

theorem fetchesPage_of_field {action : Action} {url : String}
    (h : field "url" action.call.input = .string url) : action.fetchesPage := by
  obtain ⟨fields, hfields⟩ := field_object h
  simp [Action.fetchesPage, payloadOf_input action hfields, h]

theorem describe_described {grants grants' : Option SearchOriginGrants} {now : ℕ} {call : ToolCall}
    {descriptor : ToolActionDescriptor}
    (h : describe urls host grants now call = (.ok descriptor, grants')) :
    Described urls host ⟨call, descriptor⟩ := by
  unfold describe at h
  split at h
  · split at h
    · cases h
    · left
      unfold WebFetchToolAdapter.describe at h
      split at h
      · cases h
      · next input hinput => exact fetchesPage_of_field (parseFetchInput_ok hinput)
  · split at h
    · split at h
      · cases h
      · next tool htool =>
        rw [WebSearchToolAdapter.describe] at h
        cases hinput : parseSearchInput call.input with
        | error message =>
          rw [hinput] at h
          cases h
        | ok =>
          rw [hinput] at h
          cases h
          exact .inr ⟨tool, htool, rfl⟩
    · cases h

theorem Origin.parse (origin : Origin urls) : ∃ text url, urls.parse text = some url ∧ url.isHttp ∧
    origin.1 = url.origin := by
  obtain ⟨origin, text, h⟩ := origin
  unfold originOf at h
  split at h
  · cases h
  · next url hparse =>
    split at h
    · next hhttp =>
      cases h
      exact ⟨text, url, hparse, hhttp, rfl⟩
    · cases h

theorem authorisedOrigin_engine {action : Action} {tool : WebSearchToolAdapter urls}
    (h : action.descriptor.requirements.networkTargets = [tool.origin.1]) :
    authorisedOrigin urls action = some tool.origin.1 ∧
      ∃ url, urls.parse (tool.origin.1 ++ "/search") = some url ∧ url.origin = tool.origin.1 := by
  obtain ⟨text, url, hparse, hhttp, horigin⟩ := tool.origin.parse
  obtain ⟨bare, hbare, hsame⟩ := urls.parse_origin text url "" hparse hhttp (.inl rfl)
  rw [String.append_empty] at hbare
  rw [horigin]
  refine ⟨?_, urls.parse_origin text url "/search" hparse hhttp (.inr (by decide +kernel))⟩
  rw [authorisedOrigin, h, horigin]
  simp only [hbare, Option.map_some, hsame]

theorem execute_target {sandbox : AllowlistedNetworkSandbox}
    {grants grants' : Option SearchOriginGrants} {now : ℕ} {action : Action} {target : String}
    (h : sandbox.execute urls grants now action.descriptor.requirements = (.ok target, grants')) :
    authorisedOrigin urls action = some target := by
  rw [AllowlistedNetworkSandbox.execute] at h
  rw [authorisedOrigin]
  rcases htargets : action.descriptor.requirements.networkTargets with
    _ | ⟨networkTarget, _ | ⟨second, rest⟩⟩
  · simp [htargets] at h
  · simp only [htargets] at h ⊢
    split at h
    · cases h
    · cases hparse : urls.parse networkTarget with
      | none => simp [hparse] at h
      | some url =>
        simp only [hparse] at h
        split at h
        · cases h
          rfl
        · split at h
          · cases h
            rfl
          · cases h
  · simp [htargets] at h

/-! ### Stages -/

/-- The request that a stage waits for, after `sent` requests. -/
def Stage.Proper (urls : UrlParser) (host : Host urls) (allowed : List (Origin urls))
    (action : Action) (sent : ℕ) : Stage → Prop
  | .settled _ => action.fetchesPage → sent ≤ 8
  | .waiting job fetch => Permitted urls allowed action fetch.request.url.origin ∧
      KeyKept urls host fetch.request ∧
        match job with
        | .page _ hop => sent = hop + 1 ∧ hop < 8 ∧ fetch.mode = .manual
        | .search _ _ => action.fetchesPage = false

theorem startFetch_ok {mode : RedirectMode} {text : String} {fetch : Fetch}
    (h : startFetch urls mode text = .ok fetch) :
    ∃ url, urls.parse text = some url ∧ fetch = { mode, request := { url } } := by
  unfold startFetch at h
  split at h
  · cases h
  · next url hparse =>
    split at h
    · cases h
      exact ⟨url, hparse, rfl⟩
    · cases h

theorem originOf_ok {text origin : String} (h : originOf urls text = .ok origin) :
    ∃ url, urls.parse text = some url ∧ url.origin = origin := by
  unfold originOf at h
  split at h
  · cases h
  · next url hparse =>
    split at h
    · cases h
      exact ⟨url, hparse, rfl⟩
    · cases h

theorem nextHop_some {hop : ℕ} {current : Url} {response : Response} {next : String}
    (h : nextHop urls allowed hop current response = .ok (some next)) :
    hop + 1 < 8 ∧
      ∃ origin, originOf urls next = .ok origin ∧ originAllowed urls allowed origin := by
  unfold nextHop at h
  split at h
  · cases h
  · split at h
    · cases h
    · split at h
      · cases h
      · dsimp only at h
        split at h
        · cases h
        · next origin horigin =>
          split at h
          · cases h
          · next hallowed =>
            split at h
            · next hhop =>
              cases h
              exact ⟨hhop, origin, horigin, by simpa using hallowed⟩
            · cases h

theorem fetchHop_proper (hallowed : host.allowedOrigins = some allowed) {action : Action}
    {text origin : String} {hop : ℕ} (url : String) (horigin : originOf urls text = .ok origin)
    (hpermitted : Permitted urls allowed action origin) (hhop : hop < 8) :
    (fetchHop urls host url hop text).Proper urls host allowed action
      (hop + (fetchHop urls host url hop text).out.length) := by
  unfold fetchHop
  simp only [hallowed, Option.isSome_some, if_true]
  cases hfetch : startFetch urls .manual text with
  | error message =>
    intro _
    exact hhop.le
  | ok fetch =>
    obtain ⟨parsed, hparse, rfl⟩ := startFetch_ok hfetch
    obtain ⟨parsed', hparse', rfl⟩ := originOf_ok horigin
    obtain rfl := Option.some.inj (hparse.symm.trans hparse')
    exact ⟨hpermitted, keyKept_of_none rfl, rfl, hhop, rfl⟩

theorem startPage_proper (hallowed : host.allowedOrigins = some allowed) {action : Action}
    {target : String} (htarget : authorisedOrigin urls action = some target)
    (cache : OrderedMap String ℕ) (now : ℕ) (url : String) :
    (startPage urls host cache now url target).1.Proper urls host allowed action
      (startPage urls host cache now url target).1.out.length := by
  unfold startPage
  cases horigin : originOf urls url with
  | error message => exact fun _ => Nat.zero_le _
  | ok origin =>
    dsimp only
    by_cases hsame : origin = target
    · subst hsame
      rw [if_neg (not_not.mpr rfl)]
      rcases readCache urls host cache now url with ⟨_ | _, cache⟩
      · have hhop := fetchHop_proper hallowed url horigin (.inl htarget) (show 0 < 8 by decide)
        rwa [Nat.zero_add] at hhop
      · exact fun _ => Nat.zero_le _
    · rw [if_pos hsame]
      exact fun _ => Nat.zero_le _

theorem searchRequest_url (backend : WebSearchBackend) (query : String) (maxResults : ℕ)
    (url : Url) : (searchRequest backend query maxResults url).url.origin = url.origin := by
  cases backend <;> rfl

theorem startSearch_proper {action : Action} (hdescribed : Described urls host action)
    {target : String} (htarget : authorisedOrigin urls action = some target)
    (hpage : action.fetchesPage = false)
    (hpath : ∀ backend url, host.searchBackend = some backend →
      urls.parse (target ++ searchPath backend) = some url →
        Permitted urls allowed action url.origin)
    (query : String) (maxResults : ℕ) :
    (startSearch urls host target query maxResults).Proper urls host allowed action
      (startSearch urls host target query maxResults).out.length := by
  have hnone : action.fetchesPage → (0 : ℕ) ≤ 8 := fun _ => Nat.zero_le _
  unfold startSearch
  cases hbackend : host.searchBackend with
  | none => exact hnone
  | some backend =>
    dsimp only
    cases hparse : urls.parse (target ++ searchPath backend) with
    | none => exact hnone
    | some url =>
      by_cases hhttp : url.isHttp
      · simp only [hhttp, if_true]
        refine ⟨?_, ?_, hpage⟩
        · rw [searchRequest_url]
          exact hpath backend url hbackend hparse
        · cases backend with
          | searxng path => exact keyKept_of_none rfl
          | tavily apiKey =>
            intro _
            obtain hfetches | ⟨tool, htool, htargets⟩ := hdescribed
            · rw [hfetches] at hpage
              cases hpage
            obtain ⟨hengine, parsed, hparsed, horigin⟩ := authorisedOrigin_engine htargets
            obtain rfl := Option.some.inj (htarget.symm.trans hengine)
            obtain rfl := Option.some.inj (hparse.symm.trans hparsed)
            exact ⟨tool, htool, horigin⟩
      · simp only [hhttp, Bool.false_eq_true, if_false]
        exact hnone

theorem startRequest_proper (hallowed : host.allowedOrigins = some allowed) {action : Action}
    (hdescribed : Described urls host action) {target : String}
    (htarget : authorisedOrigin urls action = some target)
    (hpath : ∀ backend url, action.fetchesPage = false → host.searchBackend = some backend →
      urls.parse (target ++ searchPath backend) = some url →
        Permitted urls allowed action url.origin)
    (cache : OrderedMap String ℕ) (now : ℕ) :
    (startRequest urls host cache now target action.input).1.Proper urls host allowed action
      (startRequest urls host cache now target action.input).1.out.length := by
  unfold startRequest
  dsimp only
  split
  · exact startPage_proper hallowed htarget cache now _
  · next hurl =>
    have hpage : action.fetchesPage = false := by
      unfold Action.fetchesPage
      split
      · next url hfield => exact absurd hfield (hurl url)
      · rfl
    exact startSearch_proper hdescribed htarget hpage
      (fun backend url => hpath backend url hpage) _ _
  · exact fun _ => Nat.zero_le _

theorem receive_proper (hallowed : host.allowedOrigins = some allowed) {action : Action} {sent : ℕ}
    {job : Job} {fetch : Fetch} {reply : Reply}
    (h : (Stage.waiting job fetch).Proper urls host allowed action sent)
    (hredirect : ∀ query maxResults response url, job = .search query maxResults →
      reply = some response → fetch.redirect? urls response = some (some url) →
        Permitted urls allowed action url.origin)
    (grants : Option SearchOriginGrants) (cache : OrderedMap String ℕ) (now : ℕ) :
    (receive urls host grants cache now job fetch reply).1.Proper urls host allowed action
      (sent + (receive urls host grants cache now job fetch reply).1.out.length) := by
  obtain ⟨-, hkey, hjob⟩ := h
  have hsettled : ∀ result, (Stage.settled result).Proper urls host allowed action (sent + 0) := by
    intro result hpage
    cases job with
    | page url hop => obtain ⟨rfl, hhop, -⟩ := hjob; exact hhop
    | search query maxResults => rw [hpage] at hjob; cases hjob
  unfold receive
  cases reply with
  | none => cases job <;> exact hsettled _
  | some response =>
    rw [Fetch.receive]
    cases job with
    | page url hop =>
      obtain ⟨rfl, hhop, hmode⟩ := hjob
      have hmanual : fetch.redirect? urls response = none := by
        simp [Fetch.redirect?, hmode]
      simp only [hmanual, hallowed, Option.map_some]
      cases hnext : nextHop urls allowed hop fetch.request.url response with
      | error message => exact hsettled _
      | ok next =>
        cases next with
        | none => exact hsettled _
        | some next =>
          obtain ⟨hhop, origin, horigin, hpermitted⟩ := nextHop_some hnext
          exact fetchHop_proper hallowed url horigin (.inr hpermitted) hhop
    | search query maxResults =>
      rcases hgoes : fetch.redirect? urls response with _ | _ | url
      · exact hsettled _
      · exact hsettled _
      · refine ⟨hredirect query maxResults response url rfl rfl hgoes, ?_, hjob⟩
        intro hsome
        -- the platform drops the key unless the origin stays
        by_cases hsame : url.origin = fetch.request.url.origin
        · have hkept : fetch.request.authorization.isSome := by
            simpa [HttpRequest.redirected, hsame] using hsome
          obtain ⟨tool, htool, horigin⟩ := hkey hkept
          exact ⟨tool, htool, hsame.trans horigin⟩
        · simp [HttpRequest.redirected, hsame] at hsome

/-! ### Runs -/

structure Flight.Sound (urls : UrlParser) (host : Host urls) (allowed : List (Origin urls))
    (flight : Flight) : Prop where
  confined : flight.Confined urls host allowed
  proper : flight.stage.Proper urls host allowed flight.action flight.sent.length

structure Sound (urls : UrlParser) (host : Host urls) (allowed : List (Origin urls))
    (s : WebState) : Prop where
  actions : ∀ action ∈ s.actions, Described urls host action
  flights : ∀ flight ∈ s.flights, flight.Sound urls host allowed

theorem Stage.Proper.bounded {action : Action} {sent : ℕ} {stage : Stage}
    (h : stage.Proper urls host allowed action sent) (hpage : action.fetchesPage) : sent ≤ 8 := by
  cases stage with
  | settled => exact h hpage
  | waiting job fetch =>
    obtain ⟨-, -, hjob⟩ := h
    cases job with
    | page url hop => obtain ⟨rfl, hhop, -⟩ := hjob; exact hhop
    | search query maxResults => rw [hpage] at hjob; cases hjob

theorem Stage.Proper.out {action : Action} {sent : ℕ} {stage : Stage}
    (h : stage.Proper urls host allowed action sent) : ∀ request ∈ stage.out,
      Permitted urls allowed action request.url.origin ∧ KeyKept urls host request := by
  cases stage with
  | settled => intro request hrequest; cases hrequest
  | waiting job fetch =>
    intro request hrequest
    obtain rfl := List.mem_singleton.mp hrequest
    exact ⟨h.1, h.2.1⟩

/-- A flight that goes on to a proper stage stays sound. -/
theorem Flight.Sound.next (flight : Flight) {stage : Stage}
    (hsent : ∀ request ∈ flight.sent,
      Permitted urls allowed flight.action request.url.origin ∧ KeyKept urls host request)
    (hproper : stage.Proper urls host allowed flight.action
      (flight.sent.length + stage.out.length)) :
    Flight.Sound urls host allowed
      { flight with sent := flight.sent ++ stage.out, stage } := by
  have hlength : (flight.sent ++ stage.out).length = flight.sent.length + stage.out.length :=
    List.length_append
  have hall : ∀ request ∈ flight.sent ++ stage.out,
      Permitted urls allowed flight.action request.url.origin ∧ KeyKept urls host request :=
    List.forall_mem_append.mpr ⟨hsent, hproper.out⟩
  exact {
    confined := {
      permitted := fun request hrequest => (hall request hrequest).1
      bounded := fun hpage => hlength ▸ hproper.bounded hpage
      keyKept := fun request hrequest => (hall request hrequest).2 }
    proper := hlength ▸ hproper }

theorem Sound.step (hallowed : host.allowedOrigins = some allowed) {s t : WebState} {i : WebInput}
    (h : Sound urls host allowed s) (hguard : Undisturbed urls host allowed s i)
    (hstep : (web urls host).step s i = some t) : Sound urls host allowed t := by
  cases i with
  | describe call now =>
    simp only [web] at hstep
    split at hstep
    · cases hstep
      exact ⟨h.actions, h.flights⟩
    · next descriptor grants hdescribe =>
      cases hstep
      refine ⟨List.forall_mem_append.mpr ⟨h.actions, ?_⟩, h.flights⟩
      intro action haction
      obtain rfl := List.mem_singleton.mp haction
      exact describe_described hdescribe
  | execute index now =>
    simp only [web] at hstep
    cases haction : s.actions[index]? with
    | none => rw [haction] at hstep; cases hstep
    | some action =>
      rw [haction] at hstep
      dsimp only at hstep
      split at hstep
      · cases hstep
        exact ⟨h.actions, h.flights⟩
      · next target grants hexecute =>
        cases hstep
        refine ⟨h.actions, List.forall_mem_append.mpr ⟨h.flights, ?_⟩⟩
        intro flight hflight
        obtain rfl := List.mem_singleton.mp hflight
        have htarget := execute_target hexecute
        have hproper := startRequest_proper hallowed
          (h.actions action (List.mem_of_getElem? haction)) htarget
          (fun backend url hpage hbackend hparse =>
            hguard action haction hpage backend hbackend target htarget url hparse) s.cache now
        refine Flight.Sound.next ⟨action, target, [], .settled (.error "")⟩ (by simp) ?_
        simpa using hproper
  | reply index reply now =>
    simp only [web] at hstep
    cases hflight : s.flights[index]? with
    | none => rw [hflight] at hstep; cases hstep
    | some flight =>
      rw [hflight] at hstep
      dsimp only at hstep
      have hsound := h.flights flight (List.mem_of_getElem? hflight)
      split at hstep
      · cases hstep
      · next job fetch hstage =>
        cases hstep
        refine ⟨h.actions, fun other hother => ?_⟩
        rcases List.mem_or_eq_of_mem_set hother with hother | rfl
        · exact h.flights other hother
        · have hproper := hsound.proper
          rw [hstage] at hproper
          refine Flight.Sound.next flight (fun request hrequest =>
            ⟨hsound.confined.permitted request hrequest, hsound.confined.keyKept request hrequest⟩)
            (receive_proper hallowed hproper ?_ s.grants s.cache now)
          rintro query maxResults response url rfl hreply hgoes
          have hsearching : flight.stage.searching? = some fetch := by rw [hstage]; rfl
          exact hguard flight hflight fetch hsearching response hreply url
            (Option.join_eq_some_iff.mpr hgoes)

/-- Until a server redirects a search to an origin that is neither the target's nor on the list,
every request stays with these, a page takes at most eight, and the key goes to the engine only. -/
theorem requests_confined (hallowed : host.allowedOrigins = some allowed)
    {grants : Option SearchOriginGrants} {s : WebState}
    (h : (web urls host).Reaches (Undisturbed urls host allowed) { grants } s) :
    ∀ flight ∈ s.flights, flight.Confined urls host allowed := by
  have hsound : Sound urls host allowed s :=
    h.invariant ⟨by simp, by simp⟩ fun s i t hs hguard hstep => hs.step hallowed hguard hstep
  exact fun flight hflight => (hsound.flights flight hflight).confined

end

/-! ### A search that is redirected -/

def httpsPrefix : List Char := ['h', 't', 't', 'p', 's', ':', '/', '/']

/-- The absolute HTTPS URLs of the platform's parser. -/
def sampleParse (text : String) : Option Url :=
  let rest := text.toList.drop 8
  let name := rest.takeWhile (· ≠ '/')
  if httpsPrefix <+: text.toList ∧ name ≠ [] then
    some ⟨"https:", String.ofList (httpsPrefix ++ name), String.ofList (rest.drop name.length), []⟩
  else none

theorem sampleParse_origin {text : String} {u : Url} (h : sampleParse text = some u) (path : String)
    (hpath : path = "" ∨ path.toList.head? = some '/') :
    ∃ v, sampleParse (u.origin ++ path) = some v ∧ v.origin = u.origin := by
  unfold sampleParse at h
  dsimp only at h
  split at h
  · next hname =>
    obtain rfl := Option.some.inj h
    have hplain : ∀ c ∈ (text.toList.drop 8).takeWhile (· ≠ '/'), decide (c ≠ '/') = true :=
      fun c hc => List.mem_takeWhile_imp (p := fun c => decide (c ≠ '/')) hc
    have hrest : path.toList.takeWhile (· ≠ '/') = [] := by
      rcases hpath with rfl | hpath
      · rfl
      · cases hlist : path.toList with
        | nil => rfl
        | cons c cs =>
          rw [hlist] at hpath
          obtain rfl := Option.some.inj hpath
          simp
    have htext : (String.ofList (httpsPrefix ++ (text.toList.drop 8).takeWhile (· ≠ '/')) ++
        path).toList =
          httpsPrefix ++ ((text.toList.drop 8).takeWhile (· ≠ '/') ++ path.toList) := by
      simp
    have hdrop : (httpsPrefix ++ ((text.toList.drop 8).takeWhile (· ≠ '/') ++ path.toList)).drop 8 =
        (text.toList.drop 8).takeWhile (· ≠ '/') ++ path.toList := rfl
    have htake : ((text.toList.drop 8).takeWhile (· ≠ '/') ++ path.toList).takeWhile (· ≠ '/') =
        (text.toList.drop 8).takeWhile (· ≠ '/') := by
      rw [List.takeWhile_append_of_pos hplain, hrest, List.append_nil]
    unfold sampleParse
    simp only [htext, hdrop, htake]
    rw [if_pos ⟨List.prefix_append _ _, hname.2⟩]
    exact ⟨_, rfl, rfl⟩
  · cases h

def sampleUrls : UrlParser where
  parse := sampleParse
  resolve location _ := sampleParse location
  toText u := u.origin ++ u.path
  parse_origin _ _ path h _ hpath := sampleParse_origin h path hpath

def newsOrigin : Origin sampleUrls :=
  ⟨"https://news.test", "https://news.test/", by decide +kernel⟩

def engineOrigin : Origin sampleUrls :=
  ⟨"https://engine.test", "https://engine.test/", by decide +kernel⟩

def sampleHost : Host sampleUrls where
  fetchTool := some { origins := [newsOrigin] }
  searchTool := some { origin := engineOrigin }
  sandbox := ⟨["https://news.test", "https://engine.test"]⟩
  searchBackend := some (.tavily "key")
  allowedOrigins := some [newsOrigin]

def sampleQuery : ToolCall := ⟨"a", "web_search", .object [("query", .string "who")], none⟩

def samplePage : ToolCall :=
  ⟨"b", "web_fetch", .object [("url", .string "https://news.test/front")], none⟩

def redirectTo (location : String) : Reply := some { status := 307, location := some location }

def leakingRun : List WebInput :=
  [.describe sampleQuery 0, .execute 0 0, .reply 0 (redirectTo "https://evil.test/search") 0]

/-- A search that the engine answers by way of another of its paths, and a page in two hops. -/
def confinedRun : List WebInput :=
  [.describe sampleQuery 0, .describe samplePage 0, .execute 0 0, .execute 1 0,
    .reply 0 (redirectTo "https://engine.test/v2") 0, .reply 1 (redirectTo "https://news.test/b") 0,
    .reply 1 (some { status := 200 }) 0, .reply 0 (some { status := 500 }) 0]

def originsOf (s : WebState) : List (Option String × List String) :=
  s.flights.map fun flight =>
    (authorisedOrigin sampleUrls flight.action, flight.sent.map fun request => request.url.origin)

theorem search_redirect_leaks :
    ¬ ∀ (urls : UrlParser) (host : Host urls) (allowed : List (Origin urls))
      (grants : Option SearchOriginGrants) (s : WebState), host.allowedOrigins = some allowed →
        (web urls host).Reaches Machine.anyStep { grants } s →
          ∀ flight ∈ s.flights, flight.Confined urls host allowed := by
  intro hall
  obtain ⟨s, hs, horigins⟩ := Machine.exists_reaches_of_exec_map
    (M := web sampleUrls sampleHost) (s := { grants := none }) (f := originsOf) leakingRun
    (a := [(some "https://engine.test", ["https://engine.test", "https://evil.test"])])
    (by decide +kernel)
  obtain ⟨flight, hflights, hflight⟩ := List.map_eq_singleton_iff.mp horigins
  obtain ⟨haction, hsent⟩ := Prod.mk.inj hflight
  have hevil : "https://evil.test" ∈ flight.sent.map fun request => request.url.origin := by
    rw [hsent]
    decide +kernel
  obtain ⟨request, hrequest, horigin⟩ := List.mem_map.mp hevil
  have hconfined := hall sampleUrls sampleHost [newsOrigin] none s rfl hs flight
    (hflights ▸ List.mem_singleton_self flight)
  rcases hconfined.permitted request hrequest with htarget | hallowed
  · rw [haction, horigin] at htarget
    exact absurd htarget (by decide +kernel)
  · rw [horigin] at hallowed
    exact absurd hallowed (by decide +kernel)

theorem requests_confined_sample : ∃ s : WebState,
    originsOf s = [(some "https://engine.test", ["https://engine.test", "https://engine.test"]),
      (some "https://news.test", ["https://news.test", "https://news.test"])] ∧
    ∀ flight ∈ s.flights, flight.Confined sampleUrls sampleHost [newsOrigin] := by
  have hguarded : (web sampleUrls sampleHost).Guarded
      (Undisturbed sampleUrls sampleHost [newsOrigin]) { grants := none } confinedRun :=
    Machine.guarded_of_allSteps (fun _ _ => of_decide_eq_true) confinedRun (by decide +kernel)
  obtain ⟨s, hs, horigins⟩ := hguarded.exists_reaches (f := originsOf)
    (a := [(some "https://engine.test", ["https://engine.test", "https://engine.test"]),
      (some "https://news.test", ["https://news.test", "https://news.test"])]) (by decide +kernel)
  exact ⟨s, horigins, requests_confined rfl hs⟩

end BeeAgent.Web
