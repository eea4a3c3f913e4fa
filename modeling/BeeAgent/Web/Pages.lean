import BeeAgent.Decoding.Lines
import BeeAgent.Decoding.Utf16
import Mathlib.Data.Int.Notation

/-! The page text that a fetch hands to the model: the download is capped while it is read, chunk by
chunk, the text after it is decoded. -/
namespace BeeAgent.Web
open Utf16 (lastIndexOf utf8Length)

/-- A JavaScript string. -/
abbrev Text := List UInt16

def literal (s : String) : Text := Utf16.encode s.toList

/-! ### The download -/

/-- The body of a response; one without a stream is read at once. -/
inductive Body where
  | stream (chunks : List (List UInt8))
  | buffer (bytes : List UInt8)

def Body.bytes : Body → List UInt8
  | .stream chunks => chunks.flatten
  | .buffer bytes => bytes

structure Download where
  bytes : List UInt8
  truncated : Bool
  deriving DecidableEq

/-- The variables of `readBounded`; `stream` is what the reader would give next. -/
structure Reading where
  chunks : List (List UInt8) := []
  total : ℕ := 0
  truncated : Bool := false
  settled : Bool := false
  stream : List (List UInt8) := []

def readLoop (maxBytes : ℕ) : Reading → List (List UInt8) → Reading
  | r, [] => if r.total < maxBytes then { r with settled := true } else r
  | r, value :: stream =>
    if r.total < maxBytes then
      let room := maxBytes - r.total
      if room < value.length then
        { r with
          chunks := r.chunks ++ [value.take room]
          total := r.total + room
          truncated := true
          settled := true }
      else
        readLoop maxBytes
          { r with chunks := r.chunks ++ [value], total := r.total + value.length } stream
    else { r with stream := value :: stream }

/-- A chunk boundary can fill the budget exactly: then one more read tells whether the stream has
ended. -/
def Reading.probe (maxBytes : ℕ) (r : Reading) : Reading :=
  if !r.settled && maxBytes ≤ r.total then { r with truncated := !r.stream.isEmpty } else r

def readBounded (body : Body) (maxBytes : ℕ) : Download :=
  match body with
  | .buffer bytes => ⟨bytes.take maxBytes, maxBytes < bytes.length⟩
  | .stream chunks =>
    let r := (readLoop maxBytes {} chunks).probe maxBytes
    ⟨r.chunks.flatten, r.truncated⟩

/-- The body ends with its limit, and an empty chunk comes after that. -/
def Body.EndsLate (body : Body) (limit : ℕ) : Prop :=
  body.bytes.length = limit ∧
    match body with
    | .stream chunks => chunks.getLast? = some []
    | .buffer _ => False

theorem Reading.probe_settled {maxBytes : ℕ} {r : Reading} (h : r.settled = true) :
    r.probe maxBytes = r := by
  simp [probe, h]

theorem Reading.probe_full {maxBytes : ℕ} {r : Reading} (h : r.settled = false)
    (hfull : maxBytes ≤ r.total) :
    r.probe maxBytes = { r with truncated := !r.stream.isEmpty } := by
  simp [probe, h, hfull]

/-- An open reading, whose budget is not exceeded. -/
structure Reading.Open (maxBytes : ℕ) (r : Reading) : Prop where
  length : r.chunks.flatten.length = r.total
  within : r.total ≤ maxBytes
  settled : r.settled = false
  truncated : r.truncated = false
  stream : r.stream = []

theorem getLast?_of_flatten_eq_nil {α : Type} {chunks : List (List α)} (hne : chunks ≠ [])
    (h : chunks.flatten = []) : chunks.getLast? = some [] := by
  rw [List.getLast?_eq_some_getLast hne]
  exact congrArg some (List.flatten_eq_nil_iff.mp h _ (List.getLast_mem hne))

theorem readLoop_spec {maxBytes : ℕ} {r : Reading} (hr : r.Open maxBytes)
    (stream : List (List UInt8)) :
    ((readLoop maxBytes r stream).probe maxBytes).chunks.flatten =
        (r.chunks.flatten ++ stream.flatten).take maxBytes ∧
      (((readLoop maxBytes r stream).probe maxBytes).truncated = true ↔
        maxBytes < r.total + stream.flatten.length ∨
          r.total + stream.flatten.length = maxBytes ∧ stream.getLast? = some []) := by
  induction stream generalizing r with
  | nil =>
    have hlength := hr.length
    have hwithin := hr.within
    have htake : r.chunks.flatten.take maxBytes = r.chunks.flatten :=
      List.take_of_length_le (by omega)
    rw [readLoop, List.flatten_nil, List.append_nil, htake]
    split
    · rw [Reading.probe_settled rfl]
      refine ⟨rfl, ?_⟩
      simp [hr.truncated]
      omega
    · rw [Reading.probe_full hr.settled (by omega)]
      refine ⟨rfl, ?_⟩
      simp [hr.stream]
      omega
  | cons value stream ih =>
    have hlength := hr.length
    have hwithin := hr.within
    rw [readLoop, List.flatten_cons, List.length_append]
    split
    · next hlt =>
      dsimp only
      split
      · next hroom =>
        have htake : (r.chunks.flatten ++ (value ++ stream.flatten)).take maxBytes =
            r.chunks.flatten ++ value.take (maxBytes - r.total) := by
          have hall : r.chunks.flatten.length ≤ maxBytes := by omega
          rw [List.take_append, List.take_of_length_le hall, hlength,
            List.take_append_of_le_length (by omega)]
        rw [Reading.probe_settled rfl, htake]
        refine ⟨by simp, ?_⟩
        simp only [true_iff]
        exact .inl (by omega)
      · next hroom =>
        have hopen : Reading.Open maxBytes
            { r with chunks := r.chunks ++ [value], total := r.total + value.length } :=
          ⟨by simpa using hlength, by dsimp only; omega, hr.settled, hr.truncated, hr.stream⟩
        obtain ⟨hbytes, htruncated⟩ := ih hopen
        refine ⟨by rw [hbytes]; simp, ?_⟩
        rw [htruncated, Nat.add_assoc]
        cases stream with
        | nil =>
          simp only [List.flatten_nil, List.length_nil, List.getLast?_nil, List.getLast?_singleton,
            Option.some.injEq, reduceCtorEq, and_false, or_false]
          constructor
          · exact .inl
          · rintro (h | ⟨hsum, rfl⟩)
            · exact h
            · simp at hsum
              omega
        | cons next stream => rw [List.getLast?_cons_cons]
    · next hfull =>
      have hprobe := @Reading.probe_full maxBytes { r with stream := value :: stream } hr.settled
        (Nat.not_lt.mp hfull)
      rw [hprobe]
      have htake : (r.chunks.flatten ++ (value ++ stream.flatten)).take maxBytes =
          r.chunks.flatten := by
        have hall : maxBytes = r.chunks.flatten.length := by omega
        rw [hall, List.take_left]
      refine ⟨htake.symm, ?_⟩
      simp only [List.isEmpty_cons, Bool.not_false, true_iff]
      by_cases hempty : (value :: stream).flatten = []
      · have hends := getLast?_of_flatten_eq_nil (List.cons_ne_nil value stream) hempty
        rw [List.flatten_cons] at hempty
        have hzero : value.length + stream.flatten.length = 0 := by
          rw [← List.length_append, hempty, List.length_nil]
        exact .inr ⟨by omega, hends⟩
      · have hpos := List.length_pos_of_ne_nil hempty
        rw [List.flatten_cons, List.length_append] at hpos
        exact .inl (by omega)

theorem readBounded_spec (body : Body) (limit : ℕ) :
    (readBounded body limit).bytes = body.bytes.take limit ∧
      ((readBounded body limit).truncated = true ↔
        limit < body.bytes.length ∨ body.EndsLate limit) := by
  cases body with
  | buffer bytes => simp [readBounded, Body.bytes, Body.EndsLate]
  | stream chunks =>
    have hopen : Reading.Open limit {} := ⟨rfl, Nat.zero_le _, rfl, rfl, rfl⟩
    obtain ⟨hbytes, htruncated⟩ := readLoop_spec hopen chunks
    rw [Nat.zero_add] at htruncated
    exact ⟨hbytes, htruncated⟩

/-! ### The text -/

def truncationMarker : Text := literal "…[已按大小截断]"

/-- `lastIndexOf`, which is -1 where nothing is found. -/
def lastPosition (needle text : Text) : ℤ := (lastIndexOf needle text).elim (-1) fun i => i

/-- `Math.max` -/
def later (i j : ℤ) : ℤ := if i < j then j else i

/-- Trims at a paragraph boundary instead of mid-sentence when over budget. -/
def trimAtBoundary (text : Text) (limit : ℕ) : Text × Bool :=
  if text.length ≤ limit then (text, false)
  else
    let window := text.take limit
    let cut := later (lastPosition [10, 10] window) (lastPosition [10] window)
    let at_ := if (limit : ℤ) < 2 * cut then cut.toNat else limit
    (text.take at_ ++ truncationMarker, true)

/-- A line break in the second half of the first `limit` units leaves room for the marker. -/
def BreaksInTime (text : Text) (limit : ℕ) : Prop :=
  ∃ cut, lastIndexOf [10] (text.take limit) = some cut ∧ limit < 2 * cut ∧
    utf8Length (text.take cut) + 23 ≤ limit

theorem utf8Length_marker (text : Text) :
    utf8Length (text ++ truncationMarker) = utf8Length text + 23 := by
  have hmarker : utf8Length truncationMarker = 23 := by decide +kernel
  rw [truncationMarker, literal, Utf16.utf8Length_append (Utf16.isLow_encode _)]
  exact congrArg _ hmarker

theorem later_lineBreak (window : Text) :
    later (lastPosition [10, 10] window) (lastPosition [10] window) =
      lastPosition [10] window := by
  have hle : lastPosition [10, 10] window ≤ lastPosition [10] window := by
    unfold lastPosition
    cases hpair : lastIndexOf [10, 10] window with
    | none =>
      cases lastIndexOf [10] window with
      | none => exact Int.le_refl _
      | some j =>
        simp only [Option.elim_none, Option.elim_some]
        omega
    | some i =>
      obtain ⟨j, hj, hle⟩ := Utf16.lastIndexOf_head hpair
      rw [hj]
      exact Int.ofNat_le.mpr hle
  unfold later
  split <;> omega

theorem length_le_take {text : Text} {n : ℕ} (h : n ≤ text.length) :
    n ≤ utf8Length (text.take n) := by
  have hlength := Utf16.length_le (text.take n)
  rwa [List.length_take, Nat.min_eq_left h] at hlength

theorem trimAtBoundary_spec (text : Text) (limit : ℕ) :
    utf8Length (trimAtBoundary text limit).1 ≤ limit ↔
      utf8Length text ≤ limit ∨ limit < text.length ∧ BreaksInTime text limit := by
  unfold trimAtBoundary
  split
  · next hle =>
    have hnot : ¬limit < text.length := by omega
    simp [hnot]
  · next hlong =>
    have hlength := Utf16.length_le text
    have hover : ¬utf8Length text ≤ limit := by omega
    have hwhole := length_le_take (Nat.le_of_not_le hlong)
    simp only [later_lineBreak, hover, false_or, utf8Length_marker, Nat.lt_of_not_le hlong,
      true_and]
    unfold BreaksInTime
    cases hcut : lastIndexOf [10] (text.take limit) with
    | none =>
      have hposition : lastPosition [10] (text.take limit) = -1 := by
        rw [lastPosition, hcut]
        rfl
      rw [hposition, if_neg (by omega)]
      simp only [reduceCtorEq, false_and, exists_false, iff_false]
      omega
    | some cut =>
      have hposition : lastPosition [10] (text.take limit) = cut := by
        rw [lastPosition, hcut]
        rfl
      rw [hposition]
      simp only [Option.some.injEq, exists_eq_left']
      by_cases hlate : limit < 2 * cut
      · rw [if_pos (by omega), Int.toNat_natCast]
        exact ⟨fun h => ⟨hlate, h⟩, And.right⟩
      · rw [if_neg (by omega)]
        constructor
        · intro h
          omega
        · exact fun h => absurd h.1 hlate

theorem trimAtBoundary_whole {text : Text} {limit : ℕ} (h : utf8Length text ≤ limit) :
    (trimAtBoundary text limit).1 = text := by
  have hlength := Utf16.length_le text
  rw [trimAtBoundary, if_pos (by omega)]

/-! ### The page -/

structure FeedItem where
  title : Text
  link : Text
  date : Text
  summary : Text

structure Feed where
  title : Text
  items : List FeedItem

/-- How bytes become text: the charset, the feed parser and the extraction from HTML. -/
structure PageReader where
  decodeBytes : String → List UInt8 → Text
  isFeedResponse : String → Text → Bool
  parseFeed : Text → Feed
  isHtml : String → Text → Bool
  htmlToText : String → Text → Text
  extractTitle : Text → Text
  extractMetaDescription : Text → Text

structure PageResponse where
  status : ℕ
  finalUrl : String
  contentType : String
  body : Body

def PageResponse.ok (r : PageResponse) : Bool := 200 ≤ r.status && r.status < 300

inductive PageKind where
  | feed (items : ℕ)
  | html
  | text

structure PageOutput where
  url : String
  status : ℕ
  contentType : String
  kind : PageKind
  returnedBytes : Option ℕ := none
  contentTruncated : Option Bool := none
  downloadTruncated : Bool
  cached : Bool := false

structure CachedPage where
  header : Text
  bodyText : Text
  output : PageOutput

/-- What a fetch resolves to; `text` is the page text within the content. -/
structure PageResult where
  output : PageOutput
  content : Text
  text : Text
  isError : Bool

def joinLines (lines : List Text) : Text := [10].intercalate lines

def optionalLine (label : String) (line : Text) : List Text :=
  if line = [] then [] else [literal label ++ line]

def feedItemText (item : FeedItem) (index : ℕ) : Text :=
  literal (toString (index + 1) ++ ". ") ++ item.title ++
    (if item.date = [] then [] else literal "（" ++ item.date ++ literal "）") ++
    literal "\n   原文链接: " ++ item.link ++
    if item.summary = [] then [] else literal "\n   摘要: " ++ item.summary

def feedContent (finalUrl : String) (feed : Feed) : Text :=
  let shown := feed.items.take 30
  joinLines ([literal ("[RSS/Atom 订阅源] 原文链接: " ++ finalUrl)] ++
    optionalLine "标题: " feed.title ++
    [literal ("共解析 " ++ toString feed.items.length ++ " 条（显示前 " ++
      toString shown.length ++ " 条）"), []] ++
    shown.zipIdx.map fun item => feedItemText item.1 item.2)

/-- Source attribution travels with the content itself. -/
def pageHeader (finalUrl : String) (title description : Text) : Text :=
  joinLines ([literal ("原文链接: " ++ finalUrl)] ++ optionalLine "标题: " title ++
    if description = title then [] else optionalLine "摘要: " (description.take 200))

/-- `content.split('\n').slice(0, 2).join('\n')` -/
def firstLines (content : Text) : Text :=
  joinLines (((Lines.cut 10 content).1 ++ [(Lines.cut 10 content).2]).take 2)

/-- The text of a page before its cap; a feed that was not in the cache has none. -/
inductive PageSource where
  | feed (content : Text)
  | page (rawText : Text)

def PageSource.text : PageSource → Text
  | .feed content => content
  | .page rawText => rawText

def PageSource.handOver (source : PageSource) (wanted : ℕ) : Text × Bool :=
  match source with
  | .feed content => (content, false)
  | .page rawText => trimAtBoundary rawText wanted

section
variable (reader : PageReader) (maxDownloadBytes : ℕ)

/-- A download that was cut inside a block gets its tags closed. -/
def decodedText (response : PageResponse) : Text :=
  let download := readBounded response.body maxDownloadBytes
  reader.decodeBytes response.contentType download.bytes ++
    if download.truncated then literal "</script></style></title>" else []

def pageSource (cached : Option CachedPage) (response : PageResponse) : PageSource :=
  match cached with
  | some entry => .page entry.bodyText
  | none =>
    let decoded := decodedText reader maxDownloadBytes response
    if reader.isFeedResponse response.contentType decoded then
      .feed (feedContent response.finalUrl (reader.parseFeed decoded))
    else if reader.isHtml response.contentType decoded then
      .page (reader.htmlToText response.finalUrl decoded)
    else .page decoded

def wantedBytes (maxBytes : Option ℕ) : ℕ := (maxBytes.filter (0 < ·)).getD 65536

def statusLine (response : PageResponse) (content : Text) : Text :=
  if response.ok then content
  else literal ("HTTP " ++ toString response.status ++ " from " ++ response.finalUrl ++ "\n\n") ++
    content

/-- `#fetchPage`, from the entry that the cache has or the response that the server gives; with what
is written to the cache. -/
def fetchPage (cached : Option CachedPage) (response : PageResponse) (maxBytes : Option ℕ) :
    PageResult × Option CachedPage :=
  let source := pageSource reader maxDownloadBytes cached response
  let trimmed := source.handOver (wantedBytes maxBytes)
  match cached with
  | some entry =>
    ({ output := { entry.output with
        cached := true
        returnedBytes := some trimmed.1.length
        contentTruncated := some trimmed.2 }
       content := entry.header ++ literal
        "\n\n[缓存命中] 该页面在短时间内已抓取过，本次未重新下载。\n\n" ++ trimmed.1
       text := trimmed.1
       isError := false }, none)
  | none =>
    let download := readBounded response.body maxDownloadBytes
    let decoded := decodedText reader maxDownloadBytes response
    let url := response.finalUrl
    let status := response.status
    let contentType := response.contentType
    let downloadTruncated := download.truncated
    let isError := !response.ok
    match source with
    | .feed content =>
      let items := (reader.parseFeed decoded).items.length
      let output := { url, status, contentType, kind := .feed items, downloadTruncated }
      ({ output, content := statusLine response content, text := content, isError },
        if response.ok then some ⟨firstLines content, content, output⟩ else none)
    | .page rawText =>
      let isHtml := reader.isHtml contentType decoded
      let title := if isHtml then reader.extractTitle decoded else []
      let description := if isHtml then reader.extractMetaDescription decoded else []
      let header := pageHeader url title description
      let note := if isHtml ∧ trimmed.1.length < 300 ∧ 10000 < download.bytes.length then
        literal ("\n\n⚠ 该页面可能依赖 JavaScript 渲染，静态抓取只获得了以上少量文本；" ++
          "可尝试该站点的 RSS/Atom 订阅源。") else []
      let output :=
        { url, status, contentType, kind := if isHtml then .html else .text
          returnedBytes := some trimmed.1.length
          contentTruncated := some trimmed.2
          downloadTruncated }
      ({ output, isError, text := trimmed.1
         content := statusLine response (header ++ literal "\n\n" ++ trimmed.1 ++ note) },
        if response.ok then some ⟨header, rawText, output⟩ else none)

/-- The page text is what was handed over of the page, and it is part of the content. -/
theorem fetchPage_text (cached : Option CachedPage) (response : PageResponse)
    (maxBytes : Option ℕ) :
    (fetchPage reader maxDownloadBytes cached response maxBytes).1.text =
      ((pageSource reader maxDownloadBytes cached response).handOver (wantedBytes maxBytes)).1 := by
  unfold fetchPage
  cases cached with
  | some entry => rfl
  | none =>
    dsimp only
    cases pageSource reader maxDownloadBytes none response <;> rfl

end

/-! ### The bounds -/

/-- At most `limit` bytes in UTF-8, and the whole text whenever that fits. -/
def Bounded (whole handed : Text) (limit : ℕ) : Prop :=
  utf8Length handed ≤ limit ∧ (utf8Length whole ≤ limit → handed = whole)

/-- The text fits, or it is long enough to be cut and has a line break in time. -/
def PageSource.Fits (source : PageSource) (limit : ℕ) : Prop :=
  utf8Length source.text ≤ limit ∨
    match source with
    | .feed _ => False
    | .page rawText => limit < rawText.length ∧ BreaksInTime rawText limit

theorem handOver_bounded (source : PageSource) (limit : ℕ) :
    Bounded source.text (source.handOver limit).1 limit ↔ source.Fits limit := by
  cases source with
  | feed content => simp [Bounded, PageSource.Fits, PageSource.text, PageSource.handOver]
  | page rawText =>
    have hwhole : utf8Length rawText ≤ limit → (trimAtBoundary rawText limit).1 = rawText :=
      trimAtBoundary_whole
    exact (and_iff_left hwhole).trans (trimAtBoundary_spec rawText limit)

theorem readBounded_right (body : Body) (limit : ℕ) :
    readBounded body limit = ⟨body.bytes.take limit, limit < body.bytes.length⟩ ↔
      ¬body.EndsLate limit := by
  obtain ⟨hbytes, htruncated⟩ := readBounded_spec body limit
  constructor
  · intro h hlate
    have hflag : (readBounded body limit).truncated = true := htruncated.mpr (.inr hlate)
    rw [h, decide_eq_true_eq, hlate.1] at hflag
    exact Nat.lt_irrefl _ hflag
  · intro hlate
    have hflag : (readBounded body limit).truncated = decide (limit < body.bytes.length) := by
      rw [Bool.eq_iff_iff, htruncated, decide_eq_true_eq, or_iff_left hlate]
    rw [← hbytes, ← hflag]

/-- The download is right unless the body ends late; the page text is bounded when it fits or is cut
at a line break in time. -/
theorem bounded_text_iff (reader : PageReader) (maxDownloadBytes : ℕ)
    (cached : Option CachedPage) (response : PageResponse) (maxBytes : Option ℕ) :
    (readBounded response.body maxDownloadBytes =
        ⟨response.body.bytes.take maxDownloadBytes,
          maxDownloadBytes < response.body.bytes.length⟩ ∧
      Bounded (pageSource reader maxDownloadBytes cached response).text
        (fetchPage reader maxDownloadBytes cached response maxBytes).1.text
        (wantedBytes maxBytes)) ↔
    (¬response.body.EndsLate maxDownloadBytes ∧
      (pageSource reader maxDownloadBytes cached response).Fits (wantedBytes maxBytes)) := by
  rw [fetchPage_text, readBounded_right, handOver_bounded]

/-- A reader of plain text in UTF-8. -/
def plainReader : PageReader where
  decodeBytes _ bytes :=
    Utf16.encode ((Utf8.TextDecoder.read {} bytes).1 ++ (Utf8.TextDecoder.read {} bytes).2.finish)
  isFeedResponse _ _ := false
  parseFeed _ := ⟨[], []⟩
  isHtml _ _ := false
  htmlToText _ decoded := decoded
  extractTitle _ := []
  extractMetaDescription _ := []

/-- Two hundred characters of three bytes. -/
def wideResponse : PageResponse :=
  ⟨200, "https://example.com/", "text/plain",
    .stream [Utf8.encode (List.replicate 200 (Char.ofNat 0x754C))]⟩

/-- A cap of 256 bytes lets the two hundred characters through, which are 600 bytes. -/
theorem wide_text_over_cap :
    ¬∀ (reader : PageReader) (maxDownloadBytes : ℕ) (cached : Option CachedPage)
      (response : PageResponse) (maxBytes : Option ℕ),
      readBounded response.body maxDownloadBytes =
          ⟨response.body.bytes.take maxDownloadBytes,
            maxDownloadBytes < response.body.bytes.length⟩ ∧
        Bounded (pageSource reader maxDownloadBytes cached response).text
          (fetchPage reader maxDownloadBytes cached response maxBytes).1.text
          (wantedBytes maxBytes) := by
  intro h
  have hcap := (h plainReader 2097152 none wideResponse (some 256)).2.1
  revert hcap
  decide +kernel

end BeeAgent.Web
