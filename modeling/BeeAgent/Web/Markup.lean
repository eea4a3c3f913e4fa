import BeeAgent.Data.Regex
import BeeAgent.Web.Pages
import Mathlib.Data.List.DropRight

/-! The text of HTML pages and of feeds: markup is cut out by regular expressions, then the
character references in what is left are replaced. -/
namespace BeeAgent.Web.Markup
open Regex

/-! ### Units -/

def isSpace (u : UInt16) : Bool :=
  u.toNat ∈ [9, 10, 11, 12, 13, 32, 0xA0, 0x1680, 0x2028, 0x2029, 0x202F, 0x205F, 0x3000, 0xFEFF] ||
    (0x2000 ≤ u.toNat && u.toNat ≤ 0x200A)

def isDigit (u : UInt16) : Bool := 48 ≤ u.toNat && u.toNat ≤ 57

def isLetter (u : UInt16) : Bool :=
  (65 ≤ u.toNat && u.toNat ≤ 90) || (97 ≤ u.toNat && u.toNat ≤ 122)

def isAlphanumeric (u : UInt16) : Bool := isLetter u || isDigit u

def isHexDigit (u : UInt16) : Bool :=
  isDigit u || (65 ≤ u.toNat && u.toNat ≤ 70) || (97 ≤ u.toNat && u.toNat ≤ 102)

/-- `\w` -/
def isWordUnit (u : UInt16) : Bool := isAlphanumeric u || u.toNat = 95

/-- `.` -/
def isInLine (u : UInt16) : Bool := u.toNat ∉ [10, 13, 0x2028, 0x2029]

/-- `toLowerCase` of an ASCII letter. -/
def lower (u : UInt16) : UInt16 := if 65 ≤ u.toNat ∧ u.toNat ≤ 90 then u + 32 else u

def trim (text : Text) : Text := (text.dropWhile isSpace).rdropWhile isSpace

/-! ### Patterns -/

/-- A word under the flag `i`. -/
def anyCase (s : String) : Pattern UInt16 := .word (fun a b => lower a = lower b) (literal s)

def exactly (s : String) : Pattern UInt16 := .word (fun a b => a = b) (literal s)

/-- `[\s\S]*?` -/
def anything : Pattern UInt16 := .many false (.one fun _ => true)

def notUnit (c : Char) : Pattern UInt16 := .one fun u => u.toNat ≠ c.toNat

def oneOf (cs : List Char) : Pattern UInt16 := .one fun u => u.toNat ∈ cs.map Char.toNat

/-- `<name[\s\S]*?<\/name>` -/
def element (name : String) : Pattern UInt16 :=
  .all [anyCase ("<" ++ name), anything, anyCase ("</" ++ name ++ ">")]

/-- `<\/(p|div|li|h[1-6]|tr|section|article|blockquote|pre)>` -/
def blockEnd : Pattern UInt16 :=
  .all [anyCase "</", .any [anyCase "p", anyCase "div", anyCase "li",
    .seq (anyCase "h") (oneOf ['1', '2', '3', '4', '5', '6']), anyCase "tr", anyCase "section",
    anyCase "article", anyCase "blockquote", anyCase "pre"], anyCase ">"]

/-- `<br\s*\/?>` -/
def lineBreak : Pattern UInt16 :=
  .all [anyCase "<br", .many true (.one isSpace), .opt (anyCase "/"), anyCase ">"]

/-- `<a\s[^>]*href=(["'])(.*?)\1[^>]*>([\s\S]*?)<\/a>` -/
def anchor : Pattern UInt16 :=
  .all [anyCase "<a", .one isSpace, .many true (notUnit '>'), anyCase "href=",
    .group 1 (oneOf ['"', '\'']), .group 2 (.many false (.one isInLine)), .again 1,
    .many true (notUnit '>'), anyCase ">", .group 3 anything, anyCase "</a>"]

/-- `<[^>]+>` -/
def tag : Pattern UInt16 := .all [exactly "<", .plus (notUnit '>'), exactly ">"]

def spaces : Pattern UInt16 := .plus (.one isSpace)

/-- `#x?[0-9a-fA-F]+|[a-zA-Z][a-zA-Z0-9]*` -/
def entityBody : Pattern UInt16 :=
  .alt (.all [exactly "#", .opt (exactly "x"), .plus (.one isHexDigit)])
    (.seq (.one isLetter) (.many true (.one isAlphanumeric)))

/-- `&(…);` -/
def entity : Pattern UInt16 := .all [exactly "&", .group 1 entityBody, exactly ";"]

def replaceBy (pattern : Pattern UInt16) (replacement : String) : Text → Text :=
  replaceAll pattern fun _ => literal replacement

/-! ### Character references -/

inductive RangeError where
  | rangeError
  deriving DecidableEq, Repr

/-- The code units of a code point. -/
def codeUnits (code : ℕ) : Text :=
  if code < 0x10000 then [UInt16.ofNat code]
  else [UInt16.ofNat (0xD800 + (code - 0x10000) / 0x400),
    UInt16.ofNat (0xDC00 + (code - 0x10000) % 0x400)]

/-- `String.fromCodePoint` -/
def fromCodePoint (code : ℕ) : Except RangeError Text :=
  if code ≤ 0x10FFFF then .ok (codeUnits code) else .error .rangeError

def digitValue (u : UInt16) : ℕ :=
  if isDigit u then u.toNat - 48
  else if isLetter u then (lower u).toNat - 87
  else 36

def numberOf (radix : ℕ) (digits : Text) : ℕ :=
  digits.foldl (fun n u => n * radix + digitValue u) 0

/-- `Number.parseInt` of what begins with no space, sign or `0x`; `none` is `NaN`. -/
def parseInt (text : Text) (radix : ℕ) : Option ℕ :=
  let digits := text.takeWhile fun u => digitValue u < radix
  if digits = [] then none else some (numberOf radix digits)

/-- The number is not rounded to infinity. -/
def isFinite (n : ℕ) : Bool := n < Nat.pow 2 1024 - Nat.pow 2 970

def namedEntities : List (String × String) :=
  [("nbsp", " "), ("amp", "&"), ("lt", "<"), ("gt", ">"), ("quot", "\""), ("apos", "'"),
    ("hellip", "…"), ("mdash", "—"), ("ndash", "–"), ("lsquo", "‘"), ("rsquo", "’"),
    ("ldquo", "“"), ("rdquo", "”"), ("bull", "•"), ("middot", "·"), ("copy", "©"), ("reg", "®"),
    ("trade", "™"), ("deg", "°"), ("plusmn", "±"), ("times", "×"), ("divide", "÷"),
    ("laquo", "«"), ("raquo", "»"), ("minus", "−"), ("sup2", "²"), ("sup3", "³"),
    ("frac12", "½"), ("euro", "€"), ("pound", "£"), ("yen", "¥"), ("sect", "§"), ("para", "¶"),
    ("dagger", "†")]

/-- The entry of the table under a name in lower case. -/
def tableEntry (name : Text) : Option Text :=
  (namedEntities.find? fun entry => literal entry.1 = name).map fun entry => literal entry.2

/-- The table is an object: it inherits a function under `constructor`, and nothing else under a
name of lower-case letters and digits. -/
def lookup (name : Text) : Option Text :=
  tableEntry name <|>
    if name = literal "constructor" then some (literal "function Object() { [native code] }")
    else none

/-- A number that is no code point makes `fromCodePoint` throw. -/
def decodeNumber (body digits : Text) (radix : ℕ) : Except RangeError Text :=
  match parseInt digits radix with
  | some code => if isFinite code then fromCodePoint code else .ok body
  | none => .ok body

def decodeEntity (body : Text) : Except RangeError Text :=
  if literal "#x" <+: body ∨ literal "#X" <+: body then decodeNumber body (body.drop 2) 16
  else if literal "#" <+: body then decodeNumber body (body.drop 1) 10
  else .ok ((lookup (body.map lower)).getD body)

def captured (n : ℕ) (found : Found UInt16) : Text := (found.groups n).getD []

def decodeEntities (text : Text) : Except RangeError Text :=
  replaceM entity (fun found => decodeEntity (captured 1 found)) text

/-! ### Pages -/

section Page
variable (url : Text → Option Text → Option Text)

/-- `url` is what `new URL(href, base)` gives, if it does not throw. -/
def resolveHref (href : Text) (baseUrl : Option Text) : Option Text :=
  let trimmed := trim href
  if trimmed = [] ∨ literal "#" <+: trimmed then none
  else
    let scheme := Pattern.seq (.any [anyCase "javascript", anyCase "mailto", anyCase "tel",
      anyCase "data"]) (anyCase ":")
    if (matchAt scheme { previous := none, rest := trimmed }).isSome then none
    else url trimmed baseUrl

/-- The references to `&` are replaced in a label before those of the whole page are. -/
def labelText (inner : Text) : Text :=
  trim (replaceBy spaces " " (replaceBy (anyCase "&amp;") "&" (replaceBy tag " " inner)))

/-- A link in Markdown. -/
def link (baseUrl : Option Text) (found : Found UInt16) : Text :=
  let target := resolveHref url (captured 2 found) baseUrl
  let label := labelText (captured 3 found)
  match (if label = [] then target else some label), target with
  | none, _ => literal " "
  | some label, none => label
  | some label, some target => literal "[" ++ label ++ literal "](" ++ target ++ literal ")"

/-- The page that links are looked for in. -/
def linkedPage (html : Text) : Text :=
  let html := replaceBy (element "noscript") " " <| replaceBy (element "style") " " <|
    replaceBy (element "script") " " html
  replaceBy lineBreak "\n" (replaceBy blockEnd "\n" html)

def tagless (html : Text) (baseUrl : Option Text) : Text :=
  replaceBy tag " " (replaceAll anchor (link url baseUrl) (linkedPage html))

def labels (html : Text) : List Text :=
  (matchAll anchor (linkedPage html)).map fun found => replaceBy tag " " (captured 3 found)

def tidy (text : Text) : Text :=
  let text := replaceBy (.plus (oneOf [' ', '\t'])) " " text
  let emptyLines := .all [exactly "\n", .many true (.one isSpace), .plus (exactly "\n")]
  let text := replaceBy emptyLines "\n" text
  trim ((literal "\n").intercalate ((text.splitOn 10).map trim))

def htmlToText (html : Text) (baseUrl : Option Text) : Except RangeError Text :=
  (decodeEntities (tagless url html baseUrl)).map tidy

end Page

/-! ### Feeds -/

/-- `&#(\d+);` -/
def decimalReference : Pattern UInt16 :=
  .all [exactly "&#", .group 1 (.plus (.one isDigit)), exactly ";"]

/-- `<!\[CDATA\[([\s\S]*?)\]\]>` -/
def cdata : Pattern UInt16 := .all [exactly "<![CDATA[", .group 1 anything, exactly "]]>"]

/-- The passes over the references of a feed, one after the other. -/
def decodeFeedText (text : Text) : Except RangeError Text :=
  let text := replaceBy (exactly "&quot;") "\"" <| replaceBy (exactly "&gt;") ">" <|
    replaceBy (exactly "&lt;") "<" <| replaceBy (exactly "&amp;") "&" text
  replaceM decimalReference (fun found => fromCodePoint (numberOf 10 (captured 1 found))) text

def unwrapped (value : Text) : Text := replaceAll cdata (captured 1) value

def stripCdata (value : Text) : Except RangeError Text :=
  (decodeFeedText (unwrapped value)).map fun text => trim (replaceBy spaces " " text)

/-- A text of a feed as it stands there: between two tags, or in an attribute of a link. -/
inductive Part where
  | element (value : Text)
  | href (value : Text)
  deriving DecidableEq

def Part.read : Part → Except RangeError Text
  | .element value => stripCdata value
  | .href value => .ok value

section Feed
variable {m : Type → Type} [Monad m] (read : Part → m Text)

def firstTag (block : Text) (tag : String) : m Text :=
  let pattern := Pattern.all [anyCase ("<" ++ tag), .many true (notUnit '>'), anyCase ">",
    .group 1 anything, anyCase ("</" ++ tag ++ ">")]
  match exec pattern block with
  | none => pure []
  | some found => read (.element (captured 1 found))

/-- The first of several tags that gives a text. -/
def firstOf (block : Text) : List String → m Text
  | [] => pure []
  | [tag] => firstTag read block tag
  | tag :: tags => do
    let text ← firstTag read block tag
    if text = [] then firstOf block tags else return text

/-- `<name\b[^>]*>([\s\S]*?)<\/name>`, of which the n-th group is captured. -/
def entry (n : ℕ) (name : String) : Pattern UInt16 :=
  .all [anyCase ("<" ++ name), .edge isWordUnit, .many true (notUnit '>'), anyCase ">",
    .group n anything, anyCase ("</" ++ name ++ ">")]

/-- The `href` of a link. -/
def firstHref (block : Text) : m Text :=
  let quotes := oneOf ['"', '\'']
  let pattern := Pattern.all [anyCase "<link", .many true (notUnit '>'), anyCase "href=", quotes,
    .group 1 (.plus (.one fun u => u.toNat ∉ ['"', '\''].map Char.toNat)), quotes]
  match exec pattern block with
  | none => pure []
  | some found => read (.href (captured 1 found))

def feedLink (block : Text) : m Text := do
  let link ← firstTag read block "link"
  if link = [] then firstHref read block else return link

/-- An entry without a link and a title is left out. -/
def feedItem (block : Text) : m (Option FeedItem) := do
  let link ← feedLink read block
  let title ← firstTag read block "title"
  if link = [] ∧ title = [] then return none
  else
    let date ← firstOf read block ["pubdate", "published", "updated", "dc:date"]
    let text ← firstOf read block ["description", "summary", "content", "content:encoded"]
    let summary := trim (replaceBy spaces " " (replaceBy tag " " text))
    return some ⟨title, link, date, summary.take 300⟩

/-- The items of the blocks, up to 50. -/
def feedItems : List FeedItem → List Text → m (List FeedItem)
  | items, [] => pure items
  | items, block :: blocks => do
    match ← feedItem read block with
    | none => feedItems items blocks
    | some item =>
      if (items ++ [item]).length = 50 then return items ++ [item]
      else feedItems (items ++ [item]) blocks

/-- `xml.slice(0, xml.search(…) || xml.length)`: without a match the last unit is cut off. -/
def feedHead (xml : Text) : Text :=
  match search (.seq (.seq (anyCase "<") (.alt (anyCase "item") (anyCase "entry")))
    (.edge isWordUnit)) xml with
  | none => xml.dropLast
  | some 0 => xml
  | some n => xml.take n

def feedBlocks (xml : Text) : List Text :=
  (matchAll (.alt (entry 1 "item") (entry 2 "entry")) xml).map fun found =>
    ((found.groups 1) <|> (found.groups 2)).getD []

def channelTitle (xml : Text) : m Text := do
  let title ← firstTag read (feedHead xml) "title"
  if title = [] then firstTag read xml "title" else return title

def parseFeed (xml : Text) : m Feed := do
  let title ← channelTitle read xml
  return ⟨title, ← feedItems read [] (feedBlocks xml)⟩

end Feed

end BeeAgent.Web.Markup
