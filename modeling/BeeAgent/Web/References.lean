import BeeAgent.Web.Characters

/-! Where pages and feeds are read without throwing and with every character reference replaced by
what is right for it. -/
namespace BeeAgent.Web.Markup
open Regex References

/-! ### Pages -/

section Pages
variable {body v : Text}

/-- The references of pages that are replaced as they should be; those that begin with `#X` are
not read at all. -/
def GoodInPage (body : Text) : Prop :=
  if literal "#X" <+: body then codePoint body = none
  else if literal "#" <+: body then codePoint body ≠ none
  else body.map lower ≠ literal "constructor"

theorem tableEntry_length (h : tableEntry body = some v) : v.length = 1 := by
  obtain ⟨entry, hentry, rfl⟩ := Option.map_eq_some_iff.mp h
  have hall : ∀ entry ∈ namedEntities, (literal entry.2).length = 1 := by decide
  exact hall entry (List.mem_of_find?_eq_some hentry)

theorem constructor_not_in_table : tableEntry (literal "constructor") = none := by decide

theorem lookup_constructor : ∃ v, lookup (literal "constructor") = some v ∧ v.length = 35 :=
  ⟨literal "function Object() { [native code] }", by decide, by decide⟩

theorem length_constructor (h : body.map lower = literal "constructor") : body.length = 11 := by
  have hlength : (literal "constructor").length = 11 := by decide
  rw [← hlength, ← h, List.length_map]

theorem lookup_of_ne (h : body ≠ literal "constructor") : lookup body = tableEntry body := by
  simp [lookup, if_neg h]

/-- What a name gives is too short for the reference, or too long for it. -/
theorem lookup_ne_reference (hne : body ≠ []) :
    (lookup (body.map lower)).getD body ≠ characters.reference body := by
  by_cases hname : body.map lower = literal "constructor"
  · intro h
    obtain ⟨v, hlookup, hlength⟩ := lookup_constructor
    rw [hname, hlookup, Option.getD_some] at h
    have hreference := reference_length body
    rw [← h, hlength, length_constructor hname] at hreference
    omega
  · rw [lookup_of_ne hname]
    cases hentry : tableEntry (body.map lower) with
    | none => exact (reference_ne body).symm
    | some v => exact reference_ne_short hne (by simp [tableEntry_length hentry])

theorem IsBody.ne_nil (h : IsBody body) : body ≠ [] := by
  cases h <;> simp [literal_hash, literal_lowerHex, literal_upperHex]

theorem decodeEntity_ne_reference (h : IsBody body) :
    decodeEntity body ≠ .ok (characters.reference body) := by
  have hne := h.ne_nil
  cases h with
  | hash h => exact decodeEntity_hash h ▸ decodeNumber_ne_reference hne
  | lowerHex h => exact decodeEntity_hex (.inl rfl) ▸ decodeNumber_ne_reference hne
  | upperHex h => exact decodeEntity_hex (.inr rfl) ▸ decodeNumber_ne_reference hne
  | name hu hrest =>
    rw [decodeEntity_name (not_hash_begins hu)]
    exact fun heq => lookup_ne_reference hne (Except.ok.inj heq)

theorem decodeEntity_right_iff (h : IsBody body) (hX : ¬literal "#X" <+: body) :
    decodeEntity body = .ok (right body) ↔ GoodInPage body := by
  rw [GoodInPage, if_neg hX]
  cases h with
  | hash h =>
    rw [decodeEntity_hash h, if_pos (hash_begins _).1,
      decodeNumber_right_iff (hash_begins _).1 fun _ => parseInt_hash h]
  | lowerHex h =>
    rw [decodeEntity_hex (.inl rfl), if_pos (hash_begins _).2.1,
      decodeNumber_right_iff (hash_begins _).2.1 fun _ => parseInt_hex h (.inl rfl)]
  | upperHex h => exact absurd (List.prefix_append _ _) hX
  | @name u rest hu hrest =>
    have hhash : ¬literal "#" <+: u :: rest := not_hash_begins hu
    rw [decodeEntity_name hhash, right_name hhash, if_neg hhash, Except.ok.injEq]
    constructor
    · intro h hname
      obtain ⟨v, hlookup, hlength⟩ := lookup_constructor
      rw [hname, hlookup, constructor_not_in_table, Option.getD_some, Option.getD_none] at h
      rw [h, length_constructor hname] at hlength
      omega
    · exact fun h => by rw [lookup_of_ne h]

theorem right_eq_reference_iff (hne : body ≠ []) :
    right body = characters.reference body ↔ literal "#" <+: body ∧ codePoint body = none := by
  by_cases hhash : literal "#" <+: body
  · rw [right_number hhash]
    cases hcode : codePoint body with
    | none => simp [hhash]
    | some code => simpa using reference_ne_short hne (codeUnits_length code)
  · rw [right_name hhash]
    cases hentry : tableEntry (body.map lower) with
    | none => simpa [hhash] using (reference_ne body).symm
    | some v => simpa [hhash] using reference_ne_short hne (tableEntry_length hentry).le.step

def valueInPage (body : Text) : Except RangeError Text :=
  if literal "#X" <+: body then .ok (characters.reference body) else decodeEntity body

theorem scans_page : Scans characters decodeEntities valueInPage := by
  classical
  have hscans : Scans characters decodeEntities _ := finds_entity.scans
  refine ⟨hscans.nil, hscans.unit, ?_, hscans.lone⟩
  intro body after hbody
  have hread : IsEntity body ↔ ¬literal "#X" <+: body := ⟨And.right, fun h => ⟨hbody, h⟩⟩
  rw [hscans.reference hbody, valueInPage]
  by_cases hX : literal "#X" <+: body <;> simp [hread, hX]

theorem valueInPage_right_iff (h : IsBody body) :
    valueInPage body = .ok (right body) ↔ GoodInPage body := by
  by_cases hX : literal "#X" <+: body
  · have hhash : literal "#" <+: body :=
      (by decide : literal "#" <+: literal "#X").trans hX
    have hright := right_eq_reference_iff h.ne_nil
    simp only [hhash, true_and] at hright
    rw [valueInPage, if_pos hX, GoodInPage, if_pos hX, Except.ok.injEq, eq_comm, hright]
  · rw [valueInPage, if_neg hX, decodeEntity_right_iff h hX]

theorem valueInPage_reference_iff (h : IsBody body) :
    valueInPage body = .ok (characters.reference body) ↔ literal "#X" <+: body := by
  by_cases hX : literal "#X" <+: body
  · simp [valueInPage, hX]
  · simpa [valueInPage, hX] using decodeEntity_ne_reference h

/-- A reference to `&` in a label is replaced before the others: what follows must not make another
one of it. -/
def GoodInLabel (body after : Text) : Prop :=
  if body.map lower = literal "amp" then
    ∀ body' after', IsBody body' → after = body' ++ 59 :: after' → literal "#X" <+: body'
  else GoodInPage body

def decodeLabel (label : Text) : Except RangeError Text :=
  decodeEntities (replaceBy (anyCase "&amp;") "&" label)

theorem right_amp (h : body.map lower = literal "amp") : right body = [characters.opening] := by
  have hhash : ¬literal "#" <+: body := by
    intro hbegins
    obtain ⟨rest, rfl⟩ := hbegins
    have hhead : (literal "amp").head? = some 97 := by decide
    rw [← h, literal_hash] at hhead
    exact absurd (Option.some.inj hhead) (by decide)
  have hentry : tableEntry (literal "amp") = some [characters.opening] := by decide
  rw [right_name hhash, h, hentry, Option.getD_some]

theorem decodeLabel_faithful_iff (label : Text) :
    Faithful characters right decodeLabel label ↔
      ∀ before body after, characters.Stands label before body after → GoodInLabel body after := by
  have hiff := scans_page.faithful_iff_of_opening rewrites_amp (fun body _ h => right_amp h) label
  refine hiff.trans (forall₃_congr fun before body after => forall_congr' fun hs => ?_)
  by_cases hamp : body.map lower = literal "amp"
  · simp only [hamp, true_implies, not_true_eq_false, false_implies, and_true, GoodInLabel, if_true]
    refine forall₂_congr fun body' after' => forall_congr' fun hbody' => ?_
    rw [valueInPage_reference_iff hbody']
    rfl
  · simp only [hamp, false_implies, true_and, not_false_eq_true, true_implies, GoodInLabel,
      if_false]
    exact valueInPage_right_iff hs.isBody

theorem decodeEntities_faithful_iff (text : Text) :
    Faithful characters right decodeEntities text ↔
      ∀ before body after, characters.Stands text before body after → GoodInPage body :=
  scans_page.faithful_iff.trans (forall₃_congr fun _ _ _ => forall_congr' fun hs =>
    valueInPage_right_iff hs.isBody)

end Pages

/-! ### Feeds -/

section Feeds
variable {body : Text}

def feedNames : List Text := [literal "lt", literal "gt", literal "quot"]

def isDecimal (body : Text) : Bool :=
  literal "#" <+: body && body.drop 1 ≠ [] && (body.drop 1).all isDigit

/-- The references of feeds that are replaced as they should be, by what follows them: `&` is put in
before the others are replaced. -/
def GoodInFeed (body after : Text) : Prop :=
  if isDecimal body then codePoint body ≠ none
  else if literal "#" <+: body then codePoint body = none
  else if body = literal "amp" then
    ∀ body' after', IsBody body' → after = body' ++ 59 :: after' →
      body' ∉ feedNames ∧ isDecimal body' = false
  else body ∈ feedNames

theorem isDecimal_iff : isDecimal body = true ↔
    ∃ digits, digits ≠ [] ∧ (∀ u ∈ digits, isDigit u = true) ∧ body = [35] ++ digits := by
  simp only [isDecimal, literal_hash, Bool.and_eq_true, decide_eq_true_eq, List.all_eq_true]
  constructor
  · rintro ⟨⟨⟨digits, rfl⟩, hne⟩, hdigits⟩
    exact ⟨digits, hne, hdigits, rfl⟩
  · rintro ⟨digits, hne, hdigits, rfl⟩
    exact ⟨⟨List.prefix_append _ _, hne⟩, hdigits⟩

theorem isBody_decimal (h : isDecimal body = true) : IsBody body := by
  obtain ⟨digits, hne, hdigits, rfl⟩ := isDecimal_iff.mp h
  rw [← literal_hash]
  exact .hash ⟨hne, fun u hu => by simp [isHexDigit, hdigits u hu]⟩

theorem finds_decimal : Finds characters decimalReference
    (fun found => fromCodePoint (numberOf 10 (captured 1 found)))
    (fun body => isDecimal body = true) fun body => fromCodePoint (numberOf 10 (body.drop 1)) := by
  have hreads {body : Text} : isDecimal body = true ↔
      ∃ text, Spells (.plus (.one isDigit)) text ∧ body = [35] ++ text := by
    simp only [isDecimal_iff, spells_plus_one, and_assoc]
  have hfinds := finds_group (fun body => isDecimal body = true) [35]
    (fun body => fromCodePoint (numberOf 10 (body.drop 1)))
    (by simp [Plain, Pattern.plus]) (by decide : literal "&#" = _) hreads isBody_decimal
  simpa only [decimalReference, List.cons_append, List.nil_append, List.drop_succ_cons,
    List.drop_zero] using hfinds

def valueInFeed (body : Text) : Except RangeError Text :=
  if body ∈ feedNames then .ok (right body)
  else if isDecimal body then fromCodePoint (numberOf 10 (body.drop 1))
  else .ok (characters.reference body)

/-- The passes after the one over `&amp;`. -/
def decodeRest (text : Text) : Except RangeError Text :=
  replaceM decimalReference (fun found => fromCodePoint (numberOf 10 (captured 1 found)))
    (replaceBy (exactly "&quot;") "\"" (replaceBy (exactly "&gt;") ">"
      (replaceBy (exactly "&lt;") "<" text)))

theorem notMem_of_mark {unit : UInt16} (hunit : ¬(unit = 35 ∨ isAlphanumeric unit = true)) :
    ∀ body, characters.IsBody body → unit ∉ body :=
  fun _ h => h.notMem hunit

theorem isBody_lt : IsBody (literal "lt") := isBody_letters (by decide) (by decide)
theorem isBody_gt : IsBody (literal "gt") := isBody_letters (by decide) (by decide)
theorem isBody_quot : IsBody (literal "quot") := isBody_letters (by decide) (by decide)

theorem scans_feed : Scans characters decodeRest valueInFeed := by
  have hlt : Rewrites characters (replaceBy (exactly "&lt;") "<") (· = literal "lt") 60 :=
    rewrites_exactly (by decide) isBody_lt (by decide)
  have hgt : Rewrites characters (replaceBy (exactly "&gt;") ">") (· = literal "gt") 62 :=
    rewrites_exactly (by decide) isBody_gt (by decide)
  have hquot : Rewrites characters (replaceBy (exactly "&quot;") "\"") (· = literal "quot") 34 :=
    rewrites_exactly (by decide) isBody_quot (by decide)
  have hdecimal := finds_decimal.scans.comp hquot (notMem_of_mark (by decide)) (by decide)
    (by decide)
  have hrest := (hdecimal.comp hgt (notMem_of_mark (by decide)) (by decide) (by decide)).comp hlt
    (notMem_of_mark (by decide)) (by decide) (by decide)
  have hvalue : ∀ body, (if body = literal "lt" then .ok [60] else
      if body = literal "gt" then .ok [62] else if body = literal "quot" then .ok [34] else
      if isDecimal body = true then fromCodePoint (numberOf 10 (body.drop 1))
      else .ok (characters.reference body)) = valueInFeed body := by
    intro body
    have hright : right (literal "lt") = [60] ∧ right (literal "gt") = [62] ∧
        right (literal "quot") = [34] := by decide
    simp only [valueInFeed, feedNames, List.mem_cons, List.not_mem_nil, or_false]
    split
    · simp [*]
    · split
      · simp [*]
      · split <;> simp [*]
  exact (funext hvalue) ▸ hrest

theorem feedNames_not_hash : ∀ name ∈ feedNames, ¬literal "#" <+: name ∧ name ≠ literal "amp" := by
  decide

theorem isDecimal_hash (h : isDecimal body = true) : literal "#" <+: body := by
  simp only [isDecimal, Bool.and_eq_true, decide_eq_true_eq] at h
  exact h.1.1

theorem valueInFeed_decimal (h : isDecimal body = true) :
    valueInFeed body = fromCodePoint (numberOf 10 (body.drop 1)) := by
  have hname : body ∉ feedNames := fun hname =>
    (feedNames_not_hash body hname).1 (isDecimal_hash h)
  rw [valueInFeed, if_neg hname, if_pos h]

theorem codePoint_decimal (h : isDecimal body = true) : codePoint body =
    if numberOf 10 (body.drop 1) ≤ 0x10FFFF then some (numberOf 10 (body.drop 1)) else none := by
  obtain ⟨digits, hne, hdigits, rfl⟩ := isDecimal_iff.mp h
  have hhex : HexDigits digits := ⟨hne, fun u hu => by simp [isHexDigit, hdigits u hu]⟩
  rw [← literal_hash, codePoint_hash hhex, if_pos (List.all_eq_true.mpr hdigits), literal_hash]
  simp [Option.filter]

theorem valueInFeed_reference_iff (h : IsBody body) :
    valueInFeed body = .ok (characters.reference body) ↔
      body ∉ feedNames ∧ isDecimal body = false := by
  by_cases hdecimal : isDecimal body = true
  · rw [valueInFeed_decimal hdecimal, fromCodePoint]
    split
    · simpa [hdecimal] using reference_ne_short h.ne_nil (codeUnits_length _)
    · simp [hdecimal]
  · by_cases hname : body ∈ feedNames
    · have hright := right_eq_reference_iff h.ne_nil
      simp [valueInFeed, hname, hright, (feedNames_not_hash body hname).1]
    · simp [valueInFeed, hname, hdecimal]

theorem valueInFeed_right_iff (h : IsBody body) (hamp : body ≠ literal "amp") (after : Text) :
    valueInFeed body = .ok (right body) ↔ GoodInFeed body after := by
  rw [GoodInFeed]
  by_cases hdecimal : isDecimal body = true
  · rw [valueInFeed_decimal hdecimal, if_pos hdecimal, right_number (isDecimal_hash hdecimal),
      codePoint_decimal hdecimal, fromCodePoint]
    split <;> simp
  · rw [if_neg hdecimal]
    by_cases hname : body ∈ feedNames
    · simp [valueInFeed, hname, hamp, (feedNames_not_hash body hname).1]
    · have hright := right_eq_reference_iff h.ne_nil
      rw [eq_comm] at hright
      by_cases hhash : literal "#" <+: body <;>
        simp [valueInFeed, hname, hdecimal, hamp, hright, hhash]

theorem decodeFeedText_faithful_iff (text : Text) :
    Faithful characters right decodeFeedText text ↔
      ∀ before body after, characters.Stands text before body after → GoodInFeed body after := by
  have hamp : Rewrites characters (replaceBy (exactly "&amp;") "&") (· = literal "amp")
      characters.opening :=
    rewrites_exactly (by decide) (isBody_letters (by decide) (by decide)) literal_opening
  have hright : ∀ body, characters.IsBody body → body = literal "amp" →
      right body = [characters.opening] := by
    rintro _ - rfl
    exact right_amp (by decide)
  have hiff := scans_feed.faithful_iff_of_opening hamp hright text
  refine hiff.trans (forall₃_congr fun before body after => forall_congr' fun hs => ?_)
  by_cases hname : body = literal "amp"
  · subst hname
    have hgood : isDecimal (literal "amp") = false ∧ ¬literal "#" <+: literal "amp" := by decide
    simp only [true_implies, not_true_eq_false, false_implies, and_true, GoodInFeed, hgood,
      if_true, if_false, Bool.false_eq_true]
    exact forall₂_congr fun body' after' => forall₂_congr fun hbody' _ =>
      valueInFeed_reference_iff hbody'
  · simp only [hname, false_implies, true_and, not_false_eq_true, true_implies]
    exact valueInFeed_right_iff hs.isBody hname after

theorem scans_attribute :
    Scans characters (fun text => (.ok text : Except RangeError Text)) fun body =>
      .ok (characters.reference body) where
  nil := rfl
  unit _ := rfl
  reference _ := rfl
  lone _ := rfl

/-- The text of which the references are replaced. -/
def Part.text : Part → Text
  | .element value => unwrapped value
  | .href value => value

def Part.decode : Part → Text → Except RangeError Text
  | .element _ => decodeFeedText
  | .href _ => .ok

def Part.Good (body after : Text) : Part → Prop
  | .element _ => GoodInFeed body after
  | .href _ => literal "#" <+: body ∧ codePoint body = none

theorem Part.faithful_iff (part : Part) (text : Text) :
    Faithful characters right part.decode text ↔
      ∀ before body after, characters.Stands text before body after → part.Good body after := by
  cases part with
  | element value => exact decodeFeedText_faithful_iff text
  | href value =>
    refine scans_attribute.faithful_iff.trans (forall₃_congr fun before body after =>
      forall_congr' fun hs => ?_)
    rw [Except.ok.injEq, eq_comm]
    exact right_eq_reference_iff (IsBody.ne_nil hs.isBody)

theorem Part.read_ok_iff (part : Part) :
    (∃ text, part.read = .ok text) ↔ ∃ text, part.decode part.text = .ok text := by
  cases part with
  | element value =>
    simp only [Part.read, stripCdata, Part.decode, Part.text]
    cases decodeFeedText (unwrapped value) <;> simp [Except.map]
  | href value => exact Iff.rfl

/-! ### The texts that a feed is read from -/

/-- Reads a part and writes down that it was read. -/
def logged (part : Part) : StateM (List Part) Text := fun parts =>
  (part.read.toOption.getD [], parts ++ [part])

/-- The parts that `parseFeed` reads, up to one that makes it throw and as if that one were empty
from there on. -/
def partsRead (xml : Text) : List Part := (parseFeed logged xml []).2

/-- A reading that may throw, beside one that writes down the parts it reads: it throws if one of
these parts does. -/
def Logs {α : Type} (reading : Except RangeError α) (log : StateM (List Part) α) : Prop :=
  ∀ before, ∃ parts, (log before).2 = before ++ parts ∧
    ((∀ part ∈ parts, ∃ text, part.read = .ok text) ∧ reading = .ok (log before).1 ∨
      (∃ part ∈ parts, ¬∃ text, part.read = .ok text) ∧ ∃ e, reading = .error e)

namespace Logs
variable {α β : Type}

theorem pure (a : α) : Logs (Pure.pure a) (Pure.pure a) := fun before =>
  ⟨[], (List.append_nil before).symm, .inl ⟨by simp, rfl⟩⟩

theorem read (part : Part) : Logs part.read (logged part) := by
  intro before
  refine ⟨[part], rfl, ?_⟩
  cases hread : part.read with
  | ok text => exact .inl ⟨by simp [hread], by simp [logged, hread, Except.toOption]⟩
  | error e => exact .inr ⟨by simp [hread], e, rfl⟩

theorem bind {x : Except RangeError α} {y : StateM (List Part) α} {f : α → Except RangeError β}
    {g : α → StateM (List Part) β} (h : Logs x y) (hf : ∀ a, Logs (f a) (g a)) :
    Logs (x >>= f) (y >>= g) := by
  intro before
  obtain ⟨parts, hparts, ⟨hok, rfl⟩ | ⟨hbad, e, rfl⟩⟩ := h before
  · obtain ⟨more, hmore, hcase⟩ := hf (y before).1 (y before).2
    refine ⟨parts ++ more, ?_, ?_⟩
    · change (g (y before).1 (y before).2).2 = _
      rw [hmore, hparts, List.append_assoc]
    · rcases hcase with ⟨hok', heq⟩ | ⟨⟨part, hmem, hbad⟩, e, heq⟩
      · refine .inl ⟨?_, heq⟩
        intro part hmem
        exact (List.mem_append.mp hmem).elim (hok part) (hok' part)
      · exact .inr ⟨⟨part, List.mem_append_right _ hmem, hbad⟩, e, heq⟩
  · obtain ⟨more, hmore, -⟩ := hf (y before).1 (y before).2
    obtain ⟨part, hmem, hbad⟩ := hbad
    refine ⟨parts ++ more, ?_, .inr ⟨⟨part, List.mem_append_left _ hmem, hbad⟩, e, rfl⟩⟩
    change (g (y before).1 (y before).2).2 = _
    rw [hmore, hparts, List.append_assoc]

theorem firstTag (block : Text) (tag : String) :
    Logs (firstTag Part.read block tag) (firstTag logged block tag) := by
  unfold Markup.firstTag
  dsimp only
  generalize exec _ block = found?
  cases found? with
  | none => exact pure []
  | some found => exact read _

theorem firstHref (block : Text) : Logs (firstHref Part.read block) (firstHref logged block) := by
  unfold Markup.firstHref
  dsimp only
  generalize exec _ block = found?
  cases found? with
  | none => exact pure []
  | some found => exact read _

theorem ite {x x' : Except RangeError α} {y y' : StateM (List Part) α} (p : Prop) [Decidable p]
    (h : Logs x y) (h' : Logs x' y') : Logs (if p then x else x') (if p then y else y') := by
  by_cases hp : p
  · simpa only [hp, if_true] using h
  · simpa only [hp, if_false] using h'

theorem firstOf (block : Text) (tags : List String) :
    Logs (firstOf Part.read block tags) (firstOf logged block tags) := by
  induction tags with
  | nil => exact pure []
  | cons tag tags ih =>
    cases tags with
    | nil => exact firstTag block tag
    | cons next tags => exact (firstTag block tag).bind fun text => ite _ ih (pure text)

theorem feedLink (block : Text) : Logs (feedLink Part.read block) (feedLink logged block) :=
  (firstTag block "link").bind fun link => ite _ (firstHref block) (pure link)

theorem feedItem (block : Text) : Logs (feedItem Part.read block) (feedItem logged block) := by
  refine (feedLink block).bind fun link => (firstTag block "title").bind fun title => ?_
  refine ite _ (pure none) ?_
  exact (firstOf block _).bind fun date => (firstOf block _).bind fun text => pure _

theorem feedItems (blocks : List Text) (items : List FeedItem) :
    Logs (feedItems Part.read items blocks) (feedItems logged items blocks) := by
  induction blocks generalizing items with
  | nil => exact pure items
  | cons block blocks ih =>
    refine (feedItem block).bind fun item? => ?_
    cases item? with
    | none => exact ih items
    | some item => exact ite _ (pure _) (ih _)

theorem parseFeed (xml : Text) : Logs (parseFeed Part.read xml) (parseFeed logged xml) := by
  have htitle : Logs (channelTitle Part.read xml) (channelTitle logged xml) :=
    (firstTag _ _).bind fun title => ite _ (firstTag _ _) (pure title)
  exact htitle.bind fun title => (feedItems _ _).bind fun items => pure _

end Logs

theorem parseFeed_ok_iff (xml : Text) : (∃ feed, parseFeed Part.read xml = .ok feed) ↔
    ∀ part ∈ partsRead xml, ∃ text, part.read = .ok text := by
  obtain ⟨parts, hparts, hcase⟩ := Logs.parseFeed xml []
  rw [List.nil_append] at hparts
  rw [partsRead, hparts]
  rcases hcase with ⟨hok, heq⟩ | ⟨⟨part, hmem, hbad⟩, e, heq⟩
  · exact ⟨fun _ => hok, fun _ => ⟨_, heq⟩⟩
  · exact ⟨fun ⟨feed, h⟩ => absurd (heq.symm.trans h) (by simp), fun h => absurd (h part hmem) hbad⟩

end Feeds

/-! ### Pages and feeds -/

/-- A page is read without throwing, and every reference in its text and in its labels is replaced
by what is right for it. -/
structure ReadsPage (url : Text → Option Text → Option Text) (html : Text) (baseUrl : Option Text) :
    Prop where
  returns : ∃ text, htmlToText url html baseUrl = .ok text
  text : Faithful characters right decodeEntities (tagless url html baseUrl)
  labels : ∀ label ∈ labels html, Faithful characters right decodeLabel label

structure GoodPage (url : Text → Option Text → Option Text) (html : Text) (baseUrl : Option Text) :
    Prop where
  text {before body after : Text} :
    characters.Stands (tagless url html baseUrl) before body after → GoodInPage body
  labels {label before body after : Text} : label ∈ labels html →
    characters.Stands label before body after → GoodInLabel body after

/-- A feed is read without throwing, and every reference in its parts is replaced by what is right
for it. -/
structure ReadsFeed (xml : Text) : Prop where
  returns : ∃ feed, parseFeed Part.read xml = .ok feed
  parts : ∀ part ∈ partsRead xml, Faithful characters right part.decode part.text

def GoodFeed (xml : Text) : Prop :=
  ∀ part ∈ partsRead xml, ∀ before body after,
    characters.Stands part.text before body after → part.Good body after

theorem readsPage_iff (url : Text → Option Text → Option Text) (html : Text)
    (baseUrl : Option Text) : ReadsPage url html baseUrl ↔ GoodPage url html baseUrl := by
  constructor
  · intro h
    refine ⟨fun hs => (decodeEntities_faithful_iff _).mp h.text _ _ _ hs, fun hlabel hs => ?_⟩
    exact (decodeLabel_faithful_iff _).mp (h.labels _ hlabel) _ _ _ hs
  · intro h
    have htext : Faithful characters right decodeEntities (tagless url html baseUrl) :=
      (decodeEntities_faithful_iff _).mpr fun _ _ _ hs => h.text hs
    refine ⟨?_, htext, fun label hlabel => ?_⟩
    · obtain ⟨text, heq⟩ := htext.returns
      exact ⟨tidy text, by rw [htmlToText, heq]; rfl⟩
    · exact (decodeLabel_faithful_iff _).mpr fun _ _ _ hs => h.labels hlabel hs

theorem readsFeed_iff (xml : Text) : ReadsFeed xml ↔ GoodFeed xml := by
  have hparts : (∀ part ∈ partsRead xml, Faithful characters right part.decode part.text) ↔
      GoodFeed xml := forall₂_congr fun part _ => part.faithful_iff part.text
  rw [← hparts]
  refine ⟨ReadsFeed.parts, fun h => ⟨(parseFeed_ok_iff xml).mpr fun part hmem => ?_, h⟩⟩
  exact part.read_ok_iff.mpr (h part hmem).returns

end BeeAgent.Web.Markup
