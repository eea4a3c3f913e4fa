import BeeAgent.Data.References
import BeeAgent.Web.Markup

/-! The character references of pages and feeds: what is right for each, and which of them the
patterns of the decoders match. -/
namespace BeeAgent.Web.Markup
open Regex References

/-! ### What is right for a reference -/

def HexDigits (digits : Text) : Prop := digits ≠ [] ∧ ∀ u ∈ digits, isHexDigit u = true

/-- What stands between `&` and `;`: a number, or what looks like one such as `#1f`, or a name. -/
inductive IsBody : Text → Prop
  | hash {digits : Text} (h : HexDigits digits) : IsBody (literal "#" ++ digits)
  | lowerHex {digits : Text} (h : HexDigits digits) : IsBody (literal "#x" ++ digits)
  | upperHex {digits : Text} (h : HexDigits digits) : IsBody (literal "#X" ++ digits)
  | name {u : UInt16} {rest : Text} (hu : isLetter u = true)
    (hrest : ∀ v ∈ rest, isAlphanumeric v = true) : IsBody (u :: rest)

theorem isAlphanumeric_of_hex {u : UInt16} (h : isHexDigit u = true) : isAlphanumeric u = true := by
  simp only [isHexDigit, isAlphanumeric, isLetter, isDigit, Bool.or_eq_true, Bool.and_eq_true,
    decide_eq_true_eq] at h ⊢
  omega

theorem IsBody.unit {body : Text} (h : IsBody body) {u : UInt16} (hu : u ∈ body) :
    u = 35 ∨ isAlphanumeric u = true := by
  have hsigns : [literal "#", literal "#x", literal "#X"].all (fun sign =>
      sign.all fun v => v = 35 || isAlphanumeric v) = true := by decide
  have hsign : ∀ sign ∈ [literal "#", literal "#x", literal "#X"], ∀ v ∈ sign,
      v = 35 ∨ isAlphanumeric v = true := by
    simpa only [List.all_eq_true, Bool.or_eq_true, decide_eq_true_eq] using hsigns
  cases h with
  | hash h | lowerHex h | upperHex h =>
    rcases List.mem_append.mp hu with hu | hu
    · exact hsign _ (by simp) u hu
    · exact .inr (isAlphanumeric_of_hex (h.2 u hu))
  | name hv hrest =>
    rcases List.mem_cons.mp hu with rfl | hu
    · exact .inr (by simp [isAlphanumeric, hv])
    · exact .inr (hrest u hu)

theorem IsBody.notMem {body : Text} (h : IsBody body) {u : UInt16}
    (hu : ¬(u = 35 ∨ isAlphanumeric u = true)) : u ∉ body :=
  mt h.unit hu

/-- Character references stand between `&` and `;`. -/
def characters : Marks UInt16 where
  opening := 38
  closing := 59
  IsBody := IsBody
  opening_ne_closing := by decide
  opening_notMem h := h.notMem (by decide)
  closing_notMem h := h.notMem (by decide)

/-- The code point that a number names. -/
def codePoint (body : Text) : Option ℕ :=
  (if literal "#x" <+: body ∨ literal "#X" <+: body then some (numberOf 16 (body.drop 2))
    else if (body.drop 1).all isDigit then some (numberOf 10 (body.drop 1))
    else none).filter fun code => code ≤ 0x10FFFF

/-- A number that names no code point is left as text; a name that is not in the table stands for
itself. -/
def right (body : Text) : Text :=
  if literal "#" <+: body then ((codePoint body).map codeUnits).getD (characters.reference body)
  else (tableEntry (body.map lower)).getD body

/-! ### Bodies -/

section Bodies
variable {digits body rest : Text} {u : UInt16}

theorem literal_hash : literal "#" = [35] := by decide
theorem literal_lowerHex : literal "#x" = [35, 120] := by decide
theorem literal_upperHex : literal "#X" = [35, 88] := by decide

theorem hash_begins (digits : Text) : literal "#" <+: literal "#" ++ digits ∧
    literal "#" <+: literal "#x" ++ digits ∧ literal "#" <+: literal "#X" ++ digits := by
  simp [literal_hash, literal_lowerHex, literal_upperHex]

theorem not_hex_begins (h : HexDigits digits) :
    ¬(literal "#x" <+: literal "#" ++ digits ∨ literal "#X" <+: literal "#" ++ digits) := by
  obtain ⟨u, rest, rfl⟩ := List.exists_cons_of_ne_nil h.1
  have hu := h.2 u List.mem_cons_self
  simp only [literal_hash, literal_lowerHex, literal_upperHex, List.cons_append,
    List.nil_append, List.cons_prefix_cons, List.nil_prefix, true_and, and_true]
  rintro (rfl | rfl) <;> exact absurd hu (by decide)

theorem not_hash_begins (hu : isLetter u = true) : ¬literal "#" <+: u :: rest := by
  simp only [literal_hash, List.cons_prefix_cons, List.nil_prefix, and_true]
  rintro rfl
  exact absurd hu (by decide)

theorem not_hex_of_not_hash (h : ¬literal "#" <+: body) :
    ¬(literal "#x" <+: body ∨ literal "#X" <+: body) := by
  rintro (hx | hx)
  · exact h ((by decide : literal "#" <+: literal "#x").trans hx)
  · exact h ((by decide : literal "#" <+: literal "#X").trans hx)

theorem codePoint_hash (h : HexDigits digits) : codePoint (literal "#" ++ digits) =
    (if digits.all isDigit then some (numberOf 10 digits) else none).filter
      fun code => code ≤ 0x10FFFF := by
  rw [codePoint, if_neg (not_hex_begins h), literal_hash]
  rfl

theorem codePoint_hex {sign : Text} (hsign : sign = literal "#x" ∨ sign = literal "#X") :
    codePoint (sign ++ digits) =
      (some (numberOf 16 digits)).filter fun code => code ≤ 0x10FFFF := by
  rcases hsign with rfl | rfl
  · rw [codePoint, if_pos (.inl (List.prefix_append _ _)), literal_lowerHex]
    rfl
  · rw [codePoint, if_pos (.inr (List.prefix_append _ _)), literal_upperHex]
    rfl

theorem decodeEntity_hash (h : HexDigits digits) :
    decodeEntity (literal "#" ++ digits) = decodeNumber (literal "#" ++ digits) digits 10 := by
  rw [decodeEntity, if_neg (not_hex_begins h), if_pos (hash_begins digits).1, literal_hash]
  rfl

theorem decodeEntity_hex {sign : Text} (hsign : sign = literal "#x" ∨ sign = literal "#X") :
    decodeEntity (sign ++ digits) = decodeNumber (sign ++ digits) digits 16 := by
  rcases hsign with rfl | rfl
  · rw [decodeEntity, if_pos (.inl (List.prefix_append _ _)), literal_lowerHex]
    rfl
  · rw [decodeEntity, if_pos (.inr (List.prefix_append _ _)), literal_upperHex]
    rfl

theorem decodeEntity_name (h : ¬literal "#" <+: body) :
    decodeEntity body = .ok ((lookup (body.map lower)).getD body) := by
  rw [decodeEntity, if_neg (not_hex_of_not_hash h), if_neg h]

theorem right_number (h : literal "#" <+: body) :
    right body = ((codePoint body).map codeUnits).getD (characters.reference body) := if_pos h

theorem right_name (h : ¬literal "#" <+: body) :
    right body = (tableEntry (body.map lower)).getD body := if_neg h

end Bodies

/-! ### Numbers -/

section Numbers
variable {digits body v : Text} {radix code : ℕ}

theorem codeUnits_length (code : ℕ) : (codeUnits code).length ≤ 2 := by
  unfold codeUnits
  split <;> simp

theorem parseInt_all (hne : digits ≠ []) (h : ∀ u ∈ digits, digitValue u < radix) :
    parseInt digits radix = some (numberOf radix digits) := by
  have htake : digits.takeWhile (fun u => digitValue u < radix) = digits := by
    simpa [List.takeWhile_eq_self_iff] using h
  simp only [parseInt, htake, if_neg hne]

theorem digitValue_hex {u : UInt16} (h : isHexDigit u = true) : digitValue u < 16 := by
  have hlower : (u + 32).toNat = (u.toNat + 32) % 65536 := UInt16.toNat_add u 32
  simp only [isHexDigit, digitValue, isDigit, isLetter, lower, Bool.or_eq_true, Bool.and_eq_true,
    decide_eq_true_eq] at h ⊢
  split
  · omega
  · split
    · split <;> omega
    · omega

theorem digitValue_digit {u : UInt16} (h : isDigit u = true) : digitValue u < 10 := by
  simp only [digitValue, h, if_true]
  simp only [isDigit, Bool.and_eq_true, decide_eq_true_eq] at h
  omega

theorem decodeNumber_small (h : parseInt digits radix = some code) (hcode : code ≤ 0x10FFFF) :
    decodeNumber body digits radix = .ok (codeUnits code) := by
  have hfinite : isFinite code = true := by
    have hbound : 0x10FFFF < Nat.pow 2 1024 - Nat.pow 2 970 := by decide +kernel
    exact decide_eq_true (hcode.trans_lt hbound)
  simp [decodeNumber, h, hfinite, fromCodePoint, hcode]

theorem decodeNumber_ok (h : decodeNumber body digits radix = .ok v) : v = body ∨ v.length ≤ 2 := by
  rw [decodeNumber] at h
  split at h
  · split at h
    · rw [fromCodePoint] at h
      split at h
      · exact .inr (Except.ok.inj h ▸ codeUnits_length _)
      · cases h
    · exact .inl (Except.ok.inj h).symm
  · exact .inl (Except.ok.inj h).symm

theorem reference_length (body : Text) : (characters.reference body).length = body.length + 2 := by
  simp [Marks.reference]

theorem reference_ne (body : Text) : characters.reference body ≠ body := by
  intro h
  have := congrArg List.length h
  rw [reference_length] at this
  omega

theorem reference_ne_short (hne : body ≠ []) (hv : v.length ≤ 2) :
    v ≠ characters.reference body := by
  rintro rfl
  have := List.length_pos_iff.mpr hne
  rw [reference_length] at hv
  omega

theorem decodeNumber_ne_reference (hne : body ≠ []) :
    decodeNumber body digits radix ≠ .ok (characters.reference body) := by
  intro h
  rcases decodeNumber_ok h with h | h
  · exact reference_ne body h
  · exact reference_ne_short hne h rfl

theorem codePoint_le (h : codePoint body = some code) : code ≤ 0x10FFFF :=
  of_decide_eq_true (Option.filter_eq_some_iff.mp h).2

theorem decodeNumber_right_iff (hsign : literal "#" <+: body)
    (hparse : ∀ code, codePoint body = some code → parseInt digits radix = some code) :
    decodeNumber body digits radix = .ok (right body) ↔ codePoint body ≠ none := by
  have hne : body ≠ [] := by
    rintro rfl
    exact absurd hsign (by decide)
  rw [right_number hsign]
  cases hcode : codePoint body with
  | none => simpa using decodeNumber_ne_reference hne
  | some code => simpa using decodeNumber_small (hparse code hcode) (codePoint_le hcode)

theorem parseInt_hash (h : HexDigits digits)
    (hcode : codePoint (literal "#" ++ digits) = some code) : parseInt digits 10 = some code := by
  rw [codePoint_hash h] at hcode
  split at hcode
  · have hdigits := List.all_eq_true.mp ‹_›
    rw [parseInt_all h.1 fun u hu => digitValue_digit (hdigits u hu)]
    exact (Option.filter_eq_some_iff.mp hcode).1
  · cases hcode

theorem parseInt_hex (h : HexDigits digits) {sign : Text}
    (hsign : sign = literal "#x" ∨ sign = literal "#X")
    (hcode : codePoint (sign ++ digits) = some code) : parseInt digits 16 = some code := by
  rw [codePoint_hex hsign] at hcode
  rw [parseInt_all h.1 fun u hu => digitValue_hex (h.2 u hu)]
  exact (Option.filter_eq_some_iff.mp hcode).1

end Numbers

/-! ### What the patterns match -/

section Patterns
variable {s : String} {u body : Text}

theorem spells_exactly : Spells (exactly s) u ↔ u = literal s := by
  rw [exactly, spells_word]
  simp only [decide_eq_true_eq, List.forall₂_eq_eq_eq]
  exact eq_comm

theorem spells_anyCase : Spells (anyCase s) u ↔ u.map lower = (literal s).map lower := by
  rw [anyCase, spells_word]
  simp only [decide_eq_true_eq]
  have hmap := List.forall₂_map_left_iff (R := (· = ·)) (f := lower) (l := literal s)
    (u := u.map lower)
  rw [List.forall₂_eq_eq_eq, List.forall₂_map_right_iff] at hmap
  exact ⟨fun h => (hmap.mpr h).symm, fun h => hmap.mp h.symm⟩

theorem plain_exactly (s : String) : Plain (exactly s) := plain_word _ _

/-- The bodies of the references that are read in a page. -/
def IsEntity (body : Text) : Prop := IsBody body ∧ ¬literal "#X" <+: body

theorem plain_entityBody : Plain entityBody := by
  simp [entityBody, Plain, Pattern.all, Pattern.opt, Pattern.plus, plain_exactly]

theorem spells_entityBody : Spells entityBody body ↔ IsEntity body := by
  simp only [entityBody, spells_alt, Pattern.all, spells_seq, spells_opt, spells_empty,
    spells_exactly, spells_plus_one, spells_one, spells_many_one]
  constructor
  · rintro (⟨_, _, rfl, ⟨x, _, hx, ⟨digits, _, hdigits, rfl, rfl⟩, rfl⟩, rfl⟩ |
      ⟨_, rest, ⟨u, hu, rfl⟩, hrest, rfl⟩)
    · rw [List.append_nil]
      rcases hx with rfl | rfl
      · have hsign : literal "#" ++ (literal "x" ++ digits) = literal "#x" ++ digits := by
          rw [← List.append_assoc]
          rfl
        rw [hsign]
        refine ⟨.lowerHex hdigits, ?_⟩
        simp [literal_lowerHex, literal_upperHex]
      · exact ⟨.hash hdigits, fun h => not_hex_begins hdigits (.inr h)⟩
    · have hhash : literal "#" <+: literal "#X" := by decide
      exact ⟨.name hu hrest, fun h => not_hash_begins hu (hhash.trans h)⟩
  · rintro ⟨h, hX⟩
    cases h with
    | @hash digits h =>
      exact .inl ⟨literal "#", digits, rfl, ⟨[], digits, .inr rfl, ⟨digits, [], h, rfl,
        (List.append_nil _).symm⟩, rfl⟩, rfl⟩
    | @lowerHex digits h =>
      exact .inl ⟨literal "#", literal "x" ++ digits, rfl, ⟨literal "x", digits, .inl rfl,
        ⟨digits, [], h, rfl, (List.append_nil _).symm⟩, rfl⟩, rfl⟩
    | upperHex h => exact absurd (List.prefix_append _ _) hX
    | @name u rest hu hrest => exact .inr ⟨[u], rest, ⟨u, hu, rfl⟩, hrest, rfl⟩

theorem literal_opening : literal "&" = [characters.opening] := by decide
theorem literal_closing : literal ";" = [characters.closing] := by decide

theorem finds_group {first : String} {pattern : Pattern UInt16} (reads : Text → Prop)
    (sign : Text) (value : Text → Except RangeError Text) (hplain : Plain pattern)
    (hfirst : literal first = characters.opening :: sign)
    (hreads : ∀ {body}, reads body ↔ ∃ text, Spells pattern text ∧ body = sign ++ text)
    (hbody : ∀ {body}, reads body → IsBody body) :
    Finds characters (.all [exactly first, .group 1 pattern, exactly ";"])
      (fun found => value (sign ++ captured 1 found)) reads value where
  isBody := hbody
  succeeds {body} previous after h := by
    obtain ⟨text, htext, rfl⟩ := hreads.mp h
    refine matchAt_group_ne_none (spells_exactly.mpr rfl) htext (spells_exactly.mpr rfl)
      (t := after) ?_
    simp [hfirst, literal_closing, Marks.reference]
  only {previous rest found} h := by
    obtain ⟨u, text, w, after, hu, htext, hw, hrest, hfound, hgroup⟩ :=
      matchAt_group (plain_exactly _) hplain (plain_exactly _) h
    cases spells_exactly.mp hu
    cases spells_exactly.mp hw
    refine ⟨sign ++ text, after, hreads.mpr ⟨text, htext, rfl⟩, ?_, ?_, ?_⟩
    · have hrest : rest = literal first ++ text ++ literal ";" ++ after := hrest
      simp [hrest, hfirst, literal_closing, Marks.reference]
    · simp [hfound, hfirst, literal_closing, Marks.reference]
    · simp [captured, hgroup]

theorem finds_entity :
    Finds characters entity (fun found => decodeEntity (captured 1 found)) IsEntity decodeEntity :=
  finds_group IsEntity [] decodeEntity plain_entityBody literal_opening (by simp [spells_entityBody]) And.left

theorem finds_plain {pattern : Pattern UInt16} {reads : Text → Prop} {unit : UInt16}
    (hplain : Plain pattern)
    (hreads : ∀ {u}, Spells pattern u ↔ ∃ body, reads body ∧ u = characters.reference body)
    (hbody : ∀ {body}, reads body → IsBody body) :
    Finds (ε := Empty) characters pattern (fun _ => .ok [unit]) reads fun _ => .ok [unit] where
  isBody := hbody
  succeeds previous after h := (hreads.mpr ⟨_, h, rfl⟩).matchAt (t := after) rfl
  only {previous rest found} h := by
    obtain ⟨hspells, after, hbegins⟩ := matchAt_plain hplain h
    obtain ⟨body, hbody, heq⟩ := hreads.mp hspells
    have hrest : found.text ++ after = rest := hbegins
    exact ⟨body, after, hbody, by rw [← hrest, heq], heq, rfl⟩

theorem rewrites_exactly {s replacement : String} {name : Text} {unit : UInt16}
    (hs : literal s = characters.reference name) (hname : IsBody name)
    (hunit : literal replacement = [unit]) :
    Rewrites characters (replaceBy (exactly s) replacement) (· = name) unit := by
  have hfinds : Finds (ε := Empty) characters (exactly s) (fun _ => .ok [unit]) (· = name)
      fun _ => .ok [unit] :=
    finds_plain (plain_exactly s) (by simp [spells_exactly, hs]) fun h => h ▸ hname
  have hpass : replaceBy (exactly s) replacement = replaceAll (exactly s) fun _ => [unit] := by
    rw [replaceBy, hunit]
  exact hpass ▸ hfinds.rewrites

theorem lower_eq_of_letter {u : UInt16} (h : isLetter (lower u) = true) : isLetter u = true := by
  have hlower : (u + 32).toNat = (u.toNat + 32) % 65536 := UInt16.toNat_add u 32
  rw [lower] at h
  split at h
  · simp only [isLetter, Bool.or_eq_true, Bool.and_eq_true, decide_eq_true_eq]
    omega
  · exact h

theorem lower_eq_of_not_letter {u v : UInt16} (h : lower u = v) (hv : isLetter v = false) :
    u = v := by
  have hlower : (u + 32).toNat = (u.toNat + 32) % 65536 := UInt16.toNat_add u 32
  rw [lower] at h
  split at h
  · subst h
    simp only [isLetter, Bool.or_eq_false_iff, Bool.and_eq_false_iff, decide_eq_false_iff_not] at hv
    omega
  · exact h

theorem spells_amp {u : Text} : Spells (anyCase "&amp;") u ↔
    ∃ body : Text, body.map lower = literal "amp" ∧ u = characters.reference body := by
  have hliteral : (literal "&amp;").map lower = 38 :: (literal "amp" ++ [59]) := by decide
  rw [spells_anyCase, hliteral]
  constructor
  · intro h
    obtain ⟨a, rest, rfl, ha, hrest⟩ := List.map_eq_cons_iff.mp h
    obtain ⟨body, last, rfl, hbody, hlast⟩ := List.map_eq_append_iff.mp hrest
    obtain ⟨c, rfl, hc⟩ := List.map_eq_singleton_iff.mp hlast
    have ha : a = 38 := lower_eq_of_not_letter ha (by decide)
    have hc : c = 59 := lower_eq_of_not_letter hc (by decide)
    exact ⟨body, hbody, by rw [ha, hc]; rfl⟩
  · rintro ⟨body, hbody, rfl⟩
    rw [Marks.reference, List.map_cons, List.map_append, hbody]
    rfl

theorem isBody_letters {body : Text} (hne : body ≠ []) (h : body.all isLetter = true) :
    IsBody body := by
  obtain ⟨u, rest, rfl⟩ := List.exists_cons_of_ne_nil hne
  have ⟨hu, hrest⟩ := List.forall_mem_cons.mp (List.all_eq_true.mp h)
  exact .name hu fun v hv => by simp [isAlphanumeric, hrest v hv]

theorem isBody_amp {body : Text} (h : body.map lower = literal "amp") : IsBody body := by
  have hletters : (literal "amp").all isLetter = true := by decide
  have hbody : ∀ v ∈ body, isLetter v = true := fun v hv =>
    lower_eq_of_letter (List.all_eq_true.mp hletters _ (h ▸ List.mem_map_of_mem hv))
  refine isBody_letters ?_ (List.all_eq_true.mpr hbody)
  rintro rfl
  exact absurd h (by decide)

theorem rewrites_amp : Rewrites characters (replaceBy (anyCase "&amp;") "&")
    (fun body => body.map lower = literal "amp") characters.opening := by
  have hfinds : Finds (ε := Empty) characters (anyCase "&amp;")
      (fun _ => .ok [characters.opening]) (fun body => body.map lower = literal "amp")
      fun _ => .ok [characters.opening] :=
    finds_plain (plain_word _ _) spells_amp isBody_amp
  have hpass : replaceBy (anyCase "&amp;") "&" =
      replaceAll (anyCase "&amp;") fun _ => [characters.opening] := by
    rw [replaceBy, literal_opening]
  exact hpass ▸ hfinds.rewrites

end Patterns

end BeeAgent.Web.Markup
