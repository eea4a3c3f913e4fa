import BeeAgent.Data.Canonical
import BeeAgent.Data.Parse
import Mathlib.Tactic.IntervalCases
import Mathlib.Tactic.Positivity

/-! `JSON.parse` reads canonical JSON back. -/
namespace BeeAgent.Data

/-! ### Numbers -/

def Stops (rest : List Char) : Prop := ∀ c cs, rest = c :: cs → c.isDigit = false

theorem parseDigits_append {ds r : List Char} (hds : ∀ c ∈ ds, c.isDigit) (hne : ds ≠ [])
    (hr : Stops r) : parseDigits (ds ++ r) = some (ds, r) := by
  have htake : r.takeWhile Char.isDigit = [] := by
    cases r with
    | nil => rfl
    | cons c r => exact List.takeWhile_cons_of_neg (by simp [hr c r rfl])
  have hdrop : r.dropWhile Char.isDigit = r := by
    cases r with
    | nil => rfl
    | cons c r => exact List.dropWhile_cons_of_neg (by simp [hr c r rfl])
  rw [parseDigits, List.takeWhile_append_of_pos hds, List.dropWhile_append_of_pos hds, htake, hdrop,
    List.append_nil]
  cases ds with
  | nil => exact absurd rfl hne
  | cons d ds => rfl

theorem Closed.stops {r : List Char} (hr : Closed r) : Stops r := by
  rintro c cs rfl
  have hc := hr c cs rfl
  simp only [ends, Bool.or_eq_true, decide_eq_true_eq] at hc
  rcases hc with (rfl | rfl) | rfl <;> rfl

theorem parseMagnitude_literal {negative : Bool} {integer fraction exponent r : List Char} {e : ℤ}
    (point : List Char) (hinteger : ∀ c ∈ integer, c.isDigit) (hne : integer ≠ [])
    (hzero : integer.head? = some '0' → integer = ['0']) (hpoint : Stops (point ++ (exponent ++ r)))
    (hfraction : parseFraction (point ++ (exponent ++ r)) = some (fraction, exponent ++ r))
    (hexponent : parseExponent (exponent ++ r) = some (e, r)) :
    parseMagnitude negative (integer ++ (point ++ (exponent ++ r))) =
      some (.ofDecimal negative (Nat.ofDigitChars 10 (integer ++ fraction) 0)
        (e - fraction.length), r) := by
  simp only [parseMagnitude, parseDigits_append hinteger hne hpoint, Option.bind_eq_bind,
    Option.bind_some, hfraction, hexponent]
  rw [if_neg fun h => h.2 (hzero h.1)]
  rfl

theorem stripZeros_mul_pow {d : ℕ} (hd : d % 10 ≠ 0) {j fuel : ℕ} (hfuel : j ≤ fuel) :
    Number.stripZeros fuel (d * 10 ^ j) = (d, j) := by
  induction j generalizing fuel with
  | zero => cases fuel <;> simp [Number.stripZeros, hd]
  | succ j ih =>
    obtain ⟨fuel, rfl⟩ : ∃ m, fuel = m + 1 := ⟨fuel - 1, by omega⟩
    have hpos : d * 10 ^ (j + 1) ≠ 0 := by
      have : d ≠ 0 := by rintro rfl; exact hd rfl
      positivity
    have hdiv : d * 10 ^ (j + 1) / 10 = d * 10 ^ j := by
      rw [pow_succ, ← mul_assoc, Nat.mul_div_cancel _ (by decide)]
    have hmod : d * 10 ^ (j + 1) % 10 = 0 := by
      rw [pow_succ, ← mul_assoc, Nat.mul_mod_left]
    rw [Number.stripZeros, if_pos ⟨hpos, hmod⟩, hdiv, ih (by omega)]

theorem ofDecimal_mul_pow {negative : Bool} {d j : ℕ} {exponent : ℤ} (hd : d % 10 ≠ 0) :
    Number.ofDecimal negative (d * 10 ^ j) exponent = ⟨negative, d, exponent + j⟩ := by
  have hpos : 0 < d := Nat.pos_of_ne_zero fun h => hd (by rw [h])
  have hfuel : j ≤ d * 10 ^ j :=
    (Nat.lt_pow_self (by decide)).le.trans (Nat.le_mul_of_pos_left _ hpos)
  rw [Number.ofDecimal, if_neg (by positivity), stripZeros_mul_pow hd hfuel]

theorem head?_toDigits {n : ℕ} (hn : n ≠ 0) : (Nat.toDigits 10 n).head? ≠ some '0' := by
  induction n using Nat.strong_induction_on with
  | _ n ih =>
    by_cases hlt : n < 10
    · rw [Nat.toDigits_of_lt_base hlt]
      interval_cases n <;> first | exact absurd rfl hn | decide
    · rw [Nat.toDigits_of_base_le (by decide) (by omega),
        List.head?_append_of_ne_nil _ Nat.toDigits_ne_nil]
      exact ih (n / 10) (by omega) (by omega)

theorem isDigit_toDigits (n : ℕ) : ∀ c ∈ Nat.toDigits 10 n, c.isDigit := fun _ hc =>
  Nat.isDigit_of_mem_toDigits (by decide) (by decide) hc

theorem toList_toString (n : ℕ) : (toString n).toList = Nat.toDigits 10 n := by
  rw [Nat.toString_eq_ofList_toDigits, String.toList_ofList]

/-- The texts of an exponent: none, or one with its sign. -/
inductive ExponentText : ℤ → List Char → Prop where
  | none : ExponentText 0 []
  | positive (n : ℕ) : ExponentText n ('e' :: '+' :: Nat.toDigits 10 n)
  | negative (n : ℕ) : ExponentText (-n) ('e' :: '-' :: Nat.toDigits 10 n)

theorem ExponentText.stops {e : ℤ} {t r : List Char} (h : ExponentText e t) (hr : Closed r) :
    Stops (t ++ r) := by
  cases h with
  | none => exact hr.stops
  | positive | negative =>
    rintro c cs heq
    obtain rfl := (List.cons.inj heq).1
    rfl

theorem ExponentText.fraction {e : ℤ} {t r : List Char} (h : ExponentText e t) (hr : Closed r) :
    parseFraction (t ++ r) = some ([], t ++ r) := by
  cases h with
  | none =>
    cases r with
    | nil => rfl
    | cons c r =>
      have hc := hr c r rfl
      simp only [ends, Bool.or_eq_true, decide_eq_true_eq] at hc
      rcases hc with (rfl | rfl) | rfl <;> rfl
  | positive | negative => rfl

theorem ExponentText.parse {e : ℤ} {t r : List Char} (h : ExponentText e t) (hr : Closed r) :
    parseExponent (t ++ r) = some (e, r) := by
  cases h with
  | none =>
    cases r with
    | nil => rfl
    | cons c r =>
      have hc := hr c r rfl
      simp only [ends, Bool.or_eq_true, decide_eq_true_eq] at hc
      rcases hc with (rfl | rfl) | rfl <;> rfl
  | positive n =>
    simp [parseExponent, parseSigned, parseDigits_append (isDigit_toDigits n) Nat.toDigits_ne_nil
      hr.stops, Nat.ofDigitChars_ten_toDigits]
  | negative n =>
    simp [parseExponent, parseSigned, parseDigits_append (isDigit_toDigits n) Nat.toDigits_ne_nil
      hr.stops, Nat.ofDigitChars_ten_toDigits]

/-- The texts of a magnitude: digits, those of a fraction behind a point, an exponent. -/
inductive Literal : List Char → List Char → ℤ → List Char → Prop where
  | integer {ds t : List Char} {e : ℤ} (h : ExponentText e t) : Literal ds [] e (ds ++ t)
  | fraction {ds fs t : List Char} {e : ℤ} (hne : fs ≠ []) (h : ExponentText e t) :
    Literal ds fs e (ds ++ '.' :: fs ++ t)

theorem Literal.parse {ds fs t r : List Char} {e : ℤ} (h : Literal ds fs e t) {negative : Bool}
    (hds : ∀ c ∈ ds, c.isDigit) (hfs : ∀ c ∈ fs, c.isDigit) (hne : ds ≠ [])
    (hzero : ds.head? = some '0' → ds = ['0']) (hr : Closed r) :
    parseMagnitude negative (t ++ r) =
      some (.ofDecimal negative (Nat.ofDigitChars 10 (ds ++ fs) 0) (e - fs.length), r) := by
  cases h with
  | integer h =>
    rw [List.append_assoc]
    exact parseMagnitude_literal [] hds hne hzero (h.stops hr) (h.fraction hr)
      (h.parse hr)
  | fraction hfs' h =>
    rename_i t
    have hpoint : parseFraction ('.' :: fs ++ (t ++ r)) = some (fs, t ++ r) := by
      simp only [List.cons_append, parseFraction]
      exact parseDigits_append hfs hfs' (h.stops hr)
    rw [List.append_assoc, List.append_assoc]
    refine parseMagnitude_literal ('.' :: fs) hds hne hzero ?_ hpoint (h.parse hr)
    rintro c cs heq
    obtain rfl := (List.cons.inj heq).1
    rfl

/-- The parts of a magnitude's text, and the number that they make up. -/
structure Reads (x : Number) (ds fs : List Char) (e : ℤ) (j : ℕ) : Prop where
  integer : ∀ c ∈ ds, c.isDigit
  fraction : ∀ c ∈ fs, c.isDigit
  nonempty : ds ≠ []
  zero : ds.head? = some '0' → ds = ['0']
  digits : Nat.ofDigitChars 10 (ds ++ fs) 0 = x.digits * 10 ^ j
  exponent : e - fs.length + j = x.exponent

theorem exponentText_power {n : ℤ} (hn : n ≠ 0) :
    ExponentText n ('e' :: (if 0 < n then '+' else '-') :: Nat.toDigits 10 n.natAbs) := by
  rcases lt_or_gt_of_ne hn with h | h
  · obtain ⟨m, rfl⟩ : ∃ m : ℕ, n = -(m : ℤ) := ⟨n.natAbs, by omega⟩
    rw [if_neg (by omega), Int.natAbs_neg, Int.natAbs_natCast]
    exact .negative m
  · obtain ⟨m, rfl⟩ : ∃ m : ℕ, n = (m : ℤ) := ⟨n.natAbs, by omega⟩
    rw [if_pos h, Int.natAbs_natCast]
    exact .positive m

/-- The digits of a positive number. -/
structure DigitsOf (n : ℕ) (D : List Char) : Prop where
  digit : ∀ c ∈ D, c.isDigit
  nonempty : D ≠ []
  head : D.head? ≠ some '0'
  value : Nat.ofDigitChars 10 D 0 = n

theorem digitsOf_toDigits {n : ℕ} (hn : n ≠ 0) : DigitsOf n (Nat.toDigits 10 n) :=
  ⟨isDigit_toDigits n, Nat.toDigits_ne_nil, head?_toDigits hn, Nat.ofDigitChars_ten_toDigits⟩

section Magnitude
variable {x : Number} {D : List Char} (hD : DigitsOf x.digits D)
include hD

theorem reads_integer {j : ℕ} (hj : (j : ℤ) = x.exponent) :
    Reads x (D ++ List.replicate j '0') [] 0 j where
  integer := fun c hc => (List.mem_append.mp hc).elim (hD.digit c) fun hc =>
    List.eq_of_mem_replicate hc ▸ rfl
  fraction := fun c hc => absurd hc List.not_mem_nil
  nonempty := by simp [hD.nonempty]
  zero := fun h => absurd (List.head?_append_of_ne_nil _ hD.nonempty ▸ h) hD.head
  digits := by
    rw [List.append_nil, Nat.ofDigitChars_append, hD.value, Nat.ofDigitChars_replicate_zero, mul_comm]
  exponent := by simp [hj]

theorem reads_whole {e : ℤ} (he : e = x.exponent) : Reads x D [] e 0 where
  integer := hD.digit
  fraction := fun c hc => absurd hc List.not_mem_nil
  nonempty := hD.nonempty
  zero := fun h => absurd h hD.head
  digits := by rw [List.append_nil, hD.value, pow_zero, mul_one]
  exponent := by simp [he]

theorem reads_split {n : ℕ} {e : ℤ} (hn : 0 < n) (hnD : n ≤ D.length)
    (he : e - (D.length - n) = x.exponent) : Reads x (D.take n) (D.drop n) e 0 where
  integer := fun c hc => hD.digit c (List.mem_of_mem_take hc)
  fraction := fun c hc => hD.digit c (List.mem_of_mem_drop hc)
  nonempty := by simp [hD.nonempty, Nat.pos_iff_ne_zero.mp hn]
  zero := fun h => absurd (by rwa [List.head?_take, if_neg hn.ne'] at h) hD.head
  digits := by rw [List.take_append_drop, hD.value, pow_zero, mul_one]
  exponent := by
    rw [List.length_drop]
    omega

theorem reads_fraction {m : ℕ} (hm : -((m : ℤ) + D.length) = x.exponent) :
    Reads x ['0'] (List.replicate m '0' ++ D) 0 0 where
  integer := List.forall_mem_singleton.mpr rfl
  fraction := fun c hc => (List.mem_append.mp hc).elim
    (fun hc => List.eq_of_mem_replicate hc ▸ rfl) (hD.digit c)
  nonempty := List.cons_ne_nil _ _
  zero := fun _ => rfl
  digits := by
    rw [Nat.ofDigitChars_append, Nat.ofDigitChars_append, Nat.ofDigitChars_replicate_zero]
    simpa [Nat.ofDigitChars] using hD.value
  exponent := by
    rw [List.length_append, List.length_replicate]
    omega

end Magnitude

theorem magnitude_reads {x : Number} (hx : x.digits % 10 ≠ 0) :
    ∃ ds fs e j, Literal ds fs e x.magnitude.toList ∧ Reads x ds fs e j := by
  have hne : x.digits ≠ 0 := fun h => hx (by rw [h])
  have hlength : (toString x.digits).length = (Nat.toDigits 10 x.digits).length := by
    rw [← toList_toString, String.length_toList]
  have hD := digitsOf_toDigits hne
  unfold Number.magnitude
  simp only [hlength, if_neg hne, apply_ite String.toList, String.toList_append,
    String.toList_ofList, toList_toString]
  generalize Nat.toDigits 10 x.digits = D at *
  have hpos : 0 < D.length := List.length_pos_iff.mpr hD.nonempty
  split_ifs with h₁ h₂ h₃ h₄ h₅ h₆
  · exact ⟨_, [], 0, _, by simpa using Literal.integer .none, reads_integer hD (by omega)⟩
  · have hdrop : D.drop (x.exponent + D.length).toNat ≠ [] := by
      rw [Ne, List.drop_eq_nil_iff]
      omega
    exact ⟨_, _, 0, 0, by simpa using Literal.fraction hdrop .none,
      reads_split hD (by omega) (by omega) (by omega)⟩
  · have hfraction : List.replicate (-(x.exponent + D.length)).toNat '0' ++ D ≠ [] := by
      simp [hD.nonempty]
    have hliteral : Literal ['0'] _ 0 _ := .fraction hfraction .none
    exact ⟨['0'], _, 0, 0, by simpa using hliteral, reads_fraction hD (by omega)⟩
  -- The exponent is written only where it is not zero.
  all_goals have hpower := exponentText_power (n := x.exponent + D.length - 1) (by omega)
  · rw [if_pos h₅] at hpower
    exact ⟨D, [], _, 0, by simpa using Literal.integer hpower, reads_whole hD (by omega)⟩
  · rw [if_neg h₅] at hpower
    exact ⟨D, [], _, 0, by simpa using Literal.integer hpower, reads_whole hD (by omega)⟩
  · rw [if_pos h₆] at hpower
    have hdrop : D.drop 1 ≠ [] := by
      rw [Ne, List.drop_eq_nil_iff]
      omega
    exact ⟨_, _, x.exponent + D.length - 1, 0, by simpa using Literal.fraction hdrop hpower,
      reads_split hD Nat.one_pos hpos (by omega)⟩
  · rw [if_neg h₆] at hpower
    have hdrop : D.drop 1 ≠ [] := by
      rw [Ne, List.drop_eq_nil_iff]
      omega
    exact ⟨_, _, x.exponent + D.length - 1, 0, by simpa using Literal.fraction hdrop hpower,
      reads_split hD Nat.one_pos hpos (by omega)⟩

theorem parseNumber_of_digit {ds fs t r : List Char} {e : ℤ} (h : Literal ds fs e t)
    (hds : ∀ c ∈ ds, c.isDigit) (hne : ds ≠ []) :
    parseNumber (t ++ r) = parseMagnitude false (t ++ r) := by
  obtain ⟨d, ds, rfl⟩ := List.exists_cons_of_ne_nil hne
  have hd : d ≠ '-' := by
    rintro rfl
    exact absurd (hds '-' (List.mem_cons_self ..)) (by decide)
  cases h with
  | integer | fraction => simp [parseNumber, hd]

theorem parseNumber_text {x : Number} (hx : x.Normal) {r : List Char} (hr : Closed r) :
    parseNumber (x.text.toList ++ r) = some (x.canonical, r) := by
  rcases hx with hx | ⟨hdigits, hexponent⟩
  · have hne : x.digits ≠ 0 := fun h => hx (by rw [h])
    obtain ⟨ds, fs, e, j, hliteral, hreads⟩ := magnitude_reads hx
    have hmagnitude : ∀ negative, parseMagnitude negative (x.magnitude.toList ++ r) =
        some (⟨negative, x.digits, x.exponent⟩, r) := by
      intro negative
      rw [hliteral.parse hreads.integer hreads.fraction hreads.nonempty hreads.zero hr,
        hreads.digits, ofDecimal_mul_pow hx, hreads.exponent]
    rw [Number.text, Number.canonical, if_neg hne]
    by_cases hneg : x.negative = true
    · rw [if_pos ⟨hneg, hne⟩, String.toList_append]
      exact (hmagnitude true).trans (hneg ▸ rfl)
    · rw [if_neg fun h => hneg h.1]
      refine (parseNumber_of_digit hliteral hreads.integer hreads.nonempty).trans ?_
      exact (hmagnitude false).trans (Bool.eq_false_iff.mpr hneg ▸ rfl)
  · have htext : x.text = "0" := by simp [Number.text, Number.magnitude, hdigits]
    have hzero : Literal ['0'] [] 0 ['0'] := .integer .none
    rw [htext, Number.canonical, if_pos hdigits]
    refine (hzero.parse (List.forall_mem_singleton.mpr rfl) (List.forall_mem_nil _)
      (List.cons_ne_nil _ _) (fun _ => rfl) hr).trans ?_
    rfl

/-! ### Strings -/

theorem parseHexDigit_hexDigit : ∀ n < 16, parseHexDigit (hexDigit n) = some n := by decide

theorem parseUnit_escape (c : Char) (rest : List Char) :
    parseUnit (escape c ++ rest) = some (c.toNat, rest) := by
  unfold escape
  split_ifs with h₁ h₂ h₃ h₄ h₅ h₆ h₇ h₈
  · subst h₁
    rfl
  · subst h₂
    rfl
  · rw [h₃]
    rfl
  · rw [h₄]
    rfl
  · rw [h₅]
    rfl
  · rw [h₆]
    rfl
  · rw [h₇]
    rfl
  · have hhigh := parseHexDigit_hexDigit (c.toNat / 16) (by omega)
    have hlow := parseHexDigit_hexDigit (c.toNat % 16) (by omega)
    have hzero : parseHexDigit '0' = some 0 := by decide
    have hsum : ((0 * 16 + 0) * 16 + c.toNat / 16) * 16 + c.toNat % 16 = c.toNat := by omega
    simp only [List.cons_append, List.nil_append, parseUnit, hhigh, hlow, hzero,
      Option.bind_eq_bind, Option.bind_some, hsum]
    rfl
  · rw [List.singleton_append]
    unfold parseUnit
    split <;> simp_all

theorem parseUnits_escape {s r : List Char} {fuel : ℕ} (hfuel : s.length < fuel) :
    parseUnits fuel (s.flatMap escape ++ '"' :: r) = some (s.map Char.toNat, r) := by
  induction s generalizing fuel with
  | nil =>
    obtain ⟨fuel, rfl⟩ : ∃ m, fuel = m + 1 := ⟨fuel - 1, by simp at hfuel; omega⟩
    rfl
  | cons c s ih =>
    obtain ⟨fuel, rfl⟩ : ∃ m, fuel = m + 1 := ⟨fuel - 1, by simp at hfuel; omega⟩
    obtain ⟨d, ds, hd, hne⟩ := escape_head c
    have hunit := parseUnit_escape c (s.flatMap escape ++ '"' :: r)
    rw [List.flatMap_cons, List.append_assoc]
    rw [hd, List.cons_append] at hunit ⊢
    rw [parseUnits.eq_3 _ _ (by rintro rest heq; exact hne (List.cons.inj heq).1), hunit]
    simp only [Option.bind_eq_bind, Option.bind_some]
    rw [ih (by simpa using hfuel)]
    rfl

theorem isSurrogate_toNat (c : Char) : isSurrogate c.toNat = false := by
  have hc : c.toNat.isValidChar := c.valid
  simp only [isSurrogate, Bool.and_eq_false_iff, decide_eq_false_iff_not]
  rcases hc with h | h <;> omega

theorem fromUnits_toNat (s : List Char) : fromUnits (s.map Char.toNat) = some s := by
  induction s with
  | nil => rfl
  | cons c s ih =>
    cases s with
    | nil => simp [fromUnits, isSurrogate_toNat]
    | cons d s =>
      rw [List.map_cons] at ih ⊢
      rw [List.map_cons, fromUnits, isSurrogate_toNat, ih]
      simp

theorem length_le_flatMap_escape (s : List Char) : s.length ≤ (s.flatMap escape).length := by
  induction s with
  | nil => exact le_rfl
  | cons c s ih =>
    obtain ⟨d, ds, hd, -⟩ := escape_head c
    simp only [List.flatMap_cons, List.length_append, List.length_cons, hd]
    omega

theorem parseString_quote (s : String) (r : List Char) :
    parseString (s.toList.flatMap escape ++ '"' :: r) = some (s, r) := by
  have hfuel : s.toList.length < (s.toList.flatMap escape ++ '"' :: r).length + 1 := by
    have hlength := length_le_flatMap_escape s.toList
    simp only [List.length_append, List.length_cons]
    omega
  rw [parseString, parseUnits_escape hfuel]
  simp [fromUnits_toNat]

/-! ### Values -/

def jsonText (v : Value) : List Char := (canonicalJson v).toList

def fieldJson (f : String × Value) : List Char := fieldText (f.1, jsonText f.2)

theorem skipSpace_cons {c : Char} {cs : List Char} (h : isSpace c = false) :
    skipSpace (c :: cs) = c :: cs :=
  List.dropWhile_cons_of_neg (by simp [h])

theorem canonicalJson?_of_isJson {v : Value} (h : v.IsJson) :
    canonicalJson? v = some (canonicalJson v) := by
  cases v with
  | undefined => cases h
  | null | boolean | number | string | array | object => rfl

theorem canonicalItems_eq {vs : List Value} (h : ItemsJson vs) :
    canonicalItems vs = vs.map canonicalJson := by
  induction vs with
  | nil => rfl
  | cons v vs ih => rw [canonicalItems, canonicalJson?_of_isJson h.1, ih h.2]; rfl

theorem canonicalFields_eq {fs : List (String × Value)} (h : FieldsJson fs) :
    canonicalFields fs = fs.map fun f => (f.1, canonicalJson f.2) := by
  induction fs with
  | nil => rfl
  | cons f fs ih =>
    obtain ⟨k, v⟩ := f
    rw [canonicalFields, canonicalJson?_of_isJson h.1, ih h.2]
    rfl

theorem itemsJson_iff {vs : List Value} : ItemsJson vs ↔ ∀ v ∈ vs, v.IsJson := by
  induction vs with
  | nil => simp [ItemsJson]
  | cons v vs ih => simp [ItemsJson, ih]

theorem fieldsJson_iff {fs : List (String × Value)} : FieldsJson fs ↔ ∀ f ∈ fs, f.2.IsJson := by
  induction fs with
  | nil => simp [FieldsJson]
  | cons f fs ih => simp [FieldsJson, ih]

theorem jsonText_array {vs : List Value} (h : ItemsJson vs) :
    jsonText (.array vs) = '[' :: ([','].intercalate (vs.map jsonText) ++ [']']) := by
  simp only [jsonText, canonicalJson, canonicalJson?, Option.getD_some, String.toList_append,
    String.toList_intercalate, canonicalItems_eq h, List.map_map]
  rfl

theorem map_sortFields {α : Type} (g : Value → α) (fs : List (String × Value)) :
    (sortFields fs).map (fun f => (f.1, g f.2)) =
      (fs.map fun f => (f.1, g f.2)).insertionSort fun a b => keyLe a.1 b.1 :=
  List.map_insertionSort _ _ _ fs fun _ _ _ _ => Iff.rfl

theorem jsonText_object {fs : List (String × Value)} (h : FieldsJson fs) :
    jsonText (.object fs) = '{' :: ([','].intercalate
      ((sortFields fs).map fieldJson) ++ ['}']) := by
  have htext : canonicalJson (.object fs) = joinFields (sortByKey (canonicalFields fs)) := rfl
  rw [jsonText, htext, joinFields_toList, canonicalFields_eq h, sortByKey, ← map_sortFields,
    List.map_map, List.map_map]
  rfl

theorem orderedItems_eq (vs : List Value) : orderedItems vs = vs.map Value.ordered := by
  induction vs with
  | nil => rfl
  | cons v vs ih => rw [orderedItems, ih]; rfl

theorem orderedFields_eq (fs : List (String × Value)) :
    orderedFields fs = fs.map fun f => (f.1, f.2.ordered) := by
  induction fs with
  | nil => rfl
  | cons f fs ih => obtain ⟨k, v⟩ := f; rw [orderedFields, ih]; rfl

def Begins (c : Char) : Prop := isSpace c = false ∧ c ≠ ']' ∧ c ≠ '}'

instance : DecidablePred Begins := fun c =>
  inferInstanceAs (Decidable (isSpace c = false ∧ c ≠ ']' ∧ c ≠ '}'))

def Numeric (c : Char) : Prop := c.isDigit ∨ c = '-'

theorem Numeric.begins {c : Char} (h : Numeric c) : Begins c := by
  rcases h with h | rfl
  · have hne : ∀ d : Char, d.isDigit = false → c ≠ d := by
      rintro d hd rfl
      rw [h] at hd
      cases hd
    simp [Begins, isSpace, hne ' ' (by decide), hne '\t' (by decide), hne '\n' (by decide),
      hne '\r' (by decide), hne ']' (by decide), hne '}' (by decide)]
  · decide

theorem number_head (x : Number) (hx : x.Normal) : ∃ c cs, x.text.toList = c :: cs ∧ Numeric c := by
  have hmagnitude : ∃ c cs, x.magnitude.toList = c :: cs ∧ Numeric c := by
    rcases hx with hx | ⟨hdigits, -⟩
    · obtain ⟨ds, fs, e, j, hliteral, hreads⟩ := magnitude_reads hx
      obtain ⟨d, ds, rfl⟩ := List.exists_cons_of_ne_nil hreads.nonempty
      have hd := hreads.integer d (List.mem_cons_self ..)
      generalize x.magnitude.toList = t at hliteral
      cases hliteral with
      | integer | fraction => exact ⟨d, _, rfl, .inl hd⟩
    · exact ⟨'0', [], by simp [Number.magnitude, hdigits], .inl (by decide)⟩
  rw [Number.text]
  split
  · exact ⟨'-', _, String.toList_append .., .inr rfl⟩
  · exact hmagnitude

theorem jsonText_head {v : Value} (h : v.IsJson) : ∃ c cs, jsonText v = c :: cs ∧ Begins c := by
  cases v with
  | undefined => cases h
  | null => exact ⟨_, _, rfl, by decide⟩
  | boolean b => cases b <;> exact ⟨_, _, rfl, by decide⟩
  | number x =>
    obtain ⟨c, cs, htext, hc⟩ := number_head x h
    exact ⟨c, cs, htext, hc.begins⟩
  | string s => exact ⟨_, _, quote_toList s, by decide⟩
  | array vs => exact ⟨_, _, jsonText_array h, by decide⟩
  | object fs => exact ⟨_, _, jsonText_object h.1, by decide⟩

/-- The text is read as the value, and no more than the text. -/
def ReadAs (text : List Char) (v : Value) : Prop :=
  ∀ (fuel : ℕ) (r : List Char), 3 * text.length ≤ fuel → Closed r →
    parseValue fuel (text ++ r) = some (v, r)

def HasBeginning (text : List Char) : Prop := ∃ c cs, text = c :: cs ∧ Begins c

theorem ReadAs.parseJson {text : String} {v : Value} (h : ReadAs text.toList v) :
    parseJson text = some v := by
  have hparse : parseValue (3 * text.toList.length + 1) text.toList = some (v, []) := by
    have hread := h (3 * text.toList.length + 1) [] (by omega) closed_nil
    rwa [List.append_nil] at hread
  rw [Data.parseJson, hparse]
  rfl

theorem readAs_string (s : String) : ReadAs (quote s).toList (.string s) := by
  intro fuel r hfuel _
  rw [quote_toList] at hfuel ⊢
  obtain ⟨fuel, rfl⟩ : ∃ m, fuel = m + 1 := ⟨fuel - 1, by simp at hfuel; omega⟩
  rw [List.cons_append, List.append_assoc, parseValue, skipSpace_cons (by decide)]
  simp only [↓reduceIte, List.singleton_append]
  rw [parseString_quote]
  rfl

theorem readAs_number {x : Number} (hx : x.Normal) :
    ReadAs x.text.toList (.number x.canonical) := by
  intro fuel r hfuel hr
  obtain ⟨c, cs, htext, hc⟩ := number_head x hx
  obtain ⟨fuel, rfl⟩ : ∃ m, fuel = m + 1 := ⟨fuel - 1, by simp [htext] at hfuel; omega⟩
  have hne : ∀ d : Char, d.isDigit = false → d ≠ '-' → c ≠ d := by
    rintro d hd hminus rfl
    rcases hc with hc | hc
    · rw [hd] at hc
      cases hc
    · exact hminus hc
  have hparse := parseNumber_text hx hr
  rw [htext, List.cons_append] at hparse
  rw [htext, List.cons_append, parseValue, skipSpace_cons hc.begins.1]
  simp only [if_neg (hne '"' (by decide) (by decide)), if_neg (hne '[' (by decide) (by decide)),
    if_neg (hne '{' (by decide) (by decide)), if_neg (hne 'n' (by decide) (by decide)),
    if_neg (hne 't' (by decide) (by decide)), if_neg (hne 'f' (by decide) (by decide)), hparse]
  rfl

theorem parseItems_text {items : List (List Char × Value)} (hne : items ≠ [])
    (h : ∀ p ∈ items, ReadAs p.1 p.2) {fuel : ℕ} (r : List Char)
    (hfuel : 3 * ([','].intercalate (items.map Prod.fst)).length + 1 ≤ fuel) :
    parseItems fuel ([','].intercalate (items.map Prod.fst) ++ ']' :: r) =
      some (items.map Prod.snd, r) := by
  induction items generalizing fuel with
  | nil => exact absurd rfl hne
  | cons p ps ih =>
    obtain ⟨fuel, rfl⟩ : ∃ m, fuel = m + 1 := ⟨fuel - 1, by omega⟩
    have hp := h p (List.mem_cons_self ..)
    cases ps with
    | nil =>
      simp only [List.map_cons, List.map_nil, List.intercalate_singleton] at hfuel ⊢
      rw [parseItems, hp _ _ (by omega) (closed_cons rfl)]
      rfl
    | cons q qs =>
      rw [List.map_cons, List.map_cons, List.intercalate_cons_cons, ← List.map_cons] at hfuel ⊢
      simp only [List.length_append, List.length_singleton] at hfuel
      have hrest := @ih (List.cons_ne_nil _ _) (fun u hu => h u (List.mem_cons_of_mem _ hu)) fuel
        (by omega)
      rw [List.append_assoc, List.append_assoc, List.singleton_append, parseItems,
        hp _ _ (by omega) (closed_cons rfl)]
      simp only [skipSpace_cons (show isSpace ',' = false by decide), hrest]
      rfl

theorem readAs_array (items : List (List Char × Value)) (hbegin : ∀ p ∈ items, HasBeginning p.1)
    (h : ∀ p ∈ items, ReadAs p.1 p.2) :
    ReadAs ('[' :: ([','].intercalate (items.map Prod.fst) ++ [']']))
      (.array (items.map Prod.snd)) := by
  intro fuel r hfuel _
  obtain ⟨fuel, rfl⟩ : ∃ m, fuel = m + 1 := ⟨fuel - 1, by simp at hfuel; omega⟩
  rw [List.cons_append, List.append_assoc, List.singleton_append, parseValue,
    skipSpace_cons (by decide)]
  simp only [show ('[' : Char) ≠ '"' by decide, ↓reduceIte]
  cases items with
  | nil => rfl
  | cons p ps =>
    have hlength : 3 * ([','].intercalate ((p :: ps).map Prod.fst)).length + 1 ≤ fuel := by
      simp only [List.length_cons, List.length_append] at hfuel
      omega
    have hitems := parseItems_text (List.cons_ne_nil p ps) h r hlength
    obtain ⟨c, cs, htext, hc⟩ : HasBeginning ([','].intercalate ((p :: ps).map Prod.fst)) := by
      obtain ⟨c, cs, htext, hc⟩ := hbegin p (List.mem_cons_self ..)
      rw [List.map_cons, intercalate_eq, htext]
      exact ⟨c, _, rfl, hc⟩
    rw [htext, List.cons_append] at hitems ⊢
    rw [skipSpace_cons hc.1]
    split
    · next heq => exact absurd (List.cons.inj heq).1 hc.2.1
    · rw [hitems]
      rfl

theorem parseField_text {key : String} {text : List Char} {v : Value} (h : ReadAs text v) {fuel : ℕ}
    {r : List Char} (hfuel : 3 * text.length + 1 ≤ fuel) (hr : Closed r) :
    parseField fuel (fieldText (key, text) ++ r) = some ((key, v), r) := by
  obtain ⟨fuel, rfl⟩ : ∃ m, fuel = m + 1 := ⟨fuel - 1, by omega⟩
  have htext : fieldText (key, text) ++ r =
      '"' :: (key.toList.flatMap escape ++ '"' :: ':' :: (text ++ r)) := by
    simp [fieldText, quote_toList]
  rw [htext, parseField, parseString_quote]
  simp only [skipSpace_cons (show isSpace ':' = false by decide)]
  rw [h _ _ (by omega) hr]
  rfl

abbrev FieldReading := String × List Char × Value

def FieldReading.text (f : FieldReading) : List Char := fieldText (f.1, f.2.1)

def FieldReading.field (f : FieldReading) : String × Value := (f.1, f.2.2)

theorem parseFields_text {fs : List FieldReading} (hne : fs ≠ [])
    (h : ∀ f ∈ fs, ReadAs f.2.1 f.2.2) {fuel : ℕ} (r : List Char)
    (hfuel : 3 * ([','].intercalate (fs.map FieldReading.text)).length ≤ fuel) :
    parseFields fuel ([','].intercalate (fs.map FieldReading.text) ++ '}' :: r) =
      some (fs.map FieldReading.field, r) := by
  have hlength : ∀ f : FieldReading, f.2.1.length + 3 ≤ f.text.length := by
    intro f
    simp only [FieldReading.text, fieldText, quote_toList, List.length_append, List.length_cons,
      List.length_nil]
    omega
  have hskip : ∀ (f : FieldReading) (r : List Char), skipSpace (f.text ++ r) = f.text ++ r := by
    intro f r
    rw [FieldReading.text, fieldText, quote_toList]
    exact skipSpace_cons (by decide)
  induction fs generalizing fuel with
  | nil => exact absurd rfl hne
  | cons f fs ih =>
    have hf := h f (List.mem_cons_self ..)
    have hflength := hlength f
    have hfield : ∀ {fuel r}, 3 * f.2.1.length + 1 ≤ fuel → Closed r →
        parseField fuel (f.text ++ r) = some (f.field, r) := parseField_text hf
    cases fs with
    | nil =>
      simp only [List.map_cons, List.map_nil, List.intercalate_singleton] at hfuel ⊢
      obtain ⟨fuel, rfl⟩ : ∃ m, fuel = m + 1 := ⟨fuel - 1, by omega⟩
      rw [parseFields, hskip, hfield (by omega) (closed_cons rfl)]
      rfl
    | cons g gs =>
      rw [List.map_cons, List.map_cons, List.intercalate_cons_cons, ← List.map_cons] at hfuel ⊢
      simp only [List.length_append, List.length_singleton] at hfuel
      obtain ⟨fuel, rfl⟩ : ∃ m, fuel = m + 1 := ⟨fuel - 1, by omega⟩
      have hrest := @ih (List.cons_ne_nil _ _) (fun u hu => h u (List.mem_cons_of_mem _ hu)) fuel
        (by omega)
      rw [List.append_assoc, List.append_assoc, List.singleton_append, parseFields, hskip,
        hfield (by omega) (closed_cons rfl)]
      simp only [skipSpace_cons (show isSpace ',' = false by decide), hrest]
      rfl

theorem foldl_setField {fs acc : List (String × Value)}
    (h : ((acc ++ fs).map Prod.fst).Nodup) : fs.foldl setField acc = acc ++ fs := by
  induction fs generalizing acc with
  | nil => simp
  | cons f fs ih =>
    have hf : f.1 ∉ acc.map Prod.fst := by
      intro hmem
      rw [List.map_append, List.nodup_append] at h
      exact h.2.2 f.1 hmem f.1 (by simp) rfl
    rw [List.foldl_cons, setField, if_neg hf, ih (by simpa using h), List.append_assoc,
      List.singleton_append]

theorem readAs_object (fs : List FieldReading) (hkeys : (fs.map Prod.fst).Nodup)
    (h : ∀ f ∈ fs, ReadAs f.2.1 f.2.2) :
    ReadAs ('{' :: ([','].intercalate (fs.map FieldReading.text) ++ ['}']))
      (.object (fs.map FieldReading.field)) := by
  intro fuel r hfuel _
  obtain ⟨fuel, rfl⟩ : ∃ m, fuel = m + 1 := ⟨fuel - 1, by simp at hfuel; omega⟩
  rw [List.cons_append, List.append_assoc, List.singleton_append, parseValue,
    skipSpace_cons (by decide)]
  simp only [show ('{' : Char) ≠ '"' by decide, show ('{' : Char) ≠ '[' by decide, ↓reduceIte]
  cases fs with
  | nil => rfl
  | cons f fs =>
    have hlength : 3 * ([','].intercalate ((f :: fs).map FieldReading.text)).length ≤ fuel := by
      simp only [List.length_cons, List.length_append] at hfuel
      omega
    have hfields := parseFields_text (List.cons_ne_nil f fs) h r hlength
    have hset : ((f :: fs).map FieldReading.field).foldl setField [] =
        (f :: fs).map FieldReading.field := by
      refine foldl_setField ?_
      rw [List.nil_append, List.map_map]
      exact hkeys
    obtain ⟨cs, htext⟩ : ∃ cs, [','].intercalate ((f :: fs).map FieldReading.text) = '"' :: cs := by
      rw [List.map_cons, intercalate_eq, FieldReading.text, fieldText, quote_toList]
      exact ⟨_, rfl⟩
    rw [htext, List.cons_append] at hfields ⊢
    rw [skipSpace_cons (by decide)]
    split
    · next heq => exact absurd (List.cons.inj heq).1 (by decide)
    · rw [hfields, Option.map_some, hset]

theorem readAs_literal {v : Value} {c : Char} (word : String)
    (hparse : ∀ fuel rest, parseValue (fuel + 1) (c :: rest) = parseLiteral v word rest) :
    ReadAs (c :: word.toList) v := by
  intro fuel r hfuel _
  obtain ⟨fuel, rfl⟩ : ∃ m, fuel = m + 1 := ⟨fuel - 1, by simp at hfuel; omega⟩
  rw [List.cons_append, hparse, parseLiteral, if_pos (List.prefix_append _ _), List.drop_left]

theorem readAs_null : ReadAs "null".toList .null := readAs_literal "ull" fun fuel rest => by
  rw [parseValue, skipSpace_cons (by decide)]
  rfl

theorem readAs_boolean (b : Bool) : ReadAs (if b then "true" else "false").toList (.boolean b) := by
  cases b with
  | true =>
    exact readAs_literal "rue" fun fuel rest => by
      rw [parseValue, skipSpace_cons (by decide)]
      rfl
  | false =>
    exact readAs_literal "alse" fun fuel rest => by
      rw [parseValue, skipSpace_cons (by decide)]
      rfl

def Parses (v : Value) : Prop := ReadAs (jsonText v) v.ordered

theorem parses_array {vs : List Value} (hjson : ItemsJson vs) (h : ∀ v ∈ vs, Parses v) :
    Parses (.array vs) := by
  have hread := readAs_array (vs.map fun v => (jsonText v, v.ordered)) ?_ ?_
  · rw [Parses, jsonText_array hjson, Value.ordered, orderedItems_eq]
    simpa only [List.map_map, Function.comp_def] using hread
  · intro p hp
    obtain ⟨v, hv, rfl⟩ := List.mem_map.mp hp
    exact jsonText_head (itemsJson_iff.mp hjson v hv)
  · intro p hp
    obtain ⟨v, hv, rfl⟩ := List.mem_map.mp hp
    exact h v hv

theorem parses_object {fs : List (String × Value)} (hjson : FieldsJson fs)
    (hkeys : (fs.map Prod.fst).Nodup) (h : ∀ f ∈ fs, Parses f.2) : Parses (.object fs) := by
  have hperm : (sortFields fs).Perm fs := List.perm_insertionSort ..
  have hread := readAs_object ((sortFields fs).map fun f => (f.1, jsonText f.2, f.2.ordered))
    ?_ ?_
  · have hordered : (Value.object fs).ordered =
        .object ((sortFields fs).map fun f => (f.1, f.2.ordered)) := by
      rw [Value.ordered, orderedFields_eq, map_sortFields]
      rfl
    rw [Parses, jsonText_object hjson, hordered]
    rw [List.map_map, List.map_map] at hread
    exact hread
  · rw [List.map_map]
    exact (hperm.map Prod.fst).nodup_iff.mpr hkeys
  · intro p hp
    obtain ⟨f, hf, rfl⟩ := List.mem_map.mp hp
    exact h f (hperm.subset hf)

mutual
theorem parses_value : (v : Value) → v.IsJson → Parses v
  | .null, _ => readAs_null
  | .boolean b, _ => readAs_boolean b
  | .number _, h => readAs_number h
  | .string s, _ => readAs_string s
  | .array vs, h => parses_array h (parses_items vs h)
  | .object fs, h => parses_object h.1 h.2 (parses_fields fs h.1)

theorem parses_items : (vs : List Value) → ItemsJson vs → ∀ v ∈ vs, Parses v
  | [], _ => by simp
  | v :: vs, h => List.forall_mem_cons.mpr ⟨parses_value v h.1, parses_items vs h.2⟩

theorem parses_fields : (fs : List (String × Value)) → FieldsJson fs → ∀ f ∈ fs, Parses f.2
  | [], _ => by simp
  | (_, v) :: fs, h => List.forall_mem_cons.mpr ⟨parses_value v h.1, parses_fields fs h.2⟩
end

/-- `JSON.parse` reads canonical JSON back, up to the order of the keys. -/
theorem parseJson_canonicalJson {v : Value} (h : v.IsJson) :
    parseJson (canonicalJson v) = some v.ordered :=
  ReadAs.parseJson (parses_value v h)

/-! ### The order of the keys -/

instance : Std.Total fun a b : String × Value => keyLe a.1 b.1 :=
  ⟨fun a b => le_total (utf16 a.1) (utf16 b.1)⟩

instance : IsTrans (String × Value) fun a b => keyLe a.1 b.1 :=
  ⟨fun _ _ _ hab hbc => le_trans hab hbc⟩

theorem sortFields_sortFields (fs : List (String × Value)) :
    sortFields (sortFields fs) = sortFields fs :=
  (List.pairwise_insertionSort _ fs).insertionSort_eq

theorem canonicalFields_eq_map (fs : List (String × Value)) :
    canonicalFields fs = fs.map fun f => (f.1, canonicalJson f.2) := by
  induction fs with
  | nil => rfl
  | cons f fs ih => obtain ⟨k, v⟩ := f; rw [canonicalFields, ih]; rfl

theorem canonicalJson_object (fs : List (String × Value)) : canonicalJson (.object fs) =
    joinFields ((sortFields fs).map fun f => (f.1, canonicalJson f.2)) := by
  rw [map_sortFields, ← canonicalFields_eq_map]
  rfl

theorem Number.canonical_text (x : Number) : x.canonical.text = x.text := by
  unfold canonical
  split
  · next h => simp [text, magnitude, h]
  · rfl

mutual
theorem canonicalJson?_ordered : (v : Value) → canonicalJson? v.ordered = canonicalJson? v
  | .undefined | .null | .boolean _ | .string _ => rfl
  | .number x => congrArg some x.canonical_text
  | .array vs => by
    rw [Value.ordered, canonicalJson?, canonicalItems_ordered, canonicalJson?]
  | .object fs => by
    have hsorted : canonicalJson (.object (sortFields (orderedFields fs))) =
        canonicalJson (.object fs) := by
      rw [canonicalJson_object, sortFields_sortFields, ← canonicalJson_object]
      show joinFields (sortByKey (canonicalFields (orderedFields fs))) =
        joinFields (sortByKey (canonicalFields fs))
      rw [canonicalFields_ordered]
    exact congrArg some hsorted

theorem canonicalItems_ordered : (vs : List Value) →
    canonicalItems (orderedItems vs) = canonicalItems vs
  | [] => rfl
  | v :: vs => by
    rw [orderedItems, canonicalItems, canonicalJson?_ordered v, canonicalItems_ordered vs]
    rfl

theorem canonicalFields_ordered : (fs : List (String × Value)) →
    canonicalFields (orderedFields fs) = canonicalFields fs
  | [] => rfl
  | (k, v) :: fs => by
    rw [orderedFields, canonicalFields, canonicalJson?_ordered v, canonicalFields_ordered fs]
    rfl
end

theorem canonicalJson_ordered (v : Value) : canonicalJson v.ordered = canonicalJson v :=
  congrArg (Option.getD · _) (canonicalJson?_ordered v)

mutual
theorem equal_ordered : (v : Value) → v.IsJson → v.ordered.Equal v
  | .null, _ => .null
  | .boolean b, _ => .boolean b
  | .number x, _ => .number (by unfold Number.canonical; split <;> simp_all)
  | .string s, _ => .string s
  | .array vs, h => .array (equal_orderedItems vs h)
  | .object fs, h => by
    have hmem : ∀ f, f ∈ sortFields (orderedFields fs) ↔ ∃ g ∈ fs, (g.1, g.2.ordered) = f := by
      intro f
      rw [sortFields, List.mem_insertionSort, orderedFields_eq, List.mem_map]
    refine .object (fun k => ?_) fun f hf g hg hkey => ?_
    · simp only [List.mem_map, hmem]
      constructor
      · rintro ⟨_, ⟨g, hg, rfl⟩, rfl⟩
        exact ⟨g, hg, rfl⟩
      · rintro ⟨g, hg, rfl⟩
        exact ⟨_, ⟨g, hg, rfl⟩, rfl⟩
    · obtain ⟨g', hg', rfl⟩ := (hmem f).mp hf
      -- an object has one field to a key
      obtain rfl : g' = g := List.inj_on_of_nodup_map h.2 hg' hg hkey
      exact equal_orderedFields fs h.1 g' hg'

theorem equal_orderedItems : (vs : List Value) → ItemsJson vs →
    List.Forall₂ Value.Equal (orderedItems vs) vs
  | [], _ => .nil
  | v :: vs, h => .cons (equal_ordered v h.1) (equal_orderedItems vs h.2)

theorem equal_orderedFields : (fs : List (String × Value)) → FieldsJson fs →
    ∀ f ∈ fs, f.2.ordered.Equal f.2
  | [], _ => by simp
  | (_, v) :: fs, h =>
    List.forall_mem_cons.mpr ⟨equal_ordered v h.1, equal_orderedFields fs h.2⟩
end

end BeeAgent.Data
