import BeeAgent.Data.Value
import Mathlib.Data.List.TakeWhile

/-! `JSON.parse`. -/
namespace BeeAgent.Data

/-- The number `n × 10^exponent`, with the zeros at the end of `n` moved to the exponent. -/
def Number.ofDecimal (negative : Bool) (n : ℕ) (exponent : ℤ) : Number :=
  if n = 0 then ⟨negative, 0, 0⟩
  else ⟨negative, (stripZeros n n).1, exponent + (stripZeros n n).2⟩

/-- A number in shortest form. -/
def Number.Normal (x : Number) : Prop := x.digits % 10 ≠ 0 ∨ x.digits = 0 ∧ x.exponent = 0

instance : DecidablePred Number.Normal := fun x =>
  inferInstanceAs (Decidable (x.digits % 10 ≠ 0 ∨ x.digits = 0 ∧ x.exponent = 0))

/-- The number without the sign of a negative zero, which its text does not carry. -/
def Number.canonical (x : Number) : Number := if x.digits = 0 then ⟨false, 0, 0⟩ else x

def parseDigits (cs : List Char) : Option (List Char × List Char) :=
  match cs.takeWhile Char.isDigit with
  | [] => none
  | digits => some (digits, cs.dropWhile Char.isDigit)

def parseFraction : List Char → Option (List Char × List Char)
  | '.' :: rest => parseDigits rest
  | rest => some ([], rest)

def parseSigned : List Char → Option (ℤ × List Char)
  | '-' :: rest => (parseDigits rest).map fun p => (-(Nat.ofDigitChars 10 p.1 0 : ℤ), p.2)
  | '+' :: rest | rest => (parseDigits rest).map fun p => ((Nat.ofDigitChars 10 p.1 0 : ℤ), p.2)

def parseExponent : List Char → Option (ℤ × List Char)
  | 'e' :: rest | 'E' :: rest => parseSigned rest
  | rest => some (0, rest)

/-- A number without its sign: an integer part without leading zeros, a fraction and an
exponent. -/
def parseMagnitude (negative : Bool) (cs : List Char) : Option (Number × List Char) := do
  let (integer, rest) ← parseDigits cs
  if integer.head? = some '0' ∧ integer ≠ ['0'] then none
  let (fraction, rest) ← parseFraction rest
  let (exponent, rest) ← parseExponent rest
  return (.ofDecimal negative (Nat.ofDigitChars 10 (integer ++ fraction) 0)
    (exponent - fraction.length), rest)

def parseNumber : List Char → Option (Number × List Char)
  | '-' :: rest => parseMagnitude true rest
  | rest => parseMagnitude false rest

def parseHexDigit (c : Char) : Option ℕ :=
  if c.isDigit then some (c.toNat - 48)
  else if 97 ≤ c.toNat ∧ c.toNat ≤ 102 then some (c.toNat - 87)
  else if 65 ≤ c.toNat ∧ c.toNat ≤ 70 then some (c.toNat - 55)
  else none

def parseEscape (c : Char) : Option ℕ :=
  if c = '"' then some 34
  else if c = '\\' then some 92
  else if c = '/' then some 47
  else if c = 'b' then some 8
  else if c = 'f' then some 12
  else if c = 'n' then some 10
  else if c = 'r' then some 13
  else if c = 't' then some 9
  else none

/-- One character of a string, or the code unit that an escape stands for. -/
def parseUnit : List Char → Option (ℕ × List Char)
  | '\\' :: 'u' :: a :: b :: c :: d :: rest => do
    return (((((← parseHexDigit a) * 16 + (← parseHexDigit b)) * 16 + (← parseHexDigit c)) * 16 +
      (← parseHexDigit d)), rest)
  | '\\' :: c :: rest => (parseEscape c).map (·, rest)
  | c :: rest => if c.toNat < 32 ∨ c = '\\' then none else some (c.toNat, rest)
  | [] => none

/-- The code units up to the closing quote. -/
def parseUnits : ℕ → List Char → Option (List ℕ × List Char)
  | 0, _ => none
  | _ + 1, '"' :: rest => some ([], rest)
  | fuel + 1, cs => do
    let (unit, rest) ← parseUnit cs
    let (units, rest) ← parseUnits fuel rest
    return (unit :: units, rest)

def isSurrogate (unit : ℕ) : Bool := 0xD800 ≤ unit && unit < 0xE000

/-- The characters of the code units. A surrogate without its other half is no character. -/
def fromUnits : List ℕ → Option (List Char)
  | [] => some []
  | [unit] => if isSurrogate unit then none else some [Char.ofNat unit]
  | high :: low :: units =>
    if isSurrogate high then
      if high < 0xDC00 ∧ 0xDC00 ≤ low ∧ low < 0xE000 then
        (fromUnits units).map
          (Char.ofNat (0x10000 + (high - 0xD800) * 0x400 + (low - 0xDC00)) :: ·)
      else none
    else (fromUnits (low :: units)).map (Char.ofNat high :: ·)

def parseString (cs : List Char) : Option (String × List Char) := do
  let (units, rest) ← parseUnits (cs.length + 1) cs
  return (String.ofList (← fromUnits units), rest)

def isSpace (c : Char) : Bool := c = ' ' || c = '\t' || c = '\n' || c = '\r'

def skipSpace (cs : List Char) : List Char := cs.dropWhile isSpace

def parseLiteral (value : Value) (word : String) (cs : List Char) : Option (Value × List Char) :=
  if word.toList <+: cs then some (value, cs.drop word.toList.length) else none

/-- A later field of the same key replaces the value of the earlier one. -/
def setField (fields : List (String × Value)) (field : String × Value) : List (String × Value) :=
  if field.1 ∈ fields.map Prod.fst then
    fields.map fun f => if f.1 = field.1 then field else f
  else fields ++ [field]

mutual
def parseValue : ℕ → List Char → Option (Value × List Char)
  | 0, _ => none
  | fuel + 1, cs =>
    match skipSpace cs with
    | [] => none
    | c :: rest =>
      if c = '"' then (parseString rest).map fun p => (.string p.1, p.2)
      else if c = '[' then
        match skipSpace rest with
        | ']' :: rest => some (.array [], rest)
        | rest => (parseItems fuel rest).map fun p => (.array p.1, p.2)
      else if c = '{' then
        match skipSpace rest with
        | '}' :: rest => some (.object [], rest)
        | rest => (parseFields fuel rest).map fun p => (.object (p.1.foldl setField []), p.2)
      else if c = 'n' then parseLiteral .null "ull" rest
      else if c = 't' then parseLiteral (.boolean true) "rue" rest
      else if c = 'f' then parseLiteral (.boolean false) "alse" rest
      else (parseNumber (c :: rest)).map fun p => (.number p.1, p.2)

def parseItems : ℕ → List Char → Option (List Value × List Char)
  | 0, _ => none
  | fuel + 1, cs =>
    match parseValue fuel cs with
    | none => none
    | some (v, rest) =>
      match skipSpace rest with
      | ',' :: rest => (parseItems fuel rest).map fun p => (v :: p.1, p.2)
      | ']' :: rest => some ([v], rest)
      | _ => none

def parseFields : ℕ → List Char → Option (List (String × Value) × List Char)
  | 0, _ => none
  | fuel + 1, cs =>
    match parseField fuel (skipSpace cs) with
    | none => none
    | some (f, rest) =>
      match skipSpace rest with
      | ',' :: rest => (parseFields fuel rest).map fun p => (f :: p.1, p.2)
      | '}' :: rest => some ([f], rest)
      | _ => none

def parseField : ℕ → List Char → Option ((String × Value) × List Char)
  | 0, _ => none
  | fuel + 1, '"' :: cs =>
    match parseString cs with
    | none => none
    | some (key, rest) =>
      match skipSpace rest with
      | ':' :: rest => (parseValue fuel rest).map fun p => ((key, p.1), p.2)
      | _ => none
  | _ + 1, _ => none
end

/-- `JSON.parse`; `none` where it throws. -/
def parseJson (text : String) : Option Value :=
  match parseValue (3 * text.toList.length + 1) text.toList with
  | some (v, rest) => if skipSpace rest = [] then some v else none
  | none => none

example : (parseJson " [-2e+3, 1.50 , \"\\u00e9\\ud83d\\ude00\", 1E-7, 0.001,-0]").map
    canonicalJson = some "[-2000,1.5,\"é😀\",1e-7,0.001,0]" := by decide +kernel

mutual
/-- A value that JSON can carry. -/
def Value.IsJson : Value → Prop
  | .undefined => False
  | .null | .boolean _ | .string _ => True
  | .number x => x.Normal
  | .array items => ItemsJson items
  | .object fields => FieldsJson fields ∧ (fields.map Prod.fst).Nodup

def ItemsJson : List Value → Prop
  | [] => True
  | v :: vs => v.IsJson ∧ ItemsJson vs

def FieldsJson : List (String × Value) → Prop
  | [] => True
  | (_, v) :: fs => v.IsJson ∧ FieldsJson fs
end

def sortFields (fields : List (String × Value)) : List (String × Value) :=
  fields.insertionSort fun a b => keyLe a.1 b.1

mutual
/-- The value with the fields of every object in the order of their keys. -/
def Value.ordered : Value → Value
  | .number x => .number x.canonical
  | .array items => .array (orderedItems items)
  | .object fields => .object (sortFields (orderedFields fields))
  | v => v

def orderedItems : List Value → List Value
  | [] => []
  | v :: vs => v.ordered :: orderedItems vs

def orderedFields : List (String × Value) → List (String × Value)
  | [] => []
  | (k, v) :: fs => (k, v.ordered) :: orderedFields fs
end

/-- Equality of JSON values: numbers have one value, arrays equal items in one order, objects the
same keys, in whatever order, with equal values. -/
inductive Value.Equal : Value → Value → Prop where
  | null : Equal .null .null
  | boolean (b : Bool) : Equal (.boolean b) (.boolean b)
  | number {x y : Number} (h : x.canonical = y.canonical) : Equal (.number x) (.number y)
  | string (s : String) : Equal (.string s) (.string s)
  | array {vs ws : List Value} (h : List.Forall₂ Equal vs ws) : Equal (.array vs) (.array ws)
  | object {fs gs : List (String × Value)} (hkeys : ∀ k, k ∈ fs.map Prod.fst ↔ k ∈ gs.map Prod.fst)
    (h : ∀ f ∈ fs, ∀ g ∈ gs, f.1 = g.1 → Equal f.2 g.2) : Equal (.object fs) (.object gs)

end BeeAgent.Data
