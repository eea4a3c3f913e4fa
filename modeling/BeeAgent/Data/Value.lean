import Mathlib.Data.List.Lex
import Mathlib.Data.List.Sort

/-! JavaScript values and the canonical JSON text that every digest is taken over. -/
namespace BeeAgent.Data

/-- A finite number, by its shortest decimal form: `±digits × 10^exponent`, where `digits` does
not end in a zero. -/
structure Number where
  negative : Bool
  digits : ℕ
  exponent : ℤ
  deriving DecidableEq, Repr

namespace Number

/-- The integer `n`, with the zeros at its end moved to the exponent. -/
def stripZeros : ℕ → ℕ → ℕ × ℕ
  | 0, n => (n, 0)
  | fuel + 1, n =>
    if n ≠ 0 ∧ n % 10 = 0 then ((stripZeros fuel (n / 10)).1, (stripZeros fuel (n / 10)).2 + 1)
    else (n, 0)

def ofNat (n : ℕ) : Number :=
  ⟨false, (stripZeros n n).1, (stripZeros n n).2⟩

/-- The digits, by the position `n` of the decimal point: plain, with a decimal point, with leading
zeros or with an exponent. -/
def magnitude (x : Number) : String :=
  let digits := toString x.digits
  let k : ℤ := digits.length
  let n := x.exponent + k
  if x.digits = 0 then "0"
  else if k ≤ n ∧ n ≤ 21 then digits ++ String.ofList (List.replicate (n - k).toNat '0')
  else if 0 < n ∧ n ≤ 21 then
    String.ofList (digits.toList.take n.toNat) ++ "." ++
      String.ofList (digits.toList.drop n.toNat)
  else if -6 < n ∧ n ≤ 0 then
    "0." ++ String.ofList (List.replicate (-n).toNat '0') ++ digits
  else
    let power := (if 0 < n - 1 then "+" else "-") ++ toString (n - 1).natAbs
    if k = 1 then digits ++ "e" ++ power
    else String.ofList (digits.toList.take 1) ++ "." ++
      String.ofList (digits.toList.drop 1) ++ "e" ++ power

/-- `Number::toString`. -/
def text (x : Number) : String :=
  if x.negative ∧ x.digits ≠ 0 then "-" ++ x.magnitude else x.magnitude

end Number

/-- What the source types as `unknown`: any value that JSON can carry, and `undefined`. -/
inductive Value where
  | undefined
  | null
  | boolean (b : Bool)
  | number (n : Number)
  | string (s : String)
  | array (items : List Value)
  | object (fields : List (String × Value))

/-- The UTF-16 code units of a string, in which JavaScript compares and measures strings. -/
def utf16 (s : String) : List ℕ :=
  s.toList.flatMap fun c =>
    if c.toNat < 0x10000 then [c.toNat]
    else [0xD800 + (c.toNat - 0x10000) / 0x400, 0xDC00 + (c.toNat - 0x10000) % 0x400]

def keyLe (a b : String) : Prop := utf16 a ≤ utf16 b

instance : DecidableRel keyLe := fun a b => inferInstanceAs (Decidable (utf16 a ≤ utf16 b))

def hexDigit (n : ℕ) : Char :=
  if n < 10 then Char.ofNat (48 + n) else Char.ofNat (87 + n)

/-- The escapes of `JSON.stringify` inside a string. -/
def escape (c : Char) : List Char :=
  if c = '"' then ['\\', '"']
  else if c = '\\' then ['\\', '\\']
  else if c.toNat = 8 then ['\\', 'b']
  else if c.toNat = 12 then ['\\', 'f']
  else if c.toNat = 10 then ['\\', 'n']
  else if c.toNat = 13 then ['\\', 'r']
  else if c.toNat = 9 then ['\\', 't']
  else if c.toNat < 32 then
    ['\\', 'u', '0', '0', hexDigit (c.toNat / 16), hexDigit (c.toNat % 16)]
  else [c]

/-- `JSON.stringify` of a string. -/
def quote (s : String) : String :=
  String.ofList ('"' :: s.toList.flatMap escape ++ ['"'])

def sortByKey (fields : List (String × String)) : List (String × String) :=
  fields.insertionSort fun a b => keyLe a.1 b.1

def joinFields (fields : List (String × String)) : String :=
  "\x7b" ++ ",".intercalate (fields.map fun f => quote f.1 ++ ":" ++ f.2) ++ "\x7d"

/- `JSON.stringify (undefined)` is `undefined`: an array joins it as the empty string, an object
interpolates it as text. -/
mutual
/-- Stable JSON: object keys sorted recursively, arrays order-preserving. -/
def canonicalJson? : Value → Option String
  | .undefined => none
  | .null => some "null"
  | .boolean b => some (if b then "true" else "false")
  | .number n => some n.text
  | .string s => some (quote s)
  | .array items => some ("[" ++ ",".intercalate (canonicalItems items) ++ "]")
  | .object fields => some (joinFields (sortByKey (canonicalFields fields)))

def canonicalItems : List Value → List String
  | [] => []
  | v :: vs => (canonicalJson? v).getD "" :: canonicalItems vs

def canonicalFields : List (String × Value) → List (String × String)
  | [] => []
  | (k, v) :: fs => (k, (canonicalJson? v).getD "undefined") :: canonicalFields fs
end

def canonicalJson (v : Value) : String := (canonicalJson? v).getD "undefined"

mutual
/-- `JSON.stringify`: fields in their order, a field whose value is `undefined` left out. -/
def stringify? : Value → Option String
  | .undefined => none
  | .null => some "null"
  | .boolean b => some (if b then "true" else "false")
  | .number n => some n.text
  | .string s => some (quote s)
  | .array items => some ("[" ++ ",".intercalate (stringifyItems items) ++ "]")
  | .object fields => some ("\x7b" ++ ",".intercalate (stringifyFields fields) ++ "\x7d")

def stringifyItems : List Value → List String
  | [] => []
  | v :: vs => (stringify? v).getD "null" :: stringifyItems vs

def stringifyFields : List (String × Value) → List String
  | [] => []
  | (k, v) :: fs =>
    match stringify? v with
    | none => stringifyFields fs
    | some text => (quote k ++ ":" ++ text) :: stringifyFields fs
end

def stringify (v : Value) : String := (stringify? v).getD "undefined"

/-- The property of an optional field that is left out when it is `undefined`. -/
def optionalField (key : String) : Option Value → List (String × Value)
  | none => []
  | some v => [(key, v)]

def strings (ss : List String) : Value := .array (ss.map .string)

example : canonicalJson (.object [("b", .number (.ofNat 120)), ("a", .array [.null, .string "x\"y"])])
    = "\x7b\"a\":[null,\"x\\\"y\"],\"b\":120\x7d" := by decide +kernel

end BeeAgent.Data
