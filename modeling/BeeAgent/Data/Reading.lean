import BeeAgent.Data.Written

/-! Optional chaining, and the text of a value where an object may have none. -/
namespace BeeAgent.Data

/-- What the language throws where a value is not of the kind that an operation needs. -/
inductive TypeError where
  | typeError
  deriving DecidableEq, Repr

namespace Value

/-- `v?.key` -/
def chained (v : Value) (key : String) : Value := (v.property? key).getD .undefined

/-- `v?.length` -/
def chainedLength : Value → Value
  | .string s => .number (.ofNat (utf16 s).length)
  | .array items => .number (.ofNat items.length)
  | v => v.chained "length"

/-- `v === text` -/
def isText (v : Value) (text : String) : Bool :=
  match v with
  | .string s => s = text
  | _ => false

/-- `v === true` -/
def isTrue : Value → Bool
  | .boolean b => b
  | _ => false

def isNullish : Value → Bool
  | .undefined | .null => true
  | _ => false

def truthy : Value → Bool
  | .undefined | .null => false
  | .boolean b => b
  | .number n => n.digits ≠ 0
  | .string s => s ≠ ""
  | .array _ | .object _ => true

mutual
/-- `String(v)`: an object whose own `toString` hides that of all objects has no text. -/
def spelled : Value → Except TypeError String
  | .undefined => .ok "undefined"
  | .null => .ok "null"
  | .boolean b => .ok (if b then "true" else "false")
  | .number n => .ok n.text
  | .string s => .ok s
  | .array items => (spelledItems items).map ",".intercalate
  | .object fields =>
    if "toString" ∈ fields.map Prod.fst then .error .typeError else .ok "[object Object]"

/-- What `join` puts together. -/
def spelledItems : List Value → Except TypeError (List String)
  | [] => .ok []
  | item :: items => do
    let text ← if item.isNullish then .ok "" else item.spelled
    let texts ← spelledItems items
    return text :: texts
end

/-- `String(v ?? fallback)` -/
def spelledOr (v : Value) (fallback : String) : Except TypeError String :=
  (v.orElse (.string fallback)).spelled

/-- The items of a list, and of `[]` where there is none. -/
def itemsOf : Value → Except TypeError (List Value)
  | .undefined | .null => .ok []
  | .array items => .ok items
  | _ => .error .typeError

/-- `v.key` -/
def propertyOf (v : Value) (key : String) : Except TypeError Value :=
  match v.property? key with
  | some field => .ok field
  | none => .error .typeError

/-- Whether a `Set` takes two values for one. -/
def sameValue : Value → Value → Bool
  | .undefined, .undefined | .null, .null => true
  | .boolean a, .boolean b => a = b
  | .number a, .number b => a = b || a.digits = 0 && b.digits = 0
  | .string a, .string b => a = b
  | _, _ => false

end Value

/-- `[...new Set(values)]` -/
def distinct (values : List Value) : List Value :=
  values.foldl (fun kept v => if kept.any (·.sameValue v) then kept else kept ++ [v]) []

end BeeAgent.Data
