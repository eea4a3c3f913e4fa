import BeeAgent.Data.Value

/-! How the source reads a value it knows nothing of: its properties, `??` and its text in a
template. -/
namespace BeeAgent.Data
namespace Value

/-- `v.key`, which throws on `undefined` and `null`. No string, number or array has a property of
one of the names that the source reads. -/
def property? (key : String) : Value → Option Value
  | .undefined | .null => none
  | .object fields => some (((fields.find? fun field => field.1 = key).map Prod.snd).getD .undefined)
  | _ => some .undefined

/-- `v ?? default` -/
def orElse (v fallback : Value) : Value :=
  match v with
  | .undefined | .null => fallback
  | _ => v

mutual
/-- The text of a value in a template. -/
def interpolated : Value → String
  | .undefined => "undefined"
  | .null => "null"
  | .boolean b => if b then "true" else "false"
  | .number n => n.text
  | .string s => s
  | .array items => ",".intercalate (interpolatedItems items)
  | .object _ => "[object Object]"

def interpolatedItems : List Value → List String
  | [] => []
  | item :: items =>
    (match item with
      | .undefined | .null => ""
      | _ => item.interpolated) :: interpolatedItems items
end

end Value
end BeeAgent.Data
