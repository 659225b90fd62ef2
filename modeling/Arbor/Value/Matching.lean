import Arbor.Json.Basic
import Arbor.Value.Basic

/-!
Documents as patterns for values. A document matches the values it may stand for: numbers are
compared by size, booleans counting as one and zero, and the order of fields does not matter.
-/

namespace Arbor

namespace Value

def equalsInt (n : Int) : Value → Bool
  | .bool b => n == (if b then 1 else 0)
  | .int m => n == m
  | .float x => x.equalsInt n
  | _ => false

def equalsFloat (x : Binary64) : Value → Bool
  | .bool b => x.equalsInt (if b then 1 else 0)
  | .int m => x.equalsInt m
  | .float y => x.equals y
  | _ => false

end Value

namespace Json

mutual

def describes : Json → Value → Bool
  | .null, v =>
    match v with
    | .null => true
    | _ => false
  | .bool b, v => v.equalsInt (if b then 1 else 0)
  | .int n, v => v.equalsInt n
  | .float x, v => v.equalsFloat x
  | .str s, v =>
    match v with
    | .str t => s == t
    | _ => false
  | .array items, v =>
    match v with
    | .list values => describesAll items values
    | _ => false
  | .object members, v =>
    match v with
    | .record _ form fields =>
      form.isMapping && members.length == fields.length && describesFields members fields
    | _ => false

def describesAll : List Json → List Value → Bool
  | [], [] => true
  | item :: items, v :: values => describes item v && describesAll items values
  | _, _ => false

def describesFields : List (String × Json) → List (String × Value) → Bool
  | [], _ => true
  | (name, member) :: rest, fields =>
    match fields.lookup name with
    | some v => describes member v && describesFields rest fields
    | none => false

end

end Json

end Arbor
