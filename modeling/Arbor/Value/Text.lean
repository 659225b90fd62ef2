import Arbor.Number.Shortest
import Arbor.Text.Literal
import Arbor.Value.Basic

/-!
The text of values. A literal shows how a value is written down, strings in quotes; the text of a
string is the string itself, that of a view is that of the mapping behind it, and that of any other
value is its literal.
-/

namespace Arbor.Value

def homeModule : String := "__main__"

mutual

def literal : Value → String
  | .null => "None"
  | .bool b => if b then "True" else "False"
  | .int n => toString n
  | .float x => x.text
  | .str s => Text.literal s
  | .bytes data => Text.bytesLiteral data
  | .list items => "[" ++ String.intercalate ", " (literals items) ++ "]"
  | .tuple items =>
    match literals items with
    | [one] => "(" ++ one ++ ",)"
    | many => "(" ++ String.intercalate ", " many ++ ")"
  | .record _ form fields =>
    let entries := String.intercalate ", " (entryLiterals fields)
    let settings := String.intercalate ", " (settingLiterals fields)
    match form with
    | .map => "\x7b" ++ entries ++ "\x7d"
    | .view => "mappingproxy(\x7b" ++ entries ++ "\x7d)"
    | .bag => "namespace(" ++ settings ++ ")"
    | .declared name => name ++ "(" ++ settings ++ ")"
    | .slotted name => "<" ++ name ++ " object>"
    | .template name => "<class '" ++ homeModule ++ "." ++ name ++ "'>"
  | .keep => "NO_OVERRIDE"
  | .symbol name => "Symbol(" ++ Text.literal name ++ ")"
  | .brackets items => "Brackets(I=[" ++ String.intercalate ", " (literals items) ++ "])"

def literals : List Value → List String
  | [] => []
  | v :: rest => v.literal :: literals rest

def entryLiterals : List (String × Value) → List String
  | [] => []
  | (name, v) :: rest => (Text.literal name ++ ": " ++ v.literal) :: entryLiterals rest

/-- The fields of an object, as `name=value`; a field with an empty name is left out. -/
def settingLiterals : List (String × Value) → List String
  | [] => []
  | (name, v) :: rest =>
    if name = "" then settingLiterals rest
    else (name ++ "=" ++ v.literal) :: settingLiterals rest

end

def text : Value → String
  | .str s => s
  | .record id .view fields => (Value.record id .map fields).literal
  | v => v.literal

def ownerText : Value → String
  | .record _ (.template name) _ => s!"type object '{name}'"
  | v => s!"'{v.fullTypeName}' object"

def FieldFault.text : FieldFault → String
  | .missingKey name => Text.literal name
  | .missingAttribute owner name => s!"{owner.ownerText} has no attribute '{name}'"

def FieldFault.name : FieldFault → String
  | .missingKey _ => "KeyError"
  | .missingAttribute _ _ => "AttributeError"

end Arbor.Value
