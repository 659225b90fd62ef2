import Arbor.Number.Binary64

/-!
The values that trees are made of: scalars, sequences and records. A record has named fields in an
order and is represented in one of several forms: as a mapping or a read-only view of one, as an
object to which fields are added freely, or as one whose type declares its fields or has slots for
them. The form decides which fields are listed and what the record's type is called, but not how a
field is read.

Every record carries a number that stands for its identity. Two records with equal fields are
different unless they have the same number.
-/

namespace Arbor

inductive Form where
  | map
  | view
  | bag
  | declared (typeName : String)
  | slotted (typeName : String)
  /-- A type used as a value; its fields can be read, but it is never a node. -/
  | template (typeName : String)
deriving DecidableEq, Repr

namespace Form

def isMapping : Form → Bool
  | .map | .view => true
  | _ => false

def mayBeNode : Form → Bool
  | .template _ => false
  | _ => true

def listsHidden : Form → Bool
  | .map | .view | .declared _ => true
  | _ => false

/-- Whether a record of this form can be a key: it is known by its identity and not its fields. -/
def isKey : Form → Bool
  | .slotted _ | .template _ => true
  | _ => false

def typeName : Form → String
  | .map => "dict"
  | .view => "mappingproxy"
  | .bag => "SimpleNamespace"
  | .declared name | .slotted name => name
  | .template _ => "type"

end Form

inductive Value where
  | null
  | bool (b : Bool)
  | int (n : Int)
  | float (x : Binary64)
  | str (s : String)
  | bytes (data : List UInt8)
  | list (items : List Value)
  | tuple (items : List Value)
  | record (id : Nat) (form : Form) (fields : List (String × Value))
  | keep
  | symbol (name : String)
  /-- A bracketed sequence in an S-expression; it counts as one value and not as a sequence. -/
  | brackets (items : List Value)
deriving Inhabited

namespace Value

def kindField : String := "type"

def typeName : Value → String
  | .null => "NoneType"
  | .bool _ => "bool"
  | .int _ => "int"
  | .float _ => "float"
  | .str _ => "str"
  | .bytes _ => "bytes"
  | .list _ => "list"
  | .tuple _ => "tuple"
  | .record _ form _ => form.typeName
  | .keep => "_NoOverride"
  | .symbol _ => "Symbol"
  | .brackets _ => "Brackets"

def fullTypeName : Value → String
  | .record _ .bag _ => "types.SimpleNamespace"
  | v => v.typeName

def id? : Value → Option Nat
  | .record id _ _ => some id
  | _ => none

def field? (v : Value) (name : String) : Option Value :=
  match v with
  | .record _ _ fields => fields.lookup name
  | _ => none

def field (v : Value) (name : String) : Value :=
  (v.field? name).getD .null

def isHidden (name : String) : Bool :=
  name.toList.head? == some '_'

def fields : Value → List (String × Value)
  | .record _ form fields =>
    if form.listsHidden then fields else fields.filter fun (name, _) => !isHidden name
  | _ => []

def items : Value → List Value
  | .list items | .tuple items => items
  | _ => []

def isSequence : Value → Bool
  | .list _ | .tuple _ => true
  | _ => false

def kind? : Value → Option String
  | .record _ form fields =>
    if form.mayBeNode then
      match fields.lookup kindField with
      | some (.str kind) => some kind
      | _ => none
    else none
  | _ => none

def isNode (v : Value) : Bool :=
  v.kind?.isSome

/-- Values that count as absent are not truthy: null, false, zeros, the marker and empty values. -/
def isTruthy : Value → Bool
  | .null | .keep => false
  | .symbol _ | .brackets _ => true
  | .bool b => b
  | .int n => n != 0
  | .float x => !x.isZero
  | .str s => s != ""
  | .bytes data => !data.isEmpty
  | .list items | .tuple items => !items.isEmpty
  | .record _ form fields => !form.isMapping || !fields.isEmpty

inductive FieldFault where
  | missingKey (name : String)
  | missingAttribute (owner : Value) (name : String)

def kindValue (v : Value) : Except FieldFault Value :=
  match v.field? kindField with
  | some kind => .ok kind
  | none =>
    match v with
    | .record _ form _ =>
      if form.isMapping then .error (.missingKey kindField)
      else .error (.missingAttribute v kindField)
    | _ => .error (.missingAttribute v kindField)

mutual

def changeablePart? : Value → Option Value
  | .list items => some (.list items)
  | .tuple items => changeableItem? items
  | .record id form fields => if form.isKey then none else some (.record id form fields)
  | .brackets items => some (.list items)
  | _ => none

def changeableItem? : List Value → Option Value
  | [] => none
  | v :: rest =>
    match changeablePart? v with
    | some part => some part
    | none => changeableItem? rest

end

structure NotIterable where
  value : Value

def NotIterable.text (e : NotIterable) : String :=
  s!"'{e.value.fullTypeName}' object is not iterable"

/--
The elements of a value that is run through: those of a sequence, the characters of a string, the
bytes of a byte string, the names of a mapping.
-/
def elements : Value → Except NotIterable (List Value)
  | .list items | .tuple items => .ok items
  | .str s => .ok (s.toList.map fun c => .str (String.singleton c))
  | .bytes data => .ok (data.map fun b => .int b.toNat)
  | v@(.record _ form fields) =>
    if form.isMapping then .ok (fields.map fun (name, _) => .str name) else .error ⟨v⟩
  | v => .error ⟨v⟩

def elementsOrNone (v : Value) : Except NotIterable (List Value) :=
  if v.isTruthy then v.elements else .ok []

end Value

end Arbor
