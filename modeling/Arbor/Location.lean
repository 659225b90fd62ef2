import Arbor.Value.Text

/-!
Source locations. A node may say in its `loc` field where in a source text it stands; its offsets
are in `range`, or in `start` and `end`.
-/

namespace Arbor

/-- A whole number as it was given: truth values count as numbers but keep their spelling. -/
inductive Ordinal where
  | int (n : Int)
  | bool (b : Bool)
deriving DecidableEq, Repr

namespace Ordinal

def ofValue? : Value → Option Ordinal
  | .int n => some (.int n)
  | .bool b => some (.bool b)
  | _ => none

def toInt : Ordinal → Int
  | .int n => n
  | .bool b => if b then 1 else 0

def toValue : Ordinal → Value
  | .int n => .int n
  | .bool b => .bool b

def text (o : Ordinal) : String :=
  o.toValue.literal

def succ (o : Ordinal) : Ordinal :=
  .int (o.toInt + 1)

def zero : Ordinal := .int 0

end Ordinal

/-- A place in a source text. Lines and columns are counted from one. -/
structure Location where
  file : String
  line : Ordinal
  column : Ordinal
  start : Ordinal := .zero
  stop : Ordinal := .zero
  endLine : Ordinal := .zero
  endColumn : Ordinal := .zero
deriving DecidableEq, Repr

namespace Location

def unnamed : String := "<input>"

def position? (v : Value) : Option (Ordinal × Ordinal) := do
  let line ← Ordinal.ofValue? (v.field "line")
  let column ← Ordinal.ofValue? (v.field "column")
  return (line, column)

def range? (v : Value) : Option (Ordinal × Ordinal) :=
  match (v.field "range").items with
  | [a, b] => do return (← Ordinal.ofValue? a, ← Ordinal.ofValue? b)
  | _ => none

def flatRange? (v : Value) : Option (Ordinal × Ordinal) := do
  return (← Ordinal.ofValue? (v.field "start"), ← Ordinal.ofValue? (v.field "end"))

def offsets (v : Value) : Ordinal × Ordinal :=
  ((range? v).or (flatRange? v)).getD (.zero, .zero)

def fileName (given : Option String) (source : Value) : String :=
  match given with
  | some file => file
  | none =>
    match source with
    | .str s => if s = "" then unnamed else s
    | _ => unnamed

def ofValue? (v : Value) (file : Option String) : Option Location :=
  match v.field "loc" with
  | .null => none
  | loc =>
    (position? (loc.field "start")).map fun (line, column) =>
      let (endLine, endColumn) := (position? (loc.field "end")).getD (.zero, .int (-1))
      let (start, stop) := offsets v
      { file := fileName file (loc.field "source")
        line := line
        column := column.succ
        start := start
        stop := stop
        endLine := endLine
        endColumn := endColumn.succ }

def text (l : Location) : String :=
  s!"{l.file}:{l.line.text}:{l.column.text}"

end Location

end Arbor
