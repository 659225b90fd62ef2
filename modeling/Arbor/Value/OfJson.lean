import Arbor.Json.Basic
import Arbor.Value.Basic

/-!
JSON documents as values. Objects become mappings, numbered in the order in which they open.
-/

namespace Arbor.Value

mutual

/-- The value of a document whose first record gets number `next`, and the next free number. -/
def ofJsonFrom (next : Nat) : Json → Value × Nat
  | .null => (.null, next)
  | .bool b => (.bool b, next)
  | .int n => (.int n, next)
  | .float x => (.float x, next)
  | .str s => (.str s, next)
  | .array items =>
    let (values, next) := ofJsonItems next items
    (.list values, next)
  | .object members =>
    let (fields, after) := ofJsonMembers (next + 1) members
    (.record next .map fields, after)

def ofJsonItems (next : Nat) : List Json → List Value × Nat
  | [] => ([], next)
  | item :: rest =>
    let (value, next) := ofJsonFrom next item
    let (values, next) := ofJsonItems next rest
    (value :: values, next)

def ofJsonMembers (next : Nat) : List (String × Json) → List (String × Value) × Nat
  | [] => ([], next)
  | (name, member) :: rest =>
    let (value, next) := ofJsonFrom next member
    let (fields, next) := ofJsonMembers next rest
    ((name, value) :: fields, next)

end

def ofJson (doc : Json) : Value :=
  (ofJsonFrom 0 doc).1

end Arbor.Value
