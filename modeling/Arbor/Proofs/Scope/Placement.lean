import Arbor.Proofs.Outline.Order
import Arbor.Proofs.Scope.Binding

/-!
This module says which scopes there are around an occurrence, by looking at the occurrences above it
only. A scope is known by the route of the occurrence that opens it; the scope of the whole tree,
which no occurrence opens, has no route.
-/

namespace Arbor

def Occurrence.opens (x : Occurrence) : Option Scope.Kind :=
  Scope.opens x.node.kind x.path.parent?

namespace Scope

abbrev Key := Option Route

variable (place : Route → Option Occurrence)

def kindAt (r : Route) : Option Kind :=
  (place r).bind (·.opens)

def enclosing (r : Route) : Key :=
  r.ancestors.find? fun a => (kindAt place a).isSome

def hoisted (r : Route) : Key :=
  r.ancestors.find? fun a => (kindAt place a).any (· ≠ .block)

def own (r : Route) : Key :=
  if (kindAt place r).isSome then some r else enclosing place r

/-- The scope that a target means at an occurrence. -/
def keyOf (r : Route) : Target → Option Key
  | .outer => some (enclosing place r)
  | .inner => some (own place r)
  | .hoisted => some (hoisted place r)
  | .module => some none
  | .nowhere => none

def around (r : Route) : List Key :=
  (r.ancestors.filter fun a => (kindAt place a).isSome).map some ++ [none]

def above : Key → List Key
  | none => []
  | some r => around place r

def isBlockKey (key : Key) : Bool :=
  key.bind (kindAt place) = some .block

theorem enclosing_cons (i : Nat) (r : Route) : enclosing place (i :: r) = own place r := by
  unfold enclosing own
  rw [Route.ancestors, List.find?_cons]
  cases (kindAt place r).isSome <;> rfl

theorem around_cons (i : Nat) (r : Route)
    : around place (i :: r) =
        if (kindAt place r).isSome then some r :: around place r else around place r := by
  unfold around
  rw [Route.ancestors, List.filter_cons]
  cases (kindAt place r).isSome <;> rfl

theorem around_eq (r : Route)
    : around place r = enclosing place r :: above place (enclosing place r) := by
  induction r with
  | nil => rfl
  | cons i r ih =>
    rw [around_cons, enclosing_cons, own]
    cases (kindAt place r).isSome with
    | true => rfl
    | false => simpa using ih

theorem find?_around (r : Route)
    : (around place r).find? (fun key => !isBlockKey place key) = some (hoisted place r) := by
  induction r with
  | nil => rfl
  | cons i r ih =>
    rw [around_cons, hoisted, Route.ancestors, List.find?_cons, ← hoisted]
    cases hkind : kindAt place r with
    | none => simpa using ih
    | some kind =>
      by_cases hblock : kind = .block
      · simpa [isBlockKey, hkind, hblock] using ih
      · simp [isBlockKey, hkind, hblock]

theorem getLast?_around (r : Route) : (around place r).getLast? = some none := by
  rw [around, List.getLast?_concat]

theorem isBlockKey_hoisted (r : Route) : isBlockKey place (hoisted place r) = false := by
  have h := List.find?_some (find?_around place r)
  simpa using h

end Scope

end Arbor
