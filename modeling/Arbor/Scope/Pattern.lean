import Arbor.Node

/-!
Patterns: which identifiers a declaration binds. Object patterns bind through the values of their
properties, array patterns through their elements, rest elements through their argument, and
defaults through their left side. Everything else binds nothing.
-/

namespace Arbor.Pattern

abbrev Found := Except Value.NotIterable (List Value)

def Found.append (a b : Found) : Found :=
  match a, b with
  | .ok xs, .ok ys => .ok (xs ++ ys)
  | .ok _, .error e => .error e
  | .error e, _ => .error e

/-- The elements of other values bind nothing; what has no elements cannot be run through. -/
def noneIn (v : Value) : Found :=
  v.elementsOrNone.map fun _ => []

mutual

def identifiers : Value → Found
  | .record id form fields =>
    match (Value.record id form fields).kind? with
    | some "Identifier" => .ok [.record id form fields]
    | some "ObjectPattern" => inProperties fields
    | some "ArrayPattern" => inElements fields
    | some "RestElement" => inField "argument" fields
    | some "AssignmentPattern" => inField "left" fields
    | _ => .ok []
  | _ => .ok []

def inField (name : String) : List (String × Value) → Found
  | [] => .ok []
  | (key, v) :: rest => if key = name then identifiers v else inField name rest

def inElements : List (String × Value) → Found
  | [] => .ok []
  | (key, v) :: rest => if key = "elements" then ofElements v else inElements rest

def ofElements : Value → Found
  | .list items | .tuple items => ofAll items
  | v => noneIn v

def ofAll : List Value → Found
  | [] => .ok []
  | v :: rest => (identifiers v).append (ofAll rest)

def inProperties : List (String × Value) → Found
  | [] => .ok []
  | (key, v) :: rest => if key = "properties" then ofProperties v else inProperties rest

def ofProperties : Value → Found
  | .list items | .tuple items => ofEachProperty items
  | v => noneIn v

def ofEachProperty : List Value → Found
  | [] => .ok []
  | v :: rest => (ofProperty v).append (ofEachProperty rest)

/-- A property binds through its value, a rest element among the properties through its argument. -/
def ofProperty : Value → Found
  | .record id form fields =>
    if (Value.record id form fields).kind? = some "RestElement" then inField "argument" fields
    else inField "value" fields
  | _ => .ok []

end

end Arbor.Pattern
