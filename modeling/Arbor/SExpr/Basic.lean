import Arbor.Number.Shortest

/-!
S-expressions. Lists are written in parentheses, bracketed sequences in brackets.
-/

namespace Arbor

inductive SExpr where
  | symbol (name : String)
  | str (s : String)
  | int (n : Int)
  | float (x : Binary64)
  | bool (b : Bool)
  | list (items : List SExpr)
  | brackets (items : List SExpr)
  | verbatim (text : String)
deriving Inhabited

namespace SExpr

def keyword (name : String) : SExpr :=
  .symbol (":" ++ name)

def joinBlank (parts : List (List Char)) : List Char :=
  [' '].intercalate parts

end SExpr

end Arbor
