import Arbor.SExpr.Basic
import Arbor.Value.Text

/-!
Values as S-expressions. A list becomes a form; what has no written form of its own is shown by
its text.
-/

namespace Arbor.SExpr

mutual

def ofValue : Value → SExpr
  | .symbol name => .symbol name
  | .str s => .str s
  | .int n => .int n
  | .float x => .float x
  | .bool b => .bool b
  | .list items => .list (ofValues items)
  | .brackets items => .brackets (ofValues items)
  | v => .verbatim v.text

def ofValues : List Value → List SExpr
  | [] => []
  | v :: rest => ofValue v :: ofValues rest

end

end Arbor.SExpr
