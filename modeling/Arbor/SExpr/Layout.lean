import Arbor.SExpr.Basic
import Arbor.SExpr.Block

/-!
Layout of S-expressions. A form that fits on a line is kept on one; one that does not is broken
into lines, with a keyword and its value on the same line.
-/

namespace Arbor.SExpr

structure Page where
  indentText : List Char := [' ', ' ']
  width : Int := 100

namespace Page

def indent (p : Page) (level : Int) : List Char :=
  (List.replicate level.toNat p.indentText).flatten

def fits (p : Page) (b : Block) : Bool :=
  b.length ≤ p.width && !b.broken

theorem fits_iff (p : Page) (b : Block) :
    p.fits b = true ↔ (b.text.length : Int) ≤ p.width ∧ '\n' ∉ b.text := by
  simp [fits, b.length_eq_text, b.broken_eq_text]

end Page

def quoted (s : List Char) : List Char :=
  '"' :: (s.flatMap fun c => if c = '\\' ∨ c = '"' then ['\\', c] else [c]) ++ ['"']

def isKeyword (part : Block) : Bool :=
  part.head? == some ':'

def blank : Block := .ofChars [' ']

def lineBreak (p : Page) (level : Int) : Block :=
  .ofChars ('\n' :: p.indent level)

/-- The lines of a broken form: a keyword that is followed by a part shares a line with it. -/
def pairLines : List Block → List Block
  | [] => []
  | [part] => [part]
  | part :: value :: rest =>
    if isKeyword part then part.append (blank.append value) :: pairLines rest
    else part :: pairLines (value :: rest)

def layoutBrackets (p : Page) (level : Int) (parts : List Block) : Block :=
  let flat := (Block.join blank parts).enclose '[' ']'
  if p.fits flat then flat
  else (Block.join (lineBreak p (level + 1)) parts).enclose '[' ']'

/-- A list, given its parts. The first part stays behind the parenthesis. -/
def layoutList (p : Page) (level : Int) (parts : List Block) : Block :=
  match parts with
  | [] => .ofChars ['(', ')']
  | head :: rest =>
    let flat := (Block.join blank parts).enclose '(' ')'
    if p.fits flat then flat
    else
      let lines := Block.join (lineBreak p (level + 1)) (head :: pairLines rest)
      (lines.append (lineBreak p level)).enclose '(' ')'

mutual

def layout (p : Page) (level : Int) : SExpr → Block
  | .symbol name => .ofChars name.toList
  | .str s => .ofChars (quoted s.toList)
  | .int n => .ofChars (toString n).toList
  | .float x => .ofChars x.text.toList
  | .bool b => .ofChars (if b then "true".toList else "false".toList)
  | .list items => layoutList p level (layoutAll p (level + 1) items)
  | .brackets items => layoutBrackets p level (layoutAll p (level + 1) items)
  | .verbatim text => .ofChars text.toList

def layoutAll (p : Page) (level : Int) : List SExpr → List Block
  | [] => []
  | item :: rest => layout p level item :: layoutAll p level rest

end

def pretty (e : SExpr) (page : Page) (level : Int) : String :=
  String.ofList (layout page level e).text

end Arbor.SExpr
