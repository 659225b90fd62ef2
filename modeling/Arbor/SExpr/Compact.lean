import Arbor.SExpr.Basic

/-!
The printer with which the program writes S-expressions on a single line. Marks inside symbols are
escaped, and so are the control characters of strings that have an escape of their own. Nothing but
the program depends on this printer: a dump takes any.
-/

namespace Arbor.SExpr

def symbolMarks : List Char :=
  ['\\', '\'', '\x60', '"', '(', ')', '[', ']', ' ', ',', '?', ';', '#']

def compactSymbol (name : List Char) : List Char :=
  name.flatMap fun c => if symbolMarks.contains c then ['\\', c] else [c]

def compactChar (c : Char) : List Char :=
  if c = '\\' ∨ c = '"' then ['\\', c]
  else if c = '\x08' then ['\\', 'b']
  else if c = '\x0c' then ['\\', 'f']
  else if c = '\n' then ['\\', 'n']
  else if c = '\r' then ['\\', 'r']
  else if c = '\t' then ['\\', 't']
  else [c]

mutual

def compact : SExpr → List Char
  | .symbol name => compactSymbol name.toList
  | .str s => '"' :: s.toList.flatMap compactChar ++ ['"']
  | .int n => (toString n).toList
  | .float x => x.text.toList
  | .bool b => if b then ['t'] else ['(', ')']
  | .list items => '(' :: joinBlank (compactAll items) ++ [')']
  | .brackets items => '[' :: joinBlank (compactAll items) ++ [']']
  | .verbatim text => text.toList

def compactAll : List SExpr → List (List Char)
  | [] => []
  | item :: rest => compact item :: compactAll rest

end

def oneLine (e : SExpr) : String :=
  String.ofList (compact e)

end Arbor.SExpr
