/-!
Files as the command sees them: absolute paths, and what stands at a path.
-/

namespace Arbor.Command

inductive FileState where
  | missing
  | directory
  | file (bytes : List UInt8)
  | unreadable (reason : String)
  | nameTooLong

structure AbsolutePath where
  /-- The names on the way, last first. -/
  names : List String
deriving DecidableEq, Repr

namespace AbsolutePath

def root : AbsolutePath := ⟨[]⟩

def follow (p : AbsolutePath) (name : String) : AbsolutePath :=
  if name = "" ∨ name = "." then p
  else if name = ".." then ⟨p.names.tail⟩
  else ⟨name :: p.names⟩

def split : List Char → List (List Char)
  | [] => [[]]
  | c :: rest =>
    match split rest with
    | [] => [[c]]
    | name :: names => if c = '/' then [] :: name :: names else (c :: name) :: names

def isAdmissible (path : String) : Bool :=
  !path.toList.contains '\x00'

def resolve (directory : AbsolutePath) (path : String) : AbsolutePath :=
  let start := if path.toList.head? = some '/' then root else directory
  ((split path.toList).map String.ofList).foldl follow start

def text (p : AbsolutePath) : String :=
  "/" ++ String.intercalate "/" p.names.reverse

def name (p : AbsolutePath) : String :=
  p.names.head?.getD ""

end AbsolutePath

end Arbor.Command
