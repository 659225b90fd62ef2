import Arbor.Walk

/-!
The census of a tree: how many nodes of which kind there are, and how deep they lie.
-/

namespace Arbor

/-- Numbers about a tree. Kinds stand in the order in which they were first seen. -/
structure Census where
  nodeCount : Int := 0
  maxDepth : Int := 0
  kinds : List (String × Int) := []

namespace Census

def count (kind : String) (n : Int) : List (String × Int) → List (String × Int)
  | [] => [(kind, n)]
  | (k, m) :: rest => if k = kind then (k, m + n) :: rest else (k, m) :: count kind n rest

def add (c : Census) (kind : String) (depth : Nat) : Census where
  nodeCount := c.nodeCount + 1
  maxDepth := max c.maxDepth depth
  kinds := count kind 1 c.kinds

def byCount (kinds : List (String × Int)) : List (String × Int) :=
  kinds.mergeSort fun a b => b.2 ≤ a.2

def leading (c : Census) (n : Option Int) : List (String × Int) :=
  match n with
  | some n => (byCount c.kinds).take n.toNat
  | none => byCount c.kinds

def reportLE (a b : String × Int) : Bool :=
  b.2 < a.2 || (a.2 == b.2 && !(b.1 < a.1))

def pad (width : Nat) (text : String) : String :=
  String.ofList (text.toList ++ List.replicate (width - text.length) ' ')

def kindWidth (kinds : List (String × Int)) : Nat :=
  kinds.foldl (fun width (kind, _) => max width kind.length) 0

def kindLine (width : Nat) (entry : String × Int) : String :=
  s!"  {pad width entry.1}  {entry.2}"

def report (c : Census) : String :=
  let width := kindWidth c.kinds
  String.intercalate "\n" (s!"nodes: {c.nodeCount}" :: s!"max depth: {c.maxDepth}" ::
    (c.kinds.mergeSort reportLE).map (kindLine width))

variable {ε : Type}

def visitor : Visitor Census Unit Unit ε :=
  .callbacks (fun site c => (.ok .bare, c.add site.node.kind site.path.length))
    (fun _ c => (.ok (), c))

end Census

variable {ε : Type} [Described ε]

def census (strategy : Strategy ε) (root : Value) (finite : strategy.FiniteFrom root) :
    Except (Fault ε) Census × Log :=
  match walk Census.visitor strategy root finite () { state := {} } with
  | (.error fault, s) => (.error fault, s.log)
  | (.ok (), s) => (.ok s.state, s.log)

end Arbor
