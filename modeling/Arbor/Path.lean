import Arbor.Node
import Arbor.Value.Text

/-!
Paths record the way from a root to a node. A path has one step for each ancestor, the root
first; the node it leads to is not part of it.
-/

namespace Arbor

structure Step extends Edge where
  node : Value

abbrev Path := List Step

namespace Path

def rootLabel : String := "<root>"

def parent? (p : Path) : Option Value :=
  p.getLast?.map (·.node)

def lastEdge? (p : Path) : Option Edge :=
  p.getLast?.map (·.toEdge)

def descend (p : Path) (node : Node) (edge : Edge) : Path :=
  p ++ [⟨edge, node.value⟩]

/-- A path cannot be shown if its first node has no kind, or one that is no string. -/
inductive Fault where
  | noKind (fault : Value.FieldFault)
  | kindNotText (kind : Value)

def Fault.name : Fault → String
  | .noKind fault => fault.name
  | .kindNotText _ => "TypeError"

def Fault.text : Fault → String
  | .noKind fault => fault.text
  | .kindNotText kind =>
    s!"sequence item 0: expected str instance, {kind.fullTypeName} found"

def join (kind : String) (edges : List Edge) : String :=
  String.intercalate "." (kind :: edges.map Edge.text)

/-- The text of a path. Only the first step's node is looked at. -/
def render : Path → Except Fault String
  | [] => .ok rootLabel
  | p@(first :: _) =>
    match first.node.kindValue with
    | .error fault => .error (.noKind fault)
    | .ok (.str kind) => .ok (join kind (p.map (·.toEdge)))
    | .ok kind => .error (.kindNotText kind)

end Path

end Arbor
