import Arbor.Outline
import Arbor.Visitor.Visit

/-!
The walk. Every occurrence of an outline is visited depth first: its first phase runs before its
children are visited, its second phase after that. The first failure ends the walk: the visits
that are open on the way to it are closed, innermost first, and what goes wrong while they are
closed is only logged.
-/

namespace Arbor

variable {σ φ κ ε : Type} [Described ε]

/-- Close a visit because of a failure below it; a failure to close is logged. -/
def Visit.abandon (current : Visit σ φ κ ε) (s : Session σ) : Session σ :=
  match current.close s with
  | (.ok (), _, s) => s
  | (.error fault, _, s) => s.record (.closeFailed fault.name current.site.node.kind fault.text)

namespace Walk

mutual

def visit (v : Visitor σ φ κ ε) (context : κ) (path : Path) :
    Outline ε → Session σ → Except (Fault ε) Unit × Session σ
  | .mk node children failure, s =>
    match Visit.start v ⟨node, context, path⟩ (s.arrive path.length) with
    | (.error fault, s) => (.error fault, s)
    | (.ok current, s) =>
      match current.enter s with
      | (.error fault, _, s) => (.error fault, s)
      | (.ok override, current, s) =>
        match visitAll v (override.apply context) path node children failure s with
        | (.error fault, s) => (.error fault, current.abandon s)
        | (.ok (), s) =>
          match current.exit s with
          | (result, _, s) => (result, s)

def visitAll (v : Visitor σ φ κ ε) (context : κ) (path : Path) (parent : Node) :
    List (Edge × Outline ε) → Option ε → Session σ → Except (Fault ε) Unit × Session σ
  | [], none, s => (.ok (), s)
  | [], some e, s => (.error (.raised e), s)
  | (edge, child) :: rest, failure, s =>
    match visit v context (path.descend parent edge) child s with
    | (.error fault, s) => (.error fault, s)
    | (.ok (), s) => visitAll v context path parent rest failure s

end

def closingEntry (result : Except (Fault ε) Unit) (s : Session σ) : LogEntry :=
  match result with
  | .ok () => .walkFinished s.visited s.maxDepth
  | .error fault => .walkAborted s.visited fault.name

def walkOutline (v : Visitor σ φ κ ε) (context : κ) (outline : Outline ε) (s : Session σ) :
    Except (Fault ε) Unit × Session σ :=
  match visit v context [] outline (s.restart.record (.walkStarted outline.node.kind)) with
  | (result, s) => (result, s.record (closingEntry result s))

end Walk

/--
Walk all that a strategy reaches from a root. A root that is not a node is refused before anything
else happens.
-/
def walk (v : Visitor σ φ κ ε) (strategy : Strategy ε) (root : Value)
    (finite : strategy.FiniteFrom root) (context : κ) (s : Session σ) :
    Except (Fault ε) Unit × Session σ :=
  match h : Node.ofValue? root with
  | none => (.error (.invalidRoot root), s)
  | some n => Walk.walkOutline v context (strategy.outline n (finite n h)) s

end Arbor
