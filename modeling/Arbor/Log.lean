/-!
The debug log. Each entry says what happened; its text and the part of the library it comes from
follow from that.
-/

namespace Arbor

inductive LogEntry where
  | walkStarted (kind : String)
  | walkFinished (visited maxDepth : Nat)
  | walkAborted (visited : Nat) (error : String)
  | closeFailed (error kind text : String)
  | neverSuspended (kind : String)
  | scopesCollected (count : Nat)
  | referencesResolved (resolved total : Nat)
deriving DecidableEq, Repr

namespace LogEntry

def source : LogEntry → String
  | .walkStarted _ | .walkFinished _ _ | .walkAborted _ _ | .closeFailed _ _ _ => "traversal.driver"
  | .neverSuspended _ => "traversal.visitor"
  | .scopesCollected _ | .referencesResolved _ _ => "analysis.scopes"

def text : LogEntry → String
  | .walkStarted kind => s!"Starting traversal at {kind}"
  | .walkFinished visited maxDepth =>
    s!"Traversal finished: {visited} nodes visited, max depth {maxDepth}"
  | .walkAborted visited error => s!"Traversal aborted after {visited} nodes: {error}"
  | .closeFailed error kind text => s!"Ignoring {error} while closing visitor for {kind}: {text}"
  | .neverSuspended kind => s!"Visitor finished without suspending at {kind}"
  | .scopesCollected count => s!"Collected {count} scopes"
  | .referencesResolved resolved total => s!"Resolved {resolved} of {total} references"

end LogEntry

abbrev Log := Array LogEntry

end Arbor
