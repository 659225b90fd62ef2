import Arbor.Visitor.Basic

/-!
Sessions and failures. A session is what a walk works on: the visitor's state, the counters and
the log. A fault is a reason for which a walk ends early.
-/

namespace Arbor

/-- The state of a walker: the visitor's own state, the counters of the last walk, and the log. -/
structure Session (σ : Type) where
  state : σ
  visited : Nat := 0
  maxDepth : Nat := 0
  log : Log := #[]

namespace Session

variable {σ : Type}

def update {α : Type} (s : Session σ) (f : σ → α × σ) : α × Session σ :=
  match s with
  | ⟨state, visited, maxDepth, log⟩ =>
    match f state with
    | (a, state) => (a, ⟨state, visited, maxDepth, log⟩)

def record (s : Session σ) (entry : LogEntry) : Session σ :=
  { s with log := s.log.push entry }

def arrive (s : Session σ) (depth : Nat) : Session σ :=
  { s with visited := s.visited + 1, maxDepth := max s.maxDepth depth }

def restart (s : Session σ) : Session σ :=
  { s with visited := 0, maxDepth := 0 }

end Session

inductive Fault (ε : Type) where
  | invalidRoot (root : Value)
  | raised (error : ε)
  | suspendedTwice (kind : String) (node : Value) (path : Path)
  | interruptIgnored
  | noKind (fault : Value.FieldFault)

namespace Fault

variable {ε : Type}

def diagnostic? : Fault ε → Option Diagnostic
  | .invalidRoot root => some (.invalidRoot root)
  | .suspendedTwice kind node path =>
    some (.violation s!"visitor yielded more than once for {kind}" node path)
  | .raised _ | .interruptIgnored | .noKind _ => none

variable [Described ε]

def name : Fault ε → String
  | .invalidRoot _ => "InvalidRootNode"
  | .raised e => Described.name e
  | .suspendedTwice _ _ _ => "VisitorProtocolViolation"
  | .interruptIgnored => "RuntimeError"
  | .noKind fault => fault.name

def text (f : Fault ε) : String :=
  match f with
  | .raised e => Described.text e
  | .interruptIgnored => "generator ignored GeneratorExit"
  | .noKind fault => fault.text
  | .invalidRoot _ | .suspendedTwice _ _ _ => (f.diagnostic?.map Diagnostic.text).getD ""

end Fault

end Arbor
