import Arbor.Diagnostic
import Arbor.Log

/-!
Visitors. A visitor handles a node in two phases around one point at which the children are
visited. What it hands over at that point replaces the context for the children only.

A visitor is either a pair of callbacks, one for each phase, or a procedure that is called for a
node. A procedure may be done when the call returns, or it may return a routine, which is resumed
to run the first phase, is suspended while the children are visited, and is resumed once more to
run the second phase. A suspended routine that is no longer needed is interrupted.

Visitors work on a state of type `σ`, with contexts of type `κ`, and fail with errors of type `ε`.
What a suspended routine needs to go on is a frame of type `φ`. A walk visits nodes; a single visit
can be made of anything that is taken for a node, of type `ν`.
-/

namespace Arbor

/-- What a visitor hands over for the children of a node. -/
inductive Override (κ : Type) where
  | bare
  | keep
  | replace (context : κ)

namespace Override

variable {κ : Type}

def apply (o : Override κ) (context : κ) : κ :=
  match o with
  | .bare | .keep => context
  | .replace new => new

def isReplace : Override κ → Bool
  | .replace _ => true
  | _ => false

def ofValue : Value → Override Value
  | .null => .bare
  | .keep => .keep
  | v => .replace v

end Override

class Visitable (ν : Type) where
  value : ν → Value

instance : Visitable Node where
  value := Node.value

instance : Visitable Value where
  value v := v

namespace Visitable

variable {ν : Type} [Visitable ν]

def kindValue (x : ν) : Except Value.FieldFault Value :=
  (value x).kindValue

def kindText (x : ν) : Except Value.FieldFault String :=
  match kindValue x with
  | .ok kind => .ok kind.text
  | .error fault => .error fault

@[simp]
theorem kindText_node (n : Node) : kindText n = .ok n.kind := by
  have h : kindValue n = .ok (.str n.kind) := n.kindValue_eq
  simp [kindText, h, Value.text]

end Visitable

structure Site (κ : Type) (ν : Type := Node) where
  node : ν
  context : κ
  path : Path

class Described (ε : Type) where
  name : ε → String
  text : ε → String

inductive Reaction (φ κ ε : Type) where
  | suspended (override : Override κ) (frame : φ)
  | finished
  | raised (error : ε)

structure Routine (σ φ κ ε : Type) where
  resume : φ → σ → Reaction φ κ ε × σ
  interrupt : φ → σ → Reaction φ κ ε × σ

inductive Visitor (σ φ κ ε : Type) (ν : Type := Node) where
  | callbacks (enter : Site κ ν → σ → Except ε (Override κ) × σ)
      (exit : Site κ ν → σ → Except ε Unit × σ)
  /-- The call returns the first frame of a routine, or nothing if it has done all its work. -/
  | procedure (call : Site κ ν → σ → Except ε (Option φ) × σ) (routine : Routine σ φ κ ε)

namespace Visitor

variable {σ φ κ ε : Type}

inductive Frame (κ β : Type) where
  | before (site : Site κ)
  | between (site : Site κ) (kept : β)

def twoPhaseRoutine {β : Type} (enter : Site κ → σ → Except ε (Override κ × β) × σ)
    (exit : Site κ → β → σ → Except ε Unit × σ) : Routine σ (Frame κ β) κ ε where
  resume
    | .before site, s =>
      match enter site s with
      | (.ok (override, kept), s) => (.suspended override (.between site kept), s)
      | (.error e, s) => (.raised e, s)
    | .between site kept, s =>
      match exit site kept s with
      | (.ok (), s) => (.finished, s)
      | (.error e, s) => (.raised e, s)
  interrupt _ s := (.finished, s)

def twoPhase {β : Type} (enter : Site κ → σ → Except ε (Override κ × β) × σ)
    (exit : Site κ → β → σ → Except ε Unit × σ) : Visitor σ (Frame κ β) κ ε :=
  .procedure (fun site s => (.ok (some (.before site)), s)) (twoPhaseRoutine enter exit)

structure Candidate (σ φ κ ε : Type) (ν : Type := Node) where
  typeName : String
  /-- Whether it is made to be a visitor, so that a phase it does not define does nothing. -/
  isVisitor : Bool
  enter? : Option (Site κ ν → σ → Except ε (Override κ) × σ)
  exit? : Option (Site κ ν → σ → Except ε Unit × σ)
  call? : Option ((Site κ ν → σ → Except ε (Option φ) × σ) × Routine σ φ κ ε)

structure Rejection where
  typeName : String
deriving DecidableEq, Repr

def Rejection.text (r : Rejection) : String :=
  s!"visitor must be a callable or define enter()/exit(), got {r.typeName}"

def Candidate.resolve {ν : Type} (c : Candidate σ φ κ ε ν) :
    Except Rejection (Visitor σ φ κ ε ν) :=
  if c.isVisitor then
    .ok (.callbacks (c.enter?.getD fun _ s => (.ok .bare, s)) (c.exit?.getD fun _ s => (.ok (), s)))
  else
    match c.enter?, c.exit?, c.call? with
    | some enter, some exit, _ => .ok (.callbacks enter exit)
    | _, _, some (call, routine) => .ok (.procedure call routine)
    | _, _, none => .error ⟨c.typeName⟩

end Visitor

end Arbor
