import Arbor.Visitor.Session

/-!
Visits. A visit is the work of a visitor at one node. Whatever the form of the visitor, it is
driven through the same three operations: `enter` runs the first phase, `exit` the second, and
`close` abandons a visit that is suspended.
-/

namespace Arbor

inductive Status where
  | pending
  | suspended
  | done
deriving DecidableEq, Repr

def Status.text : Status → String
  | .pending => "pending"
  | .suspended => "suspended"
  | .done => "done"

namespace Visit

inductive Body (σ φ κ ε : Type) (ν : Type := Node) where
  | callbacks (enter : Site κ ν → σ → Except ε (Override κ) × σ)
      (exit : Site κ ν → σ → Except ε Unit × σ)
  | routine (code : Routine σ φ κ ε) (frame : Option φ)
  | spent

end Visit

structure Visit (σ φ κ ε : Type) (ν : Type := Node) where
  site : Site κ ν
  status : Status
  body : Visit.Body σ φ κ ε ν

namespace Visit

variable {σ φ κ ε ν : Type}

def withStatus (visit : Visit σ φ κ ε ν) (status : Status) : Visit σ φ κ ε ν :=
  { visit with status := status }

def withBody (visit : Visit σ φ κ ε ν) (body : Body σ φ κ ε ν) : Visit σ φ κ ε ν :=
  { visit with body := body }

def start (v : Visitor σ φ κ ε ν) (site : Site κ ν) (s : Session σ) :
    Except (Fault ε) (Visit σ φ κ ε ν) × Session σ :=
  match v with
  | .callbacks enter exit => (.ok ⟨site, .pending, .callbacks enter exit⟩, s)
  | .procedure call code =>
    match s.update (call site) with
    | (.ok (some frame), s) => (.ok ⟨site, .pending, .routine code (some frame)⟩, s)
    | (.ok none, s) => (.ok ⟨site, .pending, .spent⟩, s)
    | (.error e, s) => (.error (.raised e), s)

variable [Visitable ν]

def finishEarly (visit : Visit σ φ κ ε ν) (code : Routine σ φ κ ε) (s : Session σ) :
    Except (Fault ε) (Override κ) × Visit σ φ κ ε ν × Session σ :=
  let visit := (visit.withStatus .done).withBody (.routine code none)
  match Visitable.kindText visit.site.node with
  | .ok kind => (.ok .keep, visit, s.record (.neverSuspended kind))
  | .error fault => (.error (.noKind fault), visit, s)

theorem finishEarly_node (visit : Visit σ φ κ ε) (code : Routine σ φ κ ε) (s : Session σ) :
    visit.finishEarly code s =
      (.ok .keep, (visit.withStatus .done).withBody (.routine code none),
        s.record (.neverSuspended visit.site.node.kind)) := by
  simp [finishEarly, withStatus, withBody]

def enter (visit : Visit σ φ κ ε ν) (s : Session σ) :
    Except (Fault ε) (Override κ) × Visit σ φ κ ε ν × Session σ :=
  match visit.body with
  | .spent => (.ok .keep, visit.withStatus .done, s)
  | .callbacks run _ =>
    match s.update (run visit.site) with
    | (.ok override, s) => (.ok override, visit.withStatus .suspended, s)
    | (.error e, s) => (.error (.raised e), visit, s)
  | .routine code none => visit.finishEarly code s
  | .routine code (some frame) =>
    match s.update (code.resume frame) with
    | (.suspended override frame, s) =>
      (.ok override, (visit.withStatus .suspended).withBody (.routine code (some frame)), s)
    | (.finished, s) => visit.finishEarly code s
    | (.raised e, s) => (.error (.raised e), visit.withBody (.routine code none), s)

def interrupt (code : Routine σ φ κ ε) (frame : φ) (s : Session σ) :
    Except (Fault ε) Unit × Option φ × Session σ :=
  match s.update (code.interrupt frame) with
  | (.finished, s) => (.ok (), none, s)
  | (.raised e, s) => (.error (.raised e), none, s)
  | (.suspended _ frame, s) => (.error .interruptIgnored, some frame, s)

def secondSuspension (visit : Visit σ φ κ ε ν) : Fault ε :=
  match Visitable.kindText visit.site.node with
  | .ok kind => .suspendedTwice kind (Visitable.value visit.site.node) visit.site.path
  | .error fault => .noKind fault

theorem secondSuspension_node (visit : Visit σ φ κ ε) :
    visit.secondSuspension =
      .suspendedTwice visit.site.node.kind visit.site.node.value visit.site.path := by
  simp [secondSuspension, Visitable.value]

/--
Run the second phase of a suspended visit, which is done from then on. A routine that is
suspended again is interrupted and reported, unless the interruption fails itself.
-/
def exit (visit : Visit σ φ κ ε ν) (s : Session σ) :
    Except (Fault ε) Unit × Visit σ φ κ ε ν × Session σ :=
  if visit.status = .suspended then
    let visit := visit.withStatus .done
    match visit.body with
    | .spent | .routine _ none => (.ok (), visit, s)
    | .callbacks _ run =>
      match s.update (run visit.site) with
      | (.ok (), s) => (.ok (), visit, s)
      | (.error e, s) => (.error (.raised e), visit, s)
    | .routine code (some frame) =>
      match s.update (code.resume frame) with
      | (.finished, s) => (.ok (), visit.withBody (.routine code none), s)
      | (.raised e, s) => (.error (.raised e), visit.withBody (.routine code none), s)
      | (.suspended _ frame, s) =>
        match interrupt code frame s with
        | (.ok (), frame, s) =>
          (.error visit.secondSuspension, visit.withBody (.routine code frame), s)
        | (.error fault, frame, s) => (.error fault, visit.withBody (.routine code frame), s)
  else (.ok (), visit, s)

/-- Abandon a visit. If the interruption of a suspended routine fails, the visit stays suspended. -/
def close (visit : Visit σ φ κ ε ν) (s : Session σ) :
    Except (Fault ε) Unit × Visit σ φ κ ε ν × Session σ :=
  match visit.status, visit.body with
  | .suspended, .routine code (some frame) =>
    match interrupt code frame s with
    | (.ok (), frame, s) => (.ok (), (visit.withStatus .done).withBody (.routine code frame), s)
    | (.error fault, frame, s) => (.error fault, visit.withBody (.routine code frame), s)
  | _, _ => (.ok (), visit.withStatus .done, s)

/-- Let go of a visit for good: a routine that has a frame left is interrupted, come what may. -/
def release (visit : Visit σ φ κ ε ν) (s : Session σ) : Session σ :=
  match visit.body with
  | .routine code (some frame) => (interrupt code frame s).2.2
  | _ => s

end Visit

structure Unimplemented where
  typeName : String
  operation : String
deriving DecidableEq, Repr

def Unimplemented.text (u : Unimplemented) : String :=
  s!"{u.typeName} must implement {u.operation}()"

namespace Visit

structure Bare where
  typeName : String
  status : Status

namespace Bare

def enter (b : Bare) : Except Unimplemented (Override Value) :=
  .error ⟨b.typeName, "enter"⟩

def exit (b : Bare) : Except Unimplemented Unit :=
  .error ⟨b.typeName, "exit"⟩

def close (b : Bare) : Bare :=
  { b with status := .done }

end Bare

end Visit

end Arbor
