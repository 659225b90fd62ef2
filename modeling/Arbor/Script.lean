import Arbor.Value.Matching
import Arbor.Visitor.Basic

/-!
Scripted visitors: visitors given by data. A script is a list of rules; at each visit the first
rule that fits the site says what the visitor hands over and where it fails. A scripted visitor
notes every phase it runs; it fails where what it has to note cannot be told.

A rule may hand over a value that is made anew at each use, from a supply of type `ρ`.
-/

namespace Arbor

namespace Script

structure Failure where
  name : String
  text : String
deriving DecidableEq, Repr

instance : Described Failure where
  name := Failure.name
  text := Failure.text

namespace Failure

def endSignal : String := "StopIteration"

def interruptSignal : String := "GeneratorExit"

/-- A failure as it leaves a routine: a routine cannot raise the signal of its own end. -/
def leaving (f : Failure) : Failure :=
  if f.name = endSignal then ⟨"RuntimeError", s!"generator raised {endSignal}"⟩ else f

def ofField (fault : Value.FieldFault) : Failure :=
  ⟨fault.name, fault.text⟩

def ofPath (fault : Path.Fault) : Failure :=
  ⟨fault.name, fault.text⟩

end Failure

structure Condition where
  kind : Option Json := none
  /-- The field under which the node hangs; null stands for that of a root. -/
  key : Option Json := none
  /-- The node's place in that field; null stands for no place. -/
  index : Option Json := none
  depth : Option Json := none
  nth : Option Json := none

def Condition.fits (c : Condition) (kind : Value) (path : Path) (entered : Nat) : Bool :=
  let edge := path.lastEdge?
  let key := ((edge.map (·.key)).map Value.str).getD .null
  let index := ((edge.bind (·.index)).map Value.int).getD .null
  (c.kind.all (·.describes kind)) && (c.key.all (·.describes key)) &&
    (c.index.all (·.describes index)) && (c.depth.all (·.describes (.int path.length))) &&
    (c.nth.all (·.describes (.int entered)))

inductive Source (ρ : Type) where
  | nothing
  | made (make : ρ → Value × ρ)
  | kind
  | path
  | depth
  | push

inductive OnInterrupt where
  | leave
  | suspend
  | fail (failure : Failure)

structure Rule (ρ : Type) where
  condition : Condition := {}
  fail : Option Failure := none
  /-- End a routine without suspending it; what is made then is dropped. -/
  stop : Option (ρ → Value × ρ) := none
  source : Source ρ := .nothing
  failAtExit : Option Failure := none
  again : Option (ρ → Value × ρ) := none
  ignoresInterrupt : Bool := false
  onInterrupt : OnInterrupt := .leave

end Script

structure Script (ρ : Type) where
  rules : List (Script.Rule ρ)
  brief : Bool := false

namespace Script

inductive Phase where
  | enter
  | exit
  | close
  | closeAgain
deriving DecidableEq, Repr

def Phase.text : Phase → String
  | .enter => "enter"
  | .exit => "exit"
  | .close => "close"
  | .closeAgain => "close_again"

inductive Detail where
  | depth (n : Nat)
  | full (path : String) (context : Value)

structure Event where
  phase : Phase
  kind : Value
  detail : Detail

variable {ρ ν : Type} [Visitable ν]

def detail (script : Script ρ) (site : Site Value ν) : Except Failure Detail :=
  if script.brief then .ok (.depth site.path.length)
  else
    match site.path.render with
    | .ok path => .ok (.full path site.context)
    | .error fault => .error (.ofPath fault)

def event (script : Script ρ) (phase : Phase) (site : Site Value ν) : Except Failure Event :=
  match Visitable.kindValue site.node with
  | .error fault => .error (.ofField fault)
  | .ok kind =>
    match script.detail site with
    | .error failure => .error failure
    | .ok detail => .ok ⟨phase, kind, detail⟩

structure State (ρ : Type) where
  supply : ρ
  events : Array Event := #[]
  entered : Nat := 0

namespace State

def push (s : State ρ) (event : Event) : State ρ :=
  { s with events := s.events.push event }

def enter (s : State ρ) : State ρ :=
  { s with entered := s.entered + 1 }

def make (s : State ρ) (f : ρ → Value × ρ) : Value × State ρ :=
  match s with
  | ⟨supply, events, entered⟩ =>
    match f supply with
    | (value, supply) => (value, ⟨supply, events, entered⟩)

end State

def note (script : Script ρ) (phase : Phase) (site : Site Value ν) (s : State ρ) :
    Except Failure Event × State ρ :=
  match script.event phase site with
  | .ok event => (.ok event, s.push event)
  | .error failure => (.error failure, s)

def Source.value (source : Source ρ) (kind : Value) (site : Site Value ν) (s : State ρ) :
    Except Failure Value × State ρ :=
  match source with
  | .nothing => (.ok .null, s)
  | .made f =>
    match s.make f with
    | (value, s) => (.ok value, s)
  | .kind => (.ok kind, s)
  | .path =>
    match site.path.render with
    | .ok text => (.ok (.str text), s)
    | .error fault => (.error (.ofPath fault), s)
  | .depth => (.ok (.int site.path.length), s)
  | .push =>
    match site.context with
    | .list items => (.ok (.list (items ++ [kind])), s)
    | _ => (.ok (.list [kind]), s)

def choose (script : Script ρ) (kind : Value) (path : Path) (entered : Nat) : Rule ρ :=
  (script.rules.find? fun rule => rule.condition.fits kind path entered).getD {}

def begin (script : Script ρ) (site : Site Value ν) (s : State ρ) :
    Except Failure (Value × Rule ρ) × State ρ :=
  match script.note .enter site s with
  | (.error failure, s) => (.error failure, s)
  | (.ok event, s) =>
    let rule := script.choose event.kind site.path s.entered
    match rule.fail with
    | some failure => (.error failure, s.enter)
    | none => (.ok (event.kind, rule), s.enter)

def enter (script : Script ρ) (site : Site Value ν) (s : State ρ) :
    Except Failure (Override Value) × State ρ :=
  match script.begin site s with
  | (.error failure, s) => (.error failure, s)
  | (.ok (kind, rule), s) =>
    match rule.source.value kind site s with
    | (.error failure, s) => (.error failure, s)
    | (.ok value, s) => (.ok (.ofValue value), s)

def Rule.failsAtExit (rule : Rule ρ) (kind : Value) : Bool :=
  rule.failAtExit.isSome && (rule.condition.kind.getD .null).describes kind

/-- The second phase as a callback: the first rule for the node's kind that fails there decides. -/
def exit (script : Script ρ) (site : Site Value ν) (s : State ρ) :
    Except Failure Unit × State ρ :=
  match script.note .exit site s with
  | (.error failure, s) => (.error failure, s)
  | (.ok event, s) =>
    let rule? := script.rules.find? (·.failsAtExit event.kind)
    match rule?.bind (·.failAtExit) with
    | some failure => (.error failure, s)
    | none => (.ok (), s)

/-- A procedure that does its work when it is called; what it would hand over is dropped. -/
def call {φ : Type} (script : Script ρ) (site : Site Value ν) (s : State ρ) :
    Except Failure (Option φ) × State ρ :=
  match script.enter site s with
  | (.ok _, s) => (.ok none, s)
  | (.error failure, s) => (.error failure, s)

inductive Frame (ρ : Type) (ν : Type := Node) where
  | start (site : Site Value ν)
  | first (site : Site Value ν) (rule : Rule ρ)
  | second (site : Site Value ν) (rule : Rule ρ)
  | stubborn

def resume (script : Script ρ) (frame : Frame ρ ν) (s : State ρ) :
    Reaction (Frame ρ ν) Value Failure × State ρ :=
  match frame with
  | .start site =>
    match script.begin site s with
    | (.error failure, s) => (.raised failure.leaving, s)
    | (.ok (kind, rule), s) =>
      match rule.stop with
      | some f => (.finished, (s.make f).2)
      | none =>
        match rule.source.value kind site s with
        | (.error failure, s) => (.raised failure.leaving, s)
        | (.ok value, s) => (.suspended (.ofValue value) (.first site rule), s)
  | .first site rule =>
    match script.note .exit site s with
    | (.error failure, s) => (.raised failure.leaving, s)
    | (.ok _, s) =>
      match rule.failAtExit with
      | some failure => (.raised failure.leaving, s)
      | none =>
        match rule.again with
        | some f =>
          match s.make f with
          | (value, s) => (.suspended (.ofValue value) (.second site rule), s)
        | none => (.finished, s)
  | .second _ _ => (.finished, s)
  | .stubborn => (.raised ⟨Failure.interruptSignal, ""⟩, s)

def failInterrupted (failure : Failure) : Reaction (Frame ρ ν) Value Failure :=
  if failure.name = Failure.interruptSignal then .finished else .raised failure.leaving

def interrupt (script : Script ρ) (frame : Frame ρ ν) (s : State ρ) :
    Reaction (Frame ρ ν) Value Failure × State ρ :=
  match frame with
  | .start _ | .stubborn => (.finished, s)
  | .first site rule =>
    match script.note .close site s with
    | (.error failure, s) => (failInterrupted failure, s)
    | (.ok _, s) =>
      match rule.onInterrupt with
      | .leave => (.finished, s)
      | .suspend => (.suspended .bare .stubborn, s)
      | .fail failure => (failInterrupted failure, s)
  | .second site rule =>
    match script.note .closeAgain site s with
    | (.error failure, s) => (failInterrupted failure, s)
    | (.ok _, s) =>
      if rule.ignoresInterrupt then (.suspended .bare .stubborn, s) else (.finished, s)

def routine (script : Script ρ) : Routine (State ρ) (Frame ρ ν) Value Failure where
  resume := script.resume
  interrupt := script.interrupt

def startRoutine (site : Site Value ν) (s : State ρ) :
    Except Failure (Option (Frame ρ ν)) × State ρ :=
  (.ok (some (.start site)), s)

structure Phases where
  enter : Bool
  exit : Bool

inductive Style where
  | routine
  | procedure
  | visitor (phases : Phases)
  | object (phases : Phases)
  | callableObject (phases : Phases)
  | inert (typeName : String)

def objectTypeName : String := "Duck"

def candidate (script : Script ρ) (style : Style) :
    Visitor.Candidate (State ρ) (Frame ρ ν) Value Failure ν :=
  let enter? (defined : Bool) := if defined then some script.enter else none
  let exit? (defined : Bool) := if defined then some script.exit else none
  let starting := (startRoutine, script.routine)
  match style with
  | .routine => ⟨"function", false, none, none, some starting⟩
  | .procedure => ⟨"function", false, none, none, some (script.call, script.routine)⟩
  | .visitor p => ⟨"Visitor", true, enter? p.enter, exit? p.exit, none⟩
  | .object p => ⟨objectTypeName, false, enter? p.enter, exit? p.exit, none⟩
  | .callableObject p => ⟨objectTypeName, false, enter? p.enter, exit? p.exit, some starting⟩
  | .inert typeName => ⟨typeName, false, none, none, none⟩

end Script

end Arbor
